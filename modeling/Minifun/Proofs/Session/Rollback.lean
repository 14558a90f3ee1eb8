import Minifun.Proofs.Typing.Supply
import Minifun.Session

/-! # What failures leave behind

An input that fails leaves nothing behind but variables drawn from the supply, and so does a request
for a type. Neither can be seen from any later answer of the session: the answers are those of a
session that never got such a request.
-/

namespace Minifun

inductive Request where
  | execute (source : String)
  | typeOf (source : String)

/-- What a session answers. An execution also reports the answers of the statements it evaluated. -/
inductive Answer where
  | execute (outcome : Except Failure (List (Value × Ty))) (evaluated : List Value)
  | typeOf (outcome : Except Failure Ty)

/-- Whether an answer is that of an execution without a failure, which the session keeps. -/
def Answer.committed : Answer → Bool
  | .execute (.ok _) _ => true
  | .execute (.error _) _ => false
  | .typeOf _ => false

structure View where
  definitions : List (String × Ty)
  names : List String
  history : List String

structure Exchange where
  request : Request
  answer : Answer
  view : View

namespace Session

def view (s : Session) : View :=
  ⟨s.definitions, s.names, s.history⟩

def answer (s : Session) : Request → Answer × Session
  | .execute source =>
    let executed := s.execute source
    (.execute executed.outcome executed.evaluated, executed.session)
  | .typeOf source =>
    let typed := s.typeOf source
    (.typeOf typed.1, typed.2)

def after (s : Session) : List Request → Session
  | [] => s
  | r :: rs => (s.answer r).2.after rs

def exchanges (s : Session) : List Request → List Exchange
  | [] => []
  | r :: rs =>
    let (answer, next) := s.answer r
    ⟨r, answer, next.view⟩ :: next.exchanges rs

def committed (s : Session) (rs : List Request) : List Exchange :=
  (s.exchanges rs).filter fun e => e.answer.committed

theorem answer_execute (s : Session) (source : String) :
    s.answer (.execute source) =
      (.execute (s.execute source).outcome (s.execute source).evaluated,
        (s.execute source).session) := rfl

theorem answer_typeOf (s : Session) (source : String) :
    s.answer (.typeOf source) = (.typeOf (s.typeOf source).1, (s.typeOf source).2) := rfl

/-- Two sessions differ in the numbers of variables only. -/
structure Like (s s' : Session) : Prop where
  checker : Checker.Mirrors s.next s'.next s.checker s'.checker
  frame : s'.frame = s.frame
  history : s'.history = s.history
  depth : s'.depth = s.depth
  tracing : s'.tracing = s.tracing

variable {s s' : Session}

theorem Like.view (h : Like s s') : s'.view = s.view := by
  simp only [Session.view, definitions, names, h.checker.globals, h.frame, h.history]

theorem Like.mono {n : Nat} (h : Like s s') (hle : s'.next ≤ n) :
    Like s { s' with next := n } :=
  ⟨h.checker.mono hle, h.frame, h.history, h.depth, h.tracing⟩

/-- A request whose answer is not kept only draws from the supply. -/
theorem answer_uncommitted {r : Request} (h : (s.answer r).1.committed = false) :
    ∃ n, s.next ≤ n ∧ (s.answer r).2 = { s with next := n } := by
  cases r with
  | execute source =>
    rw [answer_execute] at h ⊢
    cases hp : Program.parse (terminated source) none with
    | error e => exact ⟨s.next, Nat.le_refl _, by rw [execute_of_unread hp]⟩
    | ok p =>
      have hle := s.checker.next_le_checkEach ⟨s.next, {}⟩ p.statements
      generalize hc : s.checker.checkEach ⟨s.next, {}⟩ p.statements = checked at hle
      obtain ⟨e | types, checker, shared⟩ := checked
      · exact ⟨shared.next, hle, by rw [execute_of_illTyped hp hc]⟩
      · cases hs : (s.evaluate p.statements).stop with
        | some stop => exact ⟨shared.next, hle, by rw [execute_of_stopped hp hc hs]⟩
        | none =>
          rw [execute_of_ok hp hc hs] at h
          simp [Answer.committed] at h
  | typeOf source =>
    rw [answer_typeOf]
    unfold Session.typeOf
    cases hp : Program.parse (terminated source) none with
    | error e => exact ⟨s.next, Nat.le_refl _, rfl⟩
    | ok p =>
      refine ⟨_, s.checker.next_le_check ⟨s.next, {}⟩ p.statements, ?_⟩
      cases hc : (s.checker.check ⟨s.next, {}⟩ p.statements).outcome <;> simp only [hc]

/-- What drawing from the supply and executions without a failure keep of a session. -/
structure Invariant (P : Session → Prop) : Prop where
  supply : ∀ {s : Session} {n : Nat}, P s → s.next ≤ n → P { s with next := n }
  execute : ∀ {s : Session} {source : String} {pairs : List (Value × Ty)}, P s →
    (s.execute source).outcome = .ok pairs → P (s.execute source).session

theorem Invariant.answer {P : Session → Prop} (hP : Invariant P) (h : P s) (r : Request) :
    P (s.answer r).2 := by
  cases hr : (s.answer r).1.committed with
  | false =>
    obtain ⟨n, hle, hn⟩ := answer_uncommitted hr
    rw [hn]
    exact hP.supply h hle
  | true =>
    cases r with
    | typeOf source => simp [answer_typeOf, Answer.committed] at hr
    | execute source =>
      rw [answer_execute] at hr ⊢
      dsimp only at hr ⊢
      cases hout : (s.execute source).outcome with
      | error e => simp [hout, Answer.committed] at hr
      | ok pairs => exact hP.execute h hout

theorem Invariant.after {P : Session → Prop} (hP : Invariant P) (h : P s) (rs : List Request) :
    P (s.after rs) := by
  induction rs generalizing s with
  | nil => exact h
  | cons r rs ih => exact ih (hP.answer h r)

/-- Executions in sessions that differ in numbers only have the same answers. If they are kept, then
the sessions still differ in numbers only. -/
theorem Like.execute (h : Like s s') (source : String) :
    (s'.execute source).outcome = (s.execute source).outcome ∧
      (s'.execute source).evaluated = (s.execute source).evaluated ∧
      ∀ pairs, (s.execute source).outcome = .ok pairs →
        Like (s.execute source).session (s'.execute source).session := by
  cases hp : Program.parse (terminated source) none with
  | error e =>
    rw [execute_of_unread hp, execute_of_unread hp]
    exact ⟨rfl, rfl, fun _ hok => by cases hok⟩
  | ok p =>
    obtain ⟨hout, hm⟩ := h.checker.checkEach ⟨s.next, {}⟩ ⟨s'.next, {}⟩ p.statements
    have heval : s'.evaluate p.statements = s.evaluate p.statements := by
      rw [evaluate, evaluate, h.tracing, h.depth, h.frame]
    generalize hc : s.checker.checkEach ⟨s.next, {}⟩ p.statements = checked,
      hc' : s'.checker.checkEach ⟨s'.next, {}⟩ p.statements = checked' at hout hm
    obtain ⟨_, checker', shared'⟩ := checked'
    obtain rfl := hout
    obtain ⟨e | types, checker, shared⟩ := checked
    · rw [execute_of_illTyped hp hc, execute_of_illTyped hp hc']
      exact ⟨rfl, rfl, fun _ hok => by cases hok⟩
    · cases hs : (s.evaluate p.statements).stop with
      | some stop =>
        rw [execute_of_stopped hp hc hs, execute_of_stopped hp hc' (heval ▸ hs), heval]
        exact ⟨rfl, rfl, fun _ hok => by cases hok⟩
      | none =>
        rw [execute_of_ok hp hc hs, execute_of_ok hp hc' (heval ▸ hs), heval]
        exact ⟨rfl, rfl, fun _ _ => ⟨hm, rfl, by rw [h.history], h.depth, h.tracing⟩⟩

theorem Like.typeOf (h : Like s s') (source : String) :
    (s'.typeOf source).1 = (s.typeOf source).1 := by
  unfold Session.typeOf
  cases hp : Program.parse (terminated source) none with
  | error e => rfl
  | ok p =>
    have hout := (h.checker.check ⟨s.next, {}⟩ ⟨s'.next, {}⟩ p.statements).1
    simp only [hout]
    cases (s.checker.check ⟨s.next, {}⟩ p.statements).outcome <;> rfl

theorem Like.answer (h : Like s s') (r : Request) : (s'.answer r).1 = (s.answer r).1 := by
  cases r with
  | execute source =>
    obtain ⟨hout, heval, _⟩ := h.execute source
    rw [answer_execute, answer_execute, hout, heval]
  | typeOf source => rw [answer_typeOf, answer_typeOf, h.typeOf]

theorem Like.commit (h : Like s s') {r : Request} (hr : (s.answer r).1.committed = true) :
    Like (s.answer r).2 (s'.answer r).2 := by
  cases r with
  | execute source =>
    obtain ⟨_, _, hlike⟩ := h.execute source
    simp only [answer_execute] at hr ⊢
    cases hout : (s.execute source).outcome with
    | ok pairs => exact hlike pairs hout
    | error _ => simp [hout, Answer.committed] at hr
  | typeOf source => simp [answer_typeOf, Answer.committed] at hr

theorem Like.skip (h : Like s s') {r : Request} (hr : (s'.answer r).1.committed = false) :
    Like s (s'.answer r).2 := by
  obtain ⟨n, hle, hn⟩ := answer_uncommitted hr
  rw [hn]
  exact h.mono hle

theorem exchanges_cons (s : Session) (r : Request) (rs : List Request) :
    s.exchanges (r :: rs) =
      ⟨r, (s.answer r).1, (s.answer r).2.view⟩ :: (s.answer r).2.exchanges rs := rfl

theorem committed_cons (s : Session) (r : Request) (rs : List Request) :
    s.committed (r :: rs) =
      if (s.answer r).1.committed then
        ⟨r, (s.answer r).1, (s.answer r).2.view⟩ :: (s.answer r).2.committed rs
      else (s.answer r).2.committed rs := by
  rw [committed, exchanges_cons, List.filter_cons]
  rfl

/-- A session that gets only the requests that another one keeps has the same exchanges with them,
and stays like the other one. -/
theorem Like.committed (h : Like s s') (rs : List Request) :
    s.exchanges ((s'.committed rs).map (·.request)) = s'.committed rs ∧
      Like (s.after ((s'.committed rs).map (·.request))) (s'.after rs) := by
  induction rs generalizing s s' with
  | nil => exact ⟨rfl, h⟩
  | cons r rs ih =>
    rw [committed_cons]
    cases hr : (s'.answer r).1.committed with
    | false => exact ih (h.skip hr)
    | true =>
      have hlike : Like (s.answer r).2 (s'.answer r).2 := h.commit (h.answer r ▸ hr)
      obtain ⟨hex, hafter⟩ := ih hlike
      refine ⟨?_, hafter⟩
      rw [if_pos rfl, List.map_cons, exchanges_cons, hex, h.answer r, hlike.view]

theorem like_fresh (tracing : Bool) (depth : Nat) :
    Like { tracing := tracing, depth := depth } { tracing := tracing, depth := depth } :=
  ⟨Checker.Below.empty.mirrors, rfl, rfl, rfl, rfl⟩

/-- Without the requests for types and the executions that failed, a session has the same exchanges
with all other requests, and whatever it is asked afterwards, it gives the same answer, also if that
is a failure. -/
theorem exchanges_committed (tracing : Bool) (depth : Nat) (rs : List Request) :
    let s : Session := { tracing := tracing, depth := depth }
    let kept := s.committed rs
    s.exchanges (kept.map (·.request)) = kept ∧
      ∀ r, ((s.after rs).answer r).1 = ((s.after (kept.map (·.request))).answer r).1 := by
  obtain ⟨hex, hafter⟩ := (like_fresh tracing depth).committed rs
  exact ⟨hex, hafter.answer⟩

end Session

end Minifun
