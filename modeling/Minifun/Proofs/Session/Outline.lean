import Minifun.Proofs.Eval.Places
import Minifun.Proofs.Program.Front
import Minifun.Proofs.Typing.Supply
import Minifun.Session

/-! # Statements one by one

An input of a session is checked and then evaluated as a whole, and so is a program. Both can be
told from what each of the statements does by itself, when it is checked and evaluated right after
the one before it, and places are left out.
-/

namespace Minifun

abbrev Value.bare (v : Value) : Value :=
  v.relocate fun _ => none

structure Outline where
  checker : Checker := {}
  next : Nat := 0
  frame : Frame Value := []

namespace Outline

/-- The answer of an evaluation and the frame it leaves, unless it fails. -/
def answered : EStateM.Result Stop (Frame Value) Value → Option (Value × Frame Value)
  | .ok v f => some (v, f)
  | .error _ _ => none

def statement (depth : Nat) (o : Outline) (e : Expr) : Option ((Value × Ty) × Outline) :=
  let checked := o.checker.check ⟨o.next, {}⟩ [e]
  checked.outcome.toOption.bind fun t =>
    (answered (e.evalStatement depth o.frame)).map fun r =>
      ((r.1, t), ⟨checked.checker, checked.shared.next, r.2⟩)

def statements (depth : Nat) (o : Outline) : List Expr → Option (List (Value × Ty) × Outline)
  | [] => some ([], o)
  | e :: es =>
    (o.statement depth e).bind fun first =>
      (first.2.statements depth es).map fun rest => (first.1 :: rest.1, rest.2)

def definitions (o : Outline) : List (String × Ty) :=
  Text.sortBy (fun a b => Text.nameLe a.1 b.1) o.checker.globals

def names (o : Outline) : List String :=
  o.frame.names

theorem statements_append (depth : Nat) (o : Outline) (es es' : List Expr) :
    o.statements depth (es ++ es') =
      (o.statements depth es).bind fun r =>
        (r.2.statements depth es').map fun r' => (r.1 ++ r'.1, r'.2) := by
  induction es generalizing o with
  | nil => simp [statements]
  | cons e es ih =>
    simp only [List.cons_append, statements, Option.bind_assoc]
    refine Option.bind_congr fun first _ => ?_
    rw [ih]
    cases first.2.statements depth es with
    | none => rfl
    | some rest => simp [Function.comp_def]

theorem length_statements {depth : Nat} {o o' : Outline} {es : List Expr}
    {pairs : List (Value × Ty)} (h : o.statements depth es = some (pairs, o')) :
    pairs.length = es.length := by
  induction es generalizing o pairs with
  | nil =>
    obtain ⟨rfl, -⟩ := Prod.mk.inj (Option.some.inj h)
    rfl
  | cons e es ih =>
    obtain ⟨first, -, h⟩ := Option.bind_eq_some_iff.mp h
    obtain ⟨rest, hrest, h⟩ := Option.map_eq_some_iff.mp h
    obtain ⟨rfl, rfl⟩ := Prod.mk.inj h
    rw [List.length_cons, List.length_cons, ih hrest]

end Outline

namespace Checker

open Infer

variable {g : Option Loc → Option Loc} {c : Checker} {shared shared' : Shared}

/-- Places moved, and nothing else. -/
def unnamed (g : Option Loc → Option Loc) (limit : Nat) : Relabelling where
  number := id
  injective := Function.injective_id
  limit := limit
  place := g

theorem renamed_unnamed_iff {limit : Nat} {st st' : InferState} :
    Renamed (unnamed g limit) st st' ↔
      st'.frame = st.frame ∧ st'.subst = st.subst ∧ st'.next = st.next := by
  constructor
  · intro h
    exact ⟨h.frame.trans (Frame.rename_id _), h.subst.trans (Subst.rename_id _), h.next⟩
  · rintro ⟨hf, hs, hn⟩
    exact ⟨fun i _ _ => (Int.add_zero i).symm, hf.trans (Frame.rename_id _).symm,
      hs.trans (Subst.rename_id _).symm, hn⟩

theorem alongside_relocate (g : Option Loc → Option Loc) (c : Checker)
    (hnext : shared'.next = shared.next) (ss : List Expr) :
    Alongside (unnamed g (c.left shared ss).next) (Named (unnamed g (c.left shared ss).next))
      (Term.inferStatements [] .nothing ss (c.start shared))
      (Term.inferStatements [] .nothing (Term.relocateAll g ss) (c.start shared')) := by
  have hin := instep_statements (χ := unnamed g (c.left shared ss).next)
    (follows_all ss) [] .nothing
  exact hin.along _ _ (renamed_unnamed_iff.mpr ⟨rfl, rfl, hnext⟩) (Nat.le_refl _)

/-- A check depends neither on places nor on the trace, but for the place of an error. -/
theorem check_relocate (g : Option Loc → Option Loc) (c : Checker)
    (hnext : shared'.next = shared.next) (ss : List Expr) :
    (c.check shared' (Term.relocateAll g ss)).outcome.toOption =
        (c.check shared ss).outcome.toOption ∧
      (c.check shared' (Term.relocateAll g ss)).checker = (c.check shared ss).checker ∧
      (c.check shared' (Term.relocateAll g ss)).shared.next = (c.check shared ss).shared.next := by
  have ha := c.alongside_relocate g hnext ss
  unfold check
  generalize Term.inferStatements [] .nothing ss (c.start shared) = x,
    Term.inferStatements [] .nothing (Term.relocateAll g ss) (c.start shared') = y at ha
  cases ha with
  | @ok t t' st st' ht hr =>
    obtain ⟨hf, hs, hn⟩ := renamed_unnamed_iff.mp hr
    obtain rfl : t' = t := ht.trans t.rename_id
    simp [after, hf, hs, hn]
  | error hr =>
    obtain ⟨hf, hs, hn⟩ := renamed_unnamed_iff.mp hr
    simp [after, hf, hs, hn, Except.toOption]

theorem start_after (st : InferState) : (after st).1.start (after st).2 = st := rfl

theorem check_of_error {ss : List Expr} {e : TypeError} {st : InferState}
    (h : Term.inferStatements [] .nothing ss (c.start shared) = .error e st) :
    c.check shared ss = ⟨.error e, (after st).1, (after st).2⟩ := by
  simp only [check, h]

theorem check_of_ok {ss : List Expr} {t : Ty} {st : InferState}
    (h : Term.inferStatements [] .nothing ss (c.start shared) = .ok t st) :
    c.check shared ss = ⟨.ok (st.subst.externalize t), (after st).1, (after st).2⟩ := by
  simp only [check, h]

theorem inferStatements_single (s : Expr) :
    Term.inferStatements [] .nothing [s] = s.infer [] := by
  simp [Term.inferStatements]

theorem inferStatements_of_checkEach (c : Checker) (shared : Shared) (last : Ty) (ss : List Expr) :
    (∀ e c' shared', c.checkEach shared ss = (.error e, c', shared') →
      Term.inferStatements [] last ss (c.start shared) = .error e (c'.start shared')) ∧
    ∀ types c' shared', c.checkEach shared ss = (.ok types, c', shared') →
      ∃ t, Term.inferStatements [] last ss (c.start shared) = .ok t (c'.start shared') ∧
        c'.subst.externalize t = types.getLastD (c.subst.externalize last) := by
  induction ss generalizing c shared last with
  | nil =>
    constructor
    · intro e c' shared' h
      simp [checkEach] at h
    · intro types c' shared' h
      simp only [checkEach, Prod.mk.injEq, Except.ok.injEq] at h
      obtain ⟨rfl, rfl, rfl⟩ := h
      exact ⟨last, rfl, rfl⟩
  | cons s ss ih =>
    have hfirst : Term.inferStatements [] .nothing [s] (c.start shared) =
        s.infer [] (c.start shared) := by rw [inferStatements_single]
    rw [Term.inferStatements]
    cases hs : s.infer [] (c.start shared) with
    | error e st =>
      have hcheck := check_of_error (hfirst.trans hs)
      rw [bind_of_error hs, checkEach_cons_of_error (by rw [hcheck])]
      constructor
      · intro e' c' shared' h
        simp only [Prod.mk.injEq, Except.error.injEq, hcheck] at h
        obtain ⟨rfl, rfl, rfl⟩ := h
        rw [start_after]
      · intro types c' shared' h
        simp at h
    | ok t st =>
      -- The next check starts where inference would have gone on.
      have hcheck := check_of_ok (hfirst.trans hs)
      obtain ⟨herror, hok⟩ := ih (after st).1 (after st).2 t
      rw [start_after] at herror hok
      rw [bind_of_ok hs, checkEach_cons_of_ok (by rw [hcheck]), hcheck]
      generalize (after st).1.checkEach (after st).2 ss = rest at herror hok
      obtain ⟨e | types, c₁, shared₁⟩ := rest
      · refine ⟨fun e' c' shared' h => ?_, fun types c' shared' h => ?_⟩
        · simp only [Except.map, Prod.mk.injEq] at h
          exact herror e' c' shared' (by simp [h])
        · simp [Except.map] at h
      · refine ⟨fun e' c' shared' h => ?_, fun types' c' shared' h => ?_⟩
        · simp [Except.map] at h
        · obtain ⟨u, hu, hext⟩ := hok types c₁ shared₁ rfl
          simp only [Except.map, Prod.mk.injEq, Except.ok.injEq] at h
          obtain ⟨rfl, rfl, rfl⟩ := h
          exact ⟨u, hu, hext.trans (List.getLastD_cons ..).symm⟩

theorem check_outcome (c : Checker) (shared : Shared) (ss : List Expr) :
    (c.check shared ss).outcome =
      (c.checkEach shared ss).1.map (·.getLastD (c.subst.externalize .nothing)) := by
  obtain ⟨herror, hok⟩ := inferStatements_of_checkEach c shared .nothing ss
  generalize c.checkEach shared ss = each at herror hok
  obtain ⟨e | types, c', shared'⟩ := each
  · rw [check_of_error (herror e c' shared' rfl)]
    rfl
  · obtain ⟨t, ht, hext⟩ := hok types c' shared' rfl
    rw [check_of_ok ht]
    exact congrArg Except.ok hext

theorem length_checkEach {ss : List Expr} {types : List Ty}
    (h : (c.checkEach shared ss).1 = .ok types) : types.length = ss.length := by
  induction ss generalizing c shared types with
  | nil =>
    obtain rfl := Except.ok.inj h
    rfl
  | cons s ss ih =>
    cases hc : (c.check shared [s]).outcome with
    | error e => simp [checkEach_cons_of_error hc] at h
    | ok t =>
      rw [checkEach_cons_of_ok hc] at h
      cases hrest : ((c.check shared [s]).checker.checkEach (c.check shared [s]).shared ss).1 with
      | error e => simp [hrest, Except.map] at h
      | ok rest =>
        simp only [hrest, Except.map, Except.ok.injEq] at h
        rw [← h, List.length_cons, List.length_cons, ih hrest]

end Checker

namespace Program

variable {depth : Nat} {s : Expr} {f f' : Frame Value}

theorem length_evalAll {ss : List Expr} (h : (evalAll depth ss f).stop = none) :
    (evalAll depth ss f).answers.length = ss.length := by
  induction ss generalizing f with
  | nil => rfl
  | cons s ss ih =>
    cases he : s.evalStatement depth f with
    | error stop f' => simp [evalAll_cons_of_error he] at h
    | ok v f' =>
      rw [evalAll_cons_of_ok he] at h ⊢
      rw [List.length_cons, List.length_cons, ih h]

end Program

namespace Outline

variable {depth : Nat} {c c' : Checker} {shared shared' : Shared} {f f' : Frame Value} {s : Expr}
  {ss : List Expr} {pairs : List (Value × Ty)} {o : Outline}

def of (c : Checker) (shared : Shared) (f : Frame Value) : Outline :=
  ⟨c, shared.next, Frame.relocate (fun _ => none) f⟩

theorem answered_bare (depth : Nat) (s : Expr) (f : Frame Value) :
    answered (s.bare.evalStatement depth (Frame.relocate (fun _ => none) f)) =
      (answered (s.evalStatement depth f)).map fun r =>
        (r.1.bare, Frame.relocate (fun _ => none) r.2) := by
  have h := evalStatement_relocate (g := fun _ => none) depth s f
  generalize s.evalStatement depth f = r,
    s.bare.evalStatement depth (Frame.relocate (fun _ => none) f) = r' at h
  cases h with
  | ok hv => simp [answered, hv]
  | error => rfl

theorem statement_bare (depth : Nat) (c : Checker) (shared : Shared) (f : Frame Value) (s : Expr) :
    (of c shared f).statement depth s.bare =
      (c.check shared [s]).outcome.toOption.bind fun t =>
        (answered (s.evalStatement depth f)).map fun r =>
          ((r.1.bare, t), of (c.check shared [s]).checker (c.check shared [s]).shared r.2) := by
  have hnext : (⟨shared.next, {}⟩ : Shared).next = shared.next := rfl
  obtain ⟨hout, hchecker, hnext⟩ := c.check_relocate (fun _ => none) hnext [s]
  simp only [Term.relocateAll] at hout hchecker hnext
  simp only [statement, of, hout, hchecker, hnext, answered_bare, Option.map_map]
  rfl

/-- Statements one after the other do what they do when all of them are checked before any of them
is evaluated. -/
theorem statements_bare (depth : Nat) (c : Checker) (shared : Shared) (f : Frame Value)
    (ss : List Expr) :
    (of c shared f).statements depth (ss.map Term.bare) =
      let checked := c.checkEach shared ss
      let result := Program.evalAll depth ss f
      checked.1.toOption.bind fun types =>
        if result.stop.isNone then
          some ((result.answers.map Value.bare).zip types, of checked.2.1 checked.2.2 result.frame)
        else none := by
  induction ss generalizing c shared f with
  | nil => rfl
  | cons s ss ih =>
    rw [List.map_cons, statements, statement_bare]
    cases hc : (c.check shared [s]).outcome with
    | error e =>
      rw [Checker.checkEach_cons_of_error hc]
      rfl
    | ok t =>
      rw [Checker.checkEach_cons_of_ok hc]
      cases he : s.evalStatement depth f with
      | error stop f' =>
        rw [Program.evalAll_cons_of_error he]
        simp [answered]
      | ok v f' =>
        rw [Program.evalAll_cons_of_ok he]
        simp only [answered, Except.toOption, Option.bind_some, Option.map_some, ih]
        generalize (c.check shared [s]).checker.checkEach (c.check shared [s]).shared ss = checked
        cases checked.1 with
        | error e => rfl
        | ok types =>
          by_cases hstop : (Program.evalAll depth ss f').stop.isNone <;> simp [hstop, Except.map]

end Outline

abbrev bareAnswer (pair : Value × Ty) : Value × Ty :=
  (pair.1.bare, pair.2)

theorem map_bareAnswer_zip (vs : List Value) (ts : List Ty) :
    (vs.zip ts).map bareAnswer = (vs.map Value.bare).zip ts := by
  rw [List.zip_map_left]
  rfl

namespace Session

variable {s : Session} {source : String} {p : Program}

def outline (s : Session) : Outline :=
  .of s.checker ⟨s.next, {}⟩ s.frame

theorem definitions_outline (s : Session) : s.outline.definitions = s.definitions := rfl

theorem names_outline (s : Session) : s.outline.names = s.names :=
  Frame.names_relocate s.frame

theorem execute_outline (hquiet : s.tracing = false)
    (hp : Program.parse (terminated source) none = .ok p) :
    ((s.execute source).outcome.toOption.map fun pairs =>
      (pairs.map bareAnswer, (s.execute source).session.outline)) =
      s.outline.statements s.depth (p.statements.map Term.bare) := by
  refine Eq.trans ?_ (Outline.statements_bare s.depth s.checker ⟨s.next, {}⟩ s.frame _).symm
  rw [← evaluate_eq_evalAll hquiet]
  generalize hc : s.checker.checkEach ⟨s.next, {}⟩ p.statements = checked
  obtain ⟨e | types, checker, shared⟩ := checked
  · rw [execute_of_illTyped hp hc]
    rfl
  · cases hs : (s.evaluate p.statements).stop with
    | some stop =>
      rw [execute_of_stopped hp hc hs]
      simp [Except.toOption, hs]
    | none =>
      rw [execute_of_ok hp hc hs]
      simp only [Except.toOption, Option.map_some, Option.bind_some, map_bareAnswer_zip, hs,
        Option.isNone_none, if_true]
      rfl

theorem settings_execute (s : Session) (source : String) :
    (s.execute source).session.tracing = s.tracing ∧
      (s.execute source).session.depth = s.depth := by
  cases hp : Program.parse (terminated source) none with
  | error e =>
    rw [execute_of_unread hp]
    exact ⟨rfl, rfl⟩
  | ok p =>
    generalize hc : s.checker.checkEach ⟨s.next, {}⟩ p.statements = checked
    obtain ⟨e | types, checker, shared⟩ := checked
    · rw [execute_of_illTyped hp hc]
      exact ⟨rfl, rfl⟩
    · cases hs : (s.evaluate p.statements).stop with
      | some stop =>
        rw [execute_of_stopped hp hc hs]
        exact ⟨rfl, rfl⟩
      | none =>
        rw [execute_of_ok hp hc hs]
        exact ⟨rfl, rfl⟩

end Session

theorem getLast?_zip {vs : List Value} {ts : List Ty} (h : vs.length = ts.length) (hne : vs ≠ [])
    (v : Value) (t : Ty) : (vs.zip ts).getLast? = some (vs.getLastD v, ts.getLastD t) := by
  obtain rfl | ⟨vs, v', rfl⟩ := vs.eq_nil_or_concat
  · exact absurd rfl hne
  obtain rfl | ⟨ts, t', rfl⟩ := ts.eq_nil_or_concat
  · simp at h
  rw [List.concat_eq_append, List.concat_eq_append] at h ⊢
  rw [List.zip_append (by simpa using h)]
  simp

theorem run_outline {depth : Nat} {source : String} {file : Option String} {p : Program}
    (hp : Program.parse source file = .ok p) (hne : p.statements ≠ []) :
    ((run depth source file).toOption.map fun r => (r.answer.bare, r.type)) =
      (({} : Outline).statements depth (p.statements.map Term.bare)).bind (·.1.getLast?) := by
  have h : ({} : Outline).statements depth (p.statements.map Term.bare) = _ :=
    Outline.statements_bare depth {} {} [] p.statements
  rw [h]
  unfold run
  rw [hp]
  change ((p.check.bind fun type => (p.eval depth).bind fun answer =>
    Except.ok (Result.mk type answer)).toOption.map _) = _
  unfold Program.check Program.eval
  rw [Checker.check_outcome]
  generalize hc : ({} : Checker).checkEach {} p.statements = checked
  obtain ⟨e | types, checker, shared⟩ := checked
  · rfl
  · cases hs : (Program.evalAll depth p.statements []).stop with
    | some stop => simp [hs, Except.map, Except.bind, Except.toOption]
    | none =>
      have hanswers := Program.length_evalAll hs
      have htypes := Checker.length_checkEach (congrArg Prod.fst hc)
      have hlast := getLast?_zip (hanswers.trans htypes.symm)
        (List.ne_nil_of_length_pos (hanswers ▸ List.length_pos_iff.mpr hne)) .nothing
        (({} : Checker).subst.externalize .nothing)
      simp only [hs, Except.map, Except.bind, Except.toOption, Option.map_some, Option.bind_some,
        Option.isNone_none, if_true, ← map_bareAnswer_zip, List.getLast?_map, hlast]
      rfl

end Minifun
