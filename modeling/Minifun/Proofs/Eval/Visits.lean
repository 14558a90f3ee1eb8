import Mathlib.Logic.Relation
import Mathlib.Order.WellFounded
import Minifun.Proofs.Eval.Remnants

/-! # The evaluations of a run

An evaluation begins others: of parts of its term, of the body of a `let`, and of the bodies of the
closures it calls. Each of them begins only if those before it have come to an end with a value.
What an evaluation begins has a smaller term, or may open fewer calls. The evaluations that a
program visits are those of its statements with all that these begin.
-/

namespace Minifun

open Term

section Calls

variable {enter : Enter} {outer : Scope Value}

theorem callTwice_eq_ok_iff {keyword : String} {loc : Option Loc}
    {call : Value → Except Stop Value} {u v w : Value} :
    Eval.callTwice enter keyword loc call u v = .ok w ↔
      ∃ p body s, call u = .ok (.closure p body s) ∧ enter p body s v = .ok w := by
  unfold Eval.callTwice
  rw [bind_eq_ok_iff_exists]
  constructor
  · rintro ⟨g, hg, h⟩
    cases g with
    | closure p body s => exact ⟨p, body, s, hg, h⟩
    | int | real | bool | list | name | nothing => cases h
  · rintro ⟨p, body, s, hg, h⟩
    exact ⟨_, hg, h⟩

/-- A fold comes to a step with two arguments, the results of the steps before it being at hand. -/
inductive FoldsTo (step : Value → Value → Except Stop Value) (u : Value) :
    Side → List Value → Value → Value → Prop where
  | left {vs v vs' acc} : vs.foldlM step u = .ok acc → FoldsTo step u .left (vs ++ v :: vs') acc v
  | right {vs v vs' acc} : vs.foldlM (fun acc v => step v acc) u = .ok acc →
      FoldsTo step u .right (vs ++ v :: vs').reverse v acc

/-- The evaluation of a term in a frame comes to a call of a closure with an argument. -/
inductive Term.Calls (enter : Enter) (outer : Scope Value) :
    Expr → Frame Value → String → Expr → Scope Value → Value → Prop where
  | apply {g a loc f p body s f' v f''} : Settles enter outer g f (.closure p body s) f' →
      Settles enter outer a f' v f'' → Calls enter outer (.apply g a loc) f p body s v
  | map {g xs loc f p body s f' vs v vs' f'' ws} : Settles enter outer g f (.closure p body s) f' →
      Settles enter outer xs f' (.list (vs ++ v :: vs')) f'' → vs.mapM (enter p body s) = .ok ws →
      Calls enter outer (.map g xs loc) f p body s v
  | foldFirst {side g i xs loc f p body s f₁ u f₂ vs f₃ a b} :
      Settles enter outer g f (.closure p body s) f₁ → Settles enter outer i f₁ u f₂ →
      Settles enter outer xs f₂ (.list vs) f₃ →
      FoldsTo (Eval.callTwice enter side.keyword g.loc (enter p body s)) u side vs a b →
      Calls enter outer (.fold side g i xs loc) f p body s a
  | foldSecond {side g i xs loc f p body s f₁ u f₂ vs f₃ a b q body' s'} :
      Settles enter outer g f (.closure p body s) f₁ → Settles enter outer i f₁ u f₂ →
      Settles enter outer xs f₂ (.list vs) f₃ →
      FoldsTo (Eval.callTwice enter side.keyword g.loc (enter p body s)) u side vs a b →
      enter p body s a = .ok (.closure q body' s') →
      Calls enter outer (.fold side g i xs loc) f q body' s' b

end Calls

structure Evaluation where
  depth : Nat
  outer : Scope Value
  term : Expr
  frame : Frame Value

namespace Evaluation

def result (e : Evaluation) : EStateM.Result Stop (Frame Value) Value :=
  e.term.evalWith (enterWithin e.depth) e.outer e.frame

inductive Begins : Evaluation → Evaluation → Prop where
  | part {d outer e f e' f'} : Starts (enterWithin d) outer e f e' f' →
      Begins ⟨d, outer, e, f⟩ ⟨d, outer, e', f'⟩
  | body {d outer x v body loc f w f'} : Settles (enterWithin d) outer v f w f' →
      Begins ⟨d, outer, .letIn x v body loc, f⟩ ⟨d, .frame f' outer, body, [(x, w)]⟩
  | call {d outer e f p body s v} : Calls (enterWithin (d + 1)) outer e f p body s v →
      Begins ⟨d + 1, outer, e, f⟩ ⟨d, s, body, [(p, v)]⟩

/-- The evaluations that an evaluation consists of, with itself. -/
def Visits : Evaluation → Evaluation → Prop :=
  Relation.ReflTransGen Begins

end Evaluation

/-- The evaluations that statements consist of when they are evaluated in a frame, one after the
other until one fails. -/
def Program.Visits (depth : Nat) (ss : List Expr) (frame : Frame Value) (e : Evaluation) : Prop :=
  ∃ before s after, ss = before ++ s :: after ∧ (evalAll depth before frame).stop = none ∧
    Evaluation.Visits ⟨depth, .empty, s, (evalAll depth before frame).frame⟩ e

namespace Program

variable {depth : Nat} {s : Expr} {ss : List Expr} {frame : Frame Value} {e : Evaluation}

@[simp] theorem not_visits_nil : ¬ Visits depth [] frame e := by
  rintro ⟨before, s, after, hss, -⟩
  simp at hss

theorem visits_cons_iff :
    Visits depth (s :: ss) frame e ↔ Evaluation.Visits ⟨depth, .empty, s, frame⟩ e ∨
      ∃ v frame', s.evalStatement depth frame = .ok v frame' ∧ Visits depth ss frame' e := by
  constructor
  · rintro ⟨before, s', after, hss, hstop, he⟩
    cases before with
    | nil =>
      obtain ⟨rfl, rfl⟩ := List.cons.inj hss
      exact .inl he
    | cons s₀ before =>
      obtain ⟨rfl, rfl⟩ := List.cons.inj hss
      cases hs : s.evalStatement depth frame with
      | error stop frame' =>
        rw [evalAll_cons_of_error hs] at hstop
        cases hstop
      | ok v frame' =>
        rw [evalAll_cons_of_ok hs] at hstop he
        exact .inr ⟨v, frame', rfl, before, s', after, rfl, hstop, he⟩
  · rintro (he | ⟨v, frame', hs, before, s', after, rfl, hstop, he⟩)
    · exact ⟨[], s, ss, rfl, rfl, he⟩
    · refine ⟨s :: before, s', after, rfl, ?_⟩
      rw [evalAll_cons_of_ok hs]
      exact ⟨hstop, he⟩

end Program

theorem Term.Starts.sizeOf_lt {enter : Enter} {outer : Scope Value} {e e' : Expr}
    {f f' : Frame Value} (h : Starts enter outer e f e' f') : sizeOf e' < sizeOf e := by
  cases h with
  | @element es _ es' =>
    have hmem : e' ∈ es ++ e' :: es' := List.mem_append_right es List.mem_cons_self
    have := List.sizeOf_lt_of_mem hmem
    simp only [Term.list.sizeOf_spec]
    omega
  | @statement ss _ ss' =>
    have hmem : e' ∈ ss ++ e' :: ss' := List.mem_append_right ss List.mem_cons_self
    have := List.sizeOf_lt_of_mem hmem
    simp only [Term.block.sizeOf_spec]
    omega
  | _ => simp +arith

namespace Evaluation

theorem wellFounded_begins : WellFounded fun e e' : Evaluation => Begins e' e := by
  refine Subrelation.wf (r := InvImage (Prod.Lex (· < ·) (· < ·)) fun e : Evaluation =>
    (e.depth, sizeOf e.term)) ?_
    (InvImage.wf _ (Prod.lex ⟨_, wellFounded_lt⟩ ⟨_, wellFounded_lt⟩).wf)
  intro e e' h
  cases h with
  | part hs => exact Prod.Lex.right _ hs.sizeOf_lt
  | body => exact Prod.Lex.right _ (by simp +arith)
  | call => exact Prod.Lex.left _ _ (Nat.lt_succ_self _)

end Evaluation

end Minifun
