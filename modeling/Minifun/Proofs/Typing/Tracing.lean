import Minifun.Proofs.Typing.Events
import Minifun.Typing.Checker

/-! # Checking under a trace

A trace that is on changes nothing but itself: the answer of a check, the names and types that the
checker knows after it and the supply are the same as with the trace off. What is noted are the
functions and definitions of the program, each once, in the order in which they are written and the
inner before the outer. A check that fails has noted some first ones of them.
-/

namespace Minifun

namespace Term

mutual

/-- A term behind its parts, which stand in the order in which they are written and are each behind
their own parts. -/
@[simp] def postorder : Expr → List Expr
  | .literal v loc => [.literal v loc]
  | .ident x loc => [.ident x loc]
  | .unary op e loc => e.postorder ++ [.unary op e loc]
  | .binary op a b loc => a.postorder ++ b.postorder ++ [.binary op a b loc]
  | .list es loc => postorderAll es ++ [.list es loc]
  | .head e loc => e.postorder ++ [.head e loc]
  | .tail e loc => e.postorder ++ [.tail e loc]
  | .length e loc => e.postorder ++ [.length e loc]
  | .cond c a b loc => c.postorder ++ a.postorder ++ b.postorder ++ [.cond c a b loc]
  | .lambda x body loc => body.postorder ++ [.lambda x body loc]
  | .apply f a loc => f.postorder ++ a.postorder ++ [.apply f a loc]
  | .letIn x v body loc => v.postorder ++ body.postorder ++ [.letIn x v body loc]
  | .val x e loc => e.postorder ++ [.val x e loc]
  | .map f xs loc => f.postorder ++ xs.postorder ++ [.map f xs loc]
  | .fold side f i xs loc =>
    f.postorder ++ i.postorder ++ xs.postorder ++ [.fold side f i xs loc]
  | .block ss loc => postorderAll ss ++ [.block ss loc]

@[simp] def postorderAll : List Expr → List Expr
  | [] => []
  | e :: es => e.postorder ++ postorderAll es

end

/-- What is noted of a function or a definition: its description and its place. -/
def landmark? : Expr → Option (String × Option Loc)
  | .lambda x _ loc => some ("fn " ++ x ++ " -> ...", loc)
  | .val x _ loc => some ("val " ++ x, loc)
  | _ => none

def landmarks (es : List Expr) : List (String × Option Loc) :=
  es.filterMap landmark?

@[simp] theorem landmarks_append (es es' : List Expr) :
    landmarks (es ++ es') = landmarks es ++ landmarks es' :=
  List.filterMap_append

@[simp] theorem landmarks_singleton (e : Expr) : landmarks [e] = e.landmark?.toList := by
  rw [landmarks, List.filterMap_cons]
  cases e.landmark? <;> rfl

end Term

def Step.site (step : Step) : String × Option Loc :=
  (step.description, step.loc)

namespace Infer

def Act.site? : Act → Option (String × Option Loc)
  | draw _ => none
  | note description loc => some (description, loc)

def sites (due : List Act) : List (String × Option Loc) :=
  due.filterMap Act.site?

@[simp] theorem sites_nil : sites [] = [] :=
  rfl

@[simp] theorem sites_draw (c : Option Constraint) (due : List Act) :
    sites (.draw c :: due) = sites due :=
  rfl

@[simp] theorem sites_note (description : String) (loc : Option Loc) (due : List Act) :
    sites (.note description loc :: due) = (description, loc) :: sites due :=
  rfl

@[simp] theorem sites_append (due due' : List Act) :
    sites (due ++ due') = sites due ++ sites due' :=
  List.filterMap_append

@[simp] theorem sites_draws (cs : List (Option Constraint)) : sites (cs.map .draw) = [] := by
  induction cs with
  | nil => rfl
  | cons c cs ih => exact ih

theorem map_site_noted (es : List Event) :
    (noted es).map Step.site = sites (es.map Event.act) := by
  rw [noted, sites, List.map_filterMap, List.filterMap_map]
  congr 1
  funext e
  cases e <;> rfl

mutual

theorem sites_acts : ∀ e : Expr, sites e.acts = Term.landmarks e.postorder
  | .literal _ _ | .ident _ _ => rfl
  | .unary _ e _ | .head e _ | .tail e _ | .length e _ | .lambda _ e _ => by
    simp [Term.landmark?, sites_acts e]
  | .binary _ a b _ | .apply a b _ | .letIn _ a b _ | .map a b _ => by
    simp [Term.landmark?, sites_acts a, sites_acts b]
  | .cond a b c _ | .fold _ a b c _ => by
    simp [Term.landmark?, sites_acts a, sites_acts b, sites_acts c]
  | .list [] _ => rfl
  | .list (e :: es) _ => by
    simp [Term.landmark?, sites_acts e, sites_actsAll es]
  | .val _ e _ => by
    cases h : e.isLambda <;>
      simp [Term.landmark?, sites_acts e, h]
  | .block ss _ => by
    simp [Term.landmark?, sites_actsAll ss]

theorem sites_actsAll : ∀ es : List Expr,
    sites (Term.actsAll es) = Term.landmarks (Term.postorderAll es)
  | [] => rfl
  | e :: es => by
    simp [sites_acts e, sites_actsAll es]

end

end Infer

theorem Trace.addAll_on (found steps : List Step) :
    Trace.addAll ⟨true, found⟩ steps = ⟨true, found ++ steps⟩ := by
  induction steps generalizing found with
  | nil => simp [Trace.addAll]
  | cons step steps ih =>
    have hadd : Trace.addAll ⟨true, found⟩ (step :: steps) =
        Trace.addAll ⟨true, found ++ [step]⟩ steps := rfl
    rw [hadd, ih, List.append_assoc, List.singleton_append]

theorem Trace.addAll_off (found steps : List Step) :
    Trace.addAll ⟨false, found⟩ steps = ⟨false, found⟩ := by
  induction steps with
  | nil => rfl
  | cons step steps ih => exact ih

namespace Checker

open Infer

/-- What a check adds to the trace is the same under every trace, and all else does not depend on
the trace. -/
theorem check_noted (c : Checker) (next : Nat) (ss : List Expr) :
    ∃ new,
      (∀ t, c.check ⟨next, t⟩ ss =
        { c.check ⟨next, {}⟩ ss with
          shared := ⟨(c.check ⟨next, {}⟩ ss).shared.next, t.addAll new⟩ }) ∧
      match (c.check ⟨next, {}⟩ ss).outcome with
      | .ok _ => new.map Step.site = Term.landmarks (Term.postorderAll ss)
      | .error _ => new.map Step.site <+: Term.landmarks (Term.postorderAll ss) := by
  obtain ⟨es, hes, hdone⟩ := does_statements (acts_all ss) [] .nothing (c.start ⟨next, {}⟩)
  refine ⟨noted es, fun t => ?_, ?_⟩
  · have hrun := hes.run_traced t
    have hstart : c.start ⟨next, t⟩ = { c.start ⟨next, {}⟩ with trace := t } := rfl
    unfold check
    rw [hstart, hrun]
    cases Term.inferStatements [] .nothing ss (c.start ⟨next, {}⟩) <;> rfl
  · unfold check
    rw [map_site_noted, ← sites_actsAll]
    cases hm : Term.inferStatements [] .nothing ss (c.start ⟨next, {}⟩) with
    | ok type s =>
      rw [hm] at hdone
      exact congrArg sites hdone
    | error e s =>
      rw [hm] at hdone
      exact List.IsPrefix.filterMap Act.site? hdone

/-- A check with the trace on and one with the trace off have the same outcome and leave the same
checker and the same supply. The trace that is off stays as it is. To the one that is on the
functions and definitions of the program are added, or, if the check fails, some first ones of them.
-/
theorem check_traced (c : Checker) (next : Nat) (found found' : List Step) (ss : List Expr) :
    let on := c.check ⟨next, ⟨true, found⟩⟩ ss
    let off := c.check ⟨next, ⟨false, found'⟩⟩ ss
    on.outcome = off.outcome ∧ on.checker = off.checker ∧ on.shared.next = off.shared.next ∧
      off.shared.trace = ⟨false, found'⟩ ∧
      ∃ new, on.shared.trace = ⟨true, found ++ new⟩ ∧
        match on.outcome with
        | .ok _ => new.map Step.site = Term.landmarks (Term.postorderAll ss)
        | .error _ => new.map Step.site <+: Term.landmarks (Term.postorderAll ss) := by
  obtain ⟨new, hcheck, hnew⟩ := c.check_noted next ss
  have hon := hcheck ⟨true, found⟩
  have hoff := hcheck ⟨false, found'⟩
  intro on off
  simp only [on, off, hon, hoff]
  exact ⟨trivial, trivial, trivial, Trace.addAll_off found' new, new,
    Trace.addAll_on found new, hnew⟩

example (l l' : Option Loc) :
    Term.landmarks (Term.postorderAll [.val "double" (.lambda "x" (.ident "x" none) l) l']) =
      [("fn x -> ...", l), ("val double", l')] :=
  rfl

end Checker

end Minifun
