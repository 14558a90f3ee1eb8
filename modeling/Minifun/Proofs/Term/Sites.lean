import Minifun.Proofs.Term.Places

/-! # The places in terms

The places that a term carries, throughout the term and the values in it. Moving places changes a
term exactly if it moves one of these.
-/

namespace Minifun

mutual

def Term.places : Expr → List (Option Loc)
  | .literal v loc => v.places ++ [loc]
  | .ident _ loc => [loc]
  | .unary _ e loc | .head e loc | .tail e loc | .length e loc | .lambda _ e loc | .val _ e loc =>
    e.places ++ [loc]
  | .binary _ a b loc | .apply a b loc | .letIn _ a b loc | .map a b loc =>
    a.places ++ b.places ++ [loc]
  | .cond a b c loc | .fold _ a b c loc =>
    a.places ++ b.places ++ c.places ++ [loc]
  | .list es loc | .block es loc => Term.placesAll es ++ [loc]

def Term.placesAll : List Expr → List (Option Loc)
  | [] => []
  | e :: es => e.places ++ Term.placesAll es

/-- The places in a value: those in the body of a closure and in the values it has kept. -/
def Value.places : Value → List (Option Loc)
  | .list vs => Value.placesAll vs
  | .closure _ body s => body.places ++ s.places
  | .int _ | .real _ | .bool _ | .name _ | .nothing => []

def Value.placesAll : List Value → List (Option Loc)
  | [] => []
  | v :: vs => v.places ++ Value.placesAll vs

def Scope.places : Scope Value → List (Option Loc)
  | .empty => []
  | .frame bs parent => Frame.places bs ++ parent.places
  | .knot _ _ body parent => body.places ++ parent.places

def Frame.places : List (String × Value) → List (Option Loc)
  | [] => []
  | b :: bs => Frame.placesOf b ++ Frame.places bs

def Frame.placesOf : String × Value → List (Option Loc)
  | (_, v) => v.places

end

variable {g : Option Loc → Option Loc}

mutual

theorem Term.relocate_eq_self_iff : ∀ e : Expr, e.relocate g = e ↔ ∀ l ∈ e.places, g l = l
  | .literal v loc => by simp [Term.places, Value.relocate_eq_self_iff v, or_imp, forall_and]
  | .ident _ loc => by simp [Term.places]
  | .unary _ e _ | .head e _ | .tail e _ | .length e _ | .lambda _ e _ | .val _ e _ => by
    simp [Term.places, Term.relocate_eq_self_iff e, or_imp, forall_and]
  | .binary _ a b _ | .apply a b _ | .letIn _ a b _ | .map a b _ => by
    simp [Term.places, Term.relocate_eq_self_iff a, Term.relocate_eq_self_iff b, or_imp,
      forall_and]
  | .cond a b c _ | .fold _ a b c _ => by
    simp [Term.places, Term.relocate_eq_self_iff a, Term.relocate_eq_self_iff b,
      Term.relocate_eq_self_iff c, or_imp, forall_and]
  | .list es _ | .block es _ => by
    simp [Term.places, Term.relocateAll_eq_self_iff es, or_imp, forall_and]

theorem Term.relocateAll_eq_self_iff :
    ∀ es : List Expr, Term.relocateAll g es = es ↔ ∀ l ∈ Term.placesAll es, g l = l
  | [] => by simp [Term.placesAll]
  | e :: es => by
    simp [Term.placesAll, Term.relocate_eq_self_iff e, Term.relocateAll_eq_self_iff es, or_imp,
      forall_and]

theorem Value.relocate_eq_self_iff : ∀ v : Value, v.relocate g = v ↔ ∀ l ∈ v.places, g l = l
  | .list vs => by simp [Value.places, Value.relocateAll_eq_self_iff vs]
  | .closure _ body s => by
    simp [Value.places, Term.relocate_eq_self_iff body, Scope.relocate_eq_self_iff s, or_imp,
      forall_and]
  | .int _ | .real _ | .bool _ | .name _ | .nothing => by simp [Value.places]

theorem Value.relocateAll_eq_self_iff :
    ∀ vs : List Value, Value.relocateAll g vs = vs ↔ ∀ l ∈ Value.placesAll vs, g l = l
  | [] => by simp [Value.placesAll]
  | v :: vs => by
    simp [Value.placesAll, Value.relocate_eq_self_iff v, Value.relocateAll_eq_self_iff vs, or_imp,
      forall_and]

theorem Scope.relocate_eq_self_iff :
    ∀ s : Scope Value, s.relocate g = s ↔ ∀ l ∈ s.places, g l = l
  | .empty => by simp [Scope.places]
  | .frame bs parent => by
    simp [Scope.places, Frame.relocate_eq_self_iff bs, Scope.relocate_eq_self_iff parent, or_imp,
      forall_and]
  | .knot _ _ body parent => by
    simp [Scope.places, Term.relocate_eq_self_iff body, Scope.relocate_eq_self_iff parent, or_imp,
      forall_and]

theorem Frame.relocate_eq_self_iff :
    ∀ f : List (String × Value), Frame.relocate g f = f ↔ ∀ l ∈ Frame.places f, g l = l
  | [] => by simp [Frame.places]
  | b :: bs => by
    rw [Frame.relocate, List.cons.injEq, Frame.relocateBinding_eq_self_iff b,
      Frame.relocate_eq_self_iff bs]
    simp [Frame.places, or_imp, forall_and]

theorem Frame.relocateBinding_eq_self_iff :
    ∀ b : String × Value, Frame.relocateBinding g b = b ↔ ∀ l ∈ Frame.placesOf b, g l = l
  | (_, v) => by simp [Frame.placesOf, Value.relocate_eq_self_iff v]

end

/-- A place that stays whenever some others do is one of these. -/
theorem mem_of_fixed {P : Option Loc → Prop} {x : Option Loc}
    (h : ∀ g : Option Loc → Option Loc, (∀ y, P y → g y = y) → g x = x) : P x := by
  classical
  refine Classical.byContradiction fun hx => ?_
  -- All other places are moved.
  have hfixed := h (fun y => if P y then y else if y.isSome then none else some default)
    fun y hy => if_pos hy
  cases x <;> simp [hx] at hfixed

end Minifun
