import Minifun.Proofs.Eval.Parallel

/-! # Closures bound by definitions

A definition binds its name to the closure that its right side gives, with the name in front of what
the closure has captured. A free name of the body keeps its meaning unless it is the defined name
itself, which then means the closure. So a closure can be told from the one bound to a name only if
the name is free in its body.
-/

namespace Minifun

variable {p x y : String} {body e : Expr} {scope s : Scope Value} {v w : Value}

/-- A closure found in a scope has captured no more than the scope holds. -/
theorem sizeOf_le_of_lookup (h : scope.lookup y = some (.closure p body s)) :
    sizeOf s ≤ sizeOf scope := by
  induction scope with
  | empty => exact nomatch h
  | frame bs parent ih =>
    unfold Scope.lookup at h
    split at h
    · rename_i v hv
      obtain rfl := Option.some.inj h
      have hlt := List.sizeOf_lt_of_mem (Frame.mem_of_find?_eq_some hv)
      simp only [Prod.mk.sizeOf_spec, Value.closure.sizeOf_spec, Scope.frame.sizeOf_spec] at hlt ⊢
      omega
    · have := ih h
      simp only [Scope.frame.sizeOf_spec]
      omega
  | knot z q b parent ih =>
    unfold Scope.lookup at h
    split at h
    · obtain ⟨rfl, rfl, rfl⟩ := Value.closure.inj (Option.some.inj h)
      exact Nat.le_refl _
    · have := ih h
      simp only [Scope.knot.sizeOf_spec]
      omega

theorem lookup_knot_self (x p : String) (body : Expr) (scope : Scope Value) :
    (Scope.knot x p body scope).lookup x = some (.closure p body (.knot x p body scope)) :=
  if_pos rfl

theorem lookup_knot_of_ne (h : y ≠ x) :
    (Scope.knot x p body scope).lookup y = scope.lookup y :=
  if_neg fun he => h he.symm

theorem lookup_knot_eq_iff :
    (Scope.knot x p body scope).lookup y = scope.lookup y ↔ y ≠ x := by
  constructor
  · rintro h rfl
    rw [lookup_knot_self] at h
    have hle := sizeOf_le_of_lookup h.symm
    simp only [Scope.knot.sizeOf_spec] at hle
    omega
  · exact lookup_knot_of_ne

theorem alike_of_lookup_eq {t : Scope Value}
    (h : ∀ y ∈ body.free, y ≠ p → s.lookup y = t.lookup y) :
    Alike (.closure p body s) (.closure p body t) := by
  refine .closure fun y hy hne => ?_
  rw [h y hy hne]
  cases t.lookup y with
  | some v => exact .some (.refl v)
  | none => exact .none

theorem Matches.eq_ok_iff {r r' : Except Stop Value} (h : Matches Alike r r')
    (hw : w.cls ∈ [Class.int, .real, .bool]) : r = .ok w ↔ r' = .ok w := by
  have hlist : w.cls ≠ .list := by
    rintro h
    simp [h] at hw
  have hfun : w.cls ≠ .function := by
    rintro h
    simp [h] at hw
  cases h with
  | error => exact ⟨nofun, nofun⟩
  | @ok a b hab =>
    constructor
    · intro ha
      obtain rfl := Except.ok.inj ha
      rw [hab.eq_of_scalar hlist hfun]
    · intro hb
      obtain rfl := Except.ok.inj hb
      rw [hab.eq_of_scalar (hab.cls_eq ▸ hlist) (hab.cls_eq ▸ hfun)]

/-- A definition whose right side gives a closure binds its name to the closure behind a knot. The
free names of the body keep their meaning there just if the name is not one of them, and then the
bound closure gives the numbers and truth values that the closure itself gives. Whether or not they
do, it gives those of the closure with the name bound anew. -/
theorem eval_val_closure {frame frame' : Frame Value} {depth : Nat} (loc : Option Loc)
    (hx : frame.defines x = false) (he : e.eval depth frame = .ok (.closure p body scope) frame') :
    let bound := Value.closure p body (.knot x p body scope)
    (Term.val x e loc).eval depth frame = .ok (.name x) (frame'.define x bound) ∧
      ((∀ y ∈ body.free, y ≠ p → (Scope.knot x p body scope).lookup y = scope.lookup y) ↔
        x ∉ body.free ∨ x = p) ∧
      (x ∉ body.free ∨ x = p → ∀ d v w, w.cls ∈ [Class.int, .real, .bool] →
        (Term.enterWithin d p body (.knot x p body scope) v = .ok w ↔
          Term.enterWithin d p body scope v = .ok w)) ∧
      ∀ d v w, w.cls ∈ [Class.int, .real, .bool] →
        (Term.enterWithin d p body (.knot x p body scope) v = .ok w ↔
          Term.enterWithin d p body (.frame [(x, bound)] scope) v = .ok w) := by
  intro bound
  have hkeep : (∀ y ∈ body.free, y ≠ p →
      (Scope.knot x p body scope).lookup y = scope.lookup y) ↔ x ∉ body.free ∨ x = p := by
    simp only [lookup_knot_eq_iff]
    constructor
    · intro h
      by_cases hp : x = p
      · exact .inr hp
      · exact .inl fun hf => h x hf hp rfl
    · rintro (h | rfl) y hy hne rfl
      · exact h hy
      · exact hne rfl
  refine ⟨?_, hkeep, fun h d v w hw => ?_, fun d v w hw => ?_⟩
  · have hd : Eval.demand e.loc (e.evalWith (Term.enterWithin depth) .empty) frame =
        .ok (.closure p body scope) frame' := bind_of_ok he
    rw [Term.eval, Term.evalWith_val, if_neg (by simp [hx]), hd]
    rfl
  · have ha := alike_of_lookup_eq (hkeep.mpr h)
    exact (enterAlike_enterWithin d _ _ _ _ v v ha (.refl v)).eq_ok_iff hw
  · have ha : Alike bound (.closure p body (.frame [(x, bound)] scope)) := by
      refine alike_of_lookup_eq fun y _ _ => ?_
      by_cases hy : y = x
      · subst hy
        rw [lookup_knot_self]
        simp [Scope.lookup, bound]
      · rw [lookup_knot_of_ne hy]
        simp [Scope.lookup, hy]
    exact (enterAlike_enterWithin d _ _ _ _ v v ha (.refl v)).eq_ok_iff hw

def sumOfNames : Expr :=
  .binary (.arith .add) (.ident "x" none) (.ident "y" none) none

def addToOne : Expr :=
  .apply (.lambda "x" (.lambda "y" sumOfNames none) none) (.literal (.int 1) none) none

/-- Bound to another name the closure still adds to what it has captured. -/
theorem eval_val_closure_apart :
    Frame.defines ([] : Frame Value) "z" = false ∧
      addToOne.eval 1 [] = .ok (.closure "y" sumOfNames (.frame [("x", .int 1)] .empty)) [] ∧
      (Term.enterWithin 1 "y" sumOfNames
        (.knot "z" "y" sumOfNames (.frame [("x", .int 1)] .empty)) (.int 2) = .ok (.int 3) ↔
      Term.enterWithin 1 "y" sumOfNames (.frame [("x", .int 1)] .empty) (.int 2) =
        .ok (.int 3)) := by
  have he : addToOne.eval 1 [] =
      .ok (.closure "y" sumOfNames (.frame [("x", .int 1)] .empty)) [] := rfl
  have h := eval_val_closure (x := "z") none rfl he
  exact ⟨rfl, he, h.2.2.1 (.inl (by decide)) 1 (.int 2) (.int 3) (by decide)⟩

/-- A definition of `x` as a closure that has captured an `x`: the closure adds `2` to that, but
what the name is bound to does not. -/
theorem val_hides_captured_name :
    addToOne.isLambda = false ∧
      addToOne.eval 1 [] = .ok (.closure "y" sumOfNames (.frame [("x", .int 1)] .empty)) [] ∧
      (∀ z ∈ sumOfNames.free, z ≠ "y" →
        ((Scope.frame [("x", .int 1)] .empty).lookup z).isSome = true) ∧
      (Term.val "x" addToOne none).eval 1 [] = .ok (.name "x") [("x", .closure "y" sumOfNames
        (.knot "x" "y" sumOfNames (.frame [("x", .int 1)] .empty)))] ∧
      Term.enterWithin 1 "y" sumOfNames (.frame [("x", .int 1)] .empty) (.int 2) = .ok (.int 3) ∧
      ∀ depth, Term.enterWithin depth "y" sumOfNames
        (.knot "x" "y" sumOfNames (.frame [("x", .int 1)] .empty)) (.int 2) ≠ .ok (.int 3) := by
  refine ⟨rfl, rfl, by decide, rfl, rfl, fun depth => ?_⟩
  cases depth with
  | zero => exact nofun
  | succ depth => exact nofun

end Minifun
