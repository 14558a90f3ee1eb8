import Minifun.Eval.Run
import Minifun.Proofs.Typing.Rules

/-! # The values of a closed type

A closure inhabits a function type when its body has the type of the result in some context, whose
names its scope binds to inhabitants. As a closure can find itself in its scope, inhabiting a type
is the greatest relation of this kind: it is enough to show one that can be looked through at every
value. The names that closures see are kept in a set, so that a later definition of another name
cannot come between a closure and what it captured.
-/

namespace Minifun

namespace Term

mutual

/-- The names that functions and `let` bind in a term. -/
@[simp] def binders : Expr → List String
  | .literal _ _ | .ident _ _ => []
  | .unary _ e _ | .head e _ | .tail e _ | .length e _ | .val _ e _ => e.binders
  | .binary _ a b _ | .apply a b _ | .map a b _ => a.binders ++ b.binders
  | .cond a b c _ | .fold _ a b c _ => a.binders ++ b.binders ++ c.binders
  | .lambda x body _ => x :: body.binders
  | .letIn x v body _ => x :: (v.binders ++ body.binders)
  | .list es _ | .block es _ => bindersOf es

@[simp] def bindersOf : List Expr → List String
  | [] => []
  | e :: es => e.binders ++ bindersOf es

end

theorem mem_bindersOf {x : String} {es : List Expr} :
    x ∈ bindersOf es ↔ ∃ e ∈ es, x ∈ e.binders := by
  induction es with
  | nil => simp [bindersOf]
  | cons e es ih => simp [bindersOf, ih]

end Term

/-- How a value looks that is in a closed type, where a relation tells about its parts. -/
inductive Looks (D : String → Prop) (R : Value → Ground → Prop) : Value → Ground → Prop where
  | int {n} : Looks D R (.int n) .int
  | real {x} : Looks D R (.real x) .real
  | bool {b} : Looks D R (.bool b) .bool
  | list {vs τ} : (∀ v ∈ vs, R v τ) → Looks D R (.list vs) (.list τ)
  | closure {Γ : Context} {p body scope σ τ} :
      (∀ x υ, Γ x = some υ → D x ∧ ∃ w, Scope.lookup x scope = some w ∧ R w υ) →
      (∀ x ∈ p :: body.binders, D x) → HasType (Γ.bind p σ) body τ →
      Looks D R (.closure p body scope) (.fn σ τ)

/-- A value inhabits a closed type, and its closures see and bind names of a set only. -/
def Value.InhabitsIn (D : String → Prop) (v : Value) (τ : Ground) : Prop :=
  ∃ R, (∀ v τ, R v τ → Looks D R v τ) ∧ R v τ

/-- A value inhabits a closed type. -/
def Value.Inhabits (v : Value) (τ : Ground) : Prop :=
  v.InhabitsIn (fun _ => True) τ

/-- A scope binds every name of a context to an inhabitant of its type. -/
def Scope.Serves (D : String → Prop) (scope : Scope Value) (Γ : Context) : Prop :=
  ∀ x τ, Γ x = some τ → D x ∧ ∃ w, scope.lookup x = some w ∧ w.InhabitsIn D τ

def Ground.cls : Ground → Class
  | .int => .int
  | .real => .real
  | .bool => .bool
  | .list _ => .list
  | .fn _ _ => .function

variable {D D' : String → Prop} {R R' : Value → Ground → Prop} {v w : Value} {σ τ : Ground}
  {vs : List Value} {p x : String} {body : Expr} {scope : Scope Value} {Γ : Context}

theorem Looks.mono (h : Looks D R v τ) (hD : ∀ x, D x → D' x) (hR : ∀ v τ, R v τ → R' v τ) :
    Looks D' R' v τ := by
  cases h with
  | int => exact .int
  | real => exact .real
  | bool => exact .bool
  | list hs => exact .list fun v hv => hR v _ (hs v hv)
  | closure hs hb ht =>
    refine .closure (fun x υ hx => ?_) (fun x hx => hD x (hb x hx)) ht
    obtain ⟨hd, w, hw, hr⟩ := hs x υ hx
    exact ⟨hD x hd, w, hw, hR w υ hr⟩

namespace Value

theorem InhabitsIn.looks (h : v.InhabitsIn D τ) : Looks D (InhabitsIn D) v τ := by
  obtain ⟨R, hR, h⟩ := h
  exact (hR v τ h).mono (fun _ hx => hx) fun v τ hv => ⟨R, hR, hv⟩

theorem inhabitsIn_of_looks (h : Looks D (InhabitsIn D) v τ) : v.InhabitsIn D τ := by
  refine ⟨fun v τ => Looks D (InhabitsIn D) v τ, fun v τ hv => ?_, h⟩
  exact hv.mono (fun _ hx => hx) fun v τ hv => hv.looks

theorem InhabitsIn.mono (h : v.InhabitsIn D τ) (hD : ∀ x, D x → D' x) : v.InhabitsIn D' τ := by
  obtain ⟨R, hR, h⟩ := h
  exact ⟨R, fun v τ hv => (hR v τ hv).mono hD fun _ _ h => h, h⟩

theorem InhabitsIn.inhabits (h : v.InhabitsIn D τ) : v.Inhabits τ :=
  h.mono fun _ _ => trivial

theorem InhabitsIn.cls_eq (h : v.InhabitsIn D τ) : v.cls = τ.cls := by
  cases h.looks <;> rfl

theorem InhabitsIn.isValue (h : v.InhabitsIn D τ) : v.isValue = true := by
  cases h.looks <;> rfl

theorem InhabitsIn.sameClass (hv : v.InhabitsIn D τ) (hw : w.InhabitsIn D τ) :
    v.sameClass w = true := by
  rw [Value.sameClass, hv.cls_eq, hw.cls_eq]
  exact beq_self_eq_true _

theorem InhabitsIn.exists_bool (h : v.InhabitsIn D .bool) : ∃ b, v = .bool b := by
  cases h.looks with
  | bool => exact ⟨_, rfl⟩

theorem InhabitsIn.exists_list (h : v.InhabitsIn D (.list τ)) :
    ∃ vs, v = .list vs ∧ ∀ v ∈ vs, v.InhabitsIn D τ := by
  cases h.looks with
  | list hs => exact ⟨_, rfl, hs⟩

theorem InhabitsIn.exists_closure (h : v.InhabitsIn D (.fn σ τ)) :
    ∃ p body scope, v = .closure p body scope ∧ (∀ x ∈ p :: body.binders, D x) ∧
      ∃ Γ, scope.Serves D Γ ∧ HasType (Γ.bind p σ) body τ := by
  cases h.looks with
  | closure hs hb ht => exact ⟨_, _, _, rfl, hb, _, hs, ht⟩

theorem inhabitsIn_int (n : Int) : (Value.int n).InhabitsIn D .int :=
  inhabitsIn_of_looks .int

theorem inhabitsIn_real (x : Float) : (Value.real x).InhabitsIn D .real :=
  inhabitsIn_of_looks .real

theorem inhabitsIn_bool (b : Bool) : (Value.bool b).InhabitsIn D .bool :=
  inhabitsIn_of_looks .bool

theorem inhabitsIn_list (h : ∀ v ∈ vs, v.InhabitsIn D τ) :
    (Value.list vs).InhabitsIn D (.list τ) :=
  inhabitsIn_of_looks (.list h)

theorem inhabitsIn_closure (hs : scope.Serves D Γ) (hb : ∀ x ∈ p :: body.binders, D x)
    (ht : HasType (Γ.bind p σ) body τ) : (Value.closure p body scope).InhabitsIn D (.fn σ τ) :=
  inhabitsIn_of_looks (.closure hs hb ht)

/-- A closure that can call itself inhabits the type that its body assumes for it. -/
theorem inhabitsIn_knot (hx : D x)
    (hs : ∀ y υ, y ≠ x → Γ y = some υ → D y ∧ ∃ w, scope.lookup y = some w ∧ w.InhabitsIn D υ)
    (hb : ∀ x ∈ p :: body.binders, D x) (ht : HasType ((Γ.bind x (.fn σ τ)).bind p σ) body τ) :
    (Value.closure p body (.knot x p body scope)).InhabitsIn D (.fn σ τ) := by
  -- the closure is its own witness: it is added to the inhabitants that there are anyway
  refine ⟨fun v υ => v.InhabitsIn D υ ∨
    v = .closure p body (.knot x p body scope) ∧ υ = .fn σ τ, ?_, .inr ⟨rfl, rfl⟩⟩
  rintro v υ (hv | ⟨rfl, rfl⟩)
  · exact hv.looks.mono (fun _ h => h) fun _ _ h => .inl h
  · refine .closure (fun y υ hy => ?_) hb ht
    by_cases he : y = x
    · subst he
      rw [Context.bind_self] at hy
      refine ⟨hx, _, if_pos rfl, .inr ⟨rfl, (Option.some.inj hy).symm⟩⟩
    · rw [Context.bind_of_ne he] at hy
      obtain ⟨hd, w, hw, hi⟩ := hs y υ he hy
      exact ⟨hd, w, (if_neg fun e => he e.symm).trans hw, .inl hi⟩

end Value

namespace Scope

theorem Serves.mono (h : scope.Serves D Γ) (hD : ∀ x, D x → D' x) : scope.Serves D' Γ := by
  intro x τ hx
  obtain ⟨hd, w, hw, hi⟩ := h x τ hx
  exact ⟨hD x hd, w, hw, hi.mono hD⟩

theorem Serves.snapshot (h : scope.Serves D Γ) : scope.snapshot.Serves D Γ := by
  intro x τ hx
  rw [lookup_snapshot]
  exact h x τ hx

theorem Serves.bind (h : scope.Serves D Γ) (hx : D x) (hv : v.InhabitsIn D τ) :
    (Scope.frame [(x, v)] scope).Serves D (Γ.bind x τ) := by
  intro y υ hy
  by_cases he : y = x
  · subst he
    rw [Context.bind_self] at hy
    refine ⟨hx, v, by simp [lookup], Option.some.inj hy ▸ hv⟩
  · rw [Context.bind_of_ne he] at hy
    obtain ⟨hd, w, hw, hi⟩ := h y υ hy
    exact ⟨hd, w, by simpa [lookup, he] using hw, hi⟩

end Scope

end Minifun
