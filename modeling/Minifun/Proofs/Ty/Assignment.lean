import Minifun.Ty.Unify

/-! # Assignments of types to variables

An assignment gives every type variable a type. It solves a substitution when every bound variable
has the type that its binding has. The kinds of the variables in use say which of them are numeric;
types and substitutions fit them when the constraints that variables carry are those of their kinds.
-/

namespace Minifun

inductive Kind where
  | any
  | numeric
deriving DecidableEq, Repr

def Kind.constraint : Kind → Option Constraint
  | any => none
  | numeric => some .numeric

abbrev Kinds := Int → Option Kind

abbrev Assignment := Int → Ty

namespace Ty

/-- Whether a type is a number or a numeric variable. -/
def isNumeric : Ty → Bool
  | .int | .real | .var _ (some .numeric) => true
  | _ => false

/-- No part of the type is missing, and its variables are in use and carry the constraints of their
kinds. -/
def Fits (κ : Kinds) : Ty → Prop
  | .int | .real | .bool => True
  | .list a => a.Fits κ
  | .fn a b => a.Fits κ ∧ b.Fits κ
  | .var i c => ∃ k, κ i = some k ∧ c = k.constraint
  | .nothing => False

def under (θ : Assignment) (t : Ty) : Ty :=
  t.mapVars fun i _ => θ i

def weight : Ty → Nat
  | .list a => a.weight + 1
  | .fn a b => a.weight + b.weight + 1
  | _ => 1

variable {κ κ' : Kinds} {θ : Assignment} {a b c t : Ty}

@[simp] theorem same_refl (a : Ty) : a.same a = true := by
  induction a <;> simp_all [same]

theorem same_symm (h : a.same b = true) : b.same a = true := by
  rw [same_iff] at h ⊢
  exact h.symm

theorem same_trans (h : a.same b = true) (h' : b.same c = true) : a.same c = true := by
  rw [same_iff] at h h' ⊢
  exact h.trans h'

theorem under_eq_of_same (h : a.same b = true) (θ : Assignment) : a.under θ = b.under θ := by
  have hb : ∀ t : Ty, t.under θ = t.bare.under θ := by
    intro t
    rw [bare, under, under, mapVars_mapVars]
    rfl
  rw [hb a, hb b, (same_iff a b).mp h]

theorem weight_eq_of_same (h : a.same b = true) : a.weight = b.weight := by
  have hb : ∀ t : Ty, t.bare.weight = t.weight := by
    intro t
    induction t <;> simp_all [bare, mapVars, weight]
  rw [← hb a, ← hb b, (same_iff a b).mp h]

theorem mapVars_congr {f g : Int → Option Constraint → Ty}
    (h : ∀ i c, (i, c) ∈ t.vars → f i c = g i c) : t.mapVars f = t.mapVars g := by
  induction t with
  | list a ih => exact congrArg Ty.list (ih h)
  | fn a b iha ihb =>
    simp only [mapVars, iha fun i c hv => h i c (List.mem_append_left _ hv),
      ihb fun i c hv => h i c (List.mem_append_right _ hv)]
  | var i c => exact h i c List.mem_cons_self
  | int | real | bool | nothing => rfl

theorem occurs_iff (i : Int) (t : Ty) : t.occurs i = true ↔ ∃ c, (i, c) ∈ t.vars := by
  simp [occurs]

theorem weight_le_of_mem_vars {i : Int} {k : Option Constraint} (h : (i, k) ∈ t.vars) :
    (θ i).weight ≤ (t.under θ).weight := by
  induction t with
  | list a ih => exact Nat.le_succ_of_le (ih h)
  | fn a b iha ihb =>
    simp only [under, mapVars, weight]
    rcases List.mem_append.mp h with h | h
    · have := iha h
      simp only [under] at this
      omega
    · have := ihb h
      simp only [under] at this
      omega
  | var j l =>
    obtain ⟨rfl, rfl⟩ : i = j ∧ k = l := by simpa [vars] using h
    exact Nat.le_refl _
  | int | real | bool | nothing => simp [vars] at h

/-- No assignment makes a variable equal to a larger type that it occurs in. -/
theorem not_same_of_occurs {i : Int} (ho : t.occurs i = true)
    (hn : ∀ k, t.same (.var i k) = false) : (θ i).same (t.under θ) = false := by
  obtain ⟨k, hk⟩ := (occurs_iff i t).mp ho
  rw [Bool.eq_false_iff]
  intro hs
  have hw := weight_eq_of_same hs
  cases t with
  | list a =>
    have : (θ i).weight ≤ (a.under θ).weight := weight_le_of_mem_vars hk
    simp only [under, mapVars, weight] at this hw
    omega
  | fn a b =>
    simp only [under, mapVars, weight] at hw
    rcases List.mem_append.mp hk with h | h
    · have : (θ i).weight ≤ (a.under θ).weight := weight_le_of_mem_vars h
      simp only [under] at this
      omega
    · have : (θ i).weight ≤ (b.under θ).weight := weight_le_of_mem_vars h
      simp only [under] at this
      omega
  | var j l =>
    obtain ⟨rfl, rfl⟩ : i = j ∧ k = l := by simpa [vars] using hk
    simp [same] at hn
  | int | real | bool | nothing => simp [vars] at hk

theorem same_under_mapVars {f : Int → Option Constraint → Ty}
    (h : ∀ i c, ((f i c).under θ).same (θ i) = true) (t : Ty) :
    ((t.mapVars f).under θ).same (t.under θ) = true := by
  induction t with
  | var i c => exact h i c
  | list a ih => simpa [under, mapVars, same] using ih
  | fn a b iha ihb => simpa [under, mapVars, same] using ⟨iha, ihb⟩
  | int | real | bool | nothing => rfl

theorem Fits.mono (hκ : ∀ i k, κ i = some k → κ' i = some k) (h : t.Fits κ) : t.Fits κ' := by
  induction t with
  | list a ih => exact ih h
  | fn a b iha ihb => exact ⟨iha h.1, ihb h.2⟩
  | var i c =>
    obtain ⟨k, hk, hc⟩ := h
    exact ⟨k, hκ i k hk, hc⟩
  | int | real | bool => trivial
  | nothing => exact h

theorem Fits.isNothing (h : t.Fits κ) : t.isNothing = false := by
  cases t <;> first | rfl | exact h.elim

theorem Fits.of_mem_vars (h : t.Fits κ) {i : Int} {c : Option Constraint} (hv : (i, c) ∈ t.vars) :
    ∃ k, κ i = some k ∧ c = k.constraint := by
  induction t with
  | list a ih => exact ih h hv
  | fn a b iha ihb =>
    rcases List.mem_append.mp hv with hv | hv
    · exact iha h.1 hv
    · exact ihb h.2 hv
  | var j l =>
    obtain ⟨rfl, rfl⟩ : i = j ∧ c = l := by simpa [vars] using hv
    exact h
  | int | real | bool | nothing => simp [vars] at hv

theorem Fits.mapVars (h : t.Fits κ) {f : Int → Option Constraint → Ty}
    (hf : ∀ i k, κ i = some k → (f i k.constraint).Fits κ') : (t.mapVars f).Fits κ' := by
  induction t with
  | list a ih => exact ih h
  | fn a b iha ihb => exact ⟨iha h.1, ihb h.2⟩
  | var i c =>
    obtain ⟨k, hk, rfl⟩ := h
    exact hf i k hk
  | int | real | bool => trivial
  | nothing => exact h.elim

theorem Fits.eq_of_same (ha : a.Fits κ) (hb : b.Fits κ) (h : a.same b = true) : a = b := by
  induction a generalizing b with
  | list a ih =>
    cases b <;> simp only [same, Bool.false_eq_true] at h
    exact congrArg Ty.list (ih ha hb h)
  | fn a r iha ihr =>
    cases b <;> simp only [same, Bool.false_eq_true, Bool.and_eq_true] at h
    rw [iha ha.1 hb.1 h.1, ihr ha.2 hb.2 h.2]
  | var i c =>
    cases b <;> simp only [same, Bool.false_eq_true, beq_iff_eq] at h
    obtain ⟨k, hk, rfl⟩ := ha
    obtain ⟨l, hl, rfl⟩ := hb
    obtain rfl : k = l := by simpa [h, hl] using hk.symm
    rw [h]
  | int | real | bool => cases b <;> first | rfl | simp [same] at h
  | nothing => exact ha.elim

end Ty

namespace Assignment

/-- Every bound variable has the type of what it is bound to. -/
def Solves (θ : Assignment) (s : Subst) : Prop :=
  ∀ i t, s.lookup i = some t → (θ i).same (t.under θ) = true

def Respects (θ : Assignment) (κ : Kinds) : Prop :=
  ∀ i, κ i = some .numeric → (θ i).isNumeric = true

variable {θ : Assignment} {s : Subst}

theorem Solves.applyWithin (h : θ.Solves s) (n : Nat) (t : Ty) :
    ((s.applyWithin n t).under θ).same (t.under θ) = true := by
  induction n generalizing t with
  | zero => exact Ty.same_refl _
  | succ n ih =>
    refine Ty.same_under_mapVars (fun i c => ?_) t
    cases hl : s.lookup i with
    | none => exact Ty.same_refl _
    | some u => exact Ty.same_trans (ih u) (Ty.same_symm (h i u hl))

theorem Solves.apply (h : θ.Solves s) (t : Ty) : ((s.apply t).under θ).same (t.under θ) = true :=
  h.applyWithin s.size t

theorem Solves.same_apply (h : θ.Solves s) (a b : Ty) :
    ((s.apply a).under θ).same ((s.apply b).under θ) = (a.under θ).same (b.under θ) := by
  have ha := h.apply a
  have hb := h.apply b
  rw [Bool.eq_iff_iff]
  exact ⟨fun e => Ty.same_trans (Ty.same_symm ha) (Ty.same_trans e hb),
    fun e => Ty.same_trans ha (Ty.same_trans e (Ty.same_symm hb))⟩

theorem solves_bind {i : Int} {t : Ty} (hi : s.lookup i = none) (ht : t.isNothing = false) :
    θ.Solves (s.bind i t) ↔ θ.Solves s ∧ (θ i).same (t.under θ) = true := by
  simp only [Solves, Subst.lookup_bind s i _ t ht]
  constructor
  · intro h
    refine ⟨fun j u hj => h j u ?_, h i t (if_pos rfl)⟩
    have hne : j ≠ i := by
      rintro rfl
      simp [hi] at hj
    rw [if_neg hne, hj]
  · rintro ⟨hs, hit⟩ j u hj
    by_cases he : j = i
    · subst he
      obtain rfl : t = u := by simpa using hj
      exact hit
    · exact hs j u (by simpa [he] using hj)

end Assignment

end Minifun
