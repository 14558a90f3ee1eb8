import Mathlib.Logic.Function.Basic
import Mathlib.Tactic.SplitIfs
import Minifun.Proofs.Ty.MostGeneral

/-! # Renaming type variables

The numbers of variables are names only. When all variables get other numbers, and different ones
different numbers, then whatever is done with types and bindings gives the same result up to the
numbers, and what is shown outside, where variables are numbered anew, is the same altogether.
-/

namespace Minifun

def Ty.rename (π : Int → Int) (t : Ty) : Ty :=
  t.mapVars fun i c => .var (π i) c

def Subst.rename (π : Int → Int) (s : Subst) : Subst :=
  ⟨s.bindings.map fun b => (π b.1, b.2.rename π)⟩

/-- The result of unification with other numbers for all variables, but for the clash, which is
shown outside. -/
def Subst.Unified.rename (π : Int → Int) : Subst.Unified → Subst.Unified
  | .ok s => .ok (s.rename π)
  | .error (s, clash) => .error (s.rename π, clash)

variable {π : Int → Int} {s : Subst} {a b t : Ty} {i : Int} {c : Option Constraint}

namespace Ty

@[simp] theorem rename_int : Ty.int.rename π = .int := rfl
@[simp] theorem rename_real : Ty.real.rename π = .real := rfl
@[simp] theorem rename_bool : Ty.bool.rename π = .bool := rfl
@[simp] theorem rename_nothing : Ty.nothing.rename π = .nothing := rfl
@[simp] theorem rename_var : (Ty.var i c).rename π = .var (π i) c := rfl
@[simp] theorem rename_list : (Ty.list a).rename π = .list (a.rename π) := rfl
@[simp] theorem rename_fn : (Ty.fn a b).rename π = .fn (a.rename π) (b.rename π) := rfl

@[simp] theorem isNothing_rename (t : Ty) : (t.rename π).isNothing = t.isNothing := by
  cases t <;> rfl

theorem vars_rename (t : Ty) : (t.rename π).vars = t.vars.map fun v => (π v.1, v.2) := by
  induction t <;> simp_all [vars]

theorem same_rename (hπ : Function.Injective π) (a b : Ty) :
    (a.rename π).same (b.rename π) = a.same b := by
  induction a generalizing b with
  | list a ih => cases b <;> simp [same, ih]
  | fn a r iha ihr => cases b <;> simp [same, iha, ihr]
  | var i c => cases b <;> simp [same, hπ.beq_eq]
  | int | real | bool | nothing => cases b <;> rfl

theorem occurs_rename (hπ : Function.Injective π) (i : Int) (t : Ty) :
    (t.rename π).occurs (π i) = t.occurs i := by
  simp [occurs, vars_rename, List.any_map, Function.comp_def, hπ.beq_eq]

theorem rename_eq_self_iff : t.rename π = t ↔ ∀ i c, (i, c) ∈ t.vars → π i = i := by
  induction t with
  | list a ih => simpa using ih
  | fn a b iha ihb =>
    simp only [rename_fn, fn.injEq, iha, ihb, vars, List.mem_append]
    constructor
    · rintro ⟨ha, hb⟩ i c (hv | hv)
      · exact ha i c hv
      · exact hb i c hv
    · exact fun h => ⟨fun i c hv => h i c (.inl hv), fun i c hv => h i c (.inr hv)⟩
  | var i c => simp
  | int | real | bool | nothing => simp

theorem rename_id (t : Ty) : t.rename id = t :=
  rename_eq_self_iff.mpr fun _ _ _ => rfl

theorem rename_congr {σ : Int → Int} (h : ∀ i c, (i, c) ∈ t.vars → π i = σ i) :
    t.rename π = t.rename σ :=
  mapVars_congr fun i c hv => by rw [h i c hv]

end Ty

namespace Subst

@[simp] theorem rename_ok (s : Subst) : Unified.rename π (.ok s) = .ok (s.rename π) := rfl

theorem lookup_map_rename {α : Type} (hπ : Function.Injective π) (f : Ty → α)
    (bs : List (Int × Ty)) (i : Int) :
    (bs.map fun b => (π b.1, f b.2)).lookup (π i) = (bs.lookup i).map f := by
  induction bs with
  | nil => rfl
  | cons b bs ih =>
    rw [List.map_cons, List.lookup_cons, hπ.beq_eq, ih, lookup_cons]
    by_cases h : i = b.1
    · simp [h]
    · simp [h, beq_false_of_ne h]

theorem lookup_rename (hπ : Function.Injective π) (s : Subst) (i : Int) :
    (s.rename π).lookup (π i) = (s.lookup i).map (Ty.rename π) := by
  simp only [lookup, rename, lookup_map_rename hπ]
  cases s.bindings.lookup i with
  | none => rfl
  | some t => cases h : t.isNothing <;> simp [Option.filter_some, h]

theorem insert_rename (hπ : Function.Injective π) (i : Int) (t : Ty) (bs : List (Int × Ty)) :
    insert (π i) (t.rename π) (bs.map fun b => (π b.1, b.2.rename π)) =
      (insert i t bs).map fun b => (π b.1, b.2.rename π) := by
  induction bs with
  | nil => rfl
  | cons b bs ih =>
    by_cases h : b.1 = i
    · simp [insert, h]
    · simp [insert, h, hπ.eq_iff, ih]

theorem bind_rename (hπ : Function.Injective π) (s : Subst) (i : Int) (t : Ty) :
    (s.rename π).bind (π i) (t.rename π) = (s.bind i t).rename π := by
  simp only [bind, rename, insert_rename hπ]

@[simp] theorem size_rename (s : Subst) : (s.rename π).size = s.size := by
  simp [size, rename]

@[simp] theorem strength_rename (s : Subst) : (s.rename π).strength = s.strength := by
  simp [strength, rename, List.countP_map, Function.comp_def]

theorem applyWithin_rename (hπ : Function.Injective π) (s : Subst) (n : Nat) (t : Ty) :
    (s.rename π).applyWithin n (t.rename π) = (s.applyWithin n t).rename π := by
  induction n generalizing t with
  | zero => rfl
  | succ n ih =>
    simp only [applyWithin]
    induction t with
    | list a iha => simp [iha]
    | fn a b iha ihb => simp [iha, ihb]
    | var i c =>
      simp only [Ty.rename_var, Ty.mapVars, lookup_rename hπ]
      cases s.lookup i with
      | none => rfl
      | some u => exact ih u
    | int | real | bool | nothing => rfl

theorem apply_rename (hπ : Function.Injective π) (s : Subst) (t : Ty) :
    (s.rename π).apply (t.rename π) = (s.apply t).rename π := by
  simp only [apply, size_rename, applyWithin_rename hπ]

theorem renumber_rename (hπ : Function.Injective π) (vs : List (Int × Option Constraint))
    (known : List (Int × Ty)) :
    renumber (vs.map fun v => (π v.1, v.2)) (known.map fun b => (π b.1, b.2)) =
      (renumber vs known).map fun b => (π b.1, b.2) := by
  induction vs generalizing known with
  | nil => rfl
  | cons v vs ih =>
    obtain ⟨i, c⟩ := v
    simp only [List.map_cons, renumber]
    rw [lookup_map_rename hπ fun t => t]
    cases hl : known.lookup i with
    | some u => exact ih known
    | none =>
      have := ih (known ++ [(i, .var known.length c)])
      simpa using this

theorem canonical_rename (hπ : Function.Injective π) (t : Ty) :
    canonical (t.rename π) = canonical t := by
  have hnames : renumber (t.rename π).vars [] =
      (renumber t.vars []).map fun b => (π b.1, b.2) := by
    rw [Ty.vars_rename]
    exact renumber_rename hπ t.vars []
  simp only [canonical, hnames]
  simp only [Ty.rename, Ty.mapVars_mapVars, Ty.mapVars]
  refine Ty.mapVars_congr fun i c hv => ?_
  obtain ⟨u, hu⟩ := exists_lookup_renumber [] hv
  rw [lookup_map_rename hπ fun t => t, hu]
  rfl

theorem externalize_rename (hπ : Function.Injective π) (s : Subst) (t : Ty) :
    (s.rename π).externalize (t.rename π) = s.externalize t := by
  rw [externalize, externalize, apply_rename hπ, canonical_rename hπ]

theorem externalize_fn (s : Subst) (a b : Ty) : ∃ a' b', s.externalize (.fn a b) = .fn a' b' := by
  cases hn : s.size <;> simp [externalize, apply, hn, applyWithin, canonical]

theorem externalizePair_rename (hπ : Function.Injective π) (s : Subst) (a b : Ty) :
    (s.rename π).externalizePair (a.rename π) (b.rename π) = s.externalizePair a b := by
  obtain ⟨a', b', h⟩ := s.externalize_fn a b
  have h' := externalize_rename hπ s (.fn a b)
  rw [Ty.rename_fn, h] at h'
  simp only [externalizePair, h, h']

theorem clash_rename (hπ : Function.Injective π) (s : Subst) (kind : ClashKind) (a b : Ty) :
    (s.rename π).clash kind (a.rename π) (b.rename π) = (s.clash kind a b).rename π := by
  simp only [clash, externalizePair_rename hπ]
  rfl

theorem yields_rename (c : Option Constraint) (t : Ty) :
    yields c (t.rename π) = (yields c t).map π := by
  cases t with
  | var i d => cases d <;> cases c <;> rfl
  | int | real | bool | list | fn | nothing => rfl

theorem admits_rename (c : Option Constraint) (t : Ty) : admits c (t.rename π) = admits c t := by
  cases c with
  | none => rfl
  | some c =>
    cases t with
    | var i d => cases d <;> rfl
    | int | real | bool | list | fn | nothing => rfl

theorem bindVar_rename (hπ : Function.Injective π) (s : Subst) (i : Int) (c : Option Constraint)
    (t : Ty) : (s.rename π).bindVar (π i) c (t.rename π) = (s.bindVar i c t).rename π := by
  simp only [bindVar, yields_rename, admits_rename, Ty.occurs_rename hπ]
  cases yields c t with
  | some j => exact congrArg Except.ok (bind_rename hπ s j (.var i c))
  | none =>
    simp only [Option.map_none]
    split_ifs
    · exact clash_rename hπ s .mismatch (.var i c) t
    · exact clash_rename hπ s .infinite (.var i c) t
    · exact congrArg Except.ok (bind_rename hπ s i t)

theorem unifyRound_rename (hπ : Function.Injective π) {again : Subst → Ty → Ty → Unified}
    (hagain : ∀ s a b, again (s.rename π) (a.rename π) (b.rename π) = (again s a b).rename π)
    (s : Subst) (a b : Ty) :
    unifyRound again (s.rename π) (a.rename π) (b.rename π) =
      (unifyRound again s a b).rename π := by
  fun_induction unifyRound again s a b with
  | case1 s a b h =>
    conv => lhs; unfold unifyRound
    rw [Ty.same_rename hπ, if_pos h]
    rfl
  | case2 s i c t hne =>
    conv => lhs; unfold unifyRound
    rw [Ty.same_rename hπ, if_neg hne]
    exact bindVar_rename hπ s i c t
  | case3 s t i c ht hne =>
    conv => lhs; unfold unifyRound
    rw [Ty.same_rename hπ, if_neg hne]
    have h := bindVar_rename hπ s i c t
    cases t with
    | var j d => exact (ht j d rfl).elim
    | int | real | bool | list | fn | nothing => exact h
  | case4 s a b hne ih =>
    conv => lhs; unfold unifyRound
    rw [Ty.same_rename hπ, if_neg hne]
    exact ih
  | case5 s a r b q e he hne ih =>
    conv => lhs; unfold unifyRound
    rw [Ty.same_rename hπ, if_neg hne]
    simp only [Ty.rename_fn, ih, he]
    rfl
  | case6 s a r b q s' he hst hne ih ih' =>
    conv => lhs; unfold unifyRound
    rw [Ty.same_rename hπ, if_neg hne]
    simp only [Ty.rename_fn, ih, he, rename_ok, strength_rename, hst, if_true]
    exact ih'
  | case7 s a r b q s' he hst hne ih =>
    -- The parameters bound something, so the results go to the next round as they read by now.
    conv => lhs; unfold unifyRound
    rw [Ty.same_rename hπ, if_neg hne]
    simp only [Ty.rename_fn, ih, he, rename_ok, strength_rename, hst, if_false,
      apply_rename hπ]
    exact hagain s' _ _
  | case8 s a b ha hb hl hf hne =>
    conv => lhs; unfold unifyRound
    rw [Ty.same_rename hπ, if_neg hne]
    have h := clash_rename hπ s .mismatch a b
    cases a with
    | var i c => exact (ha i c rfl).elim
    | int | real | bool | nothing =>
      cases b with
      | var i c => exact (hb i c rfl).elim
      | int | real | bool | list | fn | nothing => exact h
    | list a =>
      cases b with
      | var i c => exact (hb i c rfl).elim
      | list b => exact (hl a b rfl rfl).elim
      | int | real | bool | fn | nothing => exact h
    | fn a r =>
      cases b with
      | var i c => exact (hb i c rfl).elim
      | fn b q => exact (hf a r b q rfl rfl).elim
      | int | real | bool | list | nothing => exact h

theorem unifyRounds_rename (hπ : Function.Injective π) (n : Nat) (s : Subst) (a b : Ty) :
    unifyRounds n (s.rename π) (a.rename π) (b.rename π) = (unifyRounds n s a b).rename π := by
  induction n generalizing s a b with
  | zero => exact unifyRound_rename hπ (fun _ _ _ => rfl) s a b
  | succ n ih => exact unifyRound_rename hπ ih s a b

/-- Unification does not look at the numbers of variables, and a clash does not show them. -/
theorem unify_rename (hπ : Function.Injective π) (s : Subst) (a b : Ty) :
    (s.rename π).unify (a.rename π) (b.rename π) = (s.unify a b).rename π := by
  simp only [unify, apply_rename hπ, Ty.vars_rename, List.length_map, unifyRounds_rename hπ]

end Subst

end Minifun
