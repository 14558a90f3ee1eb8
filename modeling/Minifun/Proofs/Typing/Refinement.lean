import Minifun.Proofs.Typing.Instances

/-! # Shown types that are refined

When more variables are bound, a type is shown with types in the place of some of its variables. It
is then an instance of the type as it was shown before, although both are numbered anew.
-/

namespace Minifun

/-- A type is an instance of another one: the variables of that are replaced by types, and numeric
ones by numbers or numeric variables. -/
def Ty.Refines (t' t : Ty) : Prop :=
  ∃ θ : Assignment, (∀ i, (i, some .numeric) ∈ t.vars → (θ i).isNumeric = true) ∧ t' = t.under θ

namespace Subst

variable {κ κ' : Kinds} {s s' : Subst} {t : Ty} {θ : Assignment}

def numbering (t : Ty) : Assignment :=
  fun i => ((renumber t.vars []).lookup i).getD .int

theorem canonical_eq_under (ht : t.Fits κ) : canonical t = t.under (numbering t) := by
  refine Ty.mapVars_congr fun i c hv => ?_
  obtain ⟨n, hn, -⟩ := numbered_of_mem_vars ht hv
  rw [numbering, hn, Option.getD_some, Option.getD_some]

theorem exists_under_canonical (ht : t.Fits κ) (θ : Assignment) :
    ∃ θ' : Assignment, (canonical t).under θ' = t.under θ ∧
      ∀ j d, (j, d) ∈ (canonical t).vars → ∃ i, (i, d) ∈ t.vars ∧ θ' j = θ i := by
  obtain ⟨θ', hθ⟩ := exists_of_numbered ht θ
  refine ⟨θ', under_canonical ht hθ, fun j d hv => ?_⟩
  obtain ⟨i, hi, hl⟩ := (mem_vars_canonical ht).mp hv
  exact ⟨i, hi, hθ i d j hi hl⟩

theorem isNumeric_under_numbering {u : Ty} (ht : t.Fits κ) (hu : u.isNumeric = true)
    (hvars : ∀ v ∈ u.vars, v ∈ t.vars) : (u.under (numbering t)).isNumeric = true := by
  cases u with
  | var i c =>
    obtain ⟨n, hn, -⟩ := numbered_of_mem_vars ht (hvars (i, c) List.mem_cons_self)
    simp only [Ty.under, Ty.mapVars, numbering, hn, Option.getD_some]
    cases c with
    | none => exact hu
    | some c => cases c <;> exact hu
  | int | real => rfl
  | bool | list | fn | nothing => cases hu

theorem refines_canonical (ht : t.Fits κ) (ht' : (t.under θ).Fits κ')
    (hn : ∀ i, (i, some .numeric) ∈ t.vars → (θ i).isNumeric = true) :
    (canonical (t.under θ)).Refines (canonical t) := by
  obtain ⟨θ', hθ', hvars⟩ := exists_under_canonical ht fun i => (θ i).under (numbering (t.under θ))
  refine ⟨θ', fun j hj => ?_, ?_⟩
  · obtain ⟨i, hi, hij⟩ := hvars j _ hj
    rw [hij]
    refine isNumeric_under_numbering ht' (hn i hi) fun v hv => ?_
    rw [Ty.under, Ty.vars_mapVars]
    exact List.mem_flatMap.mpr ⟨_, hi, hv⟩
  · rw [hθ', canonical_eq_under ht', Ty.under, Ty.under, Ty.mapVars_mapVars]
    rfl

/-- Further bindings replace variables that were free before. -/
theorem Sound.apply_eq_under (hs : s.Sound κ) (hs' : s'.Sound κ') (he : s'.Extends s)
    (hκ : ∀ i k, κ i = some k → κ' i = some k) (ht : t.Fits κ) :
    s'.apply t = (s.apply t).under (s'.resolver κ') := by
  have hfits : (s.apply t).Fits κ' := (hs.apply ht).mono hκ
  have hsame := (hs'.resolver_solves.of_extends he).apply t
  rw [under_resolver hfits, under_resolver (ht.mono hκ)] at hsame
  rw [under_resolver hfits]
  exact ((hs'.apply hfits).eq_of_same (hs'.apply (ht.mono hκ)) hsame).symm

/-- With more variables bound, a type is shown as an instance of what it was shown as before. -/
theorem Sound.refines_externalize (hs : s.Sound κ) (hs' : s'.Sound κ') (he : s'.Extends s)
    (hκ : ∀ i k, κ i = some k → κ' i = some k) (ht : t.Fits κ) :
    (s'.externalize t).Refines (s.externalize t) := by
  have happly := hs.apply_eq_under hs' he hκ ht
  have hfits := hs.apply ht
  rw [externalize, externalize, happly]
  refine refines_canonical hfits (happly ▸ hs'.apply (ht.mono hκ)) fun i hi => ?_
  obtain ⟨k, hk, hc⟩ := hfits.of_mem_vars hi
  cases k with
  | any => cases hc
  | numeric => exact hs'.resolver_respects i (hκ i _ hk)

end Subst

end Minifun
