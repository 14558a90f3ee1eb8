import Minifun.Proofs.Typing.Reading

/-! # Instances of shown types

A type is shown with its bound variables replaced and the others numbered anew. Its closed instances
are the readings of the type by the valuations that solve the bindings: numbering is a renaming, and
what the bound variables are is determined by the free ones.
-/

namespace Minifun

variable {κ : Kinds} {s : Subst} {t : Ty} {τ : Ground} {ρ ρ' : Valuation}

namespace Ty

theorem reading_congr (h : ∀ i c, (i, c) ∈ t.vars → ρ i = ρ' i) :
    t.reading ρ = t.reading ρ' := by
  induction t with
  | list a ih => exact congrArg Ground.list (ih h)
  | fn a b iha ihb =>
    simp only [reading, iha fun i c hv => h i c (List.mem_append_left _ hv),
      ihb fun i c hv => h i c (List.mem_append_right _ hv)]
  | var i c => exact h i c List.mem_cons_self
  | int | real | bool | nothing => rfl

theorem reading_under (θ : Assignment) (ρ : Valuation) (t : Ty) :
    (t.under θ).reading ρ = t.reading fun i => (θ i).reading ρ := by
  induction t with
  | list a ih => exact congrArg Ground.list ih
  | fn a b iha ihb => exact congrArg₂ Ground.fn iha ihb
  | var i c => rfl
  | int | real | bool | nothing => rfl

theorem isNumeric_reading (ht : t.Fits κ) (hn : t.isNumeric = true)
    (hρ : ∀ i, κ i = some .numeric → (ρ i).isNumeric = true) : (t.reading ρ).isNumeric = true := by
  cases t with
  | var i c =>
    obtain ⟨k, hk, rfl⟩ := ht
    cases k with
    | any => exact nomatch hn
    | numeric => exact hρ i hk
  | int | real => rfl
  | bool | list | fn | nothing => exact nomatch hn

theorem hasInstance_iff (ht : t.Fits κ) : t.HasInstance τ ↔
    ∃ ρ : Valuation, (∀ i, κ i = some .numeric → (ρ i).isNumeric = true) ∧ t.reading ρ = τ := by
  have hmap : ∀ ρ : Valuation, t.mapVars (fun i _ => (ρ i).toTy) = τ.toTy ↔ t.reading ρ = τ := by
    intro ρ
    have hu : t.mapVars (fun i _ => (ρ i).toTy) = (t.reading ρ).toTy := ρ.under_assignment ht
    rw [hu]
    exact ⟨Ground.toTy_injective, congrArg _⟩
  constructor
  · rintro ⟨ρ, hn, hτ⟩
    -- what the valuation gives to variables that do not occur may be wrong for their kinds
    let ρ' : Valuation := fun i =>
      if κ i = some .numeric ∧ (ρ i).isNumeric = false then .int else ρ i
    refine ⟨ρ', fun i hi => ?_, ?_⟩
    · by_cases h : (ρ i).isNumeric = false
      · simp only [ρ', if_pos (And.intro hi h)]
        rfl
      · simp only [ρ', if_neg fun hf : κ i = some .numeric ∧ (ρ i).isNumeric = false => h hf.2]
        simpa using h
    · rw [← (hmap ρ).mp hτ]
      refine reading_congr fun i c hv => if_neg ?_
      rintro ⟨hi, hf⟩
      obtain ⟨k, hk, rfl⟩ := ht.of_mem_vars hv
      obtain rfl : k = .numeric := Option.some.inj (hk.symm.trans hi)
      exact Bool.false_ne_true (hf.symm.trans (hn i hv))
  · rintro ⟨ρ, hn, hτ⟩
    refine ⟨ρ, fun i hv => ?_, (hmap ρ).mpr hτ⟩
    obtain ⟨k, hk, hc⟩ := ht.of_mem_vars hv
    cases k with
    | any => exact nomatch hc
    | numeric => exact hn i hk

end Ty

namespace Subst

/-- The instances of a type with its bound variables replaced are the readings of the type by the
valuations that solve the bindings. -/
theorem Sound.hasInstance_apply (hs : s.Sound κ) (ht : t.Fits κ) :
    (s.apply t).HasInstance τ ↔ ∃ ρ : Valuation, ρ.Models κ s ∧ t.reading ρ = τ := by
  rw [Ty.hasInstance_iff (hs.apply ht)]
  constructor
  · rintro ⟨ρ, hn, hτ⟩
    have hread : ∀ u : Ty, u.Fits κ →
        u.reading (fun i => (s.resolver κ i).reading ρ) = (s.apply u).reading ρ := by
      intro u hu
      rw [← Ty.reading_under, under_resolver hu]
    refine ⟨fun i => (s.resolver κ i).reading ρ, ⟨fun i hi => ?_, fun i u hl => ?_⟩, ?_⟩
    · have hf : (Ty.var i ((κ i).getD .any).constraint).Fits κ := ⟨.numeric, hi, by simp [hi]⟩
      exact Ty.isNumeric_reading (hs.apply hf) (hs.resolver_respects i hi) hn
    · rw [hread u (hs.fits i u (mem_bindings_of_lookup hl)), resolver,
        apply_var_of_lookup hs.acyclic hl]
    · rw [hread t ht, hτ]
  · rintro ⟨ρ, hρ, hτ⟩
    exact ⟨ρ, hρ.numeric, (hρ.reading_apply hs ht).trans hτ⟩

/-- The entry at every place is a variable of that number, with the constraint of its kind. -/
def Numbers (κ : Kinds) (known : List (Int × Ty)) : Prop :=
  ∀ (n : Nat) i u, known[n]? = some (i, u) → ∃ k, κ i = some k ∧ u = Ty.var n k.constraint

variable {vs : List (Int × Option Constraint)} {known : List (Int × Ty)}

theorem numbers_renumber (hvs : ∀ i c, (i, c) ∈ vs → ∃ k, κ i = some k ∧ c = k.constraint)
    (h : Numbers κ known) : Numbers κ (renumber vs known) := by
  induction vs generalizing known with
  | nil => exact h
  | cons v vs ih =>
    obtain ⟨j, c⟩ := v
    have hvs' : ∀ i c, (i, c) ∈ vs → ∃ k, κ i = some k ∧ c = k.constraint :=
      fun i c hv => hvs i c (List.mem_cons_of_mem _ hv)
    unfold renumber
    split
    · exact ih hvs' h
    · refine ih hvs' fun n i u hn => ?_
      rw [List.getElem?_append] at hn
      split at hn
      · exact h n i u hn
      · rename_i hle
        have hn' : n = known.length := by
          have := (List.getElem?_eq_some_iff.mp hn).1
          simp only [List.length_singleton] at this
          omega
        subst hn'
        simp only [Nat.sub_self, List.getElem?_cons_zero, Option.some.injEq, Prod.mk.injEq] at hn
        obtain ⟨k, hk, hc⟩ := hvs j c List.mem_cons_self
        exact ⟨k, hn.1 ▸ hk, hn.2 ▸ hc ▸ rfl⟩

theorem numbered_of_mem_vars (ht : t.Fits κ) {i : Int} {c : Option Constraint}
    (h : (i, c) ∈ t.vars) : ∃ n : Nat, (renumber t.vars []).lookup i = some (.var n c) ∧
      ((renumber t.vars [])[n]?).map (·.1) = some i := by
  obtain ⟨u, hu⟩ := exists_lookup_renumber [] h
  obtain ⟨l₁, l₂, hl, -⟩ := List.lookup_eq_some_iff.mp hu
  have hn : (renumber t.vars [])[l₁.length]? = some (i, u) := by simp [hl]
  have hnum : Numbers κ (renumber t.vars []) :=
    numbers_renumber (fun _ _ hv => ht.of_mem_vars hv) (fun n i u hn => by simp at hn)
  obtain ⟨k, hk, rfl⟩ := hnum _ _ _ hn
  obtain ⟨k', hk', rfl⟩ := ht.of_mem_vars h
  obtain rfl : k = k' := Option.some.inj (hk.symm.trans hk')
  exact ⟨l₁.length, hu, by rw [hn]; rfl⟩

theorem exists_of_numbered {α : Type} [Inhabited α] (ht : t.Fits κ) (f : Int → α) :
    ∃ f' : Int → α, ∀ i c n, (i, c) ∈ t.vars →
      (renumber t.vars []).lookup i = some (.var n c) → f' n = f i := by
  refine ⟨fun j => (((renumber t.vars [])[j.toNat]?).map fun b => f b.1).getD default, ?_⟩
  intro i c n hv hl
  obtain ⟨m, hm, hi⟩ := numbered_of_mem_vars ht hv
  obtain ⟨rfl, -⟩ := Ty.var.inj (Option.some.inj (hl.symm.trans hm))
  obtain ⟨b, hb, rfl⟩ := Option.map_eq_some_iff.mp hi
  simp only [Int.toNat_natCast, hb, Option.map_some, Option.getD_some]

theorem mem_vars_canonical (ht : t.Fits κ) {j : Int} {d : Option Constraint} :
    (j, d) ∈ (canonical t).vars ↔
      ∃ i, (i, d) ∈ t.vars ∧ (renumber t.vars []).lookup i = some (.var j d) := by
  rw [canonical, Ty.vars_mapVars, List.mem_flatMap]
  constructor
  · rintro ⟨⟨i, c⟩, hv, hj⟩
    obtain ⟨n, hn, -⟩ := numbered_of_mem_vars ht hv
    rw [hn, Option.getD_some] at hj
    obtain ⟨rfl, rfl⟩ := Prod.mk.inj (List.mem_singleton.mp hj)
    exact ⟨i, hv, hn⟩
  · rintro ⟨i, hv, hn⟩
    exact ⟨(i, d), hv, by rw [hn]; exact List.mem_singleton.mpr rfl⟩

theorem under_canonical (ht : t.Fits κ) {θ θ' : Assignment} (h : ∀ i c n, (i, c) ∈ t.vars →
      (renumber t.vars []).lookup i = some (.var n c) → θ' n = θ i) :
    (canonical t).under θ' = t.under θ := by
  rw [canonical, Ty.under, Ty.mapVars_mapVars]
  refine Ty.mapVars_congr fun i c hv => ?_
  obtain ⟨n, hn, -⟩ := numbered_of_mem_vars ht hv
  rw [hn, Option.getD_some, Ty.mapVars, h i c n hv hn]

theorem mapVars_canonical (ht : t.Fits κ) {ρ ρ' : Valuation} (h : ∀ i c n, (i, c) ∈ t.vars →
      (renumber t.vars []).lookup i = some (.var n c) → ρ' n = ρ i) :
    (canonical t).mapVars (fun j _ => (ρ' j).toTy) = t.mapVars fun i _ => (ρ i).toTy := by
  have hunder : (canonical t).under ρ'.assignment = t.under ρ.assignment :=
    under_canonical ht fun i c n hv hn => congrArg Ground.toTy (h i c n hv hn)
  exact hunder

/-- A type and its renaming have the same instances. -/
theorem hasInstance_canonical (ht : t.Fits κ) : (canonical t).HasInstance τ ↔ t.HasInstance τ := by
  constructor
  · rintro ⟨ρ', hn, hτ⟩
    let ρ : Valuation := fun i => (((renumber t.vars []).lookup i).map (Ty.reading ρ')).getD .int
    have hρ : ∀ i c n, (renumber t.vars []).lookup i = some (.var n c) → ρ' n = ρ i := by
      intro i c n hl
      simp only [ρ, hl, Option.map_some, Option.getD_some, Ty.reading]
    refine ⟨ρ, fun i hv => ?_, (mapVars_canonical ht fun i c n _ hl => hρ i c n hl).symm.trans hτ⟩
    obtain ⟨n, hl, -⟩ := numbered_of_mem_vars ht hv
    rw [← hρ i _ n hl]
    exact hn n ((mem_vars_canonical ht).mpr ⟨i, hv, hl⟩)
  · rintro ⟨ρ, hn, hτ⟩
    obtain ⟨ρ', hρ⟩ := exists_of_numbered ht ρ
    refine ⟨ρ', fun j hv => ?_, (mapVars_canonical ht hρ).trans hτ⟩
    obtain ⟨i, hi, hl⟩ := (mem_vars_canonical ht).mp hv
    rw [hρ i _ j hi hl]
    exact hn i hi

theorem Sound.hasInstance_externalize (hs : s.Sound κ) (ht : t.Fits κ) :
    (s.externalize t).HasInstance τ ↔ ∃ ρ : Valuation, ρ.Models κ s ∧ t.reading ρ = τ := by
  rw [externalize, hasInstance_canonical (hs.apply ht), hs.hasInstance_apply ht]

theorem Sound.exists_instance (hs : s.Sound κ) (ht : t.Fits κ) :
    ∃ τ, (s.externalize t).HasInstance τ := by
  refine ⟨(s.apply t).reading fun _ => .int, ?_⟩
  rw [externalize, hasInstance_canonical (hs.apply ht), Ty.hasInstance_iff (hs.apply ht)]
  exact ⟨_, fun _ _ => rfl, rfl⟩

end Subst

end Minifun
