import Minifun.Failure
import Minifun.Proofs.Ty.Acyclic

/-! # Most general unifiers

Unification keeps substitutions sound: acyclic, with constraints as the kinds of the variables say,
and with numeric variables bound to numbers or numeric variables only. The assignments that solve
its result are exactly those that solve what it started from and make the two types equal, and it
fails exactly when there are none.
-/

namespace Minifun

namespace Subst

/-- Variables carry the constraints of their kinds throughout, numeric ones are bound to numeric
types only, and no variable leads back to itself. -/
structure Sound (κ : Kinds) (s : Subst) : Prop where
  known : ∀ i t, (i, t) ∈ s.bindings → ∃ k, κ i = some k
  fits : ∀ i t, (i, t) ∈ s.bindings → t.Fits κ
  numeric : ∀ i t, (i, t) ∈ s.bindings → κ i = some .numeric → t.isNumeric = true
  acyclic : s.Acyclic

def ids (a b : Ty) : Finset Int :=
  ((a.vars ++ b.vars).map (·.1)).toFinset

variable {κ : Kinds} {s s' s₁ : Subst} {a b t u q r : Ty} {i j : Int} {k : Kind} {N : Nat}

theorem mem_ids : i ∈ ids a b ↔ a.occurs i = true ∨ b.occurs i = true := by
  simp [ids, Ty.occurs_iff]

theorem ids_comm (a b : Ty) : ids a b = ids b a := by
  ext i
  rw [mem_ids, mem_ids, or_comm]

theorem sound_empty (κ : Kinds) : ({} : Subst).Sound κ :=
  ⟨fun _ _ h => by simp at h, fun _ _ h => by simp at h, fun _ _ h => by simp at h, acyclic_empty⟩

theorem Sound.bind_bindings (h : s.Sound κ) (hi : s.lookup i = none) :
    (s.bind i t).bindings = s.bindings ++ [(i, t)] :=
  bindings_bind (fun j u hj => (h.fits j u hj).isNothing) hi

theorem Sound.applyWithin (h : s.Sound κ) (n : Nat) (ht : t.Fits κ) :
    (s.applyWithin n t).Fits κ := by
  induction n generalizing t with
  | zero => exact ht
  | succ n ih =>
    refine ht.mapVars fun i k hk => ?_
    cases hl : s.lookup i with
    | none => exact ⟨k, hk, rfl⟩
    | some u => exact ih (h.fits i u (mem_bindings_of_lookup hl))

theorem Sound.apply (h : s.Sound κ) (ht : t.Fits κ) : (s.apply t).Fits κ :=
  h.applyWithin _ ht

theorem Sound.isNumeric_apply (h : s.Sound κ) (ht : t.Fits κ) (hn : t.isNumeric = true) :
    (s.apply t).isNumeric = true := by
  suffices H : ∀ n (t : Ty), t.Fits κ → t.isNumeric = true →
      (s.applyWithin n t).isNumeric = true from H _ t ht hn
  intro n
  induction n with
  | zero => exact fun t _ hn => hn
  | succ n ih =>
    intro t ht hn
    cases t with
    | var i c =>
      obtain ⟨k, hk, rfl⟩ := ht
      obtain rfl : k = .numeric := by
        cases k
        · simp [Ty.isNumeric, Kind.constraint] at hn
        · rfl
      simp only [Subst.applyWithin, Ty.mapVars]
      cases hl : s.lookup i with
      | none => rfl
      | some u =>
        have hm := mem_bindings_of_lookup hl
        exact ih u (h.fits i u hm) (h.numeric i u hm hk)
    | int | real => rfl
    | bool | list | fn | nothing => simp [Ty.isNumeric] at hn

theorem occurs_apply {P : Int → Prop}
    (hP : ∀ i t, P i → s.lookup i = some t → ∀ j, t.occurs j = true → P j)
    (ht : ∀ j, t.occurs j = true → P j) : ∀ j, (s.apply t).occurs j = true → P j := by
  suffices H : ∀ n (t : Ty), (∀ j, t.occurs j = true → P j) →
      ∀ j, (s.applyWithin n t).occurs j = true → P j from H _ t ht
  intro n
  induction n with
  | zero => exact fun t ht => ht
  | succ n ih =>
    intro t ht j hj
    obtain ⟨d, hd⟩ := (Ty.occurs_iff _ _).mp hj
    simp only [Subst.applyWithin, Ty.vars_mapVars, List.mem_flatMap] at hd
    obtain ⟨⟨i, c⟩, hi, hd⟩ := hd
    have hPi := ht i ((Ty.occurs_iff _ _).mpr ⟨c, hi⟩)
    cases hl : s.lookup i with
    | none =>
      simp only [hl, Ty.vars, List.mem_singleton, Prod.mk.injEq] at hd
      rwa [hd.1]
    | some u =>
      simp only [hl] at hd
      exact ih u (hP i u hPi hl) j ((Ty.occurs_iff _ _).mpr ⟨d, hd⟩)

def resolver (s : Subst) (κ : Kinds) : Assignment :=
  fun i => s.apply (.var i ((κ i).getD .any).constraint)

theorem under_resolver (h : t.Fits κ) : t.under (s.resolver κ) = s.apply t := by
  have hmap : ∀ n : Nat, t.mapVars (fun i _ => s.applyWithin n
      (.var i ((κ i).getD .any).constraint)) = s.applyWithin n t := by
    intro n
    induction t with
    | list a ih => cases n <;> simpa [Ty.mapVars, applyWithin] using ih h
    | fn a b iha ihb =>
      have := And.intro (iha h.1) (ihb h.2)
      cases n <;> simpa [Ty.mapVars, applyWithin] using this
    | var i c =>
      obtain ⟨k, hk, rfl⟩ := h
      simp [Ty.mapVars, hk]
    | int | real | bool => cases n <;> rfl
    | nothing => exact h.elim
  exact hmap s.size

theorem Sound.resolver_solves (h : s.Sound κ) : (s.resolver κ).Solves s := by
  intro i t hl
  rw [under_resolver (h.fits i t (mem_bindings_of_lookup hl)), resolver,
    apply_var_of_lookup h.acyclic hl]
  exact Ty.same_refl _

theorem Sound.resolver_respects (h : s.Sound κ) : (s.resolver κ).Respects κ := by
  intro i hi
  refine h.isNumeric_apply ⟨.numeric, hi, ?_⟩ ?_ <;> simp [hi, Kind.constraint, Ty.isNumeric]

theorem Extends.strength_le (h : s'.Extends s) : s.strength ≤ s'.strength := by
  obtain ⟨m, hm⟩ := h
  simp [strength, hm]

structure Unifies (κ : Kinds) (s : Subst) (a b : Ty) (s' : Subst) : Prop where
  sound : s'.Sound κ
  extends_ : s'.Extends s
  solves_iff : ∀ θ : Assignment, θ.Respects κ →
    (θ.Solves s' ↔ θ.Solves s ∧ (a.under θ).same (b.under θ) = true)
  /-- New bindings are among the variables of the two types. -/
  lookup_cases : ∀ i t, s'.lookup i = some t → s.lookup i = some t ∨
    (i ∈ ids a b ∧ ∀ j, t.occurs j = true → j ∈ ids a b)
  eq_of_strength : s'.strength = s.strength → s' = s
  progress : s' = s ∨ ∃ i ∈ ids a b, (s'.lookup i).isSome = true

/-- What unification comes to: a substitution, or the certainty that there is none. -/
def Outcome (κ : Kinds) (s : Subst) (a b : Ty) : Unified → Prop
  | .ok s' => Unifies κ s a b s'
  | .error _ => ∀ θ : Assignment, θ.Respects κ → θ.Solves s →
    (a.under θ).same (b.under θ) = false

theorem same_comm (a b : Ty) : a.same b = b.same a :=
  Bool.eq_iff_iff.mpr ⟨Ty.same_symm, Ty.same_symm⟩

theorem Unifies.symm (h : Unifies κ s a b s') : Unifies κ s b a s' where
  sound := h.sound
  extends_ := h.extends_
  solves_iff θ hθ := by rw [h.solves_iff θ hθ, same_comm]
  lookup_cases := by simpa only [ids_comm b a] using h.lookup_cases
  eq_of_strength := h.eq_of_strength
  progress := by simpa only [ids_comm b a] using h.progress

theorem Outcome.symm {res : Unified} (h : Outcome κ s a b res) : Outcome κ s b a res := by
  cases res with
  | ok s' => exact Unifies.symm h
  | error e => exact fun θ hθ hs => (same_comm _ _).trans (h θ hθ hs)

theorem Unifies.of_same (hs : s.Sound κ) (h : a.same b = true) : Unifies κ s a b s where
  sound := hs
  extends_ := .refl s
  solves_iff θ _ := by simp [Ty.under_eq_of_same h θ]
  lookup_cases i t ht := .inl ht
  eq_of_strength _ := rfl
  progress := .inl rfl

theorem Unifies.bind (hs : s.Sound κ) (hi : s.lookup i = none) (hk : κ i = some k)
    (ht : t.Fits κ) (hst : s.Settled t) (ho : t.occurs i = false)
    (hn : k = .numeric → t.isNumeric = true) :
    Unifies κ s (.var i k.constraint) t (s.bind i t) where
  sound := by
    have hb := hs.bind_bindings (t := t) hi
    refine ⟨?_, ?_, ?_, hs.acyclic.bind hi hst ht.isNothing ho⟩
    all_goals
      intro j u hj
      rw [hb, List.mem_append, List.mem_singleton, Prod.mk.injEq] at hj
    · rcases hj with hj | ⟨rfl, rfl⟩
      · exact hs.known j u hj
      · exact ⟨k, hk⟩
    · rcases hj with hj | ⟨rfl, rfl⟩
      · exact hs.fits j u hj
      · exact ht
    · rcases hj with hj | ⟨rfl, rfl⟩
      · exact hs.numeric j u hj
      · exact fun h => hn (Option.some.inj (hk.symm.trans h))
  extends_ := ⟨[(i, t)], hs.bind_bindings hi⟩
  solves_iff θ _ := Assignment.solves_bind hi ht.isNothing
  lookup_cases j u hj := by
    rw [lookup_bind s i j t ht.isNothing] at hj
    split_ifs at hj with he
    · obtain rfl := Option.some.inj hj
      refine .inr ⟨?_, fun j hj => mem_ids.mpr (.inr hj)⟩
      exact mem_ids.mpr (.inl (by simp [he, Ty.occurs, Ty.vars]))
    · exact .inl hj
  eq_of_strength h := by
    rw [strength_bind s i t hi ht.isNothing] at h
    omega
  progress := by
    refine .inr ⟨i, mem_ids.mpr (.inl (by simp [Ty.occurs, Ty.vars])), ?_⟩
    simp [lookup_bind s i i t ht.isNothing]

theorem yields_eq_some (h : yields k.constraint t = some j) : t = .var j none ∧ k = .numeric := by
  cases t with
  | var l d => cases d <;> cases k <;> simp_all [yields, Kind.constraint]
  | int | real | bool | list | fn | nothing => exact nomatch h

theorem isNumeric_of_admits (ht : t.Fits κ) (hy : yields Kind.numeric.constraint t = none)
    (ha : admits Kind.numeric.constraint t = true) : t.isNumeric = true := by
  cases t with
  | var j d =>
    obtain ⟨l, -, rfl⟩ := ht
    cases l with
    | any => exact nomatch hy
    | numeric => rfl
  | int | real => rfl
  | bool | list | fn | nothing => exact nomatch ha

theorem not_same_of_not_admits (ht : t.Fits κ) (hk : κ i = some k)
    (ha : admits k.constraint t = false) {θ : Assignment} (hθ : θ.Respects κ) :
    (θ i).same (t.under θ) = false := by
  obtain rfl : k = .numeric := by
    cases k with
    | any => exact nomatch ha
    | numeric => rfl
  have hi := hθ i hk
  cases t with
  | var j d =>
    obtain ⟨l, -, rfl⟩ := ht
    cases l <;> exact nomatch ha
  | int | real => exact nomatch ha
  | bool | list | fn =>
    cases h : θ i <;> simp [h, Ty.isNumeric] at hi <;> simp [Ty.same, Ty.under, Ty.mapVars]
  | nothing => exact ht.elim

/-- A variable and a type that is not that variable. The swap of a constrained and a free variable
binds the free one, which the general case does too, the other way round. -/
theorem bindVar_outcome {c : Option Constraint} (hs : s.Sound κ) (hi : (Ty.var i c).Fits κ)
    (ht : t.Fits κ) (hsi : s.lookup i = none) (hst : s.Settled t)
    (hne : t.same (.var i c) = false) : Outcome κ s (.var i c) t (s.bindVar i c t) := by
  obtain ⟨k, hk, rfl⟩ := hi
  unfold bindVar
  cases hy : yields k.constraint t with
  | some j =>
    obtain ⟨rfl, -⟩ := yields_eq_some hy
    obtain ⟨l, hl, hc⟩ := ht
    obtain rfl : l = .any := by
      cases l with
      | any => rfl
      | numeric => exact nomatch hc
    have hij : i ≠ j := by
      rintro rfl
      simp [Ty.same] at hne
    have hsj : s.lookup j = none := hst j none List.mem_cons_self
    exact Unifies.symm (Unifies.bind hs hsj hl ⟨k, hk, rfl⟩ (settled_var hsi)
      (by simp [Ty.occurs, Ty.vars, hij]) (by simp))
  | none =>
    dsimp only
    split_ifs with ha ho
    · intro θ hθ _
      exact not_same_of_not_admits ht hk (by simpa using ha) hθ
    · intro θ _ _
      refine Ty.not_same_of_occurs ho fun c' => ?_
      cases t <;> first | rfl | simpa [Ty.same] using hne
    · refine Unifies.bind hs hsi hk ht hst (by simpa using ho) ?_
      rintro rfl
      exact isNumeric_of_admits ht hy (by simpa using ha)

theorem settled_iff : s.Settled t ↔ ∀ i, t.occurs i = true → s.lookup i = none := by
  simp only [Settled, Ty.occurs_iff, forall_exists_index]

theorem occurs_fn : (Ty.fn a r).occurs i = true ↔ a.occurs i = true ∨ r.occurs i = true := by
  simp [Ty.occurs, Ty.vars]

theorem ids_param_subset (a b r q : Ty) : ids a b ⊆ ids (.fn a r) (.fn b q) := by
  intro i hi
  rw [mem_ids] at hi ⊢
  exact hi.imp (fun h => occurs_fn.mpr (.inl h)) (fun h => occurs_fn.mpr (.inl h))

theorem ids_result_subset (a b r q : Ty) : ids r q ⊆ ids (.fn a r) (.fn b q) := by
  intro i hi
  rw [mem_ids] at hi ⊢
  exact hi.imp (fun h => occurs_fn.mpr (.inr h)) (fun h => occurs_fn.mpr (.inr h))

theorem Unifies.ids_apply_subset (h : Unifies κ s a b s₁) (hr : s.Settled (.fn a r))
    (hq : s.Settled (.fn b q)) :
    ids (s₁.apply r) (s₁.apply q) ⊆ ids (.fn a r) (.fn b q) := by
  have hfree : ∀ i ∈ ids (.fn a r) (.fn b q), s.lookup i = none := by
    intro i hi
    rcases mem_ids.mp hi with hi | hi
    · exact settled_iff.mp hr i hi
    · exact settled_iff.mp hq i hi
  have hclosed : ∀ i t, i ∈ ids (.fn a r) (.fn b q) → s₁.lookup i = some t →
      ∀ j, t.occurs j = true → j ∈ ids (.fn a r) (.fn b q) := by
    intro i t hi ht j hj
    rcases h.lookup_cases i t ht with hold | ⟨-, hnew⟩
    · simp [hfree i hi] at hold
    · exact ids_param_subset a b r q (hnew j hj)
  intro j hj
  have hres := ids_result_subset a b r q
  rcases mem_ids.mp hj with hj | hj
  · exact occurs_apply hclosed (fun j hj => hres (mem_ids.mpr (.inl hj))) j hj
  · exact occurs_apply hclosed (fun j hj => hres (mem_ids.mpr (.inr hj))) j hj

/-- A binding among the parameters takes a variable out of the results. -/
theorem Unifies.card_ids_apply_lt (h : Unifies κ s a b s₁) (hr : s.Settled (.fn a r))
    (hq : s.Settled (.fn b q)) (hne : s₁ ≠ s) :
    (ids (s₁.apply r) (s₁.apply q)).card < (ids (.fn a r) (.fn b q)).card := by
  obtain ⟨i, hi, hb⟩ := h.progress.resolve_left hne
  apply Finset.card_lt_card
  refine ⟨h.ids_apply_subset hr hq, fun hsub => ?_⟩
  have hbound : s₁.lookup i = none := by
    rcases mem_ids.mp (hsub (ids_param_subset a b r q hi)) with ho | ho
    · exact settled_iff.mp (settled_apply h.sound.acyclic r) i ho
    · exact settled_iff.mp (settled_apply h.sound.acyclic q) i ho
  simp [hbound] at hb

theorem Unifies.fn {res : Unified} (h : Unifies κ s a b s₁) (hr : s.Settled (.fn a r))
    (hq : s.Settled (.fn b q)) (h' : Outcome κ s₁ (s₁.apply r) (s₁.apply q) res) :
    Outcome κ s (.fn a r) (.fn b q) res := by
  cases res with
  | error e =>
    intro θ hθ hs
    by_contra hsame
    simp only [Ty.under, Ty.mapVars, Ty.same, Bool.not_eq_false, Bool.and_eq_true] at hsame
    have h₁ := (h.solves_iff θ hθ).mpr ⟨hs, hsame.1⟩
    have h₂ := h' θ hθ h₁
    rw [h₁.same_apply] at h₂
    simp [Ty.under, hsame.2] at h₂
  | ok s₂ =>
    have h₂ : Unifies κ s₁ (s₁.apply r) (s₁.apply q) s₂ := h'
    have hsub := h.ids_apply_subset hr hq
    refine ⟨h₂.sound, h₂.extends_.trans h.extends_, fun θ hθ => ?_, fun i t ht => ?_, fun hst => ?_,
      ?_⟩
    · rw [h₂.solves_iff θ hθ, h.solves_iff θ hθ]
      have hfn : ((Ty.fn a r).under θ).same ((Ty.fn b q).under θ) = true ↔
          (a.under θ).same (b.under θ) = true ∧ (r.under θ).same (q.under θ) = true := by
        simp [Ty.under, Ty.mapVars, Ty.same]
      rw [hfn]
      constructor
      · rintro ⟨⟨hs, hab⟩, hrq⟩
        rw [((h.solves_iff θ hθ).mpr ⟨hs, hab⟩).same_apply] at hrq
        exact ⟨hs, hab, hrq⟩
      · rintro ⟨hs, hab, hrq⟩
        refine ⟨⟨hs, hab⟩, ?_⟩
        rwa [((h.solves_iff θ hθ).mpr ⟨hs, hab⟩).same_apply]
    · rcases h₂.lookup_cases i t ht with ht | ⟨hi, hj⟩
      · refine (h.lookup_cases i t ht).imp_right ?_
        rintro ⟨hi, hj⟩
        exact ⟨ids_param_subset a b r q hi, fun j h => ids_param_subset a b r q (hj j h)⟩
      · exact .inr ⟨hsub hi, fun j h => hsub (hj j h)⟩
    · have hle := h.extends_.strength_le
      have hle' := h₂.extends_.strength_le
      have e₁ := h.eq_of_strength (by omega)
      rw [h₂.eq_of_strength (by omega), e₁]
    · rcases h₂.progress with rfl | ⟨i, hi, hb⟩
      · refine h.progress.imp_right ?_
        rintro ⟨i, hi, hb⟩
        exact ⟨i, ids_param_subset a b r q hi, hb⟩
      · exact .inr ⟨i, hsub hi, hb⟩

structure Ready (κ : Kinds) (s : Subst) (a b : Ty) : Prop where
  sound : s.Sound κ
  left : a.Fits κ
  right : b.Fits κ
  settledLeft : s.Settled a
  settledRight : s.Settled b

theorem Ready.param (h : Ready κ s (.fn a r) (.fn b q)) : Ready κ s a b :=
  ⟨h.sound, h.left.1, h.right.1, h.settledLeft.param, h.settledRight.param⟩

theorem ready_apply (hs : s.Sound κ) (ha : a.Fits κ) (hb : b.Fits κ) :
    Ready κ s (s.apply a) (s.apply b) :=
  ⟨hs, hs.apply ha, hs.apply hb, settled_apply hs.acyclic a, settled_apply hs.acyclic b⟩

/-- One round comes to its end if the next one does on fewer variables. -/
theorem unifyRound_outcome {again : Subst → Ty → Ty → Unified}
    (hagain : ∀ s a b, Ready κ s a b → (ids a b).card < N → Outcome κ s a b (again s a b))
    (h : Ready κ s a b) (hN : (ids a b).card ≤ N) :
    Outcome κ s a b (unifyRound again s a b) := by
  fun_induction unifyRound again s a b with
  | case1 s a b hsame => exact Unifies.of_same h.sound hsame
  | case2 s i c t hne =>
    have hi : s.lookup i = none := h.settledLeft i c List.mem_cons_self
    exact bindVar_outcome h.sound h.left h.right hi h.settledRight
      (by rwa [same_comm, Bool.not_eq_true] at hne)
  | case3 s t i c _ hne =>
    have hi : s.lookup i = none := h.settledRight i c List.mem_cons_self
    exact (bindVar_outcome h.sound h.right h.left hi h.settledLeft
      (by rwa [Bool.not_eq_true] at hne)).symm
  | case4 s a b _ ih =>
    have hlist := ih ⟨h.sound, h.left, h.right, h.settledLeft, h.settledRight⟩ hN
    cases hres : unifyRound again s a b with
    | error e => rwa [hres] at hlist
    | ok s' =>
      rw [hres] at hlist
      exact ⟨hlist.sound, hlist.extends_, hlist.solves_iff, hlist.lookup_cases,
        hlist.eq_of_strength, hlist.progress⟩
  | case5 s a r b q e he _ ih =>
    have hparam := ih h.param ((Finset.card_le_card (ids_param_subset a b r q)).trans hN)
    rw [he] at hparam
    intro θ hθ hs
    have := hparam θ hθ hs
    simp_all [Ty.under, Ty.mapVars, Ty.same]
  | case6 s a r b q s' he hst _ ih ih' =>
    have hparam := ih h.param ((Finset.card_le_card (ids_param_subset a b r q)).trans hN)
    rw [he] at hparam
    -- Nothing was bound, so the results are still without bound variables.
    obtain rfl : s' = s := hparam.eq_of_strength hst
    have hready : Ready κ s' r q :=
      ⟨h.sound, h.left.2, h.right.2, h.settledLeft.result, h.settledRight.result⟩
    have hres := ih' hready ((Finset.card_le_card (ids_result_subset a b r q)).trans hN)
    apply Unifies.fn hparam h.settledLeft h.settledRight
    rwa [apply_of_settled hready.settledLeft, apply_of_settled hready.settledRight]
  | case7 s a r b q s' he hst _ ih =>
    have hparam := ih h.param ((Finset.card_le_card (ids_param_subset a b r q)).trans hN)
    rw [he] at hparam
    have hne : s' ≠ s := fun e => hst (by rw [e])
    have hlt := hparam.card_ids_apply_lt h.settledLeft h.settledRight hne
    apply Unifies.fn hparam h.settledLeft h.settledRight
    exact hagain s' _ _ (ready_apply hparam.sound h.left.2 h.right.2) (by omega)
  | case8 s a b ha hb hl hf hne =>
    intro θ _ _
    cases a <;> cases b <;>
      first
      | rfl
      | exact (hne rfl).elim
      | exact (ha _ _ rfl).elim
      | exact (hb _ _ rfl).elim
      | exact (hl _ _ rfl rfl).elim
      | exact (hf _ _ _ _ rfl rfl).elim

theorem unifyRounds_outcome (n : Nat) (h : Ready κ s a b) (hn : (ids a b).card ≤ n) :
    Outcome κ s a b (unifyRounds n s a b) := by
  induction n generalizing s a b with
  | zero => exact unifyRound_outcome (fun s a b _ hlt => absurd hlt (Nat.not_lt_zero _)) h hn
  | succ n ih =>
    exact unifyRound_outcome (fun s a b hr hlt => ih hr (Nat.le_of_lt_succ hlt)) h hn

theorem unify_outcome (hs : s.Sound κ) (ha : a.Fits κ) (hb : b.Fits κ) :
    Outcome κ s (s.apply a) (s.apply b) (s.unify a b) := by
  refine unifyRounds_outcome _ (ready_apply hs ha hb) ?_
  calc (ids (s.apply a) (s.apply b)).card
      ≤ (((s.apply a).vars ++ (s.apply b).vars).map (·.1)).length := List.toFinset_card_le _
    _ = (s.apply a).vars.length + (s.apply b).vars.length := by simp

/-- The solutions of the result are the solutions from before that make the types equal. -/
theorem Sound.unify_ok (hs : s.Sound κ) (ha : a.Fits κ) (hb : b.Fits κ)
    (h : s.unify a b = .ok s') : s'.Sound κ ∧ s'.Extends s ∧ ∀ θ : Assignment, θ.Respects κ →
      (θ.Solves s' ↔ θ.Solves s ∧ (a.under θ).same (b.under θ) = true) := by
  have ho := unify_outcome hs ha hb
  rw [h] at ho
  refine ⟨ho.sound, ho.extends_, fun θ hθ => ?_⟩
  rw [ho.solves_iff θ hθ]
  exact and_congr_right fun hθs => by rw [hθs.same_apply]

theorem Sound.unify_error (hs : s.Sound κ) (ha : a.Fits κ) (hb : b.Fits κ) {e : Subst × Clash}
    (h : s.unify a b = .error e) (θ : Assignment) (hθ : θ.Respects κ) (hθs : θ.Solves s) :
    (a.under θ).same (b.under θ) = false := by
  have ho := unify_outcome hs ha hb
  rw [h] at ho
  rw [← hθs.same_apply]
  exact ho θ hθ hθs

end Subst

namespace Infer

variable {κ : Kinds} {a b : Ty} {st st' : InferState} {label : String} {loc : Option Loc}

theorem unify_eq_ok (h : unify label loc a b st = .ok () st') :
    st.subst.unify a b = .ok st'.subst ∧ st' = { st with subst := st'.subst } := by
  unfold unify at h
  split at h
  · rename_i s hs
    obtain ⟨-, rfl⟩ := EStateM.Result.ok.inj h
    exact ⟨hs, rfl⟩
  · exact nomatch h

theorem unify_eq_error {e : TypeError} (h : unify label loc a b st = .error e st') :
    ∃ clash, st.subst.unify a b = .error (st'.subst, clash) ∧ e = ⟨.clash label clash, loc⟩ := by
  unfold unify at h
  split at h
  · exact nomatch h
  · rename_i s clash hs
    obtain ⟨rfl, rfl⟩ := EStateM.Result.error.inj h
    exact ⟨clash, hs, rfl⟩

/-- Unification succeeds exactly when some assignment solves the bindings and makes the two types
equal. Its result then extends the bindings, keeps them sound, makes the types equal and is solved
by every such assignment. Otherwise it fails for the rule that the label describes. -/
theorem unify_mostGeneral (κ : Kinds) (label : String) (loc : Option Loc) (st : InferState)
    (a b : Ty) (hs : st.subst.Sound κ) (ha : a.Fits κ) (hb : b.Fits κ) :
    ((∃ st', unify label loc a b st = .ok () st') ↔
      ∃ θ : Assignment, θ.Solves st.subst ∧ θ.Respects κ ∧ (a.under θ).same (b.under θ) = true) ∧
    (∀ st', unify label loc a b st = .ok () st' →
      st' = { st with subst := st'.subst } ∧ st'.subst.Extends st.subst ∧ st'.subst.Sound κ ∧
      st'.subst.apply a = st'.subst.apply b ∧
      ∀ θ : Assignment, θ.Solves st.subst → θ.Respects κ → (a.under θ).same (b.under θ) = true →
        θ.Solves st'.subst) ∧
    (∀ e st', unify label loc a b st = .error e st' →
      (∃ clash, e.cause = .clash label clash) ∧ e.loc = loc ∧
      e.diagnostic.message = "Unification error: " ++ label) := by
  refine ⟨⟨?_, ?_⟩, ?_, ?_⟩
  · rintro ⟨st', h⟩
    obtain ⟨hu, -⟩ := unify_eq_ok h
    obtain ⟨hs', -, hiff⟩ := hs.unify_ok ha hb hu
    have hr := hs'.resolver_respects
    have hsol := (hiff _ hr).mp hs'.resolver_solves
    exact ⟨_, hsol.1, hr, hsol.2⟩
  · rintro ⟨θ, hθs, hθ, hab⟩
    cases h : unify label loc a b st with
    | ok _ st' => exact ⟨st', rfl⟩
    | error e st' =>
      obtain ⟨clash, hu, -⟩ := unify_eq_error h
      simp [hs.unify_error ha hb hu θ hθ hθs] at hab
  · intro st' h
    obtain ⟨hu, hst⟩ := unify_eq_ok h
    obtain ⟨hs', he, hiff⟩ := hs.unify_ok ha hb hu
    have hsol := (hiff _ hs'.resolver_respects).mp hs'.resolver_solves
    rw [Subst.under_resolver ha, Subst.under_resolver hb] at hsol
    exact ⟨hst, he, hs', Ty.Fits.eq_of_same (hs'.apply ha) (hs'.apply hb) hsol.2,
      fun θ hθs hθ hab => (hiff θ hθ).mpr ⟨hθs, hab⟩⟩
  · intro e st' h
    obtain ⟨clash, -, rfl⟩ := unify_eq_error h
    exact ⟨⟨clash, rfl⟩, rfl, rfl⟩

/-- With `t1 := [ t2 ]` known, a function from a numeric variable to `t1` can be made equal to one
from `int` to a list of truth values. -/
theorem unify_mostGeneral_fn :
    ∃ (κ : Kinds) (s : Subst), s.bindings = [(1, .list (.var 2 none))] ∧ s.Sound κ ∧
      ∃ st', unify "rule" none (.fn (.var 0 (some .numeric)) (.var 1 none))
          (.fn .int (.list .bool)) { subst := s } = .ok () st' ∧
        st'.subst.apply (.fn (.var 0 (some .numeric)) (.var 1 none)) =
          st'.subst.apply (.fn .int (.list .bool)) := by
  let κ : Kinds := fun i => if i = 0 then some .numeric else some .any
  let s : Subst := ({} : Subst).bind 1 (.list (.var 2 none))
  have hbind : Subst.Unifies κ {} (.var 1 Kind.any.constraint) (.list (.var 2 none)) s :=
    Subst.Unifies.bind (Subst.sound_empty κ) rfl rfl ⟨.any, rfl, rfl⟩ (fun _ _ _ => rfl) rfl
      (fun h => nomatch h)
  have h := unify_mostGeneral κ "rule" none { subst := s }
    (.fn (.var 0 (some .numeric)) (.var 1 none)) (.fn .int (.list .bool)) hbind.sound
    ⟨⟨.numeric, rfl, rfl⟩, .any, rfl, rfl⟩ ⟨trivial, trivial⟩
  have hok : ∃ st', unify "rule" none (.fn (.var 0 (some .numeric)) (.var 1 none))
      (.fn .int (.list .bool)) { subst := s } = .ok () st' := ⟨_, rfl⟩
  obtain ⟨st', hst'⟩ := hok
  exact ⟨κ, s, rfl, hbind.sound, st', hst', (h.2.1 st' hst').2.2.2.1⟩

end Infer

end Minifun
