import Minifun.Proofs.Ty.MostGeneral

/-! # Bindings over many unifications

Unifications follow each other on one substitution, which a failed one leaves as far as it came. No
binding is lost on the way and no cycle arises, whatever types are unified and whatever constraints
their variables carry. Following the bindings of a variable over and over therefore comes to an end.
-/

namespace Minifun

namespace Subst

/-- The bindings that a unification leaves behind, also when it fails. -/
def kept : Unified → Subst
  | .ok s => s
  | .error (s, _) => s

def unifyAll (s : Subst) (calls : List (Ty × Ty)) : Subst :=
  calls.foldl (fun s c => kept (s.unify c.1 c.2)) s

/-- What a type becomes when the bindings of its variables are followed without a bound on their
number. -/
inductive Resolves (s : Subst) : Ty → Ty → Prop where
  | int : Resolves s .int .int
  | real : Resolves s .real .real
  | bool : Resolves s .bool .bool
  | nothing : Resolves s .nothing .nothing
  | list {a b} : Resolves s a b → Resolves s (.list a) (.list b)
  | fn {a b r q} : Resolves s a b → Resolves s r q → Resolves s (.fn a r) (.fn b q)
  | free {i c} : s.lookup i = none → Resolves s (.var i c) (.var i c)
  | bound {i c t u} : s.lookup i = some t → Resolves s t u → Resolves s (.var i c) u

def Proper (s : Subst) : Prop :=
  ∀ i t, (i, t) ∈ s.bindings → t.isProper = true

/-- What a unification, or the attempt, does to the bindings. They are followed by new ones if `P`
holds, which says that no part of the types at hand is missing. -/
structure Grown (P : Prop) (s s' : Subst) : Prop where
  acyclic : s'.Acyclic
  keeps : ∀ i t, s.lookup i = some t → s'.lookup i = some t
  strength_le : s.strength ≤ s'.strength
  lookup_eq : s'.strength = s.strength → ∀ i, s'.lookup i = s.lookup i
  proper : P → s.Proper → s'.Extends s ∧ s'.Proper

variable {s s' s'' : Subst} {a b r q t u v : Ty} {i : Int} {c : Option Constraint}
  {P P' : Prop}

/-! ### Following bindings -/

theorem resolves_of_settled (h : s.Settled t) : s.Resolves t t := by
  induction t with
  | list a ih => exact .list (ih h)
  | fn a b iha ihb =>
    exact .fn (iha h.param) (ihb h.result)
  | var i c => exact .free (h i c List.mem_cons_self)
  | int => exact .int
  | real => exact .real
  | bool => exact .bool
  | nothing => exact .nothing

theorem Resolves.unique (h : s.Resolves t u) (h' : s.Resolves t v) : u = v := by
  induction h generalizing v with
  | int | real | bool | nothing =>
    cases h'
    rfl
  | list _ ih =>
    cases h' with
    | list h' => rw [ih h']
  | fn _ _ iha ihr =>
    cases h' with
    | fn ha hr => rw [iha ha, ihr hr]
  | free hl =>
    cases h' with
    | free => rfl
    | bound hl' => simp [hl] at hl'
  | bound hl _ ih =>
    cases h' with
    | free hl' => simp [hl] at hl'
    | bound hl' h' =>
      obtain rfl : _ = _ := Option.some.inj (hl.symm.trans hl')
      exact ih h'

/-- Along acyclic bindings every chain ends after as many steps as `applyWithin` makes. -/
theorem resolves_applyWithin (hs : s.Acyclic) (n : Nat) (h : s.Within n t) :
    s.Resolves t (s.applyWithin n t) := by
  induction n generalizing t with
  | zero => exact resolves_of_settled h.settled
  | succ n ih =>
    simp only [applyWithin]
    induction t with
    | list a iha => exact .list (iha h)
    | fn a b iha ihb =>
      have ha : s.Within (n + 1) a := fun i c hv => h i c (List.mem_append_left _ hv)
      have hb : s.Within (n + 1) b := fun i c hv => h i c (List.mem_append_right _ hv)
      exact .fn (iha ha) (ihb hb)
    | var i c =>
      simp only [Ty.mapVars]
      cases hl : s.lookup i with
      | none => exact .free hl
      | some u => exact .bound hl (ih (h.of_lookup hs List.mem_cons_self hl))
    | int => exact .int
    | real => exact .real
    | bool => exact .bool
    | nothing => exact .nothing

theorem resolves_iff (hs : s.Acyclic) : s.Resolves t u ↔ u = s.apply t := by
  have h : s.Resolves t (s.apply t) := resolves_applyWithin hs s.size (within_size s t)
  constructor
  · exact fun hu => hu.unique h
  · rintro rfl
    exact h

/-! ### Proper types -/

theorem isProper_fn : (Ty.fn a r).isProper = true ↔ a.isProper = true ∧ r.isProper = true := by
  simp [Ty.isProper]

theorem isNothing_of_isProper (h : t.isProper = true) : t.isNothing = false := by
  cases t <;> simp_all [Ty.isProper, Ty.isNothing]

theorem Proper.applyWithin (h : s.Proper) (n : Nat) (ht : t.isProper = true) :
    (s.applyWithin n t).isProper = true := by
  induction n generalizing t with
  | zero => exact ht
  | succ n ih =>
    simp only [Subst.applyWithin]
    induction t with
    | list a iha => exact iha ht
    | fn a b iha ihb =>
      rw [isProper_fn] at ht
      exact isProper_fn.mpr ⟨iha ht.1, ihb ht.2⟩
    | var i c =>
      simp only [Ty.mapVars]
      cases hl : s.lookup i with
      | none => rfl
      | some u => exact ih (h i u (mem_bindings_of_lookup hl))
    | int | real | bool => rfl
    | nothing => exact ht

theorem Proper.apply (h : s.Proper) (ht : t.isProper = true) : (s.apply t).isProper = true :=
  h.applyWithin _ ht

theorem Proper.bind (h : s.Proper) (hi : s.lookup i = none) (ht : t.isProper = true) :
    (s.bind i t).Extends s ∧ (s.bind i t).Proper := by
  have hb : (s.bind i t).bindings = s.bindings ++ [(i, t)] :=
    bindings_bind (fun j u hj => isNothing_of_isProper (h j u hj)) hi
  constructor
  · exact ⟨_, hb⟩
  · intro j u hj
    rw [hb, List.mem_append, List.mem_singleton, Prod.mk.injEq] at hj
    rcases hj with hj | ⟨-, rfl⟩
    · exact h j u hj
    · exact ht

/-! ### One unification -/

theorem Grown.refl (hs : s.Acyclic) : Grown P s s where
  acyclic := hs
  keeps _ _ h := h
  strength_le := Nat.le_refl _
  lookup_eq _ _ := rfl
  proper _ h := ⟨.refl s, h⟩

theorem Grown.imp (h : Grown P s s') (hp : P' → P) : Grown P' s s' :=
  { h with proper := fun hP => h.proper (hp hP) }

theorem Grown.trans (h : Grown P s s') (h' : Grown P' s' s'') (hp : P → s'.Proper → P') :
    Grown P s s'' where
  acyclic := h'.acyclic
  keeps i t hl := h'.keeps i t (h.keeps i t hl)
  strength_le := Nat.le_trans h.strength_le h'.strength_le
  lookup_eq he i := by
    have hle := h.strength_le
    have hle' := h'.strength_le
    rw [h'.lookup_eq (by omega), h.lookup_eq (by omega)]
  proper hP hs := by
    obtain ⟨he, hs'⟩ := h.proper hP hs
    obtain ⟨he', hs''⟩ := h'.proper (hp hP hs') hs'
    exact ⟨he'.trans he, hs''⟩

theorem lookup_bind_nothing (hi : s.lookup i = none) (ht : t.isNothing = true) (j : Int) :
    (s.bind i t).lookup j = s.lookup j := by
  simp only [lookup, bind, lookup_insert]
  by_cases hj : j = i
  · rw [if_pos hj, hj, Option.filter_some, if_neg (by simp [ht])]
    exact hi.symm
  · rw [if_neg hj]

theorem Settled.congr (h : s.Settled t) (hl : ∀ i, s'.lookup i = s.lookup i) : s'.Settled t :=
  fun i c hv => (hl i).trans (h i c hv)

theorem Acyclic.congr (h : s.Acyclic) (hl : ∀ i, s'.lookup i = s.lookup i) : s'.Acyclic := by
  have he : s'.Leads = s.Leads := by
    ext i j
    simp only [Leads, hl]
  intro i
  rw [he]
  exact h i

theorem strength_bind_nothing (hi : s.lookup i = none) (ht : t.isNothing = true) :
    (s.bind i t).strength = s.strength := by
  obtain ⟨bs⟩ := s
  simp only [lookup, bind, strength] at *
  induction bs with
  | nil => simp [insert, ht]
  | cons b bs ih =>
    rw [lookup_cons] at hi
    by_cases hb : i = b.1
    · have hn : b.2.isNothing = true := by simpa [hb] using hi
      simp [insert, hb, hn, ht]
    · have hb' : b.1 ≠ i := fun e => hb e.symm
      simp only [hb, if_false] at hi
      simp [insert, hb', List.countP_cons, ih hi]

theorem Grown.bind (hs : s.Acyclic) (hi : s.lookup i = none) (ht : s.Settled t)
    (ho : t.occurs i = false) (hp : P → t.isProper = true) : Grown P s (s.bind i t) := by
  have hproper : P → s.Proper → (s.bind i t).Extends s ∧ (s.bind i t).Proper :=
    fun hP h => h.bind hi (hp hP)
  cases hn : t.isNothing with
  | true =>
    have hl := lookup_bind_nothing hi hn
    have hst := strength_bind_nothing hi hn
    exact ⟨hs.congr hl, fun j u hj => (hl j).trans hj, by omega, fun _ => hl, hproper⟩
  | false =>
    have hst := strength_bind s i t hi hn
    refine ⟨hs.bind hi ht hn ho, fun j u hj => ?_, by omega, fun he => by omega, hproper⟩
    have hne : j ≠ i := by
      rintro rfl
      simp [hi] at hj
    rw [lookup_bind s i j t hn, if_neg hne, hj]

/-- A variable and another type, without bound variables. Of two variables either may be bound: they
differ, so neither occurs in the other. -/
theorem bindVar_grown (hs : s.Acyclic) (hi : s.lookup i = none) (ht : s.Settled t)
    (hne : (Ty.var i c).same t = false) :
    Grown (t.isProper = true) s (kept (s.bindVar i c t)) := by
  unfold bindVar
  split
  · rename_i j hy
    obtain rfl : t = .var j none := by
      cases t with
      | var k d => cases d <;> simp_all [yields]
      | int | real | bool | list | fn | nothing => simp [yields] at hy
    have hij : i ≠ j := by simpa [Ty.same] using hne
    exact .bind hs (ht j none List.mem_cons_self) (settled_var hi)
      (by simp [Ty.occurs, hij]) fun _ => rfl
  · split_ifs with ha ho
    · exact .refl hs
    · exact .refl hs
    · exact .bind hs hi ht (by simpa using ho) fun h => h

theorem unifyRound_grown {again : Subst → Ty → Ty → Unified}
    (hagain : ∀ s a b, s.Acyclic → s.Settled a → s.Settled b →
      Grown (a.isProper = true ∧ b.isProper = true) s (kept (again s a b)))
    (hs : s.Acyclic) (ha : s.Settled a) (hb : s.Settled b) :
    Grown (a.isProper = true ∧ b.isProper = true) s (kept (unifyRound again s a b)) := by
  fun_induction unifyRound again s a b with
  | case1 => exact .refl hs
  | case2 s i c t hne =>
    have hi : s.lookup i = none := ha i c List.mem_cons_self
    exact (bindVar_grown hs hi hb (by simpa using hne)).imp And.right
  | case3 s t i c _ hne =>
    have hi : s.lookup i = none := hb i c List.mem_cons_self
    have hne' : (Ty.var i c).same t = false := by
      rw [Bool.eq_false_iff]
      exact fun h => hne (Ty.same_symm h)
    exact (bindVar_grown hs hi ha hne').imp And.left
  | case4 s a b _ ih => exact ih hs ha hb
  | case5 s a r b q e he _ ih =>
    have hparam := ih hs ha.param hb.param
    rw [he] at hparam
    refine hparam.imp fun hP => ?_
    rw [isProper_fn, isProper_fn] at hP
    exact ⟨hP.1.1, hP.2.1⟩
  | case6 s a r b q s' he hst _ ih ih' =>
    have hparam := ih hs ha.param hb.param
    rw [he] at hparam
    -- No variable came to stand for something, so the results are still without bound variables.
    have hl : ∀ i, s'.lookup i = s.lookup i := hparam.lookup_eq hst
    have hresult := ih' hparam.acyclic (ha.result.congr hl) (hb.result.congr hl)
    simp only [isProper_fn]
    exact (hparam.imp fun hP => ⟨hP.1.1, hP.2.1⟩).trans hresult fun hP _ => ⟨hP.1.2, hP.2.2⟩
  | case7 s a r b q s' he hst _ ih =>
    have hparam := ih hs ha.param hb.param
    rw [he] at hparam
    have hs' : s'.Acyclic := hparam.acyclic
    have hresult := hagain s' _ _ hs' (settled_apply hs' r) (settled_apply hs' q)
    simp only [isProper_fn]
    exact (hparam.imp fun hP => ⟨hP.1.1, hP.2.1⟩).trans hresult fun hP h =>
      ⟨h.apply hP.1.2, h.apply hP.2.2⟩
  | case8 => exact .refl hs

theorem unifyRounds_grown (n : Nat) (hs : s.Acyclic) (ha : s.Settled a) (hb : s.Settled b) :
    Grown (a.isProper = true ∧ b.isProper = true) s (kept (unifyRounds n s a b)) := by
  induction n generalizing s a b with
  | zero => exact unifyRound_grown (fun s a b hs _ _ => .refl hs) hs ha hb
  | succ n ih => exact unifyRound_grown (fun s a b hs ha hb => ih hs ha hb) hs ha hb

/-- A unification loses no binding and makes no cycle, whether it succeeds or fails. -/
theorem unify_grown (hs : s.Acyclic) (a b : Ty) :
    Grown (a.isProper = true ∧ b.isProper = true) s (kept (s.unify a b)) := by
  have h := unifyRounds_grown ((s.apply a).vars.length + (s.apply b).vars.length) hs
    (settled_apply hs a) (settled_apply hs b)
  refine ⟨h.acyclic, h.keeps, h.strength_le, h.lookup_eq, fun hP hp => ?_⟩
  exact h.proper ⟨hp.apply hP.1, hp.apply hP.2⟩ hp

/-! ### Many unifications -/

theorem unifyAll_append (s : Subst) (calls later : List (Ty × Ty)) :
    s.unifyAll (calls ++ later) = (s.unifyAll calls).unifyAll later :=
  List.foldl_append

theorem unifyAll_grown (hs : s.Acyclic) (calls : List (Ty × Ty)) :
    Grown (∀ c ∈ calls, c.1.isProper = true ∧ c.2.isProper = true) s (s.unifyAll calls) := by
  induction calls generalizing s with
  | nil => exact .refl hs
  | cons c calls ih =>
    have hstep := unify_grown hs c.1 c.2
    have hrest := ih hstep.acyclic
    simp only [List.forall_mem_cons]
    exact (hstep.imp And.left).trans hrest fun hP _ => hP.2

/-- Whatever types are unified one after the other, from no bindings at all: later unifications lose
no binding and change none, and if no part of the types is missing they only add further ones. No
variable leads back to itself, so following the bindings of a type ends, and it ends with what
`apply` gives: a type without bound variables, which stays as it is when `apply` is used again. -/
theorem unifyAll_invariant (calls later : List (Ty × Ty)) :
    let s := unifyAll {} calls
    let s' := unifyAll {} (calls ++ later)
    (∀ i t, s.lookup i = some t → s'.lookup i = some t) ∧
    ((∀ c ∈ calls ++ later, c.1.isProper = true ∧ c.2.isProper = true) → s'.Extends s) ∧
    s.Acyclic ∧ (∀ t u, s.Resolves t u ↔ u = s.apply t) ∧ (∀ t, s.Settled (s.apply t)) ∧
    ∀ t, s.apply (s.apply t) = s.apply t := by
  intro s s'
  have hs := unifyAll_grown acyclic_empty calls
  have hs' : Grown (∀ c ∈ later, c.1.isProper = true ∧ c.2.isProper = true) s s' := by
    have := unifyAll_grown hs.acyclic later
    rwa [← unifyAll_append] at this
  have hac : s.Acyclic := hs.acyclic
  refine ⟨hs'.keeps, fun hP => ?_, hac, fun t u => resolves_iff hac, settled_apply hac,
    fun t => apply_of_settled (settled_apply hac t)⟩
  have hp : s.Proper :=
    (hs.proper (fun c hc => hP c (List.mem_append_left _ hc)) (by simp [Proper])).2
  exact (hs'.proper (fun c hc => hP c (List.mem_append_right _ hc)) hp).1

end Subst

end Minifun
