import Mathlib.Data.Finset.Card
import Mathlib.Logic.Relation
import Minifun.Proofs.Ty.Assignment

/-! # Acyclic substitutions

A bound variable leads to the variables of its binding. When none leads back to itself, the bound
variables that can be reached from one grow fewer along every step, so as many steps as there are
bindings reach the end of every chain: no variable that is left stands for something.
-/

namespace Minifun

namespace Subst

def Leads (s : Subst) (i j : Int) : Prop :=
  ∃ t, s.lookup i = some t ∧ t.occurs j = true

def Acyclic (s : Subst) : Prop :=
  ∀ i, ¬ Relation.TransGen s.Leads i i

/-- No variable of the type is bound. -/
def Settled (s : Subst) (t : Ty) : Prop :=
  ∀ i c, (i, c) ∈ t.vars → s.lookup i = none

/-- The bindings of one substitution are followed by further ones in another. -/
def Extends (s' s : Subst) : Prop :=
  ∃ new, s'.bindings = s.bindings ++ new

open Classical in
/-- The bound variables that can be reached from a variable. -/
noncomputable def reach (s : Subst) (i : Int) : Finset Int :=
  (s.bindings.map (·.1)).toFinset.filter fun k =>
    Relation.ReflTransGen s.Leads i k ∧ (s.lookup k).isSome = true

variable {s s' s'' : Subst} {t u : Ty} {i j : Int} {n : Nat}

theorem mem_bindings_of_lookup (h : s.lookup i = some t) : (i, t) ∈ s.bindings := by
  rw [lookup, Option.filter_eq_some_iff] at h
  obtain ⟨l₁, l₂, hl, -⟩ := List.lookup_eq_some_iff.mp h.1
  rw [hl]
  exact List.mem_append_right _ List.mem_cons_self

theorem bindings_bind (hs : ∀ j u, (j, u) ∈ s.bindings → u.isNothing = false)
    (hi : s.lookup i = none) : (s.bind i t).bindings = s.bindings ++ [(i, t)] := by
  refine insert_of_lookup_eq_none ?_
  cases hl : s.bindings.lookup i with
  | none => rfl
  | some u =>
    obtain ⟨l₁, l₂, he, -⟩ := List.lookup_eq_some_iff.mp hl
    have hu := hs i u (by simp [he])
    simp [lookup, hl, hu] at hi

theorem mem_reach {k : Int} :
    k ∈ s.reach i ↔ Relation.ReflTransGen s.Leads i k ∧ (s.lookup k).isSome = true := by
  simp only [reach, Finset.mem_filter, List.mem_toFinset, List.mem_map, and_iff_right_iff_imp]
  rintro ⟨-, h⟩
  obtain ⟨t, ht⟩ := Option.isSome_iff_exists.mp h
  exact ⟨(k, t), mem_bindings_of_lookup ht, rfl⟩

theorem card_reach_le_size (s : Subst) (i : Int) : (s.reach i).card ≤ s.size := by
  classical
  calc (s.reach i).card ≤ (s.bindings.map (·.1)).toFinset.card := Finset.card_filter_le _ _
    _ ≤ (s.bindings.map (·.1)).length := List.toFinset_card_le _
    _ = s.size := by simp [size]

theorem card_reach_lt_of_leads (hs : s.Acyclic) (h : s.Leads i j) :
    (s.reach j).card < (s.reach i).card := by
  apply Finset.card_lt_card
  refine ⟨fun k hk => ?_, fun hk => ?_⟩
  · rw [mem_reach] at hk ⊢
    exact ⟨.head h hk.1, hk.2⟩
  · have hb : (s.lookup i).isSome = true := by
      obtain ⟨t, ht, -⟩ := h
      simp [ht]
    have hi := hk (mem_reach.mpr ⟨.refl, hb⟩)
    exact hs i (.head' h (mem_reach.mp hi).1)

theorem lookup_of_card_reach_zero (h : (s.reach i).card ≤ 0) : s.lookup i = none := by
  cases hl : s.lookup i with
  | none => rfl
  | some t =>
    have hi : i ∈ s.reach i := mem_reach.mpr ⟨.refl, by simp [hl]⟩
    simp [Finset.card_eq_zero.mp (Nat.le_zero.mp h)] at hi

theorem settled_var {c : Option Constraint} (h : s.lookup i = none) : s.Settled (.var i c) := by
  intro j d hv
  obtain ⟨rfl, -⟩ : j = i ∧ d = c := by simpa [Ty.vars] using hv
  exact h

theorem Settled.param (h : s.Settled (.fn t u)) : s.Settled t :=
  fun i c hv => h i c (List.mem_append_left _ hv)

theorem Settled.result (h : s.Settled (.fn t u)) : s.Settled u :=
  fun i c hv => h i c (List.mem_append_right _ hv)

theorem applyWithin_of_settled (h : s.Settled t) (n : Nat) : s.applyWithin n t = t := by
  cases n with
  | zero => rfl
  | succ n =>
    conv_rhs => rw [← Ty.mapVars_var t]
    exact Ty.mapVars_congr fun i c hv => by simp [h i c hv]

theorem apply_of_settled (h : s.Settled t) : s.apply t = t :=
  applyWithin_of_settled h _

def Within (s : Subst) (n : Nat) (t : Ty) : Prop :=
  ∀ i c, (i, c) ∈ t.vars → (s.reach i).card ≤ n

theorem within_size (s : Subst) (t : Ty) : s.Within s.size t :=
  fun i _ _ => card_reach_le_size s i

theorem Within.settled (h : s.Within 0 t) : s.Settled t :=
  fun i c hv => lookup_of_card_reach_zero (h i c hv)

/-- Following a binding shortens the chains. -/
theorem Within.of_lookup (hs : s.Acyclic) {c : Option Constraint} (h : s.Within (n + 1) t)
    (hv : (i, c) ∈ t.vars) (hl : s.lookup i = some u) : s.Within n u := by
  intro j d hj
  have hlt := card_reach_lt_of_leads hs ⟨u, hl, (Ty.occurs_iff j u).mpr ⟨d, hj⟩⟩
  have hle := h i c hv
  omega

theorem applyWithin_succ (hs : s.Acyclic) (h : s.Within n t) :
    s.applyWithin (n + 1) t = s.applyWithin n t := by
  induction n generalizing t with
  | zero => rw [applyWithin_of_settled h.settled, applyWithin_of_settled h.settled]
  | succ n ih =>
    refine Ty.mapVars_congr fun i c hv => ?_
    cases hl : s.lookup i with
    | none => rfl
    | some u => exact ih (h.of_lookup hs hv hl)

theorem apply_var_of_lookup (hs : s.Acyclic) (h : s.lookup i = some t) (c : Option Constraint) :
    s.apply (.var i c) = s.apply t := by
  have hw : s.Within (s.size - 1 + 1) (.var i c) := by
    intro j d _
    have := card_reach_le_size s j
    omega
  have ht : s.Within (s.size - 1) t := hw.of_lookup hs List.mem_cons_self h
  have hz : 0 < s.size := List.length_pos_of_mem (mem_bindings_of_lookup h)
  rw [apply, apply, ← Nat.sub_one_add_one (Nat.pos_iff_ne_zero.mp hz), applyWithin_succ hs ht]
  simp [applyWithin, Ty.mapVars, h]

theorem settled_apply (hs : s.Acyclic) (t : Ty) : s.Settled (s.apply t) := by
  suffices H : ∀ n t, s.Within n t → s.Settled (s.applyWithin n t) from H _ t (within_size s t)
  intro n
  induction n with
  | zero => exact fun t h => h.settled
  | succ n ih =>
    intro t h j d hv
    simp only [applyWithin, Ty.vars_mapVars, List.mem_flatMap] at hv
    obtain ⟨⟨i, c⟩, hi, hv⟩ := hv
    cases hl : s.lookup i with
    | none =>
      simp only [hl, Ty.vars, List.mem_singleton, Prod.mk.injEq] at hv
      rwa [hv.1]
    | some u =>
      simp only [hl] at hv
      exact ih u (h.of_lookup hs hi hl) j d hv

theorem acyclic_empty : ({} : Subst).Acyclic := by
  intro i h
  obtain ⟨j, ⟨t, ht, -⟩, -⟩ := Relation.TransGen.head'_iff.mp h
  simp [lookup] at ht

/-- Binding a free variable to a type without it and without bound variables makes no cycle. -/
theorem Acyclic.bind (hs : s.Acyclic) (hi : s.lookup i = none) (ht : s.Settled t)
    (hn : t.isNothing = false) (ho : t.occurs i = false) : (s.bind i t).Acyclic := by
  have hfree : ∀ k, t.occurs k = true → (s.bind i t).lookup k = none := by
    intro k hk
    obtain ⟨c, hc⟩ := (Ty.occurs_iff k t).mp hk
    have hne : k ≠ i := by
      rintro rfl
      simp [ho] at hk
    rw [lookup_bind s i k t hn, if_neg hne, ht k c hc]
  have hstep : ∀ j k, (s.bind i t).Leads j k → s.Leads j k ∨ (s.bind i t).lookup k = none := by
    rintro j k ⟨u, hu, hk⟩
    rw [lookup_bind s i j t hn] at hu
    split_ifs at hu with he
    · obtain rfl := Option.some.inj hu
      exact .inr (hfree k hk)
    · exact .inl ⟨u, hu, hk⟩
  have hpath : ∀ j k, Relation.TransGen (s.bind i t).Leads j k →
      Relation.TransGen s.Leads j k ∨ (s.bind i t).lookup k = none := by
    intro j k h
    induction h with
    | single h => exact (hstep _ _ h).imp_left .single
    | tail _ h ih =>
      rcases ih with ih | ih
      · exact (hstep _ _ h).imp_left ih.tail
      · obtain ⟨u, hu, -⟩ := h
        simp [ih] at hu
  intro j hj
  rcases hpath j j hj with h | h
  · exact hs j h
  · obtain ⟨k, ⟨u, hu, -⟩, -⟩ := Relation.TransGen.head'_iff.mp hj
    simp [h] at hu

theorem Extends.refl (s : Subst) : s.Extends s :=
  ⟨[], by simp⟩

theorem Extends.trans (h : s''.Extends s') (h' : s'.Extends s) : s''.Extends s := by
  obtain ⟨m, hm⟩ := h
  obtain ⟨n, hn⟩ := h'
  exact ⟨n ++ m, by rw [hm, hn, List.append_assoc]⟩

theorem Extends.lookup (h : s'.Extends s) (hl : s.lookup i = some t) : s'.lookup i = some t := by
  obtain ⟨m, hm⟩ := h
  rw [Subst.lookup, Option.filter_eq_some_iff] at hl ⊢
  rw [hm, List.lookup_append, hl.1]
  exact ⟨rfl, hl.2⟩

end Subst

theorem Assignment.Solves.of_extends {θ : Assignment} {s s' : Subst} (h : θ.Solves s')
    (he : s'.Extends s) : θ.Solves s :=
  fun i t hl => h i t (he.lookup hl)

end Minifun
