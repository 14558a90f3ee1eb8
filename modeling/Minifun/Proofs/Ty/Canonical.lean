import Mathlib.Data.Finset.Card
import Mathlib.Data.List.Nodup
import Mathlib.Data.Set.Function
import Minifun.Proofs.Ty.Renaming

/-! # Shown types as canonical forms

What is shown of a type forgets the numbers of its variables and nothing else. Numbering anew is a
renaming: a variable gets its place among the variables in the order in which they first occur. Two
types that differ in numbers only have the same places, and from the places each type can be read
back with its own numbers.
-/

namespace Minifun

section Lists

variable {α β : Type} [DecidableEq α] [DecidableEq β] {l : List α} {a : α}

theorem nodup_eraseDups : ∀ l : List α, l.eraseDups.Nodup
  | [] => by simp
  | a :: as => by
    rw [List.eraseDups_cons, List.nodup_cons, List.mem_eraseDups]
    exact ⟨by simp, nodup_eraseDups (as.filter fun b => !b == a)⟩
  termination_by l => l.length
  decreasing_by exact Nat.lt_succ_of_le (List.length_filter_le _ _)

theorem filter_ne_map {f : α → β} (h : Set.InjOn f {b | b ∈ a :: l}) :
    (l.map f).filter (fun b => !b == f a) = (l.filter fun b => !b == a).map f := by
  rw [List.filter_map]
  refine congrArg _ (List.filter_congr fun b hb => ?_)
  have hiff : f b = f a ↔ b = a := h.eq_iff (List.mem_cons_of_mem _ hb) List.mem_cons_self
  simp only [Function.comp_apply, beq_eq_decide, hiff]

theorem eraseDups_map {f : α → β} : ∀ {l : List α}, Set.InjOn f {a | a ∈ l} →
    (l.map f).eraseDups = l.eraseDups.map f
  | [], _ => rfl
  | a :: as, h => by
    have hrest : Set.InjOn f {b | b ∈ as.filter fun b => !b == a} :=
      h.mono fun b hb => List.mem_cons_of_mem _ (List.mem_of_mem_filter hb)
    rw [List.map_cons, List.eraseDups_cons, List.eraseDups_cons, List.map_cons, filter_ne_map h,
      eraseDups_map hrest]
  termination_by l => l.length
  decreasing_by exact Nat.lt_succ_of_le (List.length_filter_le _ _)

theorem eraseDups_of_nodup (h : l.Nodup) : l.eraseDups = l := by
  induction l with
  | nil => rfl
  | cons a as ih =>
    obtain ⟨ha, has⟩ := List.nodup_cons.mp h
    have hfilter : as.filter (fun b => !b == a) = as := by
      rw [List.filter_eq_self]
      intro b hb
      have hne : b ≠ a := fun e => ha (e ▸ hb)
      simpa using hne
    rw [List.eraseDups_cons, hfilter, ih has]

theorem idxOf_map {f : α → β} (h : Set.InjOn f {b | b ∈ l}) (ha : a ∈ l) :
    (l.map f).idxOf (f a) = l.idxOf a := by
  induction l with
  | nil => exact absurd ha List.not_mem_nil
  | cons b l ih =>
    by_cases hb : b = a
    · simp [hb]
    · have hfb : f b ≠ f a := fun e => hb (h List.mem_cons_self ha e)
      have ha' : a ∈ l := by simpa [Ne.symm hb] using ha
      rw [List.map_cons, List.idxOf_cons_ne _ hfb, List.idxOf_cons_ne _ hb,
        ih (h.mono fun c hc => List.mem_cons_of_mem _ hc) ha']

end Lists

namespace Ty

/-- The numbers of the variables of a type in the order in which they first occur. -/
def firsts (t : Ty) : List Int :=
  (t.vars.map (·.1)).eraseDups

def rank (t : Ty) (i : Int) : Int :=
  t.firsts.idxOf i

def Consistent (t : Ty) : Prop :=
  ∀ i c d, (i, c) ∈ t.vars → (i, d) ∈ t.vars → c = d

def Marked (κ : Int → Option Constraint) (t : Ty) : Prop :=
  ∀ i c, (i, c) ∈ t.vars → c = κ i

def ids (t : Ty) : Set Int :=
  {i | t.occurs i = true}

/-- Two types differ in the numbers of variables only: a renaming that takes the variables of the
one to those of the other, one to one and with their constraints, makes them equal. -/
def Variant (s t : Ty) : Prop :=
  ∃ π : Int → Int, Set.BijOn π s.ids t.ids ∧ s.rename π = t

variable {s t u : Ty} {π : Int → Int} {i : Int} {c : Option Constraint}
  {κ : Int → Option Constraint}

theorem mem_ids_iff : i ∈ t.ids ↔ ∃ c, (i, c) ∈ t.vars :=
  occurs_iff i t

theorem mem_firsts_iff : i ∈ t.firsts ↔ i ∈ t.ids := by
  rw [firsts, List.mem_eraseDups, mem_ids_iff]
  simp

theorem nodup_firsts (t : Ty) : t.firsts.Nodup :=
  nodup_eraseDups _

theorem Marked.consistent (h : t.Marked κ) : t.Consistent :=
  fun i c d hc hd => (h i c hc).trans (h i d hd).symm

theorem rename_rename (π σ : Int → Int) (t : Ty) :
    (t.rename π).rename σ = t.rename fun i => σ (π i) :=
  mapVars_mapVars _ _ t

theorem ids_rename (π : Int → Int) (t : Ty) : (t.rename π).ids = π '' t.ids := by
  ext j
  simp only [mem_ids_iff, Set.mem_image, vars_rename, List.mem_map, Prod.mk.injEq, Prod.exists]
  constructor
  · rintro ⟨c, i, d, hv, rfl, rfl⟩
    exact ⟨i, ⟨d, hv⟩, rfl⟩
  · rintro ⟨i, ⟨c, hv⟩, rfl⟩
    exact ⟨c, i, c, hv, rfl, rfl⟩

theorem Consistent.rename (h : t.Consistent) (hπ : Set.InjOn π t.ids) :
    (t.rename π).Consistent := by
  intro j c d hc hd
  simp only [vars_rename, List.mem_map, Prod.mk.injEq, Prod.exists] at hc hd
  obtain ⟨i, c, hv, rfl, rfl⟩ := hc
  obtain ⟨i', d, hv', heq, rfl⟩ := hd
  obtain rfl := hπ (mem_ids_iff.mpr ⟨d, hv'⟩) (mem_ids_iff.mpr ⟨c, hv⟩) heq
  exact h i' c d hv hv'

theorem firsts_rename (hπ : Set.InjOn π t.ids) : (t.rename π).firsts = t.firsts.map π := by
  have hvars : (t.rename π).vars.map (·.1) = (t.vars.map (·.1)).map π := by
    rw [vars_rename, List.map_map, List.map_map]
    rfl
  have hinj : Set.InjOn π {i | i ∈ t.vars.map (·.1)} :=
    hπ.mono fun i hi => mem_firsts_iff.mp (List.mem_eraseDups.mpr hi)
  rw [firsts, hvars, eraseDups_map hinj, firsts]

theorem rank_rename (hπ : Set.InjOn π t.ids) (hi : i ∈ t.ids) :
    (t.rename π).rank (π i) = t.rank i := by
  have hinj : Set.InjOn π {i | i ∈ t.firsts} := hπ.mono fun i => mem_firsts_iff.mp
  rw [rank, rank, firsts_rename hπ, idxOf_map hinj (mem_firsts_iff.mpr hi)]

theorem injOn_rank (t : Ty) : Set.InjOn t.rank t.ids := by
  intro i hi j _ heq
  exact (List.idxOf_inj (mem_firsts_iff.mpr hi)).mp (Int.ofNat.inj heq)

theorem map_rank_firsts (t : Ty) :
    t.firsts.map t.rank = (List.range t.firsts.length).map Int.ofNat := by
  refine List.ext_getElem (by simp) fun k hk _ => ?_
  have hk' : k < t.firsts.length := by simpa using hk
  have hidx := t.nodup_firsts.idxOf_getElem k hk'
  simpa [rank] using congrArg Int.ofNat hidx

theorem length_firsts (t : Ty) : t.firsts.length = (t.vars.map (·.1)).toFinset.card := by
  have hset : (t.vars.map (·.1)).toFinset = t.firsts.toFinset := by
    ext i
    simp only [List.mem_toFinset, firsts, List.mem_eraseDups]
  rw [hset, List.toFinset_card_of_nodup t.nodup_firsts]

end Ty

namespace Subst

open Ty

variable {σ : Subst} {s t u : Ty} {π : Int → Int} {κ : Int → Option Constraint}
  {vs all : List (Int × Option Constraint)} {known : List (Int × Ty)}

theorem keys_renumber (hn : (known.map (·.1)).Nodup) :
    (renumber vs known).map (·.1) = (known.map (·.1) ++ vs.map (·.1)).eraseDups := by
  induction vs generalizing known with
  | nil => simp [renumber, eraseDups_of_nodup hn]
  | cons v vs ih =>
    obtain ⟨i, c⟩ := v
    unfold renumber
    cases hl : known.lookup i with
    | some u =>
      obtain ⟨l₁, l₂, hknown, -⟩ := List.lookup_eq_some_iff.mp hl
      have hmem : i ∈ known.map (·.1) := by simp [hknown]
      simp only [ih hn, List.map_cons, List.eraseDups_append]
      rw [List.removeAll, List.removeAll, List.filter_cons_of_neg (by simpa using hmem)]
    | none =>
      have hmem : i ∉ known.map (·.1) := by
        rw [List.mem_map]
        rintro ⟨b, hb, rfl⟩
        simpa using List.lookup_eq_none_iff.mp hl b hb
      have hn' : ((known ++ [(i, Ty.var known.length c)]).map (·.1)).Nodup := by
        rw [List.map_append, List.nodup_append]
        refine ⟨hn, by simp, fun a ha b hb => ?_⟩
        obtain rfl : b = i := by simpa using hb
        exact fun e => hmem (e ▸ ha)
      rw [ih hn']
      simp

theorem getElem?_renumber
    (hknown : ∀ (k : Nat) j u, known[k]? = some (j, u) → ∃ c, u = Ty.var k c ∧ (j, c) ∈ all)
    (hvs : ∀ v ∈ vs, v ∈ all) {k : Nat} {j : Int}
    (h : (renumber vs known)[k]? = some (j, u)) : ∃ c, u = .var k c ∧ (j, c) ∈ all := by
  induction vs generalizing known with
  | nil => exact hknown k j u h
  | cons v vs ih =>
    obtain ⟨i, c⟩ := v
    obtain ⟨hv, hvs⟩ := List.forall_mem_cons.mp hvs
    unfold renumber at h
    split at h
    · exact ih hknown hvs h
    · refine ih (fun k j u hk => ?_) hvs h
      rw [List.getElem?_append] at hk
      split at hk
      · exact hknown k j u hk
      · rename_i hge
        obtain ⟨hzero, hju⟩ := List.getElem?_eq_some_iff.mp hk
        have hk' : k = known.length := by
          simp only [List.length_singleton] at hzero
          omega
        subst hk'
        simp only [Nat.sub_self, List.getElem_cons_zero, Prod.mk.injEq] at hju
        obtain ⟨rfl, rfl⟩ := hju
        exact ⟨c, rfl, hv⟩

theorem lookup_renumber {i : Int} {c : Option Constraint} (ht : t.Consistent)
    (hv : (i, c) ∈ t.vars) : (renumber t.vars []).lookup i = some (.var (t.rank i) c) := by
  obtain ⟨u, hu⟩ := exists_lookup_renumber [] hv
  obtain ⟨l₁, l₂, hlist, hl₁⟩ := List.lookup_eq_some_iff.mp hu
  have hentry : (renumber t.vars [])[l₁.length]? = some (i, u) := by simp [hlist]
  obtain ⟨d, rfl, hd⟩ : ∃ d, u = .var l₁.length d ∧ (i, d) ∈ t.vars :=
    getElem?_renumber (by simp) (fun _ h => h) hentry
  have hkeys : t.firsts = l₁.map (·.1) ++ i :: l₂.map (·.1) := by
    have h : (renumber t.vars []).map Prod.fst = (t.vars.map (·.1)).eraseDups :=
      keys_renumber List.nodup_nil
    rw [hlist] at h
    simpa [firsts] using h.symm
  have hnot : i ∉ l₁.map (·.1) := by
    rw [List.mem_map]
    rintro ⟨b, hb, rfl⟩
    simpa using hl₁ b hb
  have hrank : t.rank i = l₁.length := by
    rw [rank, hkeys, List.idxOf_append_of_notMem hnot]
    simp
  rw [hu, hrank, ht i c d hv hd]

/-- Numbering anew is a renaming: every variable gets its place. -/
theorem canonical_eq_rename (ht : t.Consistent) : canonical t = t.rename t.rank := by
  refine mapVars_congr fun i c hv => ?_
  rw [lookup_renumber ht hv, Option.getD_some]

/-- Types that differ in the numbers of variables only are numbered alike. -/
theorem canonical_rename_of_injOn (ht : t.Consistent) (hπ : Set.InjOn π t.ids) :
    canonical (t.rename π) = canonical t := by
  rw [canonical_eq_rename (ht.rename hπ), canonical_eq_rename ht, rename_rename]
  exact rename_congr fun i c hv => rank_rename hπ (mem_ids_iff.mpr ⟨c, hv⟩)

theorem rename_firsts_canonical (ht : t.Consistent) :
    (canonical t).rename (fun n => t.firsts.getD n.toNat 0) = t := by
  rw [canonical_eq_rename ht, rename_rename, rename_eq_self_iff]
  intro i c hv
  have hmem := mem_firsts_iff.mpr (mem_ids_iff.mpr ⟨c, hv⟩)
  rw [rank, Int.toNat_natCast, List.getD_eq_getElem?_getD, List.getElem?_idxOf hmem,
    Option.getD_some]

theorem exists_rename_of_canonical_eq (hs : s.Consistent) (ht : t.Consistent)
    (h : canonical s = canonical t) :
    s.rename (fun i => t.firsts.getD (s.rank i).toNat 0) = t := by
  have hback := rename_firsts_canonical ht
  rwa [← h, canonical_eq_rename hs, rename_rename] at hback

theorem canonical_eq_iff (hs : s.Consistent) (ht : t.Consistent) :
    canonical s = canonical t ↔ s.Variant t := by
  constructor
  · intro h
    have hst := exists_rename_of_canonical_eq hs ht h
    have hts := exists_rename_of_canonical_eq ht hs h.symm
    -- There and back again every variable of the first type has its old number.
    have hback : Set.LeftInvOn (fun i => s.firsts.getD (t.rank i).toNat 0)
        (fun i => t.firsts.getD (s.rank i).toNat 0) s.ids := by
      intro i hi
      obtain ⟨c, hv⟩ := mem_ids_iff.mp hi
      have hself := hts
      rw [← hst, rename_rename, hst] at hself
      exact rename_eq_self_iff.mp hself i c hv
    refine ⟨_, ⟨?_, hback.injOn, ?_⟩, hst⟩
    · rw [Set.mapsTo_iff_image_subset, ← ids_rename, hst]
    · rw [Set.SurjOn, ← ids_rename, hst]
  · rintro ⟨π, hπ, rfl⟩
    exact (canonical_rename_of_injOn hs hπ.injOn).symm

theorem firsts_canonical (ht : t.Consistent) :
    (canonical t).firsts = (List.range t.firsts.length).map Int.ofNat := by
  rw [canonical_eq_rename ht, firsts_rename t.injOn_rank, map_rank_firsts]

theorem canonical_canonical (ht : t.Consistent) : canonical (canonical t) = canonical t := by
  conv_lhs => rw [canonical_eq_rename ht]
  exact canonical_rename_of_injOn ht t.injOn_rank

theorem marked_applyWithin (hσ : ∀ i u, σ.lookup i = some u → u.Marked κ) (ht : t.Marked κ)
    (n : Nat) : (σ.applyWithin n t).Marked κ := by
  induction n generalizing t with
  | zero => exact ht
  | succ n ih =>
    intro j d hv
    simp only [applyWithin, vars_mapVars, List.mem_flatMap, Prod.exists] at hv
    obtain ⟨i, c, hi, hv⟩ := hv
    cases hl : σ.lookup i with
    | none =>
      simp only [hl, vars, List.mem_singleton, Prod.mk.injEq] at hv
      obtain ⟨rfl, rfl⟩ := hv
      exact ht j d hi
    | some u =>
      simp only [hl] at hv
      exact ih (hσ i u hl) j d hv

/-- What is shown of a type is a canonical form. When no variable leads back to itself and every
variable carries the constraint of its number, two types are shown alike exactly if they differ,
once all bound variables are replaced, in the numbers of variables only. The variables shown are
numbered from zero in the order in which they first occur, one number for each variable that is
left; and what is shown is shown as it is. -/
theorem externalize_eq_iff_variant (hacyclic : σ.Acyclic)
    (hσ : ∀ i u, σ.lookup i = some u → u.Marked κ) (hs : s.Marked κ) (ht : t.Marked κ) :
    (σ.externalize s = σ.externalize t ↔ (σ.apply s).Variant (σ.apply t)) ∧
      σ.Settled (σ.apply t) ∧
      (σ.externalize t).firsts =
        (List.range ((σ.apply t).vars.map (·.1)).toFinset.card).map Int.ofNat ∧
      ({} : Subst).externalize (σ.externalize t) = σ.externalize t := by
  have hs' : (σ.apply s).Consistent := (marked_applyWithin hσ hs _).consistent
  have ht' : (σ.apply t).Consistent := (marked_applyWithin hσ ht _).consistent
  refine ⟨canonical_eq_iff hs' ht', settled_apply hacyclic t, ?_, canonical_canonical ht'⟩
  rw [externalize, firsts_canonical ht', length_firsts]

/-- The first type has a bound variable and the numeric one it leads to, the second one has other
variables in the same places. -/
theorem externalize_eq_iff_variant_numeric :
    let σ : Subst := ({} : Subst).bind 1 (.list (.var 7 (some .numeric)))
    let s : Ty := .fn (.var 1 none) (.fn (.var 0 none) (.var 7 (some .numeric)))
    let t : Ty := .fn (.list (.var 4 (some .numeric))) (.fn (.var 3 none) (.var 4 (some .numeric)))
    σ.externalize s = σ.externalize t ∧ (σ.apply s).Variant (σ.apply t) ∧
      (σ.externalize t).firsts = [0, 1] := by
  intro σ s t
  let κ : Int → Option Constraint := fun i => if i = 7 ∨ i = 4 then some .numeric else none
  have hacyclic : σ.Acyclic := acyclic_empty.bind rfl (fun _ _ _ => rfl) rfl (by decide)
  have hσ : ∀ i u, σ.lookup i = some u → u.Marked κ := by
    intro i u hu
    have hlookup : σ.lookup i = _ := lookup_bind _ _ _ _ rfl
    rw [hlookup] at hu
    split at hu
    · obtain rfl := Option.some.inj hu
      simp [Marked, κ]
    · exact nomatch hu
  have hs : s.Marked κ := by
    simp only [s, Marked, vars, List.mem_append, List.mem_singleton, Prod.mk.injEq]
    rintro i c (⟨rfl, rfl⟩ | ⟨rfl, rfl⟩ | ⟨rfl, rfl⟩) <;> rfl
  have ht : t.Marked κ := by
    simp only [t, Marked, vars, List.mem_append, List.mem_singleton, Prod.mk.injEq]
    rintro i c (⟨rfl, rfl⟩ | ⟨rfl, rfl⟩ | ⟨rfl, rfl⟩) <;> rfl
  obtain ⟨hiff, -, hfirsts, -⟩ := externalize_eq_iff_variant hacyclic hσ hs ht
  have hshown : σ.externalize s = σ.externalize t := by decide
  exact ⟨hshown, hiff.mp hshown, hfirsts.trans (by decide)⟩

end Subst

end Minifun
