import Mathlib.Data.List.Forall2
import Minifun.Proofs.Typing.Instances

/-! # Shown types are determined by their instances

Two types with the same closed instances have one shape, and their variables face each other one to
one: a variable of either type could otherwise be read in a way that the other type cannot follow.
Numbered in the order in which they occur, they are therefore the same.
-/

namespace Minifun

namespace Ty

/-- Two types have one shape, with variables of related numbers and equal constraints in the same
places. -/
inductive Aligned (R : Int → Int → Prop) : Ty → Ty → Prop where
  | int : Aligned R .int .int
  | real : Aligned R .real .real
  | bool : Aligned R .bool .bool
  | list {a b} : Aligned R a b → Aligned R (.list a) (.list b)
  | fn {a b r q} : Aligned R a b → Aligned R r q → Aligned R (.fn a r) (.fn b q)
  | var {i j c} : R i j → Aligned R (.var i c) (.var j c)

/-- The variables of two numbers stand in one place of two types. -/
inductive Faces (i j : Int) : Ty → Ty → Prop where
  | var {c d} : Faces i j (.var i c) (.var j d)
  | list {a b} : Faces i j a b → Faces i j (.list a) (.list b)
  | param {a b r q} : Faces i j a b → Faces i j (.fn a r) (.fn b q)
  | result {a b r q} : Faces i j r q → Faces i j (.fn a r) (.fn b q)

/-- Every reading of the first type that makes numeric variables numbers is one of the second type.
-/
def Covered (κ κ' : Kinds) (t t' : Ty) : Prop :=
  ∀ ρ : Valuation, (∀ i, κ i = some .numeric → (ρ i).isNumeric = true) →
    ∃ ρ' : Valuation, (∀ i, κ' i = some .numeric → (ρ' i).isNumeric = true) ∧
      t'.reading ρ' = t.reading ρ

variable {κ κ' : Kinds} {R S : Int → Int → Prop} {t t' a b r q : Ty} {i j i' j' : Int}
  {ρ ρ' : Valuation}

theorem Aligned.mono (h : Aligned R t t') (hRS : ∀ i j, R i j → S i j) : Aligned S t t' := by
  induction h with
  | int => exact .int
  | real => exact .real
  | bool => exact .bool
  | list _ ih => exact .list ih
  | fn _ _ iha ihr => exact .fn iha ihr
  | var h => exact .var (hRS _ _ h)

theorem Faces.reading_eq (h : Faces i j t t') (he : t'.reading ρ' = t.reading ρ) : ρ' j = ρ i := by
  induction h with
  | var => exact he
  | list _ ih => exact ih (Ground.list.inj he)
  | param _ ih => exact ih (Ground.fn.inj he).1
  | result _ ih => exact ih (Ground.fn.inj he).2

theorem Faces.symm (h : Faces i j t t') : Faces j i t' t := by
  induction h with
  | var => exact .var
  | list _ ih => exact .list ih
  | param _ ih => exact .param ih
  | result _ ih => exact .result ih

/-- Different variables can be read differently, so that one variable does not face both. -/
theorem Covered.eq_of_faces (h : Covered κ κ' t t') (hf : Faces i j t t') (hf' : Faces i' j' t t')
    (hj : j = j') : i = i' := by
  by_contra hne
  obtain ⟨ρ', -, he⟩ := h (fun l => if l = i then .int else .real) fun l _ => by
    by_cases hl : l = i <;> simp [hl, Ground.isNumeric]
  have hint := hf.reading_eq he
  have hreal := hf'.reading_eq he
  rw [if_pos rfl] at hint
  rw [if_neg (Ne.symm hne), ← hj, hint] at hreal
  cases hreal

theorem Covered.list (h : Covered κ κ' (.list a) (.list b)) : Covered κ κ' a b := by
  intro ρ hρ
  obtain ⟨ρ', hρ', he⟩ := h ρ hρ
  exact ⟨ρ', hρ', Ground.list.inj he⟩

theorem Covered.param (h : Covered κ κ' (.fn a r) (.fn b q)) : Covered κ κ' a b := by
  intro ρ hρ
  obtain ⟨ρ', hρ', he⟩ := h ρ hρ
  exact ⟨ρ', hρ', (Ground.fn.inj he).1⟩

theorem Covered.result (h : Covered κ κ' (.fn a r) (.fn b q)) : Covered κ κ' r q := by
  intro ρ hρ
  obtain ⟨ρ', hρ', he⟩ := h ρ hρ
  exact ⟨ρ', hρ', (Ground.fn.inj he).2⟩

theorem Covered.constant (h : Covered κ κ' t t') {τ : Ground} (hτ : τ.isNumeric = true) :
    ∃ ρ' : Valuation, t'.reading ρ' = t.reading fun _ => τ := by
  obtain ⟨ρ', -, he⟩ := h (fun _ => τ) fun _ _ => hτ
  exact ⟨ρ', he⟩

theorem Covered.kind_of_var {c d : Option Constraint} (h : Covered κ κ' (.var i c) (.var j d))
    (hj : κ' j = some .numeric) : κ i = some .numeric := by
  by_contra hi
  obtain ⟨ρ', hρ', he⟩ := h (fun l => if l = i then .bool else .int) fun l hl => by
    have hne : l ≠ i := by
      rintro rfl
      exact hi hl
    simp [hne, Ground.isNumeric]
  have hnum := hρ' j hj
  have hbool : ρ' j = .bool := by simpa [reading] using he
  rw [hbool] at hnum
  cases hnum

/-- A variable does not stand where the other type is built up: it can be both `int` and `real`. -/
theorem Covered.not_var {c : Option Constraint} (h : Covered κ κ' (.var i c) t')
    (hint : ∀ ρ', t'.reading ρ' = .int → ∀ ρ', t'.reading ρ' ≠ .real) : False := by
  obtain ⟨ρ, hρ⟩ := h.constant (τ := .int) rfl
  obtain ⟨ρ', hρ'⟩ := h.constant (τ := .real) rfl
  exact hint ρ hρ ρ' hρ'

/-- Types that cover each other have one shape. -/
theorem aligned_of_covered (ht : t.Fits κ) (ht' : t'.Fits κ') (h : Covered κ κ' t t')
    (h' : Covered κ' κ t' t) : Aligned (fun i j => Faces i j t t') t t' := by
  induction t generalizing t' with
  | nothing => exact ht.elim
  | int | real | bool =>
    -- Without variables there is one reading, and only the type itself can be read so.
    cases t' with
    | var => exact (h'.not_var (by simp [reading])).elim
    | int | real | bool | list | fn =>
      obtain ⟨ρ', he⟩ := h.constant (τ := .int) rfl
      cases he <;> constructor
    | nothing => exact ht'.elim
  | list a ih =>
    cases t' with
    | list b =>
      have hb : b.Fits κ' := ht'
      exact .list ((ih ht hb h.list h'.list).mono fun _ _ hf => .list hf)
    | var => exact (h'.not_var (by simp [reading])).elim
    | int | real | bool | fn =>
      obtain ⟨ρ', he⟩ := h.constant (τ := .int) rfl
      cases he
    | nothing => exact ht'.elim
  | fn a r iha ihr =>
    cases t' with
    | fn b q =>
      exact .fn ((iha ht.1 ht'.1 h.param h'.param).mono fun _ _ hf => .param hf)
        ((ihr ht.2 ht'.2 h.result h'.result).mono fun _ _ hf => .result hf)
    | var => exact (h'.not_var (by simp [reading])).elim
    | int | real | bool | list =>
      obtain ⟨ρ', he⟩ := h.constant (τ := .int) rfl
      cases he
    | nothing => exact ht'.elim
  | var i c =>
    cases t' with
    | var j d =>
      obtain ⟨k, hk, rfl⟩ := ht
      obtain ⟨k', hk', rfl⟩ := ht'
      have hkk : k = .numeric ↔ k' = .numeric := by
        constructor
        · rintro rfl
          exact Option.some.inj (hk'.symm.trans (h'.kind_of_var hk))
        · rintro rfl
          exact Option.some.inj (hk.symm.trans (h.kind_of_var hk'))
      obtain rfl : k = k' := by cases k <;> cases k' <;> simp_all
      exact .var .var
    | int | real | bool | list | fn => exact (h.not_var (by simp [reading])).elim
    | nothing => exact ht'.elim

theorem Aligned.mapVars_eq {f g : Int → Option Constraint → Ty} (h : Aligned R t t')
    (hfg : ∀ i j c, (i, c) ∈ t.vars → R i j → f i c = g j c) : t.mapVars f = t'.mapVars g := by
  induction h with
  | int | real | bool => rfl
  | list _ ih => exact congrArg Ty.list (ih hfg)
  | fn _ _ iha ihr =>
    rw [mapVars, mapVars, iha fun i j c hv => hfg i j c (List.mem_append_left _ hv),
      ihr fun i j c hv => hfg i j c (List.mem_append_right _ hv)]
  | var hR => exact hfg _ _ _ List.mem_cons_self hR

theorem Aligned.vars (h : Aligned R t t') :
    List.Forall₂ (fun v w => R v.1 w.1 ∧ v.2 = w.2) t.vars t'.vars := by
  induction h with
  | int | real | bool => exact .nil
  | list _ ih => exact ih
  | fn _ _ iha ihr => exact List.rel_append iha ihr
  | var hR => exact .cons ⟨hR, rfl⟩ .nil

end Ty

namespace Subst

variable {κ κ' : Kinds} {R : Int → Int → Prop} {t t' : Ty} {i j : Int}
  {vs ws : List (Int × Option Constraint)} {known known' : List (Int × Ty)}

theorem lookup_eq_of_related (hR : ∀ i j i' j', R i j → R i' j' → (i = i' ↔ j = j')) (h : R i j)
    (hk : List.Forall₂ (fun b c => R b.1 c.1 ∧ b.2 = c.2) known known') :
    known.lookup i = known'.lookup j := by
  induction hk with
  | nil => rfl
  | cons hbc _ ih =>
    rw [lookup_cons, lookup_cons, ih, hbc.2]
    simp only [hR _ _ _ _ h hbc.1]

theorem renumber_related (hR : ∀ i j i' j', R i j → R i' j' → (i = i' ↔ j = j'))
    (hv : List.Forall₂ (fun v w => R v.1 w.1 ∧ v.2 = w.2) vs ws)
    (hk : List.Forall₂ (fun b c => R b.1 c.1 ∧ b.2 = c.2) known known') :
    List.Forall₂ (fun b c => R b.1 c.1 ∧ b.2 = c.2) (renumber vs known) (renumber ws known') := by
  induction hv generalizing known known' with
  | nil => exact hk
  | @cons v w vs ws hvw _ ih =>
    obtain ⟨i, c⟩ := v
    obtain ⟨j, d⟩ := w
    obtain ⟨hij, hcd⟩ := hvw
    simp only at hij hcd
    unfold renumber
    rw [lookup_eq_of_related hR hij hk]
    cases known'.lookup j with
    | some u => exact ih hk
    | none => exact ih (List.rel_append hk (.cons ⟨hij, by rw [hk.length_eq, hcd]⟩ .nil))

theorem canonical_eq_of_aligned (h : Ty.Aligned R t t')
    (hR : ∀ i j i' j', R i j → R i' j' → (i = i' ↔ j = j')) : canonical t = canonical t' := by
  have hnames := renumber_related hR h.vars .nil
  refine h.mapVars_eq fun i j c hv hij => ?_
  obtain ⟨u, hu⟩ := exists_lookup_renumber [] hv
  have hu' := hu
  rw [lookup_eq_of_related hR hij hnames] at hu'
  simp only [hu, hu', Option.getD_some]

theorem covered_of_hasInstance (ht : t.Fits κ) (ht' : t'.Fits κ')
    (h : ∀ τ, t.HasInstance τ → t'.HasInstance τ) : Ty.Covered κ κ' t t' := by
  intro ρ hρ
  exact (Ty.hasInstance_iff ht').mp (h _ ((Ty.hasInstance_iff ht).mpr ⟨ρ, hρ, rfl⟩))

/-- Numbered types with the same closed instances are the same. -/
theorem canonical_eq_of_hasInstance (ht : t.Fits κ) (ht' : t'.Fits κ')
    (h : ∀ τ, (canonical t).HasInstance τ ↔ (canonical t').HasInstance τ) :
    canonical t = canonical t' := by
  have hiff : ∀ τ, t.HasInstance τ ↔ t'.HasInstance τ := fun τ => by
    rw [← hasInstance_canonical ht, ← hasInstance_canonical ht', h τ]
  have hc := covered_of_hasInstance ht ht' fun τ => (hiff τ).mp
  have hc' := covered_of_hasInstance ht' ht fun τ => (hiff τ).mpr
  refine canonical_eq_of_aligned (Ty.aligned_of_covered ht ht' hc hc') fun i j i' j' hf hf' => ?_
  constructor
  · exact fun he => hc'.eq_of_faces hf.symm hf'.symm he
  · exact fun he => hc.eq_of_faces hf hf' he

end Subst

end Minifun
