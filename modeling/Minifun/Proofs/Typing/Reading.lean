import Minifun.Proofs.Sequence
import Minifun.Proofs.Ty.MostGeneral
import Minifun.Proofs.Typing.Rules

/-! # Reading inference by valuations

A valuation reads a type with variables as a closed type. A computation of inference denotes a
relation when the closed types that belong to a valuation of the variables known before are exactly
those that the result has under the valuations that extend it and solve what was found. Sequences of
steps then denote compositions of relations, and a failure denotes the empty one.
-/

namespace Minifun

namespace Ty

/-- The closed type that a type is under a valuation. A missing type, which no expression has, is
read as `int`. -/
def reading (ρ : Valuation) : Ty → Ground
  | .int => .int
  | .real => .real
  | .bool => .bool
  | .list a => .list (a.reading ρ)
  | .fn a b => .fn (a.reading ρ) (b.reading ρ)
  | .var i _ => ρ i
  | .nothing => .int

end Ty

namespace Valuation

def assignment (ρ : Valuation) : Assignment :=
  fun i => (ρ i).toTy

/-- Numeric variables are numbers, and bound variables are what their bindings are. -/
structure Models (ρ : Valuation) (κ : Kinds) (s : Subst) : Prop where
  numeric : ∀ i, κ i = some .numeric → (ρ i).isNumeric = true
  lookup : ∀ i t, s.lookup i = some t → ρ i = t.reading ρ

/-- Two valuations give the variables in use the same types. -/
def Agrees (κ : Kinds) (ρ ρ' : Valuation) : Prop :=
  ∀ i k, κ i = some k → ρ' i = ρ i

variable {κ κ' : Kinds} {ρ ρ' ρ'' : Valuation} {s s' : Subst} {a b t : Ty}

theorem Agrees.refl (κ : Kinds) (ρ : Valuation) : Agrees κ ρ ρ :=
  fun _ _ _ => rfl

theorem Agrees.symm (h : Agrees κ ρ ρ') : Agrees κ ρ' ρ :=
  fun i k hk => (h i k hk).symm

theorem Agrees.trans (h : Agrees κ ρ ρ') (h' : Agrees κ' ρ' ρ'')
    (hκ : ∀ i k, κ i = some k → κ' i = some k) : Agrees κ ρ ρ'' :=
  fun i k hk => (h' i k (hκ i k hk)).trans (h i k hk)

theorem Agrees.of_kinds (h : Agrees κ' ρ ρ') (hκ : ∀ i k, κ i = some k → κ' i = some k) :
    Agrees κ ρ ρ' :=
  fun i k hk => h i k (hκ i k hk)

theorem Agrees.reading (h : Agrees κ ρ ρ') (ht : t.Fits κ) : t.reading ρ' = t.reading ρ := by
  induction t with
  | list a ih => exact congrArg Ground.list (ih ht)
  | fn a b iha ihb => exact congrArg₂ Ground.fn (iha ht.1) (ihb ht.2)
  | var i c =>
    obtain ⟨k, hk, -⟩ := ht
    exact h i k hk
  | int | real | bool | nothing => rfl

theorem under_assignment (ρ : Valuation) (ht : t.Fits κ) :
    t.under ρ.assignment = (t.reading ρ).toTy := by
  induction t with
  | list a ih => exact congrArg Ty.list (ih ht)
  | fn a b iha ihb => exact congrArg₂ Ty.fn (iha ht.1) (ihb ht.2)
  | var i c => rfl
  | int | real | bool => rfl
  | nothing => exact ht.elim

theorem same_toTy {g h : Ground} : g.toTy.same h.toTy = true ↔ g = h := by
  have hfits : ∀ g : Ground, g.toTy.Fits fun _ => none := by
    intro g
    induction g with
    | list a ih => exact ih
    | fn a b iha ihb => exact ⟨iha, ihb⟩
    | int | real | bool => trivial
  constructor
  · exact fun e => Ground.toTy_injective (Ty.Fits.eq_of_same (hfits g) (hfits h) e)
  · rintro rfl
    exact Ty.same_refl _

theorem same_under_assignment (ρ : Valuation) (ha : a.Fits κ) (hb : b.Fits κ) :
    (a.under ρ.assignment).same (b.under ρ.assignment) = true ↔ a.reading ρ = b.reading ρ := by
  rw [under_assignment ρ ha, under_assignment ρ hb, same_toTy]

theorem models_iff (hs : s.Sound κ) :
    ρ.Models κ s ↔ ρ.assignment.Respects κ ∧ ρ.assignment.Solves s := by
  have hnum : ∀ g : Ground, g.toTy.isNumeric = g.isNumeric := by
    intro g
    cases g <;> rfl
  have hsame : ∀ i t, s.lookup i = some t →
      ((ρ.assignment i).same (t.under ρ.assignment) = true ↔ ρ i = t.reading ρ) := by
    intro i t hl
    rw [under_assignment ρ (hs.fits i t (Subst.mem_bindings_of_lookup hl))]
    exact same_toTy
  constructor
  · rintro ⟨hn, hl⟩
    exact ⟨fun i hi => (hnum _).trans (hn i hi), fun i t hi => (hsame i t hi).mpr (hl i t hi)⟩
  · rintro ⟨hn, hl⟩
    exact ⟨fun i hi => (hnum _).symm.trans (hn i hi),
      fun i t hi => (hsame i t hi).mp (hl i t hi)⟩

theorem Models.reading_apply (h : ρ.Models κ s) (hs : s.Sound κ) (ht : t.Fits κ) :
    (s.apply t).reading ρ = t.reading ρ := by
  rw [← same_under_assignment ρ (hs.apply ht) ht]
  exact ((models_iff hs).mp h).2.apply t

theorem Models.congr (h : ρ.Models κ s) (hs : s.Sound κ) (ha : Agrees κ ρ ρ') :
    ρ'.Models κ s := by
  refine ⟨fun i hi => ?_, fun i t hl => ?_⟩
  · rw [ha i _ hi]
    exact h.numeric i hi
  · have hm := Subst.mem_bindings_of_lookup hl
    obtain ⟨k, hk⟩ := hs.known i t hm
    rw [ha i k hk, ha.reading (hs.fits i t hm)]
    exact h.lookup i t hl

theorem Models.of_extends (h : ρ.Models κ' s') (hκ : ∀ i k, κ i = some k → κ' i = some k)
    (he : s'.Extends s) : ρ.Models κ s :=
  ⟨fun i hi => h.numeric i (hκ i _ hi), fun i t hl => h.lookup i t (he.lookup hl)⟩

theorem Agrees.update {i : Int} (hi : κ i = none) (ρ : Valuation) (τ : Ground) :
    Agrees κ ρ (Function.update ρ i τ) := by
  intro j k hk
  have hne : j ≠ i := by
    rintro rfl
    simp [hi] at hk
  exact Function.update_of_ne hne τ ρ

theorem Models.update {i : Int} {k : Kind} {τ : Ground} (h : ρ.Models κ s) (hs : s.Sound κ)
    (hi : κ i = none) (hτ : k = .numeric → τ.isNumeric = true) :
    Models (Function.update ρ i τ) (Function.update κ i (some k)) s := by
  have hm := h.congr hs (Agrees.update hi ρ τ)
  refine ⟨fun j hj => ?_, hm.lookup⟩
  by_cases he : j = i
  · subst he
    rw [Function.update_self] at hj ⊢
    exact hτ (Option.some.inj hj)
  · rw [Function.update_of_ne he] at hj
    exact hm.numeric j hj

/-- Unification keeps the valuations that read the two types alike. -/
theorem models_unify (hs : s.Sound κ) (ha : a.Fits κ) (hb : b.Fits κ)
    (h : s.unify a b = .ok s') : ρ.Models κ s' ↔ ρ.Models κ s ∧ a.reading ρ = b.reading ρ := by
  obtain ⟨hs', -, hsol⟩ := hs.unify_ok ha hb h
  rw [models_iff hs', models_iff hs, and_assoc]
  refine and_congr_right fun hr => ?_
  rw [hsol _ hr, same_under_assignment ρ ha hb]

theorem Models.reading_ne (h : ρ.Models κ s) (hs : s.Sound κ) (ha : a.Fits κ) (hb : b.Fits κ)
    {e : Subst × Clash} (hu : s.unify a b = .error e) : a.reading ρ ≠ b.reading ρ := by
  intro heq
  obtain ⟨hr, hsol⟩ := (models_iff hs).mp h
  have hne := hs.unify_error ha hb hu _ hr hsol
  rw [(same_under_assignment ρ ha hb).mpr heq] at hne
  exact nomatch hne

end Valuation

theorem Subst.Sound.mono {κ κ' : Kinds} {s : Subst} (h : s.Sound κ)
    (hκ : ∀ i k, κ i = some k → κ' i = some k) : s.Sound κ' where
  known i t hm := by
    obtain ⟨k, hk⟩ := h.known i t hm
    exact ⟨k, hκ i k hk⟩
  fits i t hm := (h.fits i t hm).mono hκ
  numeric i t hm hn := by
    obtain ⟨k, hk⟩ := h.known i t hm
    obtain rfl : k = .numeric := Option.some.inj ((hκ i k hk).symm.trans hn)
    exact h.numeric i t hm hk
  acyclic := h.acyclic

namespace Infer

def contextOf (ρ : Valuation) (frames : List (Frame Ty)) : Context :=
  fun x => (lookup x frames).map (Ty.reading ρ)

/-- A state of inference in a frame and those around it: its bindings are sound, the numbers of the
variables in use have been given out, and the types of names fit. -/
structure Good (frame : Frame Ty) (outer : List (Frame Ty)) (κ : Kinds) (st : InferState) :
    Prop where
  here : st.frame = frame
  sound : st.subst.Sound κ
  given : ∀ i k, κ i = some k → i < st.next
  fits : ∀ f ∈ frame :: outer, ∀ x t, (x, t) ∈ f → t.Fits κ

structure Grows (frame : Frame Ty) (outer : List (Frame Ty)) (κ : Kinds) (st : InferState)
    (κ' : Kinds) (st' : InferState) : Prop where
  good : Good frame outer κ' st'
  kinds : ∀ i k, κ i = some k → κ' i = some k
  extends_ : st'.subst.Extends st.subst

/-- What a computation of inference makes of valuations, as far as a view of its result shows it:
a valuation of the variables known before belongs to what is seen under those that extend it and
solve what was found. -/
def Relates {β : Type} (G : Kinds → InferState → Prop) (view : Valuation → InferState → Ty → β)
    (κ : Kinds) (st : InferState) (m : Infer Ty) (D : Valuation → β → Prop) : Prop :=
  match m st with
  | .ok t st' => ∃ κ', G κ' st' ∧ (∀ i k, κ i = some k → κ' i = some k) ∧
      st'.subst.Extends st.subst ∧ t.Fits κ' ∧
      ∀ ρ : Valuation, ρ.Models κ st.subst → ∀ b, D ρ b ↔
        ∃ ρ' : Valuation, ρ.Agrees κ ρ' ∧ ρ'.Models κ' st'.subst ∧ view ρ' st' t = b
  | .error _ _ => ∀ ρ : Valuation, ρ.Models κ st.subst → ∀ b, ¬ D ρ b

abbrev Denotes (frame : Frame Ty) (outer : List (Frame Ty)) (κ : Kinds) (st : InferState)
    (m : Infer Ty) (D : Valuation → Ground → Prop) : Prop :=
  Relates (Good frame outer) (fun ρ _ t => t.reading ρ) κ st m D

variable {frame : Frame Ty} {outer : List (Frame Ty)} {κ κ' κ'' : Kinds}
  {st st' st'' : InferState} {m : Infer Ty} {f : Ty → Infer Ty} {ρ ρ' : Valuation} {a b t : Ty}
  {D₁ : Valuation → Ground → Prop} {β : Type} {G : Kinds → InferState → Prop}
  {view : Valuation → InferState → Ty → β} {D D' : Valuation → β → Prop}

theorem mem_of_lookup {x : String} {frames : List (Frame Ty)} (h : lookup x frames = some t) :
    ∃ f ∈ frames, (x, t) ∈ f := by
  induction frames with
  | nil => exact nomatch h
  | cons f fs ih =>
    unfold lookup at h
    split at h
    · rename_i u hu
      obtain rfl := Option.some.inj h
      exact ⟨f, List.mem_cons_self, Frame.mem_of_find?_eq_some hu⟩
    · obtain ⟨g, hg, hx⟩ := ih h
      exact ⟨g, List.mem_cons_of_mem _ hg, hx⟩

theorem Good.fits_of_lookup (hg : Good frame outer κ st) {x : String}
    (h : lookup x (frame :: outer) = some t) : t.Fits κ := by
  obtain ⟨f, hf, hx⟩ := mem_of_lookup h
  exact hg.fits f hf x t hx

theorem Good.enter (hg : Good frame outer κ st) (ft : t.Fits κ) (x : String) :
    Good [(x, t)] (frame :: outer) κ { st with frame := [(x, t)] } := by
  refine ⟨rfl, hg.sound, hg.given, List.forall_mem_cons.mpr ⟨?_, hg.fits⟩⟩
  intro y u hy
  obtain ⟨rfl, rfl⟩ := Prod.mk.inj (List.mem_singleton.mp hy)
  exact ft

theorem Good.leave {inner : Frame Ty} (hg : Good frame outer κ st)
    (h : Good inner (frame :: outer) κ' st') :
    Good frame outer κ' { st' with frame := st.frame } :=
  ⟨hg.here, h.sound, h.given, (List.forall_mem_cons.mp h.fits).2⟩

theorem Good.contextOf (hg : Good frame outer κ st) (h : ρ.Agrees κ ρ') :
    contextOf ρ' (frame :: outer) = contextOf ρ (frame :: outer) := by
  funext x
  unfold Infer.contextOf
  cases hx : lookup x (frame :: outer) with
  | none => rfl
  | some t => simp [h.reading (hg.fits_of_lookup hx)]

theorem contextOf_cons (ρ : Valuation) (x : String) (t : Ty) (frames : List (Frame Ty)) :
    contextOf ρ ([(x, t)] :: frames) = (contextOf ρ frames).bind x (t.reading ρ) := by
  funext y
  by_cases h : y = x
  · simp [contextOf, Context.bind, lookup, h]
  · simp [contextOf, Context.bind, lookup, h]

theorem Grows.refl (hg : Good frame outer κ st) : Grows frame outer κ st κ st :=
  ⟨hg, fun _ _ h => h, .refl _⟩

theorem Grows.trans (h : Grows frame outer κ st κ' st') (h' : Grows frame outer κ' st' κ'' st'') :
    Grows frame outer κ st κ'' st'' :=
  ⟨h'.good, fun i k hk => h'.kinds i k (h.kinds i k hk), h'.extends_.trans h.extends_⟩

theorem Relates.congr (h : Relates G view κ st m D)
    (hD : ∀ ρ : Valuation, ρ.Models κ st.subst → ∀ b, D' ρ b ↔ D ρ b) :
    Relates G view κ st m D' := by
  unfold Relates at h ⊢
  split at h
  · obtain ⟨κ', hg, hκ, he, ht, hiff⟩ := h
    exact ⟨κ', hg, hκ, he, ht, fun ρ hρ b => (hD ρ hρ b).trans (hiff ρ hρ b)⟩
  · exact fun ρ hρ b hd => h ρ hρ b ((hD ρ hρ b).mp hd)

theorem Relates.after {α : Type} {m : Infer α} {f : α → Infer Ty} {a : α} (hm : m st = .ok a st')
    (hs : st'.subst = st.subst) (h : Relates G view κ st' (f a) D) :
    Relates G view κ st (m >>= f) D := by
  unfold Relates at h ⊢
  rw [bind_of_ok hm]
  rw [hs] at h
  exact h

/-- Steps one after the other denote the composition of what they denote. The second relation may
depend on the variables known before the first step only. -/
theorem Relates.seq {β' : Type} {G' : Kinds → InferState → Prop}
    {view' : Valuation → InferState → Ty → β'} {D₁ : Valuation → β' → Prop}
    (D₂ : Valuation → β' → β → Prop) (h₁ : Relates G' view' κ st m D₁)
    (hD₂ : ∀ ρ ρ', ρ.Agrees κ ρ' → D₂ ρ' = D₂ ρ)
    (h₂ : ∀ t κ' st', G' κ' st' → (∀ i k, κ i = some k → κ' i = some k) →
      st'.subst.Extends st.subst → t.Fits κ' →
      Relates G view κ' st' (f t) fun ρ b => D₂ ρ (view' ρ st' t) b) :
    Relates G view κ st (m >>= f) fun ρ b => ∃ σ, D₁ ρ σ ∧ D₂ ρ σ b := by
  unfold Relates at h₁
  split at h₁
  · rename_i t st₁ hm
    obtain ⟨κ₁, hg₁, hκ₁, he₁, ht, hiff₁⟩ := h₁
    have h := h₂ t κ₁ st₁ hg₁ hκ₁ he₁ ht
    unfold Relates at h ⊢
    rw [bind_of_ok hm]
    split at h
    · obtain ⟨κ₂, hg₂, hκ₂, he₂, hu, hiff₂⟩ := h
      refine ⟨κ₂, hg₂, fun i k hk => hκ₂ i k (hκ₁ i k hk), he₂.trans he₁, hu,
        fun ρ hρ b => ⟨?_, ?_⟩⟩
      · rintro ⟨σ, hσ, hb⟩
        obtain ⟨ρ₁, ha₁, hm₁, rfl⟩ := (hiff₁ ρ hρ σ).mp hσ
        rw [← hD₂ ρ ρ₁ ha₁] at hb
        obtain ⟨ρ₂, ha₂, hm₂, rfl⟩ := (hiff₂ ρ₁ hm₁ b).mp hb
        exact ⟨ρ₂, ha₁.trans ha₂ hκ₁, hm₂, rfl⟩
      · rintro ⟨ρ₂, ha₂, hm₂, rfl⟩
        have hm₁ := hm₂.of_extends hκ₂ he₂
        refine ⟨view' ρ₂ st₁ t, (hiff₁ ρ hρ _).mpr ⟨ρ₂, ha₂, hm₁, rfl⟩, ?_⟩
        rw [← hD₂ ρ ρ₂ ha₂]
        exact (hiff₂ ρ₂ hm₁ _).mpr ⟨ρ₂, .refl _ _, hm₂, rfl⟩
    · rintro ρ hρ b ⟨σ, hσ, hb⟩
      obtain ⟨ρ₁, ha₁, hm₁, rfl⟩ := (hiff₁ ρ hρ σ).mp hσ
      rw [← hD₂ ρ ρ₁ ha₁] at hb
      exact h ρ₁ hm₁ b hb
  · rename_i e st₁ hm
    unfold Relates
    rw [bind_of_error hm]
    rintro ρ hρ b ⟨σ, hσ, -⟩
    exact h₁ ρ hρ σ hσ

theorem Relates.bind (D₂ : Valuation → Ground → β → Prop)
    (h₁ : Denotes frame outer κ st m D₁) (hD₂ : ∀ ρ ρ', ρ.Agrees κ ρ' → D₂ ρ' = D₂ ρ)
    (h₂ : ∀ t κ' st', Grows frame outer κ st κ' st' → t.Fits κ' →
      Relates G view κ' st' (f t) fun ρ b => D₂ ρ (t.reading ρ) b) :
    Relates G view κ st (m >>= f) fun ρ b => ∃ σ, D₁ ρ σ ∧ D₂ ρ σ b :=
  h₁.seq D₂ hD₂ fun t κ' st' hg hκ he ft => h₂ t κ' st' ⟨hg, hκ, he⟩ ft

theorem relates_pure (hg : G κ st) (ht : t.Fits κ) :
    Relates G (fun ρ _ t => t.reading ρ) κ st (pure t) fun ρ τ => t.reading ρ = τ := by
  refine ⟨κ, hg, fun _ _ h => h, .refl _, ht, fun ρ hρ τ => ⟨fun h => ⟨ρ, .refl _ _, hρ, h⟩, ?_⟩⟩
  rintro ⟨ρ', ha, -, rfl⟩
  exact (ha.reading ht).symm

theorem denotes_pure (hg : Good frame outer κ st) (ht : t.Fits κ) :
    Denotes frame outer κ st (pure t) fun ρ τ => t.reading ρ = τ :=
  relates_pure hg ht

theorem denotes_resolve (hg : Good frame outer κ st) (ht : t.Fits κ) :
    Denotes frame outer κ st (resolve t) fun ρ τ => t.reading ρ = τ :=
  (denotes_pure hg (hg.sound.apply ht)).congr fun ρ hρ τ => by
    rw [hρ.reading_apply hg.sound ht]

theorem Good.next_unused (hg : Good frame outer κ st) : κ st.next = none := by
  cases h : κ st.next with
  | none => rfl
  | some l => exact absurd (hg.given _ l h) (Int.lt_irrefl _)

theorem Good.fresh (hg : Good frame outer κ st) (k : Kind) :
    Grows frame outer κ st (Function.update κ st.next (some k))
      { st with next := st.next + 1 } := by
  have hκ : ∀ i l, κ i = some l → Function.update κ st.next (some k) i = some l := by
    intro i l hi
    have hne : i ≠ st.next := by
      rintro rfl
      simp [hg.next_unused] at hi
    rwa [Function.update_of_ne hne]
  refine ⟨⟨hg.here, hg.sound.mono hκ, fun i l hi => ?_, ?_⟩, hκ, .refl _⟩
  · by_cases he : i = st.next
    · simp only [he]
      omega
    · rw [Function.update_of_ne he] at hi
      have := hg.given i l hi
      simp only
      omega
  · exact fun f hf x t hx => (hg.fits f hf x t hx).mono hκ

theorem denotes_fresh (hg : Good frame outer κ st) (k : Kind) :
    Denotes frame outer κ st (fresh k.constraint)
      fun _ τ => k = .numeric → τ.isNumeric = true := by
  have g := hg.fresh k
  have hself : Function.update κ st.next (some k) st.next = some k := Function.update_self ..
  refine ⟨_, g.good, g.kinds, g.extends_, ⟨k, hself, rfl⟩, fun ρ hρ τ => ⟨fun hτ => ?_, ?_⟩⟩
  · exact ⟨Function.update ρ st.next τ, .update hg.next_unused ρ τ,
      hρ.update hg.sound hg.next_unused hτ, Function.update_self ..⟩
  · rintro ⟨ρ', -, hm, rfl⟩ rfl
    exact hm.numeric st.next hself

theorem Relates.unify (hg : Good frame outer κ st) (ha : a.Fits κ) (hb : b.Fits κ)
    (label : String) (loc : Option Loc)
    (h : ∀ st', Grows frame outer κ st κ st' → Relates G view κ st' m D) :
    Relates G view κ st (Infer.unify label loc a b >>= fun _ => m)
      fun ρ c => a.reading ρ = b.reading ρ ∧ D ρ c := by
  cases hu : Infer.unify label loc a b st with
  | error e st₁ =>
    obtain ⟨clash, hs, -⟩ := unify_eq_error hu
    unfold Relates
    rw [bind_of_error hu]
    rintro ρ hρ c ⟨heq, -⟩
    exact hρ.reading_ne hg.sound ha hb hs heq
  | ok u st₁ =>
    obtain ⟨hs, hst⟩ := unify_eq_ok hu
    obtain ⟨hs₁, he, -⟩ := hg.sound.unify_ok ha hb hs
    have hg₁ : Grows frame outer κ st κ st₁ := by
      refine ⟨⟨?_, hs₁, ?_, hg.fits⟩, fun _ _ h => h, he⟩
      · rw [hst]
        exact hg.here
      · rw [hst]
        exact hg.given
    have hiff := fun ρ : Valuation => Valuation.models_unify (ρ := ρ) hg.sound ha hb hs
    have hd := h st₁ hg₁
    unfold Relates at hd ⊢
    rw [bind_of_ok hu]
    split at hd
    · obtain ⟨κ₂, hg₂, hκ₂, he₂, ht, hiff₂⟩ := hd
      refine ⟨κ₂, hg₂, hκ₂, he₂.trans he, ht, fun ρ hρ c => ⟨?_, ?_⟩⟩
      · rintro ⟨heq, hD⟩
        exact (hiff₂ ρ ((hiff ρ).mpr ⟨hρ, heq⟩) c).mp hD
      · rintro ⟨ρ₂, ha₂, hm₂, rfl⟩
        have hm₁ : ρ.Models κ st₁.subst := (hm₂.of_extends hκ₂ he₂).congr hs₁ ha₂.symm
        exact ⟨((hiff ρ).mp hm₁).2, (hiff₂ ρ hm₁ _).mpr ⟨ρ₂, ha₂, hm₂, rfl⟩⟩
    · rintro ρ hρ c ⟨heq, hD⟩
      exact hd ρ ((hiff ρ).mpr ⟨hρ, heq⟩) c hD

end Infer

end Minifun
