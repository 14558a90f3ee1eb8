import Minifun.Proofs.Typing.Instances
import Minifun.Proofs.Typing.Principal

/-! # Inference of programs denotes the typing rules

A statement changes the frame of names for those after it. What it denotes is therefore a relation
between valuations and closed types together with the contexts that later statements see, and the
denotation of a program is the composition of those of its statements.
-/

namespace Minifun

namespace Infer

/-- What a statement makes of valuations: its closed types, and the contexts that it leaves. -/
abbrev Carries (κ : Kinds) (st : InferState) (m : Infer Ty)
    (D : Valuation → Ground × Context → Prop) : Prop :=
  Relates (fun κ st => Good st.frame [] κ st)
    (fun ρ st t => (t.reading ρ, contextOf ρ [st.frame])) κ st m D

variable {frame : Frame Ty} {κ : Kinds} {st : InferState} {m : Infer Ty} {s e : Expr}
  {ss : List Expr} {t : Ty} {D : Valuation → Ground → Prop}

theorem contextOf_define (ρ : Valuation) (x : String) (t : Ty) (frame : Frame Ty) :
    contextOf ρ [frame.define x t] = (contextOf ρ [frame]).bind x (t.reading ρ) := by
  funext y
  by_cases h : y = x
  · simp [contextOf, Context.bind, lookup, Frame.find?_define, h]
  · simp [contextOf, Context.bind, lookup, Frame.find?_define, h]

theorem mem_of_mem_define {x y : String} {u : Ty} (h : (y, u) ∈ frame.define x t) :
    (y, u) = (x, t) ∨ (y, u) ∈ frame := by
  induction frame with
  | nil => exact .inl (List.mem_singleton.mp h)
  | cons b bs ih =>
    unfold Frame.define at h
    split at h
    · rcases List.mem_cons.mp h with h | h
      · exact .inl h
      · exact .inr (List.mem_cons_of_mem _ h)
    · rcases List.mem_cons.mp h with h | h
      · exact .inr (h ▸ List.mem_cons_self)
      · exact (ih h).imp_right (List.mem_cons_of_mem _)

theorem Good.define (hg : Good frame [] κ st) (ft : t.Fits κ) (x : String) (trace : Trace) :
    Good (frame.define x t) [] κ { st with frame := st.frame.define x t, trace := trace } := by
  refine ⟨by rw [hg.here], hg.sound, hg.given, List.forall_mem_singleton.mpr ?_⟩
  intro y u hy
  rcases mem_of_mem_define hy with h | h
  · rw [(Prod.mk.inj h).2]
    exact ft
  · exact hg.fits frame List.mem_cons_self y u h

theorem Denotes.carries (hg : Good frame [] κ st) (h : Denotes frame [] κ st m D) :
    Carries κ st m fun ρ b => D ρ b.1 ∧ b.2 = contextOf ρ [frame] := by
  unfold Carries Denotes Relates at *
  split at h
  · rename_i u st₁ hm
    obtain ⟨κ₁, hg₁, hκ, he, ft, hiff⟩ := h
    obtain rfl := hg₁.here
    refine ⟨κ₁, hg₁, hκ, he, ft, fun ρ hρ ⟨τ, Γ⟩ => ?_⟩
    constructor
    · rintro ⟨hτ, rfl⟩
      obtain ⟨ρ', ha, hm, rfl⟩ := (hiff ρ hρ τ).mp hτ
      exact ⟨ρ', ha, hm, congrArg (Prod.mk _) (hg.contextOf ha)⟩
    · rintro ⟨ρ', ha, hm, hb⟩
      obtain ⟨rfl, rfl⟩ := Prod.mk.inj hb
      exact ⟨(hiff ρ hρ _).mpr ⟨ρ', ha, hm, rfl⟩, hg.contextOf ha⟩
  · exact fun ρ hρ b hb => h ρ hρ b.1 hb.1

theorem Denotes.settle (hg : Good frame [] κ st) (h : Denotes frame [] κ st m D) (x : String)
    (loc : Option Loc) : Carries κ st (m >>= Infer.settle x loc) fun ρ b =>
      D ρ b.1 ∧ b.2 = (contextOf ρ [frame]).bind x b.1 := by
  refine Relates.congr (h.bind (fun ρ σ b => σ = b.1 ∧ b.2 = (contextOf ρ [frame]).bind x σ)
    (fun ρ ρ' h => by rw [hg.contextOf h]) fun t κ₁ st₁ g₁ ft => ?_) fun ρ _ b => ⟨?_, ?_⟩
  · have hs := g₁.good.sound
    have hg₂ := g₁.good.define (hs.apply ft) x
    refine ⟨κ₁, ?_, fun _ _ h => h, .refl _, hs.apply ft, fun ρ hρ b => ?_⟩
    · rw [← g₁.good.here] at hg₂
      exact hg₂ _
    · have hview : ∀ ρ', ρ.Agrees κ₁ ρ' → ((st₁.subst.apply t).reading ρ',
          contextOf ρ' [st₁.frame.define x (st₁.subst.apply t)]) =
            (t.reading ρ, (contextOf ρ [frame]).bind x (t.reading ρ)) := by
        intro ρ' ha
        have hr : (st₁.subst.apply t).reading ρ' = t.reading ρ := by
          rw [(hρ.congr hs ha).reading_apply hs ft, ha.reading ft]
        rw [contextOf_define, hr, g₁.good.here, g₁.good.contextOf ha]
      constructor
      · rintro ⟨h₁, h₂⟩
        exact ⟨ρ, .refl _ _, hρ, (hview ρ (.refl _ _)).trans (Prod.ext h₁ h₂.symm)⟩
      · rintro ⟨ρ', ha, -, rfl⟩
        have hb := Prod.mk.inj (hview ρ' ha)
        exact ⟨hb.1.symm, hb.2⟩
  · rintro ⟨hD, hb⟩
    exact ⟨b.1, hD, rfl, hb⟩
  · rintro ⟨_, hD, rfl, hb⟩
    exact ⟨hD, hb⟩

theorem statementType_of_plain {Γ Δ : Context} {τ : Ground} (h : Plain e) :
    StatementType Γ e τ Δ ↔ HasType Γ e τ ∧ Δ = Γ := by
  constructor
  · intro hs
    cases hs with
    | function | value => exact nomatch h
    | expression he => exact ⟨he, rfl⟩
  · rintro ⟨he, rfl⟩
    exact .expression he

/-- A definition that is written as a function assumes the type of its name, and its right side has
to have that type. -/
theorem carries_function {x : String} {loc : Option Loc} (he : Typed e) (hl : e.isLambda = true)
    (hg : Good frame [] κ st) : Carries κ st ((Term.val x e loc).infer []) fun ρ b =>
      StatementType (contextOf ρ [frame]) (.val x e loc) b.1 b.2 := by
  rw [Term.infer_val_function _ _ _ _ hl]
  refine Relates.congr (.fresh_any hg (fun ρ α (b : Ground × Context) => ∃ β,
    HasType ((contextOf ρ [frame]).bind x (.fn α β)) e b.1 ∧ .fn α β = b.1 ∧
      b.2 = (contextOf ρ [frame]).bind x b.1) (fun ρ ρ' h => by rw [hg.contextOf h])
    fun u κ₁ st₁ g₁ fu => ?_) fun ρ _ b => statementType_function hl
  refine .fresh_any g₁.good (fun ρ β (b : Ground × Context) =>
    HasType ((contextOf ρ [frame]).bind x (.fn (u.reading ρ) β)) e b.1 ∧
      .fn (u.reading ρ) β = b.1 ∧ b.2 = (contextOf ρ [frame]).bind x b.1)
    (fun ρ ρ' h => by rw [g₁.good.contextOf h, h.reading fu]) fun w κ₂ st₂ g₂ fw => ?_
  have fp : (Ty.fn u w).Fits κ₂ := ⟨fu.mono g₂.kinds, fw⟩
  have hg₃ := g₂.good.define fp x st₂.trace
  refine .after rfl rfl ?_
  -- within the frame that has the name already, the right side is an expression like any other
  have hd := (he (frame.define x (.fn u w)) [] κ₂ _ hg₃).bind
    (fun ρ σ τ => (Ty.fn u w).reading ρ = σ ∧ σ = τ) (fun ρ ρ' h => by rw [h.reading fp])
    fun t κ₄ st₄ g₄ ft => .unify g₄.good (fp.mono g₄.kinds) ft
      ("recursive use of '" ++ x ++ "' does not match its definition.") loc
      fun st₅ g₅ => denotes_pure g₅.good ft
  refine Relates.congr (Denotes.settle hg₃ hd x loc) fun ρ _ b => ?_
  rw [contextOf_define, Context.bind_bind]
  constructor
  · rintro ⟨h, hb, hΔ⟩
    exact ⟨⟨b.1, h, hb, rfl⟩, hΔ⟩
  · rintro ⟨⟨_, h, hb, rfl⟩, hΔ⟩
    exact ⟨h, hb, hΔ⟩

theorem carries_of_plain (h : PlainStatement s) (hg : Good frame [] κ st) :
    Carries κ st (s.infer []) fun ρ b => StatementType (contextOf ρ [frame]) s b.1 b.2 := by
  cases h with
  | expression he =>
    refine Relates.congr (Denotes.carries hg (typed_of_plain he frame [] κ st hg)) fun ρ _ b => ?_
    exact statementType_of_plain he
  | @val x e loc he =>
    cases hl : e.isLambda with
    | true => exact carries_function (typed_of_plain he) hl hg
    | false =>
      rw [Term.infer_val_value _ _ _ _ hl]
      refine Relates.congr (Denotes.settle hg (typed_of_plain he frame [] κ st hg) x loc)
        fun ρ _ b => ?_
      exact statementType_value hl

/-- The closed types of a program are the readings of the type that inference gives it. -/
theorem relates_statements (hs : ∀ s ∈ ss, PlainStatement s) (hne : ss ≠ []) (last : Ty)
    (hg : Good st.frame [] κ st) :
    Relates (fun κ st => Good st.frame [] κ st) (fun ρ _ t => t.reading ρ) κ st
      (Term.inferStatements [] last ss) fun ρ τ => ProgramType (contextOf ρ [st.frame]) ss τ := by
  induction ss generalizing κ st last with
  | nil => exact absurd rfl hne
  | cons s ss ih =>
    have h := carries_of_plain (hs s List.mem_cons_self) hg
    rw [Term.inferStatements]
    by_cases hss : ss = []
    · subst hss
      simp only [Term.inferStatements]
      refine Relates.congr (h.seq (fun _ (b : Ground × Context) τ => b.1 = τ) (fun _ _ _ => rfl)
        fun t κ₁ st₁ hg₁ _ _ ft =>
          relates_pure (G := fun κ st => Good st.frame [] κ st) hg₁ ft) fun ρ _ τ => ?_
      rw [programType_singleton]
      constructor
      · rintro ⟨Δ, h⟩
        exact ⟨(τ, Δ), h, rfl⟩
      · rintro ⟨⟨_, Δ⟩, h, rfl⟩
        exact ⟨Δ, h⟩
    · refine Relates.congr (h.seq (fun _ b τ => ProgramType b.2 ss τ) (fun _ _ _ => rfl)
        fun t κ₁ st₁ hg₁ _ _ ft => ih (fun s h => hs s (List.mem_cons_of_mem _ h)) hss t hg₁)
        fun ρ _ τ => ?_
      rw [programType_cons hss]
      constructor
      · rintro ⟨σ, Δ, h, hτ⟩
        exact ⟨(σ, Δ), h, hτ⟩
      · rintro ⟨⟨σ, Δ⟩, h, hτ⟩
        exact ⟨σ, Δ, h, hτ⟩

theorem good_empty : Good ({} : InferState).frame [] (fun _ => none) {} :=
  ⟨rfl, ⟨nofun, nofun, nofun, Subst.acyclic_empty⟩, nofun, by simp⟩

end Infer

namespace Program

variable {p : Program}

theorem check_eq (p : Program) :
    p.check = match Term.inferStatements [] .nothing p.statements {} with
      | .ok t st => .ok (st.subst.externalize t)
      | .error e _ => .error (.typing e) := by
  have hstart : ({} : Checker).start {} = ({} : InferState) := rfl
  unfold check Checker.check
  rw [hstart]
  cases Term.inferStatements [] .nothing p.statements {} <;> rfl

theorem check_spec (hp : ∀ s ∈ p.statements, PlainStatement s) (hne : p.statements ≠ []) :
    match p.check with
    | .ok T => (∃ τ, T.HasInstance τ) ∧
        ∀ τ, ProgramType Context.empty p.statements τ ↔ T.HasInstance τ
    | .error _ => ∀ τ, ¬ ProgramType Context.empty p.statements τ := by
  have hr := Infer.relates_statements hp hne .nothing Infer.good_empty
  -- nothing is known in the beginning, so that every valuation will do
  have hm : Valuation.Models (fun _ => .int) (fun _ => none) ({} : InferState).subst :=
    ⟨nofun, nofun⟩
  unfold Infer.Relates at hr
  rw [check_eq]
  cases ht : Term.inferStatements [] .nothing p.statements {} with
  | ok t st =>
    rw [ht] at hr
    obtain ⟨κ, hg, -, -, ft, hiff⟩ := hr
    refine ⟨hg.sound.exists_instance ft, fun τ => ?_⟩
    rw [hg.sound.hasInstance_externalize ft]
    refine (hiff _ hm τ).trans ⟨?_, ?_⟩
    · rintro ⟨ρ, -, hρ, hτ⟩
      exact ⟨ρ, hρ, hτ⟩
    · rintro ⟨ρ, hρ, hτ⟩
      exact ⟨ρ, nofun, hρ, hτ⟩
  | error e st =>
    rw [ht] at hr
    exact fun τ => hr _ hm τ

/-- A program that is read has a type if the rules give it one, and its closed types are then the
instances of that type. -/
theorem check_principal (source : String) (file : Option String) (hp : parse source file = .ok p)
    (hne : p.statements ≠ []) :
    ((∃ T, p.check = .ok T) ↔ ∃ τ, ProgramType Context.empty p.statements τ) ∧
      ∀ T, p.check = .ok T →
        ∀ τ, ProgramType Context.empty p.statements τ ↔ T.HasInstance τ := by
  have hs := check_spec (plain_of_parse hp) hne
  cases hc : p.check with
  | error e =>
    rw [hc] at hs
    refine ⟨⟨by simp, ?_⟩, by simp⟩
    rintro ⟨τ, hτ⟩
    exact absurd hτ (hs τ)
  | ok T =>
    rw [hc] at hs
    obtain ⟨⟨τ, hτ⟩, hiff⟩ := hs
    refine ⟨⟨fun _ => ⟨τ, (hiff τ).mpr hτ⟩, fun _ => ⟨T, rfl⟩⟩, fun T' hT' => ?_⟩
    obtain rfl := Except.ok.inj hT'
    exact hiff

/-- A function that adds in two steps has its type at `int` and at `real`, and at no other type. -/
theorem check_principal_add :
    let T : Ty := .fn (.var 0 (some .numeric)) (.fn (.var 0 (some .numeric))
      (.var 0 (some .numeric)))
    ∃ p, parse "val add := fn x -> fn y -> x + y; fn z -> add(z);" none = .ok p ∧
      p.statements ≠ [] ∧ p.check = .ok T ∧
        ∀ τ, ProgramType Context.empty p.statements τ ↔ T.HasInstance τ := by
  intro T
  obtain ⟨p, hp, ht⟩ := exists_of_parse "val add := fn x -> fn y -> x + y; fn z -> add(z);" none
    (fun p => !p.statements.isEmpty && decide (p.check = .ok T)) (by decide +kernel)
  simp only [Bool.and_eq_true, Bool.not_eq_true', List.isEmpty_eq_false_iff,
    decide_eq_true_eq] at ht
  exact ⟨p, hp, ht.1, ht.2, (check_principal _ none hp ht.1).2 T ht.2⟩

end Program

end Minifun
