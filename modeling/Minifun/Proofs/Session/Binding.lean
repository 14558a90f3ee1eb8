import Minifun.Proofs.Eval.Calls
import Minifun.Proofs.Typing.Leftovers
import Minifun.Proofs.Typing.Uniqueness

/-! # Names for values as calls

Expressions that have the same closed types in every context are shown with the same type by every
checker of a session, in whatever order inference looks at their parts. A name for a value within an
expression and a function called with this value are such expressions, and they also give the same
in every scope of whole values.
-/

namespace Minifun

namespace Infer

variable {frame : Frame Ty} {outer : List (Frame Ty)} {κ : Kinds} {st : InferState} {e : Expr}

/-- The instances of the type found for an expression are its closed types under the valuations that
solve what was known before. Without such types there is none to be found. -/
theorem infer_instances (hg : Good frame outer κ st) (he : Plain e) :
    match e.infer outer st with
    | .ok t st' => (∃ κ', st'.subst.Sound κ' ∧ t.Fits κ') ∧
        ∀ τ, (st'.subst.externalize t).HasInstance τ ↔
          ∃ ρ : Valuation, ρ.Models κ st.subst ∧ HasType (contextOf ρ (frame :: outer)) e τ
    | .error _ _ => ∀ ρ : Valuation, ρ.Models κ st.subst →
        ∀ τ, ¬ HasType (contextOf ρ (frame :: outer)) e τ := by
  have h := typed_of_plain he frame outer κ st hg
  unfold Denotes Relates at h
  cases hm : e.infer outer st with
  | error cause st' =>
    rw [hm] at h
    exact h
  | ok t st' =>
    rw [hm] at h
    obtain ⟨κ', hg', hκ, hext, ft, hiff⟩ := h
    refine ⟨⟨κ', hg'.sound, ft⟩, fun τ => ?_⟩
    rw [hg'.sound.hasInstance_externalize ft]
    constructor
    · rintro ⟨ρ, hρ, hτ⟩
      have hρ' := hρ.of_extends hκ hext
      exact ⟨ρ, hρ', (hiff ρ hρ' τ).mpr ⟨ρ, .refl _ _, hρ, hτ⟩⟩
    · rintro ⟨ρ, hρ, hτ⟩
      obtain ⟨ρ', -, hρ', hview⟩ := (hiff ρ hρ τ).mp hτ
      exact ⟨ρ', hρ', hview⟩

end Infer

namespace Checker

variable {c : Checker} {shared : Shared} {e e' : Expr} {T : Ty}

theorem outcome_single (c : Checker) (shared : Shared) (e : Expr) :
    (c.check shared [e]).outcome = match e.infer [] (c.start shared) with
      | .ok t st => .ok (st.subst.externalize t)
      | .error cause _ => .error cause := by
  unfold check
  simp only [Term.inferStatements, bind_pure]
  cases e.infer [] (c.start shared) <;> rfl

theorem outcome_of_hasType_iff (hc : Infer.Consistent (c.start shared)) (he : Plain e)
    (he' : Plain e') (h : ∀ Γ τ, HasType Γ e τ ↔ HasType Γ e' τ)
    (hT : (c.check shared [e]).outcome = .ok T) : (c.check shared [e']).outcome = .ok T := by
  obtain ⟨κ, hg⟩ := hc
  have hi := Infer.infer_instances hg he
  have hi' := Infer.infer_instances hg he'
  rw [outcome_single] at hT ⊢
  cases hm : e.infer [] (c.start shared) with
  | error cause st => simp [hm] at hT
  | ok t st =>
    rw [hm] at hT hi
    obtain rfl := Except.ok.inj hT
    obtain ⟨⟨κ₁, hs, ft⟩, hinst⟩ := hi
    cases hm' : e'.infer [] (c.start shared) with
    | error cause st' =>
      rw [hm'] at hi'
      obtain ⟨τ, hτ⟩ := hs.exists_instance ft
      obtain ⟨ρ, hρ, htype⟩ := (hinst τ).mp hτ
      exact absurd ((h _ τ).mp htype) (hi' ρ hρ τ)
    | ok t' st' =>
      rw [hm'] at hi'
      obtain ⟨⟨κ₂, hs', ft'⟩, hinst'⟩ := hi'
      have hshown : st'.subst.externalize t' = st.subst.externalize t :=
        Subst.canonical_eq_of_hasInstance (hs'.apply ft') (hs.apply ft) fun τ => by
          change (st'.subst.externalize t').HasInstance τ ↔ (st.subst.externalize t).HasInstance τ
          simp only [hinst, hinst', h]
      simp only [hshown]

end Checker

theorem hasType_letIn_iff_apply {Γ : Context} {x : String} {e e' : Expr} {τ : Ground}
    (l l₁ l₂ : Option Loc) :
    HasType Γ (.letIn x e e' l) τ ↔ HasType Γ (.apply (.lambda x e' l₁) e l₂) τ := by
  rw [hasType_letIn, hasType_apply]
  simp only [hasType_lambda]
  constructor
  · rintro ⟨σ, he, he'⟩
    exact ⟨σ, ⟨σ, τ, rfl, he'⟩, he⟩
  · rintro ⟨σ, ⟨σ', τ', hfn, he'⟩, he⟩
    obtain ⟨rfl, rfl⟩ := Ground.fn.inj hfn
    exact ⟨σ, he, he'⟩

/-- A name for a value within an expression is a function called with the value. Every checker of a
session gives both the same type, or neither of them one. In every scope of whole values both give
the same, be it a value or a failure, as long as the bound on calls is not reached, where the call
itself counts as one; and a failure is one of the two expressions, the first of them or the second
one with the name bound. -/
theorem letIn_eq_apply {e e' : Expr} (he : Plain e) (he' : Plain e') (x : String)
    (l l₁ l₂ : Option Loc) :
    (∀ (c : Checker) (shared : Shared), c.Reached shared → ∀ T,
      (c.check shared [.letIn x e e' l]).outcome = .ok T ↔
        (c.check shared [.apply (.lambda x e' l₁) e l₂]).outcome = .ok T) ∧
    ∀ (frame : Frame Value) (outer : Scope Value), (Scope.frame frame outer).Whole →
      ∀ (depth : Nat) (r : Except Stop Value), (∀ stop, r = .error stop → ¬ stop.Exhausted) →
        ((Term.apply (.lambda x e' l₁) e l₂).answer frame outer depth = r →
          (Term.letIn x e e' l).answer frame outer depth = r) ∧
        ((Term.letIn x e e' l).answer frame outer depth = r →
          (Term.apply (.lambda x e' l₁) e l₂).answer frame outer (depth + 1) = r) ∧
        ∀ stop, r = .error stop → (Term.letIn x e e' l).answer frame outer depth = r →
          e.answer frame outer depth = .error stop ∨
            ∃ v, e.answer frame outer depth = .ok v ∧
              e'.answer [(x, v)] (.frame frame outer) depth = .error stop := by
  have hlet : Plain (.letIn x e e' l) := .letIn he he'
  have hcall : Plain (.apply (.lambda x e' l₁) e l₂) := .apply (.lambda he') he
  constructor
  · intro c shared hc T
    constructor
    · exact Checker.outcome_of_hasType_iff hc.consistent hlet hcall
        fun Γ τ => hasType_letIn_iff_apply l l₁ l₂
    · exact Checker.outcome_of_hasType_iff hc.consistent hcall hlet
        fun Γ τ => (hasType_letIn_iff_apply l l₁ l₂).symm
  · intro frame outer hs depth r hr
    obtain ⟨happly, hletIn⟩ := answer_letIn_apply hs he he' x depth l l₁ l₂
    refine ⟨?_, ?_, ?_⟩
    · rintro rfl
      exact (happly.eq hr).symm
    · rintro rfl
      exact (hletIn.eq hr).symm
    · rintro stop rfl hstop
      rw [answer_letIn hs he he'] at hstop
      cases hv : e.answer frame outer depth with
      | error stop' =>
        rw [hv] at hstop
        exact .inl hstop
      | ok v =>
        rw [hv] at hstop
        exact .inr ⟨v, rfl, hstop⟩

/-- The identity as a value with a name, and as the argument of a function: both ways it is applied
to a number, and the second way two calls are open at once. -/
theorem letIn_eq_apply_identity :
    let identity : Expr := .lambda "y" (.ident "y" none) none
    let body : Expr := .apply (.ident "f" none) (.literal (.int 1) none) none
    let call : Expr := .apply (.lambda "f" body none) identity none
    Plain identity ∧ Plain body ∧ (({} : Checker).check {} [call]).outcome = .ok .int ∧
      call.answer [] .empty 2 = .ok (.int 1) ∧ call.answer [] .empty 1 = .error .outOfDepth := by
  intro identity body call
  have hidentity : Plain identity := .lambda .ident
  have hbody : Plain body := .apply .ident .int
  obtain ⟨htype, hvalue⟩ := letIn_eq_apply hidentity hbody "f" none none none
  have hs : (Scope.frame [] .empty).Whole := .frame (by simp) .empty
  obtain ⟨-, hcall, -⟩ := hvalue [] .empty hs 1 (.ok (.int 1)) (by simp)
  exact ⟨hidentity, hbody, (htype {} {} .new .int).mp rfl, hcall rfl, rfl⟩

/-- A closure whose body is a definition answers with a name, which a function hands on, while the
body of `let` has to be a value. -/
theorem letIn_ne_apply_definition :
    let frame : Frame Value :=
      [("f", .closure "p" (.val "z" (.literal (.int 1) none) none) .empty)]
    let one : Expr := .literal (.int 1) none
    let call : Expr := .apply (.ident "f" none) one none
    Plain one ∧ Plain call ∧ (∀ b ∈ frame, b.2.isValue = true) ∧
      (Term.letIn "x" one call none).answer frame .empty 2 =
        .error (.error ⟨.notAValue, none⟩) ∧
      (Term.apply (.lambda "x" call none) one none).answer frame .empty 2 = .ok (.name "z") := by
  intro frame one call
  exact ⟨.int, .apply .ident .int, by simp [frame, Value.isValue], rfl, rfl⟩

end Minifun
