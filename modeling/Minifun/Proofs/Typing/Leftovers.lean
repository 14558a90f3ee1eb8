import Minifun.Proofs.Ty.Store
import Minifun.Proofs.Typing.Statements
import Minifun.Proofs.Typing.Supply

/-! # What failed inference leaves behind

Inference keeps what it found when it fails: variables that were bound stay bound, and the name of a
recursive definition keeps the type that was assumed for it. The state is good again, so that checks
after a failed one go by the typing rules as well. There is one statement for each construct, about
success and failure alike.
-/

namespace Minifun

namespace Subst

variable {κ : Kinds} {s : Subst} {a b t : Ty} {i : Int} {c : Option Constraint}

theorem bindVar_kept_sound (hs : s.Sound κ) (hi : (Ty.var i c).Fits κ) (ht : t.Fits κ)
    (hsi : s.lookup i = none) (hst : s.Settled t) (hne : t.same (.var i c) = false) :
    (kept (s.bindVar i c t)).Sound κ := by
  have h := bindVar_outcome hs hi ht hsi hst hne
  cases hb : s.bindVar i c t with
  | ok s' =>
    rw [hb] at h
    exact Unifies.sound h
  | error e =>
    obtain ⟨s', clash⟩ := e
    have hs' : s' = s := by
      unfold bindVar at hb
      split at hb
      · cases hb
      · split_ifs at hb <;> exact (congrArg Prod.fst (Except.error.inj hb)).symm
    rw [hs']
    exact hs

theorem unifyRound_kept_sound {again : Subst → Ty → Ty → Unified}
    (hgrown : ∀ s a b, s.Acyclic → s.Settled a → s.Settled b →
      Grown (a.isProper = true ∧ b.isProper = true) s (kept (again s a b)))
    (hagain : ∀ s a b, Ready κ s a b → (kept (again s a b)).Sound κ) (h : Ready κ s a b) :
    (kept (unifyRound again s a b)).Sound κ := by
  fun_induction unifyRound again s a b with
  | case1 => exact h.sound
  | case2 s i c t hne =>
    exact bindVar_kept_sound h.sound h.left h.right (h.settledLeft i c List.mem_cons_self)
      h.settledRight (by rwa [same_comm, Bool.not_eq_true] at hne)
  | case3 s t i c _ hne =>
    exact bindVar_kept_sound h.sound h.right h.left (h.settledRight i c List.mem_cons_self)
      h.settledLeft (by rwa [Bool.not_eq_true] at hne)
  | case4 s a b _ ih => exact ih ⟨h.sound, h.left, h.right, h.settledLeft, h.settledRight⟩
  | case5 s a r b q e he _ ih =>
    have hparam := ih h.param
    rwa [he] at hparam
  | case6 s a r b q s' he hst _ ih ih' =>
    have hparam := ih h.param
    have hl := unifyRound_grown hgrown h.sound.acyclic h.settledLeft.param h.settledRight.param
    rw [he] at hparam hl
    -- no variable came to stand for something, so the results are still without bound variables
    exact ih' ⟨hparam, h.left.2, h.right.2, h.settledLeft.result.congr (hl.lookup_eq hst),
      h.settledRight.result.congr (hl.lookup_eq hst)⟩
  | case7 s a r b q s' he hst _ ih =>
    have hparam := ih h.param
    rw [he] at hparam
    exact hagain s' _ _ (ready_apply hparam h.left.2 h.right.2)
  | case8 => exact h.sound

theorem unifyRounds_kept_sound (n : Nat) (h : Ready κ s a b) :
    (kept (unifyRounds n s a b)).Sound κ := by
  induction n generalizing s a b with
  | zero => exact unifyRound_kept_sound (fun s a b hs _ _ => .refl hs) (fun s a b h => h.sound) h
  | succ n ih =>
    exact unifyRound_kept_sound (fun s a b hs ha hb => unifyRounds_grown n hs ha hb)
      (fun s a b h => ih h) h

theorem Sound.kept_unify (hs : s.Sound κ) (ha : a.Fits κ) (hb : b.Fits κ) :
    (kept (s.unify a b)).Sound κ :=
  unifyRounds_kept_sound _ (ready_apply hs ha hb)

end Subst

namespace Infer

/-- A computation within a frame leaves a good state behind. If it succeeds, all that was known is
still known, and its result has a property. -/
def Leaves {α : Type} (frame : Frame Ty) (outer : List (Frame Ty)) (κ : Kinds) (st : InferState)
    (m : Infer α) (Q : Kinds → α → Prop) : Prop :=
  match m st with
  | .ok a st' => ∃ κ', Grows frame outer κ st κ' st' ∧ Q κ' a
  | .error _ st' => ∃ κ', Good frame outer κ' st'

def Orderly (e : Expr) : Prop :=
  ∀ frame outer κ st, Good frame outer κ st →
    Leaves frame outer κ st (e.infer outer) fun κ' t => t.Fits κ'

section Calculus

variable {α β : Type} {frame : Frame Ty} {outer : List (Frame Ty)} {κ : Kinds} {st st' : InferState}
  {m : Infer α} {f : α → Infer β} {Q : Kinds → α → Prop} {S : Kinds → β → Prop} {a b t : Ty}

theorem leaves_pure {x : α} (hg : Good frame outer κ st) (h : Q κ x) :
    Leaves frame outer κ st (pure x) Q :=
  ⟨κ, .refl hg, h⟩

theorem leaves_fail (hg : Good frame outer κ st) (cause : TypeCause) (loc : Option Loc) :
    Leaves frame outer κ st (fail cause loc) Q :=
  ⟨κ, hg⟩

theorem Leaves.bind (h : Leaves frame outer κ st m Q)
    (hf : ∀ x κ' st', Grows frame outer κ st κ' st' → Q κ' x → Leaves frame outer κ' st' (f x) S) :
    Leaves frame outer κ st (m >>= f) S := by
  unfold Leaves at h
  split at h
  · rename_i x st₁ hm
    obtain ⟨κ₁, g₁, hx⟩ := h
    have hrest := hf x κ₁ st₁ g₁ hx
    unfold Leaves at hrest ⊢
    rw [bind_of_ok hm]
    split at hrest
    · obtain ⟨κ₂, g₂, hy⟩ := hrest
      exact ⟨κ₂, g₁.trans g₂, hy⟩
    · exact hrest
  · rename_i e st₁ hm
    unfold Leaves
    rw [bind_of_error hm]
    exact h

theorem Leaves.after {x : α} (hm : m st = .ok x st) (h : Leaves frame outer κ st (f x) S) :
    Leaves frame outer κ st (m >>= f) S := by
  unfold Leaves at h ⊢
  rwa [bind_of_ok hm]

theorem leaves_fresh (hg : Good frame outer κ st) (k : Kind) :
    Leaves frame outer κ st (fresh k.constraint) fun κ' t => t.Fits κ' :=
  ⟨_, hg.fresh k, k, Function.update_self .., rfl⟩

theorem leaves_resolve (hg : Good frame outer κ st) (ht : t.Fits κ) :
    Leaves frame outer κ st (resolve t) fun κ' t => t.Fits κ' :=
  leaves_pure hg (hg.sound.apply ht)

theorem leaves_unify (hg : Good frame outer κ st) (ha : a.Fits κ) (hb : b.Fits κ) (label : String)
    (loc : Option Loc) : Leaves frame outer κ st (unify label loc a b) fun _ _ => True := by
  have hkept := hg.sound.kept_unify ha hb
  unfold Leaves Infer.unify
  cases hu : st.subst.unify a b with
  | ok s =>
    rw [hu] at hkept
    have he := (hg.sound.unify_ok ha hb hu).2.1
    exact ⟨κ, ⟨⟨hg.here, hkept, hg.given, hg.fits⟩, fun _ _ h => h, he⟩, trivial⟩
  | error r =>
    rw [hu] at hkept
    exact ⟨κ, hg.here, hkept, hg.given, hg.fits⟩

theorem leaves_note (hg : Good frame outer κ st) (description : String)
    (loc : Option Loc) (t : Ty) :
    Leaves frame outer κ st (note description loc t) fun _ _ => True :=
  ⟨κ, ⟨⟨hg.here, hg.sound, hg.given, hg.fits⟩, fun _ _ h => h, .refl _⟩, trivial⟩

theorem Leaves.within {x : String} (hg : Good frame outer κ st) (ft : t.Fits κ)
    (h : ∀ st', Good [(x, t)] (frame :: outer) κ st' →
      Leaves [(x, t)] (frame :: outer) κ st' m Q) :
    Leaves frame outer κ st (Infer.within [(x, t)] m) Q := by
  have hm := h _ (hg.enter ft x)
  unfold Leaves at hm
  unfold Leaves Infer.within
  cases hu : m { st with frame := [(x, t)] } with
  | ok u st₁ =>
    rw [hu] at hm
    obtain ⟨κ₁, g₁, hq⟩ := hm
    exact ⟨κ₁, ⟨hg.leave g₁.good, g₁.kinds, g₁.extends_⟩, hq⟩
  | error e st₁ =>
    rw [hu] at hm
    obtain ⟨κ₁, g₁⟩ := hm
    exact ⟨κ₁, hg.leave g₁⟩

end Calculus

section Constructs

variable {a b c e f i xs v body : Expr} {es : List Expr} {loc : Option Loc} {x : String}
  {frame : Frame Ty} {outer : List (Frame Ty)} {κ : Kinds} {st : InferState} {s t : Ty}

theorem orderly_ident : Orderly (.ident x loc) := by
  intro frame outer κ st hg
  rw [Term.infer, nameType]
  refine .after (x := st) rfl ?_
  simp only [hg.here]
  cases hx : lookup x (frame :: outer) with
  | none => exact leaves_fail hg _ _
  | some t =>
    have ht := hg.fits_of_lookup hx
    simp only [Option.filter_some, ht.isNothing, Bool.not_false, ↓reduceIte]
    exact leaves_resolve hg ht

theorem Orderly.both (ha : Orderly a) (hb : Orderly b) (hg : Good frame outer κ st)
    {g : Ty → Ty → Infer Ty}
    (h : ∀ s t κ' st', Grows frame outer κ st κ' st' → s.Fits κ' → t.Fits κ' →
      Leaves frame outer κ' st' (g s t) fun κ t => t.Fits κ) :
    Leaves frame outer κ st (a.infer outer >>= fun s => b.infer outer >>= fun t => g s t)
      fun κ t => t.Fits κ := by
  refine (ha frame outer κ st hg).bind fun s κ₁ st₁ g₁ fs => ?_
  refine (hb frame outer κ₁ st₁ g₁.good).bind fun t κ₂ st₂ g₂ ft => ?_
  exact h s t κ₂ st₂ (g₁.trans g₂) (fs.mono g₂.kinds) ft

theorem leaves_unify_both {r : Ty} (hg : Good frame outer κ st) (fs : s.Fits κ) (ft : t.Fits κ)
    (fr : r.Fits κ) (label : String) (l l' : Option Loc) {m : Infer Ty}
    (h : ∀ κ' st', Good frame outer κ' st' → (∀ i k, κ i = some k → κ' i = some k) →
      Leaves frame outer κ' st' m fun κ t => t.Fits κ) :
    Leaves frame outer κ st (do
      unify label l s r
      unify label l' t r
      m) fun κ t => t.Fits κ := by
  refine (leaves_unify hg fs fr _ _).bind fun _ κ₁ st₁ g₁ _ => ?_
  refine (leaves_unify g₁.good (ft.mono g₁.kinds) (fr.mono g₁.kinds) _ _).bind
    fun _ κ₂ st₂ g₂ _ => ?_
  exact h κ₂ st₂ g₂.good (g₁.trans g₂).kinds

theorem orderly_unary {op : UnOp} (he : Orderly e) : Orderly (.unary op e loc) := by
  intro frame outer κ st hg
  rw [Term.infer]
  refine (he frame outer κ st hg).bind fun t κ₁ st₁ g₁ ft => ?_
  cases op with
  | neg =>
    refine (leaves_fresh g₁.good .numeric).bind fun w κ₂ st₂ g₂ fw => ?_
    refine (leaves_unify g₂.good (ft.mono g₂.kinds) fw _ _).bind fun _ κ₃ st₃ g₃ _ => ?_
    exact leaves_resolve g₃.good (fw.mono g₃.kinds)
  | _ =>
    refine (leaves_unify (b := .bool) g₁.good ft trivial _ _).bind fun _ κ₂ st₂ g₂ _ => ?_
    exact leaves_pure g₂.good trivial

theorem orderly_binary {op : BinOp} (ha : Orderly a) (hb : Orderly b) :
    Orderly (.binary op a b loc) := by
  intro frame outer κ st hg
  rw [Term.infer]
  refine ha.both hb hg fun s t κ₁ st₁ g₁ fs ft => ?_
  cases op with
  | arith op =>
    refine (leaves_fresh g₁.good .numeric).bind fun w κ₂ st₂ g₂ fw => ?_
    exact leaves_unify_both g₂.good (fs.mono g₂.kinds) (ft.mono g₂.kinds) fw _ _ _
      fun κ₃ st₃ g₃ hκ => leaves_resolve g₃ (fw.mono hκ)
  | rel op =>
    refine (leaves_fresh g₁.good .numeric).bind fun w κ₂ st₂ g₂ fw => ?_
    exact leaves_unify_both g₂.good (fs.mono g₂.kinds) (ft.mono g₂.kinds) fw _ _ _
      fun κ₃ st₃ g₃ _ => leaves_pure g₃ trivial
  | logic op =>
    exact leaves_unify_both (r := .bool) g₁.good fs ft trivial _ _ _
      fun κ₂ st₂ g₂ _ => leaves_pure g₂ trivial
  | concat =>
    refine (leaves_fresh g₁.good .any).bind fun w κ₂ st₂ g₂ fw => ?_
    exact leaves_unify_both (r := .list w) g₂.good (fs.mono g₂.kinds) (ft.mono g₂.kinds) fw _ _ _
      fun κ₃ st₃ g₃ hκ => leaves_resolve (t := .list w) g₃ (fw.mono hκ)
  | other symbol => exact leaves_fail g₁.good _ _

theorem leaves_elements (hes : ∀ e ∈ es, Orderly e) (hg : Good frame outer κ st) (ft : t.Fits κ) :
    Leaves frame outer κ st (Term.inferElements outer t es) fun _ _ => True := by
  induction es generalizing κ st with
  | nil =>
    rw [Term.inferElements]
    exact leaves_pure hg trivial
  | cons e es ih =>
    obtain ⟨he, hes⟩ := List.forall_mem_cons.mp hes
    rw [Term.inferElements]
    refine (he frame outer κ st hg).bind fun u κ₁ st₁ g₁ fu => ?_
    refine (leaves_unify g₁.good (ft.mono g₁.kinds) fu _ _).bind fun _ κ₂ st₂ g₂ _ => ?_
    exact ih hes g₂.good (ft.mono (g₁.trans g₂).kinds)

theorem orderly_list (hes : ∀ e ∈ es, Orderly e) : Orderly (.list es loc) := by
  intro frame outer κ st hg
  cases es with
  | nil =>
    rw [Term.infer]
    exact (leaves_fresh hg .any).bind fun w κ₁ st₁ g₁ fw => leaves_pure g₁.good fw
  | cons e es =>
    obtain ⟨he, hes⟩ := List.forall_mem_cons.mp hes
    rw [Term.infer]
    refine (he frame outer κ st hg).bind fun t κ₁ st₁ g₁ ft => ?_
    refine (leaves_elements hes g₁.good ft).bind fun _ κ₂ st₂ g₂ _ => ?_
    exact (leaves_resolve g₂.good (ft.mono g₂.kinds)).bind fun u κ₃ st₃ g₃ fu =>
      leaves_pure g₃.good fu

theorem orderly_head (he : Orderly e) : Orderly (.head e loc) := by
  intro frame outer κ st hg
  rw [Term.infer]
  refine (leaves_fresh hg .any).bind fun w κ₁ st₁ g₁ fw => ?_
  refine (he frame outer κ₁ st₁ g₁.good).bind fun t κ₂ st₂ g₂ ft => ?_
  have fw := fw.mono g₂.kinds
  refine (leaves_unify (b := .list w) g₂.good ft fw _ _).bind fun _ κ₃ st₃ g₃ _ => ?_
  exact leaves_resolve g₃.good (fw.mono g₃.kinds)

theorem orderly_tail (he : Orderly e) : Orderly (.tail e loc) := by
  intro frame outer κ st hg
  rw [Term.infer]
  refine (leaves_fresh hg .any).bind fun w κ₁ st₁ g₁ fw => ?_
  refine (he frame outer κ₁ st₁ g₁.good).bind fun t κ₂ st₂ g₂ ft => ?_
  have fw := fw.mono g₂.kinds
  refine (leaves_unify (b := .list w) g₂.good ft fw _ _).bind fun _ κ₃ st₃ g₃ _ => ?_
  exact leaves_resolve (t := .list w) g₃.good (fw.mono g₃.kinds)

theorem orderly_length (he : Orderly e) : Orderly (.length e loc) := by
  intro frame outer κ st hg
  rw [Term.infer]
  refine (he frame outer κ st hg).bind fun t κ₁ st₁ g₁ ft => ?_
  refine (leaves_fresh g₁.good .any).bind fun w κ₂ st₂ g₂ fw => ?_
  refine (leaves_unify (b := .list w) g₂.good (ft.mono g₂.kinds) fw _ _).bind
    fun _ κ₃ st₃ g₃ _ => ?_
  exact leaves_pure g₃.good trivial

theorem orderly_cond (hc : Orderly c) (ha : Orderly a) (hb : Orderly b) :
    Orderly (.cond c a b loc) := by
  intro frame outer κ st hg
  rw [Term.infer]
  refine (hc frame outer κ st hg).bind fun t κ₁ st₁ g₁ ft => ?_
  refine (leaves_unify (b := .bool) g₁.good ft trivial _ _).bind fun _ κ₂ st₂ g₂ _ => ?_
  refine ha.both hb g₂.good fun s t κ₃ st₃ g₃ fs ft => ?_
  refine (leaves_unify g₃.good fs ft _ _).bind fun _ κ₄ st₄ g₄ _ => ?_
  exact leaves_resolve g₄.good (fs.mono g₄.kinds)

theorem orderly_lambda (hb : Orderly body) : Orderly (.lambda x body loc) := by
  intro frame outer κ st hg
  rw [Term.infer]
  refine (leaves_fresh hg .any).bind fun w κ₁ st₁ g₁ fw => .after (x := st₁) rfl ?_
  rw [g₁.good.here]
  refine (Leaves.within g₁.good fw fun st' g' => hb _ _ κ₁ st' g').bind fun t κ₂ st₂ g₂ ft => ?_
  refine (leaves_resolve g₂.good (fw.mono g₂.kinds)).bind fun u κ₃ st₃ g₃ fu => ?_
  refine (leaves_resolve g₃.good (ft.mono g₃.kinds)).bind fun r κ₄ st₄ g₄ fr => ?_
  refine (leaves_note g₄.good _ _ _).bind fun _ κ₅ st₅ g₅ _ => ?_
  exact leaves_pure g₅.good ⟨fu.mono (g₄.trans g₅).kinds, fr.mono g₅.kinds⟩

theorem orderly_apply (hf : Orderly f) (ha : Orderly a) : Orderly (.apply f a loc) := by
  intro frame outer κ st hg
  rw [Term.infer]
  refine hf.both ha hg fun s t κ₁ st₁ g₁ fs ft => ?_
  refine (leaves_fresh g₁.good .any).bind fun w κ₂ st₂ g₂ fw => ?_
  refine (leaves_unify (b := .fn t w) g₂.good (fs.mono g₂.kinds) ⟨ft.mono g₂.kinds, fw⟩ _ _).bind
    fun _ κ₃ st₃ g₃ _ => ?_
  exact leaves_resolve g₃.good (fw.mono g₃.kinds)

theorem orderly_letIn (hv : Orderly v) (hb : Orderly body) : Orderly (.letIn x v body loc) := by
  intro frame outer κ st hg
  rw [Term.infer]
  refine (hv frame outer κ st hg).bind fun t κ₁ st₁ g₁ ft => .after (x := st₁) rfl ?_
  rw [g₁.good.here]
  exact .within g₁.good ft fun st' g' => hb _ _ κ₁ st' g'

theorem orderly_map (hf : Orderly f) (hx : Orderly xs) : Orderly (.map f xs loc) := by
  intro frame outer κ st hg
  rw [Term.infer]
  refine hf.both hx hg fun s t κ₁ st₁ g₁ fs ft => ?_
  refine (leaves_fresh g₁.good .any).bind fun u κ₂ st₂ g₂ fu => ?_
  refine (leaves_fresh g₂.good .any).bind fun w κ₃ st₃ g₃ fw => ?_
  have fu := fu.mono g₃.kinds
  have g := g₂.trans g₃
  refine (leaves_unify (b := .fn u w) g₃.good (fs.mono g.kinds) ⟨fu, fw⟩ _ _).bind
    fun _ κ₄ st₄ g₄ _ => ?_
  refine (leaves_unify (b := .list u) g₄.good (ft.mono (g.trans g₄).kinds) (fu.mono g₄.kinds)
    _ _).bind fun _ κ₅ st₅ g₅ _ => ?_
  exact leaves_resolve (t := .list w) g₅.good (fw.mono (g₄.trans g₅).kinds)

theorem Orderly.fold (hf : Orderly f) (hi : Orderly i) (hx : Orderly xs)
    (hg : Good frame outer κ st) {m : Ty → Ty → Ty → Ty → Ty → Infer Ty}
    (h : ∀ r s t u w κ' st', Good frame outer κ' st' → r.Fits κ' → s.Fits κ' → t.Fits κ' →
      u.Fits κ' → w.Fits κ' →
      Leaves frame outer κ' st' (m r s t u w) fun κ t => t.Fits κ) :
    Leaves frame outer κ st (do
      let r ← f.infer outer
      let s ← i.infer outer
      let t ← xs.infer outer
      let u ← fresh none
      let w ← fresh none
      m r s t u w) fun κ t => t.Fits κ := by
  refine (hf frame outer κ st hg).bind fun r κ₁ st₁ g₁ fr => ?_
  refine hi.both hx g₁.good fun s t κ₂ st₂ g₂ fs ft => ?_
  refine (leaves_fresh g₂.good .any).bind fun u κ₃ st₃ g₃ fu => ?_
  refine (leaves_fresh g₃.good .any).bind fun w κ₄ st₄ g₄ fw => ?_
  have g := g₃.trans g₄
  exact h r s t u w κ₄ st₄ g₄.good (fr.mono (g₂.trans g).kinds) (fs.mono g.kinds)
    (ft.mono g.kinds) (fu.mono g₄.kinds) fw

theorem leaves_unify_three {s₁ t₁ s₂ t₂ s₃ t₃ : Ty} {l₁ l₂ l₃ : Option Loc} {n₁ n₂ n₃ : String}
    (hg : Good frame outer κ st) (fs₁ : s₁.Fits κ) (ft₁ : t₁.Fits κ) (fs₂ : s₂.Fits κ)
    (ft₂ : t₂.Fits κ) (fs₃ : s₃.Fits κ) (ft₃ : t₃.Fits κ) (ft : t.Fits κ) :
    Leaves frame outer κ st (do
      unify n₁ l₁ s₁ t₁
      unify n₂ l₂ s₂ t₂
      unify n₃ l₃ s₃ t₃
      resolve t) fun κ t => t.Fits κ := by
  refine (leaves_unify hg fs₁ ft₁ _ _).bind fun _ κ₁ st₁ g₁ _ => ?_
  refine (leaves_unify g₁.good (fs₂.mono g₁.kinds) (ft₂.mono g₁.kinds) _ _).bind
    fun _ κ₂ st₂ g₂ _ => ?_
  have g := g₁.trans g₂
  refine (leaves_unify g₂.good (fs₃.mono g.kinds) (ft₃.mono g.kinds) _ _).bind
    fun _ κ₃ st₃ g₃ _ => ?_
  exact leaves_resolve g₃.good (ft.mono (g.trans g₃).kinds)

theorem orderly_fold {side : Side} (hf : Orderly f) (hi : Orderly i) (hx : Orderly xs) :
    Orderly (.fold side f i xs loc) := by
  intro frame outer κ st hg
  cases side with
  | left =>
    rw [Term.infer]
    refine hf.fold hi hx hg fun r s t u w κ₁ st₁ g₁ fr fs ft fu fw => ?_
    have flist : (Ty.list w).Fits κ₁ := fw
    have ffn : (Ty.fn u (.fn w u)).Fits κ₁ := ⟨fu, fw, fu⟩
    exact leaves_unify_three g₁ fs fu ft flist fr ffn fu
  | right =>
    rw [Term.infer]
    refine hf.fold hi hx hg fun r s t u w κ₁ st₁ g₁ fr fs ft fu fw => ?_
    have flist : (Ty.list u).Fits κ₁ := fu
    have ffn : (Ty.fn u (.fn w w)).Fits κ₁ := ⟨fu, fw, fw⟩
    exact leaves_unify_three g₁ ft flist fs fw fr ffn fw

theorem orderly_of_plain (h : Plain e) : Orderly e := by
  induction h with
  | int | real | bool =>
    intro frame outer κ st hg
    rw [Term.infer]
    exact leaves_pure hg trivial
  | ident => exact orderly_ident
  | neg _ ih | not _ ih => exact orderly_unary ih
  | binary _ _ _ iha ihb => exact orderly_binary iha ihb
  | list _ ih => exact orderly_list ih
  | head _ ih => exact orderly_head ih
  | tail _ ih => exact orderly_tail ih
  | length _ ih => exact orderly_length ih
  | cond _ _ _ ihc iha ihb => exact orderly_cond ihc iha ihb
  | lambda _ ih => exact orderly_lambda ih
  | apply _ _ ihf iha => exact orderly_apply ihf iha
  | letIn _ _ ihv ihb => exact orderly_letIn ihv ihb
  | map _ _ ihf ihx => exact orderly_map ihf ihx
  | fold _ _ _ ihf ihi ihx => exact orderly_fold ihf ihi ihx

end Constructs

/-- A state between statements is good: the types of the names fit what is known of variables. -/
def Consistent (st : InferState) : Prop :=
  ∃ κ, Good st.frame [] κ st

section Statements

variable {s e : Expr} {ss : List Expr} {st : InferState} {κ : Kinds} {frame : Frame Ty}

theorem Leaves.consistent {α : Type} {m : Infer α} {Q : Kinds → α → Prop}
    (h : Leaves frame [] κ st m Q) : Consistent (final (m st)) := by
  unfold Leaves at h
  split at h
  · rename_i a st' hm
    obtain ⟨κ', g, -⟩ := h
    rw [hm]
    exact ⟨κ', rfl, g.good.sound, g.good.given, g.good.here ▸ g.good.fits⟩
  · rename_i e st' hm
    obtain ⟨κ', g⟩ := h
    rw [hm]
    exact ⟨κ', rfl, g.sound, g.given, g.here ▸ g.fits⟩

theorem Leaves.settle {m : Infer Ty} (h : Leaves frame [] κ st m fun κ t => t.Fits κ) (x : String)
    (loc : Option Loc) : Consistent (final ((m >>= Infer.settle x loc) st)) := by
  have hm := h.consistent
  unfold Leaves at h
  split at h
  · rename_i t st₁ hok
    obtain ⟨κ₁, g₁, ft⟩ := h
    rw [bind_of_ok hok]
    have hg := g₁.good.define (g₁.good.sound.apply ft) x
    rw [← g₁.good.here] at hg
    exact ⟨κ₁, hg _⟩
  · rename_i e st₁ herror
    rw [bind_of_error herror]
    rwa [herror] at hm

theorem leaves_function {t : Ty} (he : Orderly e) (hg : Good frame [] κ st) (ft : t.Fits κ)
    (label : String) (loc : Option Loc) :
    Leaves frame [] κ st (do
      let type ← e.infer []
      unify label loc t type
      return type) fun κ t => t.Fits κ := by
  refine (he frame [] κ st hg).bind fun u κ₁ st₁ g₁ fu => ?_
  refine (leaves_unify g₁.good (ft.mono g₁.kinds) fu _ _).bind fun _ κ₂ st₂ g₂ _ => ?_
  exact leaves_pure g₂.good (fu.mono g₂.kinds)

/-- A statement leaves a good state behind, whether it has a type or not. -/
theorem consistent_statement (h : PlainStatement s) (hst : Consistent st) :
    Consistent (final (s.infer [] st)) := by
  obtain ⟨κ, hg⟩ := hst
  cases h with
  | expression he => exact (orderly_of_plain he _ [] κ st hg).consistent
  | @val x e loc he =>
    cases hl : e.isLambda with
    | false =>
      rw [Term.infer_val_value _ _ _ _ hl]
      exact (orderly_of_plain he _ [] κ st hg).settle x loc
    | true =>
      rw [Term.infer_val_function _ _ _ _ hl]
      have g₁ := hg.fresh .any
      have g₂ := g₁.good.fresh .any
      have hself : ∀ (κ : Kinds) (i : Int),
          (Ty.var i none).Fits (Function.update κ i (some .any)) :=
        fun κ i => ⟨.any, Function.update_self .., rfl⟩
      have fp : (Ty.fn (.var st.next none) (.var (st.next + 1 : Nat) none)).Fits _ :=
        ⟨(hself κ st.next).mono g₂.kinds, hself _ _⟩
      have hg₃ := g₂.good.define fp x st.trace
      -- the name has a type before its right side is looked at, and keeps it if that fails
      exact (leaves_function (orderly_of_plain he) hg₃ fp _ loc).settle x loc

theorem consistent_statements (hs : ∀ s ∈ ss, PlainStatement s) (hst : Consistent st) (last : Ty) :
    Consistent (final (Term.inferStatements [] last ss st)) := by
  induction ss generalizing st last with
  | nil =>
    rw [Term.inferStatements]
    exact hst
  | cons s ss ih =>
    obtain ⟨hs, hss⟩ := List.forall_mem_cons.mp hs
    have hstep := consistent_statement hs hst
    rw [Term.inferStatements]
    cases hm : s.infer [] st with
    | ok t st₁ =>
      rw [hm] at hstep
      rw [bind_of_ok hm]
      exact ih hss hstep t
    | error e st₁ =>
      rw [hm] at hstep
      rwa [bind_of_error hm]

end Statements

end Infer

namespace Checker

/-- The checkers of sessions: new ones, those that have checked programs, with success or without,
and those beside which others have drawn variables. -/
inductive Reached : Checker → Shared → Prop where
  | new {shared} : Reached {} shared
  | check {c shared ss} : Reached c shared → (∀ s ∈ ss, PlainStatement s) →
      Reached (c.check shared ss).checker (c.check shared ss).shared
  | others {c shared shared'} : Reached c shared → shared.next ≤ shared'.next → Reached c shared'

/-- In every checker of a session, the types of the names fit what is known of variables. -/
theorem Reached.consistent {c : Checker} {shared : Shared} (h : c.Reached shared) :
    Infer.Consistent (c.start shared) := by
  induction h with
  | new =>
    refine ⟨fun _ => none, rfl, Subst.sound_empty _, ?_, ?_⟩
    · intro i k hi
      cases hi
    · simp [start]
  | @check c shared ss _ hss ih =>
    obtain ⟨κ, hg⟩ := Infer.consistent_statements hss ih .nothing
    refine ⟨κ, rfl, ?_, ?_, ?_⟩
    · simp only [start, check_checker]
      exact hg.sound
    · simp only [start, check_next]
      exact hg.given
    · simp only [start, check_checker]
      exact hg.fits
  | @others c shared shared' _ hle ih =>
    obtain ⟨κ, hg⟩ := ih
    refine ⟨κ, rfl, hg.sound, fun i k hi => ?_, hg.fits⟩
    have hlt : i < (shared.next : Int) := hg.given i k hi
    simp only [start]
    omega

end Checker

end Minifun
