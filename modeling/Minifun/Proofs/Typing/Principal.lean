import Minifun.Proofs.Program.Plain
import Minifun.Proofs.Typing.Reading

/-! # Inference denotes the typing rules

Under a valuation of the variables known before, the closed types of an expression are exactly the
readings of the type that inference gives it. There is one statement for each construct: what its
steps denote one after the other is what its rule says.
-/

namespace Minifun

namespace Infer

def Typed (e : Expr) : Prop :=
  ∀ frame outer κ st, Good frame outer κ st → Denotes frame outer κ st (e.infer outer)
    fun ρ τ => HasType (contextOf ρ (frame :: outer)) e τ

variable {a b c e f i xs v body : Expr} {es : List Expr} {loc : Option Loc} {frame : Frame Ty}
  {outer : List (Frame Ty)} {κ : Kinds} {st : InferState} {s t : Ty}

theorem typed_int {n : Int} : Typed (.literal (.int n) loc) := by
  intro frame outer κ st hg
  rw [Term.infer]
  refine (denotes_pure (t := .int) hg trivial).congr fun ρ _ τ => ⟨fun h => ?_, ?_⟩
  · cases h
    rfl
  · rintro rfl
    exact .int

theorem typed_real {x : Float} : Typed (.literal (.real x) loc) := by
  intro frame outer κ st hg
  rw [Term.infer]
  refine (denotes_pure (t := .real) hg trivial).congr fun ρ _ τ => ⟨fun h => ?_, ?_⟩
  · cases h
    rfl
  · rintro rfl
    exact .real

theorem typed_bool {b : Bool} : Typed (.literal (.bool b) loc) := by
  intro frame outer κ st hg
  rw [Term.infer]
  refine (denotes_pure (t := .bool) hg trivial).congr fun ρ _ τ => ⟨fun h => ?_, ?_⟩
  · cases h
    rfl
  · rintro rfl
    exact .bool

theorem typed_ident {x : String} : Typed (.ident x loc) := by
  intro frame outer κ st hg
  rw [Term.infer, nameType]
  simp only [hasType_ident]
  refine Relates.after (a := st) rfl rfl ?_
  rw [hg.here]
  cases hx : lookup x (frame :: outer) with
  | none =>
    intro ρ _ τ hτ
    simp [contextOf, hx] at hτ
  | some t =>
    have ht := hg.fits_of_lookup hx
    simp only [Option.filter_some, ht.isNothing, Bool.not_false, ↓reduceIte]
    exact (denotes_resolve hg ht).congr fun ρ _ τ => by simp [contextOf, hx]

theorem typed_neg (he : Typed e) : Typed (.unary .neg e loc) := by
  intro frame outer κ st hg
  rw [Term.infer]
  simp only [hasType_neg]
  refine ((he frame outer κ st hg).bind (fun _ σ τ => σ.isNumeric = true ∧ σ = τ)
    (fun _ _ _ => rfl) fun t κ₁ st₁ g₁ ft => ?_).congr fun ρ _ τ => ?_
  · refine ((denotes_fresh g₁.good .numeric).bind (fun ρ σ τ => t.reading ρ = σ ∧ σ = τ)
      (fun ρ ρ' h => by rw [h.reading ft]) fun w κ₂ st₂ g₂ fw => ?_).congr fun ρ _ τ => ?_
    · exact .unify g₂.good (ft.mono g₂.kinds) fw _ _ fun st₃ g₃ => denotes_resolve g₃.good fw
    · constructor
      · rintro ⟨hn, h⟩
        exact ⟨_, fun _ => hn, rfl, h⟩
      · rintro ⟨_, hn, rfl, h⟩
        exact ⟨hn rfl, h⟩
  · constructor
    · rintro ⟨hn, h⟩
      exact ⟨τ, h, hn, rfl⟩
    · rintro ⟨_, h, hn, rfl⟩
      exact ⟨hn, h⟩

theorem typed_not (he : Typed e) : Typed (.unary .not e loc) := by
  intro frame outer κ st hg
  rw [Term.infer]
  simp only [hasType_not]
  refine ((he frame outer κ st hg).bind (fun _ σ τ => σ = .bool ∧ Ground.bool = τ)
    (fun _ _ _ => rfl) fun t κ₁ st₁ g₁ ft => ?_).congr fun ρ _ τ => ?_
  · exact .unify (b := .bool) g₁.good ft trivial _ _ fun st₂ g₂ =>
      denotes_pure (t := .bool) g₂.good trivial
  · constructor
    · rintro ⟨rfl, h⟩
      exact ⟨.bool, h, rfl, rfl⟩
    · rintro ⟨_, h, rfl, rfl⟩
      exact ⟨rfl, h⟩

theorem Typed.both (ha : Typed a) (hb : Typed b) (hg : Good frame outer κ st)
    {g : Ty → Ty → Infer Ty} (D : Valuation → Ground → Ground → Ground → Prop)
    (hD : ∀ ρ ρ', ρ.Agrees κ ρ' → D ρ' = D ρ)
    (h : ∀ s t κ' st', Grows frame outer κ st κ' st' → s.Fits κ' → t.Fits κ' →
      Denotes frame outer κ' st' (g s t) fun ρ τ => D ρ (s.reading ρ) (t.reading ρ) τ) :
    Denotes frame outer κ st (a.infer outer >>= fun s => b.infer outer >>= fun t => g s t)
      fun ρ τ => ∃ σ, HasType (contextOf ρ (frame :: outer)) a σ ∧
        ∃ σ', HasType (contextOf ρ (frame :: outer)) b σ' ∧ D ρ σ σ' τ := by
  refine (ha frame outer κ st hg).bind
    (fun ρ σ τ => ∃ σ', HasType (contextOf ρ (frame :: outer)) b σ' ∧ D ρ σ σ' τ)
    (fun ρ ρ' h => by rw [hg.contextOf h, hD ρ ρ' h]) fun s κ₁ st₁ g₁ fs => ?_
  refine (hb frame outer κ₁ st₁ g₁.good).bind (fun ρ σ' τ => D ρ (s.reading ρ) σ' τ)
    (fun ρ ρ' h => by rw [h.reading fs, hD ρ ρ' (h.of_kinds g₁.kinds)])
    fun t κ₂ st₂ g₂ ft => ?_
  exact h s t κ₂ st₂ (g₁.trans g₂) (fs.mono g₂.kinds) ft

theorem Relates.fresh_any {β : Type} {G : Kinds → InferState → Prop}
    {view : Valuation → InferState → Ty → β} (hg : Good frame outer κ st) {g : Ty → Infer Ty}
    (D : Valuation → Ground → β → Prop) (hD : ∀ ρ ρ', ρ.Agrees κ ρ' → D ρ' = D ρ)
    (h : ∀ w κ' st', Grows frame outer κ st κ' st' → w.Fits κ' →
      Relates G view κ' st' (g w) fun ρ b => D ρ (w.reading ρ) b) :
    Relates G view κ st (fresh none >>= g) fun ρ b => ∃ σ, D ρ σ b := by
  refine ((denotes_fresh hg .any).bind D hD h).congr fun ρ _ τ => ?_
  constructor
  · rintro ⟨σ, hσ⟩
    exact ⟨σ, by simp, hσ⟩
  · rintro ⟨σ, -, hσ⟩
    exact ⟨σ, hσ⟩

theorem denotes_numbers (hg : Good frame outer κ st) (fs : s.Fits κ) (ft : t.Fits κ)
    (label : String) (l l' : Option Loc) {g : Ty → Infer Ty} (r : Ground → Ground)
    (h : ∀ w κ' st', Good frame outer κ' st' → w.Fits κ' →
      Denotes frame outer κ' st' (g w) fun ρ τ => r (w.reading ρ) = τ) :
    Denotes frame outer κ st (do
      let operand ← fresh (some .numeric)
      unify label l s operand
      unify label l' t operand
      g operand) fun ρ τ => (s.reading ρ).isNumeric = true ∧ s.reading ρ = t.reading ρ ∧
        r (s.reading ρ) = τ := by
  refine ((denotes_fresh hg .numeric).bind
    (fun ρ σ τ => s.reading ρ = σ ∧ t.reading ρ = σ ∧ r σ = τ)
    (fun ρ ρ' h => by rw [h.reading fs, h.reading ft]) fun w κ₁ st₁ g₁ fw => ?_).congr
      fun ρ _ τ => ⟨?_, ?_⟩
  · refine .unify g₁.good (fs.mono g₁.kinds) fw _ _ fun st₂ g₂ => ?_
    exact .unify g₂.good (ft.mono g₁.kinds) fw _ _ fun st₃ g₃ => h w κ₁ st₃ g₃.good fw
  · rintro ⟨hn, h, hτ⟩
    exact ⟨_, fun _ => hn, rfl, h.symm, hτ⟩
  · rintro ⟨_, hn, rfl, ht, hτ⟩
    exact ⟨hn rfl, ht.symm, hτ⟩

theorem typed_arith {op : ArithOp} (ha : Typed a) (hb : Typed b) :
    Typed (.binary (.arith op) a b loc) := by
  intro frame outer κ st hg
  rw [Term.infer]
  simp only [hasType_arith]
  refine (ha.both hb hg (fun _ σ σ' τ => σ.isNumeric = true ∧ σ = σ' ∧ σ = τ)
    (fun _ _ _ => rfl) fun s t κ₁ st₁ g₁ fs ft =>
      denotes_numbers g₁.good fs ft _ _ _ id fun w κ₂ st₂ g₂ fw =>
        denotes_resolve g₂ fw).congr fun ρ _ τ => ⟨?_, ?_⟩
  · rintro ⟨hn, h, h'⟩
    exact ⟨τ, h, τ, h', hn, rfl, rfl⟩
  · rintro ⟨σ, h, _, h', hn, rfl, rfl⟩
    exact ⟨hn, h, h'⟩

theorem typed_rel {op : RelOp} (ha : Typed a) (hb : Typed b) :
    Typed (.binary (.rel op) a b loc) := by
  intro frame outer κ st hg
  rw [Term.infer]
  simp only [hasType_rel]
  refine (ha.both hb hg (fun _ σ σ' τ => σ.isNumeric = true ∧ σ = σ' ∧ Ground.bool = τ)
    (fun _ _ _ => rfl) fun s t κ₁ st₁ g₁ fs ft =>
      denotes_numbers g₁.good fs ft _ _ _ (fun _ => .bool) fun w κ₂ st₂ g₂ fw =>
        denotes_pure (t := .bool) g₂ trivial).congr fun ρ _ τ => ⟨?_, ?_⟩
  · rintro ⟨rfl, σ, hn, h, h'⟩
    exact ⟨σ, h, σ, h', hn, rfl, rfl⟩
  · rintro ⟨σ, h, _, h', hn, rfl, rfl⟩
    exact ⟨rfl, σ, hn, h, h'⟩

theorem typed_logic {op : LogicOp} (ha : Typed a) (hb : Typed b) :
    Typed (.binary (.logic op) a b loc) := by
  intro frame outer κ st hg
  rw [Term.infer]
  simp only [hasType_logic]
  refine (ha.both hb hg (fun _ σ σ' τ => σ = .bool ∧ σ' = .bool ∧ Ground.bool = τ)
    (fun _ _ _ => rfl) fun s t κ₁ st₁ g₁ fs ft => ?_).congr fun ρ _ τ => ⟨?_, ?_⟩
  · refine .unify (b := .bool) g₁.good fs trivial _ _ fun st₂ g₂ => ?_
    exact .unify (b := .bool) g₂.good ft trivial _ _ fun st₃ g₃ =>
      denotes_pure (t := .bool) g₃.good trivial
  · rintro ⟨rfl, h, h'⟩
    exact ⟨.bool, h, .bool, h', rfl, rfl, rfl⟩
  · rintro ⟨_, h, _, h', rfl, rfl, rfl⟩
    exact ⟨rfl, h, h'⟩

theorem typed_concat (ha : Typed a) (hb : Typed b) : Typed (.binary .concat a b loc) := by
  intro frame outer κ st hg
  rw [Term.infer]
  simp only [hasType_concat]
  refine (ha.both hb hg (fun _ σ σ' τ => ∃ υ, σ = .list υ ∧ σ' = .list υ ∧ Ground.list υ = τ)
    (fun _ _ _ => rfl) fun s t κ₁ st₁ g₁ fs ft => ?_).congr fun ρ _ τ => ⟨?_, ?_⟩
  · refine .fresh_any g₁.good (fun ρ υ τ => s.reading ρ = .list υ ∧ t.reading ρ = .list υ ∧
      Ground.list υ = τ) (fun ρ ρ' h => by rw [h.reading fs, h.reading ft]) fun w κ₂ st₂ g₂ fw => ?_
    refine .unify (b := .list w) g₂.good (fs.mono g₂.kinds) fw _ _ fun st₃ g₃ => ?_
    exact .unify (b := .list w) g₃.good (ft.mono g₂.kinds) fw _ _ fun st₄ g₄ =>
      denotes_resolve (t := .list w) g₄.good fw
  · rintro ⟨υ, rfl, h, h'⟩
    exact ⟨_, h, _, h', υ, rfl, rfl, rfl⟩
  · rintro ⟨_, h, _, h', υ, rfl, rfl, rfl⟩
    exact ⟨υ, rfl, h, h'⟩

theorem denotes_elements (hes : ∀ e ∈ es, Typed e) (hg : Good frame outer κ st) (ft : t.Fits κ)
    {m : Infer Ty} {D : Valuation → Ground → Prop}
    (hD : ∀ ρ ρ', ρ.Agrees κ ρ' → D ρ' = D ρ)
    (h : ∀ κ' st', Grows frame outer κ st κ' st' → Denotes frame outer κ' st' m D) :
    Denotes frame outer κ st (Term.inferElements outer t es >>= fun _ => m) fun ρ τ =>
      (∀ e ∈ es, HasType (contextOf ρ (frame :: outer)) e (t.reading ρ)) ∧ D ρ τ := by
  induction es generalizing κ st with
  | nil =>
    rw [Term.inferElements]
    exact (h κ st (.refl hg)).congr fun ρ _ τ => by simp
  | cons e es ih =>
    rw [Term.inferElements]
    simp only [bind_assoc, List.forall_mem_cons]
    have he := hes e List.mem_cons_self
    refine ((he frame outer κ st hg).bind (fun ρ σ τ => t.reading ρ = σ ∧
      (∀ e ∈ es, HasType (contextOf ρ (frame :: outer)) e (t.reading ρ)) ∧ D ρ τ)
      (fun ρ ρ' h => by rw [h.reading ft, hg.contextOf h, hD ρ ρ' h])
      fun u κ₁ st₁ g₁ fu => ?_).congr fun ρ _ τ => ⟨?_, ?_⟩
    · refine .unify g₁.good (ft.mono g₁.kinds) fu _ _ fun st₂ g₂ => ?_
      have g := g₁.trans g₂
      exact ih (fun e he => hes e (List.mem_cons_of_mem _ he)) g.good (ft.mono g.kinds)
        (fun ρ ρ' h => hD ρ ρ' (h.of_kinds g.kinds)) fun κ₃ st₃ g₃ => h κ₃ st₃ (g.trans g₃)
    · rintro ⟨⟨h, hs⟩, hτ⟩
      exact ⟨_, h, rfl, hs, hτ⟩
    · rintro ⟨_, h, rfl, hs, hτ⟩
      exact ⟨⟨h, hs⟩, hτ⟩

theorem typed_list (hes : ∀ e ∈ es, Typed e) : Typed (.list es loc) := by
  intro frame outer κ st hg
  simp only [hasType_list]
  cases es with
  | nil =>
    rw [Term.infer]
    exact (Relates.fresh_any hg (fun _ σ τ => Ground.list σ = τ) (fun _ _ _ => rfl)
      fun w κ₁ st₁ g₁ fw => denotes_pure (t := .list w) g₁.good fw).congr fun ρ _ τ => by
        simp [eq_comm]
  | cons e es =>
    rw [Term.infer]
    have he := hes e List.mem_cons_self
    refine ((he frame outer κ st hg).bind (fun ρ σ τ =>
      (∀ e ∈ es, HasType (contextOf ρ (frame :: outer)) e σ) ∧ Ground.list σ = τ)
      (fun ρ ρ' h => by rw [hg.contextOf h]) fun t κ₁ st₁ g₁ ft => ?_).congr
        fun ρ _ τ => ⟨?_, ?_⟩
    · refine denotes_elements (fun e he => hes e (List.mem_cons_of_mem _ he)) g₁.good ft
        (fun ρ ρ' h => by rw [h.reading ft]) fun κ₂ st₂ g₂ => ?_
      refine .after rfl rfl ?_
      exact (denotes_pure (t := .list _) g₂.good (g₂.good.sound.apply (ft.mono g₂.kinds))).congr
        fun ρ hρ τ => by
          rw [Ty.reading, hρ.reading_apply g₂.good.sound (ft.mono g₂.kinds)]
    · rintro ⟨σ, rfl, h⟩
      exact ⟨σ, h e List.mem_cons_self, fun e he => h e (List.mem_cons_of_mem _ he), rfl⟩
    · rintro ⟨σ, h, hs, rfl⟩
      exact ⟨σ, rfl, List.forall_mem_cons.mpr ⟨h, hs⟩⟩

theorem typed_head (he : Typed e) : Typed (.head e loc) := by
  intro frame outer κ st hg
  rw [Term.infer]
  simp only [hasType_head]
  refine (Relates.fresh_any hg (fun ρ σ τ => ∃ υ, HasType (contextOf ρ (frame :: outer)) e υ ∧
    υ = .list σ ∧ σ = τ) (fun ρ ρ' h => by rw [hg.contextOf h])
    fun w κ₁ st₁ g₁ fw => ?_).congr fun ρ _ τ => ⟨fun h => ⟨τ, _, h, rfl, rfl⟩, ?_⟩
  · refine (he frame outer κ₁ st₁ g₁.good).bind
      (fun ρ υ τ => υ = .list (w.reading ρ) ∧ w.reading ρ = τ)
      (fun ρ ρ' h => by rw [h.reading fw]) fun t κ₂ st₂ g₂ ft => ?_
    have fw := fw.mono g₂.kinds
    exact .unify (b := .list w) g₂.good ft fw _ _ fun st₃ g₃ => denotes_resolve g₃.good fw
  · rintro ⟨_, _, h, rfl, rfl⟩
    exact h

theorem typed_tail (he : Typed e) : Typed (.tail e loc) := by
  intro frame outer κ st hg
  rw [Term.infer]
  simp only [hasType_tail]
  refine (Relates.fresh_any hg (fun ρ σ τ => ∃ υ, HasType (contextOf ρ (frame :: outer)) e υ ∧
    υ = .list σ ∧ Ground.list σ = τ) (fun ρ ρ' h => by rw [hg.contextOf h])
    fun w κ₁ st₁ g₁ fw => ?_).congr fun ρ _ τ => ⟨?_, ?_⟩
  · refine (he frame outer κ₁ st₁ g₁.good).bind
      (fun ρ υ τ => υ = .list (w.reading ρ) ∧ Ground.list (w.reading ρ) = τ)
      (fun ρ ρ' h => by rw [h.reading fw]) fun t κ₂ st₂ g₂ ft => ?_
    have fw := fw.mono g₂.kinds
    exact .unify (b := .list w) g₂.good ft fw _ _ fun st₃ g₃ =>
      denotes_resolve (t := .list w) g₃.good fw
  · rintro ⟨σ, rfl, h⟩
    exact ⟨σ, _, h, rfl, rfl⟩
  · rintro ⟨σ, _, h, rfl, rfl⟩
    exact ⟨σ, rfl, h⟩

theorem typed_length (he : Typed e) : Typed (.length e loc) := by
  intro frame outer κ st hg
  rw [Term.infer]
  simp only [hasType_length]
  refine ((he frame outer κ st hg).bind (fun _ υ τ => ∃ σ, υ = .list σ ∧ Ground.int = τ)
    (fun _ _ _ => rfl) fun t κ₁ st₁ g₁ ft => ?_).congr fun ρ _ τ => ⟨?_, ?_⟩
  · refine .fresh_any g₁.good (fun ρ σ τ => t.reading ρ = .list σ ∧ Ground.int = τ)
      (fun ρ ρ' h => by rw [h.reading ft]) fun w κ₂ st₂ g₂ fw => ?_
    exact .unify (b := .list w) g₂.good (ft.mono g₂.kinds) fw _ _ fun st₃ g₃ =>
      denotes_pure (t := .int) g₃.good trivial
  · rintro ⟨rfl, σ, h⟩
    exact ⟨_, h, σ, rfl, rfl⟩
  · rintro ⟨_, h, σ, rfl, rfl⟩
    exact ⟨rfl, σ, h⟩

theorem typed_cond (hc : Typed c) (ha : Typed a) (hb : Typed b) : Typed (.cond c a b loc) := by
  intro frame outer κ st hg
  rw [Term.infer]
  simp only [hasType_cond]
  refine ((hc frame outer κ st hg).bind (fun ρ σ τ => σ = .bool ∧
    ∃ υ, HasType (contextOf ρ (frame :: outer)) a υ ∧
      ∃ υ', HasType (contextOf ρ (frame :: outer)) b υ' ∧ υ = υ' ∧ υ = τ)
    (fun ρ ρ' h => by rw [hg.contextOf h]) fun t κ₁ st₁ g₁ ft => ?_).congr
      fun ρ _ τ => ⟨?_, ?_⟩
  · refine .unify (b := .bool) g₁.good ft trivial _ _ fun st₂ g₂ => ?_
    exact ha.both hb g₂.good (fun _ υ υ' τ => υ = υ' ∧ υ = τ) (fun _ _ _ => rfl)
      fun s t κ₃ st₃ g₃ fs ft =>
      .unify g₃.good fs ft _ _ fun st₄ g₄ => denotes_resolve g₄.good fs
  · rintro ⟨h, h₁, h₂⟩
    exact ⟨_, h, rfl, _, h₁, _, h₂, rfl, rfl⟩
  · rintro ⟨_, h, rfl, _, h₁, _, h₂, rfl, rfl⟩
    exact ⟨h, h₁, h₂⟩

theorem typed_apply (hf : Typed f) (ha : Typed a) : Typed (.apply f a loc) := by
  intro frame outer κ st hg
  rw [Term.infer]
  simp only [hasType_apply]
  refine (hf.both ha hg (fun _ φ σ τ => ∃ υ, φ = .fn σ υ ∧ υ = τ) (fun _ _ _ => rfl)
    fun s t κ₁ st₁ g₁ fs ft => ?_).congr fun ρ _ τ => ⟨?_, ?_⟩
  · refine .fresh_any g₁.good (fun ρ υ τ => s.reading ρ = .fn (t.reading ρ) υ ∧ υ = τ)
      (fun ρ ρ' h => by rw [h.reading fs, h.reading ft]) fun w κ₂ st₂ g₂ fw => ?_
    exact .unify (b := .fn t w) g₂.good (fs.mono g₂.kinds) ⟨ft.mono g₂.kinds, fw⟩ _ _
      fun st₃ g₃ => denotes_resolve g₃.good fw
  · rintro ⟨σ, h, h'⟩
    exact ⟨_, h, σ, h', τ, rfl, rfl⟩
  · rintro ⟨_, h, σ, h', _, rfl, rfl⟩
    exact ⟨σ, h, h'⟩

theorem typed_map (hf : Typed f) (hx : Typed xs) : Typed (.map f xs loc) := by
  intro frame outer κ st hg
  rw [Term.infer]
  simp only [hasType_map]
  refine (hf.both hx hg (fun _ φ l τ => ∃ α β, φ = .fn α β ∧ l = .list α ∧ Ground.list β = τ)
    (fun _ _ _ => rfl) fun s t κ₁ st₁ g₁ fs ft => ?_).congr fun ρ _ τ => ⟨?_, ?_⟩
  · refine .fresh_any g₁.good
      (fun ρ α τ => ∃ β, s.reading ρ = .fn α β ∧ t.reading ρ = .list α ∧ Ground.list β = τ)
      (fun ρ ρ' h => by rw [h.reading fs, h.reading ft]) fun u κ₂ st₂ g₂ fu => ?_
    have fs := fs.mono g₂.kinds
    have ft := ft.mono g₂.kinds
    refine .fresh_any g₂.good (fun ρ β τ => s.reading ρ = .fn (u.reading ρ) β ∧
      t.reading ρ = .list (u.reading ρ) ∧ Ground.list β = τ)
      (fun ρ ρ' h => by rw [h.reading fs, h.reading ft, h.reading fu]) fun w κ₃ st₃ g₃ fw => ?_
    have fu := fu.mono g₃.kinds
    refine .unify (b := .fn u w) g₃.good (fs.mono g₃.kinds) ⟨fu, fw⟩ _ _ fun st₄ g₄ => ?_
    exact .unify (b := .list u) g₄.good (ft.mono g₃.kinds) fu _ _ fun st₅ g₅ =>
      denotes_resolve (t := .list w) g₅.good fw
  · rintro ⟨σ, σ', rfl, h, h'⟩
    exact ⟨_, h, _, h', σ, σ', rfl, rfl, rfl⟩
  · rintro ⟨_, h, _, h', σ, σ', rfl, rfl, rfl⟩
    exact ⟨σ, σ', rfl, h, h'⟩

theorem Typed.fold (hf : Typed f) (hi : Typed i) (hx : Typed xs) (hg : Good frame outer κ st)
    {g : Ty → Ty → Ty → Ty → Ty → Infer Ty}
    (D : Ground → Ground → Ground → Ground → Ground → Ground → Prop)
    (h : ∀ r s t u w κ' st', Good frame outer κ' st' → r.Fits κ' → s.Fits κ' → t.Fits κ' →
      u.Fits κ' → w.Fits κ' → Denotes frame outer κ' st' (g r s t u w) fun ρ τ =>
        D (r.reading ρ) (s.reading ρ) (t.reading ρ) (u.reading ρ) (w.reading ρ) τ) :
    Denotes frame outer κ st (do
      let r ← f.infer outer
      let s ← i.infer outer
      let t ← xs.infer outer
      let u ← fresh none
      let w ← fresh none
      g r s t u w) fun ρ τ => ∃ φ, HasType (contextOf ρ (frame :: outer)) f φ ∧
        ∃ ι, HasType (contextOf ρ (frame :: outer)) i ι ∧
          ∃ l, HasType (contextOf ρ (frame :: outer)) xs l ∧ ∃ α β, D φ ι l α β τ := by
  refine (hf frame outer κ st hg).bind
    (fun ρ φ τ => ∃ ι, HasType (contextOf ρ (frame :: outer)) i ι ∧
      ∃ l, HasType (contextOf ρ (frame :: outer)) xs l ∧ ∃ α β, D φ ι l α β τ)
    (fun ρ ρ' h => by rw [hg.contextOf h]) fun r κ₁ st₁ g₁ fr => ?_
  refine hi.both hx g₁.good (fun ρ ι l τ => ∃ α β, D (r.reading ρ) ι l α β τ)
    (fun ρ ρ' h => by rw [h.reading fr]) fun s t κ₂ st₂ g₂ fs ft => ?_
  have fr := fr.mono g₂.kinds
  refine .fresh_any g₂.good
    (fun ρ α τ => ∃ β, D (r.reading ρ) (s.reading ρ) (t.reading ρ) α β τ)
    (fun ρ ρ' h => by rw [h.reading fr, h.reading fs, h.reading ft]) fun u κ₃ st₃ g₃ fu => ?_
  have fr := fr.mono g₃.kinds
  have fs := fs.mono g₃.kinds
  have ft := ft.mono g₃.kinds
  refine .fresh_any g₃.good
    (fun ρ β τ => D (r.reading ρ) (s.reading ρ) (t.reading ρ) (u.reading ρ) β τ)
    (fun ρ ρ' h => by rw [h.reading fr, h.reading fs, h.reading ft, h.reading fu])
    fun w κ₄ st₄ g₄ fw => ?_
  have hκ := g₄.kinds
  exact h r s t u w κ₄ st₄ g₄.good (fr.mono hκ) (fs.mono hκ) (ft.mono hκ) (fu.mono hκ) fw

theorem typed_foldl (hf : Typed f) (hi : Typed i) (hx : Typed xs) :
    Typed (.fold .left f i xs loc) := by
  intro frame outer κ st hg
  rw [Term.infer]
  simp only [hasType_foldl]
  refine (hf.fold hi hx hg (fun φ ι l α β τ => ι = α ∧ l = .list β ∧ φ = .fn α (.fn β α) ∧ α = τ)
    fun r s t u w κ₁ st₁ g₁ fr fs ft fu fw => ?_).congr fun ρ _ τ => ⟨?_, ?_⟩
  · refine .unify g₁ fs fu _ _ fun st₂ g₂ => ?_
    refine .unify (b := .list w) g₂.good ft fw _ _ fun st₃ g₃ => ?_
    exact .unify (b := .fn u (.fn w u)) g₃.good fr ⟨fu, fw, fu⟩ _ _ fun st₄ g₄ =>
      denotes_resolve g₄.good fu
  · rintro ⟨σ, h, h₁, h₂⟩
    exact ⟨_, h, _, h₁, _, h₂, τ, σ, rfl, rfl, rfl, rfl⟩
  · rintro ⟨_, h, _, h₁, _, h₂, _, σ, rfl, rfl, rfl, rfl⟩
    exact ⟨σ, h, h₁, h₂⟩

theorem typed_foldr (hf : Typed f) (hi : Typed i) (hx : Typed xs) :
    Typed (.fold .right f i xs loc) := by
  intro frame outer κ st hg
  rw [Term.infer]
  simp only [hasType_foldr]
  refine (hf.fold hi hx hg (fun φ ι l α β τ => l = .list α ∧ ι = β ∧ φ = .fn α (.fn β β) ∧ β = τ)
    fun r s t u w κ₁ st₁ g₁ fr fs ft fu fw => ?_).congr fun ρ _ τ => ⟨?_, ?_⟩
  · refine .unify (b := .list u) g₁ ft fu _ _ fun st₂ g₂ => ?_
    refine .unify g₂.good fs fw _ _ fun st₃ g₃ => ?_
    exact .unify (b := .fn u (.fn w w)) g₃.good fr ⟨fu, fw, fw⟩ _ _ fun st₄ g₄ =>
      denotes_resolve g₄.good fw
  · rintro ⟨σ, h, h₁, h₂⟩
    exact ⟨_, h, _, h₁, _, h₂, σ, τ, rfl, rfl, rfl, rfl⟩
  · rintro ⟨_, h, _, h₁, _, h₂, σ, _, rfl, rfl, rfl, rfl⟩
    exact ⟨σ, h, h₁, h₂⟩

theorem Relates.within {x : String} {m : Infer Ty} {D : Valuation → Ground → Prop}
    (hg : Good frame outer κ st) (ft : t.Fits κ)
    (h : ∀ st', Good [(x, t)] (frame :: outer) κ st' →
      Denotes [(x, t)] (frame :: outer) κ st' m D) :
    Denotes frame outer κ st (Infer.within [(x, t)] m) D := by
  have hm := h _ (hg.enter ft x)
  unfold Denotes Relates at hm ⊢
  unfold Infer.within
  split at hm
  · rename_i u st₁ hu
    rw [hu]
    obtain ⟨κ₁, g₁, hκ, he, fu, hiff⟩ := hm
    exact ⟨κ₁, hg.leave g₁, hκ, he, fu, hiff⟩
  · rename_i e st₁ hu
    rw [hu]
    exact hm

theorem Typed.within {x : String} (hb : Typed body) (hg : Good frame outer κ st) (ft : t.Fits κ) :
    Denotes frame outer κ st (Infer.within [(x, t)] (body.infer (frame :: outer)))
      fun ρ τ => HasType ((contextOf ρ (frame :: outer)).bind x (t.reading ρ)) body τ := by
  simp only [← contextOf_cons]
  exact .within hg ft fun st' g' => hb _ _ κ st' g'

theorem typed_lambda {x : String} (hb : Typed body) : Typed (.lambda x body loc) := by
  intro frame outer κ st hg
  rw [Term.infer]
  simp only [hasType_lambda]
  refine (Relates.fresh_any hg (fun ρ σ τ => ∃ σ',
    HasType ((contextOf ρ (frame :: outer)).bind x σ) body σ' ∧ Ground.fn σ σ' = τ)
    (fun ρ ρ' h => by rw [hg.contextOf h]) fun w κ₁ st₁ g₁ fw => ?_).congr
      fun ρ _ τ => ⟨?_, ?_⟩
  · refine .after (a := st₁) rfl rfl ?_
    rw [g₁.good.here]
    refine (hb.within g₁.good fw).bind (fun ρ σ' τ => Ground.fn (w.reading ρ) σ' = τ)
      (fun ρ ρ' h => by rw [h.reading fw]) fun t κ₂ st₂ g₂ ft => ?_
    have fw := fw.mono g₂.kinds
    -- the type is put together from resolved parts, which are read as the parts themselves
    refine .after rfl rfl (.after rfl rfl (.after rfl rfl ?_))
    refine Relates.congr (denotes_pure (t := .fn (st₂.subst.apply w) (st₂.subst.apply t))
      ⟨g₂.good.here, g₂.good.sound, g₂.good.given, g₂.good.fits⟩
      ⟨g₂.good.sound.apply fw, g₂.good.sound.apply ft⟩) fun ρ hρ τ => ?_
    rw [Ty.reading, hρ.reading_apply g₂.good.sound fw, hρ.reading_apply g₂.good.sound ft]
  · rintro ⟨σ, σ', rfl, h⟩
    exact ⟨σ, σ', h, rfl⟩
  · rintro ⟨σ, σ', h, rfl⟩
    exact ⟨σ, σ', rfl, h⟩

theorem typed_letIn {x : String} (hv : Typed v) (hb : Typed body) :
    Typed (.letIn x v body loc) := by
  intro frame outer κ st hg
  rw [Term.infer]
  simp only [hasType_letIn]
  refine (hv frame outer κ st hg).bind
    (fun ρ σ τ => HasType ((contextOf ρ (frame :: outer)).bind x σ) body τ)
    (fun ρ ρ' h => by rw [hg.contextOf h]) fun t κ₁ st₁ g₁ ft => ?_
  refine .after (a := st₁) rfl rfl ?_
  rw [g₁.good.here]
  exact hb.within g₁.good ft

/-- Inference finds the closed types of an expression. -/
theorem typed_of_plain (h : Plain e) : Typed e := by
  induction h with
  | int => exact typed_int
  | real => exact typed_real
  | bool => exact typed_bool
  | ident => exact typed_ident
  | neg _ ih => exact typed_neg ih
  | not _ ih => exact typed_not ih
  | @binary op a b loc hop _ _ iha ihb =>
    cases op with
    | arith op => exact typed_arith iha ihb
    | rel op => exact typed_rel iha ihb
    | logic op => exact typed_logic iha ihb
    | concat => exact typed_concat iha ihb
    | other symbol => simp [BinOp.all] at hop
  | list _ ih => exact typed_list ih
  | head _ ih => exact typed_head ih
  | tail _ ih => exact typed_tail ih
  | length _ ih => exact typed_length ih
  | cond _ _ _ ihc iha ihb => exact typed_cond ihc iha ihb
  | lambda _ ih => exact typed_lambda ih
  | apply _ _ ihf iha => exact typed_apply ihf iha
  | letIn _ _ ihv ihb => exact typed_letIn ihv ihb
  | map _ _ ihf ihx => exact typed_map ihf ihx
  | @fold side _ _ _ _ _ _ _ ihf ihi ihx =>
    cases side with
    | left => exact typed_foldl ihf ihi ihx
    | right => exact typed_foldr ihf ihi ihx

end Infer

end Minifun
