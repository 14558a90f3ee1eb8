import Minifun.Proofs.Program.Acceptance

/-! # Productions of the grammar

For every production of the grammar, the reading functions take words of that form, if they take the
parts of them, and if what follows does not go on with the phrase. What the tree looks like is a
matter of the parts, so a property of these is turned into a property of the whole.
-/

namespace Minifun

open Grammar

namespace Parse

variable {file : Option String} {s : TokenStream} {k : TokenKind} {t : String} {ws rest : List Word}

section Expressions

variable {P Q R S : Expr → Prop} {us vs : List Word} {x l r : String}

theorem readsAt_letIn {a i : String} (hv : ReadsAt P (expression file) .expression us)
    (hb : ReadsAt Q (expression file) .expression vs)
    (hR : ∀ v b loc, P v → Q b → R (.letIn x v b loc)) :
    ReadsAt R (expression file) .expression
      ((.letWord, l) :: (.ident, x) :: (.assign, a) :: (us ++ (.inWord, i) :: vs)) := by
  intro rest hstop
  refine reads_of_succ rfl fun n s hs => ?_
  simp only [List.cons_append, List.append_assoc] at hs
  have hrest := hstop.ne_nil
  have hv : Reads P (expression file) us ((.inWord, i) :: (vs ++ rest)) :=
    hv _ (stops_cons.mpr (by decide))
  rw [expression]
  refine accepts_here fun loc => accepts_kind hs <| accepts_advance hs (by simp) fun s₁ hs₁ => ?_
  refine accepts_expect hs₁ (by simp) fun name s₂ hx hs₂ => ?_
  refine accepts_expect hs₂ (by simp) fun _ s₃ _ hs₃ => hv.bind hs₃ fun v s₄ hv hs₄ => ?_
  refine accepts_expect hs₄ (by simp [hrest]) fun _ s₅ _ hs₅ => ?_
  exact (hb _ hstop).bind hs₅ fun b s₆ hb hs₆ => accepts_pure ⟨hx ▸ hR v b _ hv hb, hs₆⟩

theorem readsAt_cond {i y j : String} {cs : List Word}
    (hc : ReadsAt P (expression file) .expression cs)
    (ha : ReadsAt Q (expression file) .expression us)
    (hb : ReadsAt S (expression file) .expression vs)
    (hR : ∀ c a b loc, P c → Q a → S b → R (.cond c a b loc)) :
    ReadsAt R (expression file) .expression
      ((.ifWord, i) :: (cs ++ (.thenWord, y) :: (us ++ (.elseWord, j) :: vs))) := by
  intro rest hstop
  refine reads_of_succ rfl fun n s hs => ?_
  simp only [List.cons_append, List.append_assoc] at hs
  have hrest := hstop.ne_nil
  have hc : Reads P (expression file) cs
      ((.thenWord, y) :: (us ++ (.elseWord, j) :: (vs ++ rest))) :=
    hc _ (stops_cons.mpr (by decide))
  have ha : Reads Q (expression file) us ((.elseWord, j) :: (vs ++ rest)) :=
    ha _ (stops_cons.mpr (by decide))
  rw [expression]
  refine accepts_here fun loc => accepts_kind hs <| accepts_advance hs (by simp) fun s₁ hs₁ => ?_
  refine hc.bind hs₁ fun c s₂ hc hs₂ => accepts_expect hs₂ (by simp) fun _ s₃ _ hs₃ => ?_
  refine ha.bind hs₃ fun a s₄ ha hs₄ => accepts_expect hs₄ (by simp [hrest]) fun _ s₅ _ hs₅ => ?_
  exact (hb _ hstop).bind hs₅ fun b s₆ hb hs₆ => accepts_pure ⟨hR c a b _ hc ha hb, hs₆⟩

theorem readsAt_lambda {i a : String} (hb : ReadsAt P (expression file) .expression us)
    (hR : ∀ b loc, P b → R (.lambda x b loc)) :
    ReadsAt R (expression file) .expression
      ((.fnWord, i) :: (.ident, x) :: (.arrow, a) :: us) := by
  intro rest hstop
  refine reads_of_succ rfl fun n s hs => ?_
  simp only [List.cons_append] at hs
  rw [expression]
  refine accepts_here fun loc => accepts_kind hs <| accepts_advance hs (by simp) fun s₁ hs₁ => ?_
  refine accepts_expect hs₁ (by simp) fun name s₂ hx hs₂ => ?_
  refine accepts_expect hs₂ (by simp [hstop.ne_nil]) fun _ s₃ _ hs₃ => ?_
  exact (hb _ hstop).bind hs₃ fun b s₄ hb hs₄ => accepts_pure ⟨hx ▸ hR b _ hb, hs₄⟩

theorem Reads.expression (h : Reads P (logical file) ws rest) :
    Reads P (expression file) ws rest := by
  refine reads_of_succ rfl fun n s hs => ?_
  rw [Parse.expression]
  refine accepts_here fun loc => ?_
  rw [Accepts, bind_of_ok (kind_eq s)]
  have hread := h n s hs
  have hno := fun hk => h.not_refuses hs (logical_refuses file hk)
  cases hk : s.current.kind with
  | letWord | ifWord | fnWord => exact absurd (by rw [hk]; decide) hno
  | _ => exact hread

end Expressions

section Loops

variable {P Q R : Expr → Prop} {us vs : List Word} {level operandLevel : Level}
  {start operand : Nat → Parse Expr} {loop : Nat → Expr → Parse Expr}

/-- What the three loops over operators have in common: they read operators of a level and operands
of another one. -/
structure Looping (file : Option String) (level operandLevel : Level) (operand : Nat → Parse Expr)
    (loop : Nat → Expr → Parse Expr) : Prop where
  zero : ∀ e, loop 0 e = fail file (.broken .endless)
  stop : ∀ {n e s}, s.current.kind ∉ continuing level → loop (n + 1) e s = .ok e s
  step : ∀ {n e s op}, (s.current.kind, op) ∈ operators level → loop (n + 1) e s = (do
    let loc ← here file
    advance
    let right ← operand n
    loop n (.binary op e right loc)) s
  apart : ∀ w ∈ operators level, w.1 ∉ continuing operandLevel
  within : continuing operandLevel ⊆ continuing level

theorem looping_logicalRest :
    Looping file .logical .relational (relational file) (logicalRest file) where
  zero e := by rw [logicalRest]
  stop {n e s} hk := by
    rw [logicalRest, bind_of_ok (kind_eq s), eq_none_of_stop logicOp?_eq_some_iff.mp hk]
    rfl
  step {n e s op} hop := by
    rw [logicalRest, bind_of_ok (kind_eq s), logicOp?_eq_some_iff.mpr hop]
  apart := by decide
  within := by decide

theorem looping_additiveRest : Looping file .sum .product (product file) (additiveRest file) where
  zero e := by rw [additiveRest]
  stop {n e s} hk := by
    rw [additiveRest, bind_of_ok (kind_eq s), eq_none_of_stop sumOp?_eq_some_iff.mp hk]
    rfl
  step {n e s op} hop := by
    rw [additiveRest, bind_of_ok (kind_eq s), sumOp?_eq_some_iff.mpr hop]
  apart := by decide
  within := by decide

theorem looping_productRest : Looping file .factors .factor (factor file) (productRest file) where
  zero e := by rw [productRest]
  stop {n e s} hk := by
    rw [productRest, bind_of_ok (kind_eq s), eq_none_of_stop productOp?_eq_some_iff.mp hk]
    rfl
  step {n e s op} hop := by
    rw [productRest, bind_of_ok (kind_eq s), productOp?_eq_some_iff.mpr hop]
  apart := by decide
  within := by decide

theorem Looping.done (h : Looping file level operandLevel operand loop) {e : Expr} (he : P e)
    (hstop : Stops level rest) : Reads P (fun n => loop n e) [] rest := by
  obtain ⟨k, t, rest, rfl, hk⟩ := hstop
  refine reads_of_succ (h.zero e) fun n s hs => ?_
  exact .inr ⟨e, s, h.stop (by rwa [(current_of_words hs).1]), he, hs⟩

theorem Looping.more (h : Looping file level operandLevel operand loop) {e : Expr} {op : BinOp}
    (hop : (k, op) ∈ operators level) (hne : ws ++ rest ≠ []) (hb : Reads P operand us (ws ++ rest))
    (hws : ∀ b loc, P b → Reads Q (fun n => loop n (.binary op e b loc)) ws rest) :
    Reads Q (fun n => loop n e) ((k, t) :: (us ++ ws)) rest := by
  refine reads_of_succ (h.zero e) fun n s hs => ?_
  simp only [List.cons_append, List.append_assoc] at hs
  simp only [Accepts, h.step ((current_of_words hs).1 ▸ hop)]
  refine accepts_here fun loc => accepts_advance hs (by simp_all) fun s₁ hs₁ => ?_
  exact hb.bind hs₁ fun b s₂ hb hs₂ => hws b loc hb n s₂ hs₂

/-- Words are the front of what a loop reads: whatever the loop makes of further words, with what it
has so far, is read. -/
def Opens (P : Expr → Prop) (start : Nat → Parse Expr) (loop : Nat → Expr → Parse Expr)
    (operandLevel : Level) (us : List Word) : Prop :=
  ∀ Q ws rest, Stops operandLevel (ws ++ rest) →
    (∀ e, P e → Reads Q (fun n => loop n e) ws rest) → Reads Q start (us ++ ws) rest

theorem Opens.operator (h : Opens P start loop operandLevel us)
    (hloop : Looping file level operandLevel operand loop) {op : BinOp}
    (hop : (k, op) ∈ operators level)
    (hb : ReadsAt Q operand operandLevel vs)
    (hR : ∀ a b loc, P a → Q b → R (.binary op a b loc)) :
    Opens R start loop operandLevel (us ++ (k, t) :: vs) := by
  intro S ws rest hstop hws
  rw [List.append_assoc, List.cons_append]
  refine h _ _ _ (stops_cons.mpr (hloop.apart _ hop)) fun a ha => ?_
  exact hloop.more hop hstop.ne_nil (hb _ hstop) fun b loc hb => hws _ (hR a b loc ha hb)

theorem Opens.readsAt (h : Opens P start loop operandLevel us)
    (hloop : Looping file level operandLevel operand loop) : ReadsAt P start level us := by
  intro rest hstop
  rw [← List.append_nil us]
  exact h _ _ _ (hstop.mono hloop.within) fun e he => hloop.done he hstop

theorem opens_operand (hzero : start 0 = fail file (.broken .endless))
    (hsucc : ∀ n, start (n + 1) = operand n >>= loop n)
    (h : ReadsAt P operand operandLevel us) :
    Opens P start loop operandLevel us := by
  intro Q ws rest hstop hws
  refine reads_of_succ hzero fun n s hs => ?_
  rw [List.append_assoc] at hs
  rw [hsucc]
  exact (h _ hstop).bind hs fun a s₁ ha hs₁ => hws a ha n s₁ hs₁

theorem opens_logical (h : ReadsAt P (relational file) .relational us) :
    Opens P (logical file) (logicalRest file) .relational us :=
  opens_operand (by rw [logical]) (fun n => by rw [logical]) h

theorem opens_additive (h : ReadsAt P (product file) .product us) :
    Opens P (additive file) (additiveRest file) .product us :=
  opens_operand (by rw [additive]) (fun n => by rw [additive]) h

theorem opens_product (h : ReadsAt P (factor file) .factor us) :
    Opens P (product file) (productRest file) .factor us := by
  intro Q ws rest hstop hws
  refine reads_of_succ rfl fun n s hs => ?_
  rw [List.append_assoc] at hs
  have hno := fun hk => (h _ hstop).not_refuses hs (factor_refuses file hk)
  rw [Accepts, product, bind_of_ok (kind_eq s)]
  have hread : Accepts (fun e s' => Q e ∧ s'.words = rest)
      (do
        let left ← factor file n
        productRest file n left) s :=
    (h _ hstop).bind hs fun a s₁ ha hs₁ => hws a ha n s₁ hs₁
  cases hk : s.current.kind with
  | notWord => exact absurd (by rw [hk]; decide) hno
  | _ => exact hread

end Loops

section Comparisons

variable {P Q R : Expr → Prop} {us vs : List Word}

theorem Reads.additive (h : Reads P (product file) us rest) (hstop : Stops .sum rest) :
    Reads P (additive file) us rest := by
  refine reads_of_succ rfl fun n s hs => ?_
  rw [Parse.additive]
  refine h.bind hs fun e s₁ he hs₁ => ?_
  exact looping_additiveRest.done he hstop n s₁ hs₁

theorem Reads.relational (h : Reads P (Parse.additive file) us rest)
    (hstop : Stops .relational rest) : Reads P (relational file) us rest := by
  obtain ⟨k, t, rest, rfl, hk⟩ := hstop
  refine reads_of_succ rfl fun n s hs => ?_
  have hop : relOp? k = none := eq_none_of_stop relOp?_eq_some_iff.mp hk
  rw [Parse.relational]
  refine h.bind hs fun a s₁ ha hs₁ => accepts_kind hs₁ ?_
  rw [hop]
  exact accepts_pure ⟨ha, hs₁⟩

theorem reads_comparison {op : BinOp} (hop : (k, op) ∈ operators .relational)
    (ha : Reads P (additive file) us ((k, t) :: (vs ++ rest))) (hne : vs ++ rest ≠ [])
    (hb : Reads Q (additive file) vs rest) (hR : ∀ a b loc, P a → Q b → R (.binary op a b loc)) :
    Reads R (relational file) (us ++ (k, t) :: vs) rest := by
  refine reads_of_succ rfl fun n s hs => ?_
  simp only [List.cons_append, List.append_assoc] at hs
  rw [relational]
  refine ha.bind hs fun a s₁ ha hs₁ => accepts_kind hs₁ ?_
  rw [relOp?_eq_some_iff.mpr hop]
  refine accepts_here fun loc => accepts_advance hs₁ hne fun s₂ hs₂ => ?_
  exact hb.bind hs₂ fun b s₃ hb hs₃ => accepts_pure ⟨hR a b loc ha hb, hs₃⟩

theorem reads_not (hne : us ++ rest ≠ []) (h : Reads P (relational file) us rest)
    (hR : ∀ e loc, P e → R (.unary .not e loc)) :
    Reads R (product file) ((.notWord, t) :: us) rest := by
  refine reads_of_succ rfl fun n s hs => ?_
  simp only [List.cons_append] at hs
  rw [product]
  refine accepts_kind hs <| accepts_here fun loc => accepts_advance hs hne fun s₁ hs₁ => ?_
  exact h.bind hs₁ fun e s₂ he hs₂ => accepts_pure ⟨hR e loc he, hs₂⟩

end Comparisons

section Factors

variable {P Q R S : Expr → Prop} {us vs : List Word} {x l r : String}

theorem readsAt_neg (h : ReadsAt P (factor file) .factor us)
    (hR : ∀ e loc, P e → R (.unary .neg e loc)) :
    ReadsAt R (factor file) .factor ((.minus, t) :: us) := by
  intro rest hstop
  refine reads_of_succ rfl fun n s hs => ?_
  simp only [List.cons_append] at hs
  rw [factor]
  refine accepts_current hs fun line column => ?_
  refine accepts_advance hs (by simp [hstop.ne_nil]) fun s₁ hs₁ => ?_
  exact (h _ hstop).bind hs₁ fun e s₂ he hs₂ => accepts_pure ⟨hR e _ he, hs₂⟩

theorem accepts_bracketed {β : Type} {Q : β → TokenStream → Prop} {f : Expr → Parse β} {n : Nat}
    (h : ReadsAt P (expression file) .expression us) (hrest : rest ≠ [])
    (hs : s.words = us ++ (.rparen, r) :: rest)
    (hf : ∀ e s', P e → s'.words = rest → Accepts Q (f e) s') :
    Accepts Q (do
      let e ← expression file n
      let _ ← expect file .rparen
      f e) s := by
  have h : Reads P (expression file) us ((.rparen, r) :: rest) := h _ (stops_cons.mpr (by decide))
  refine h.bind hs fun e s₁ he hs₁ => ?_
  exact accepts_expect hs₁ hrest fun _ s₂ _ hs₂ => hf e s₂ he hs₂

theorem reads_argument (h : ReadsAt P (expression file) .expression us) (hrest : rest ≠ []) :
    Reads P (argument file) ((k, t) :: (.lparen, l) :: (us ++ [(.rparen, r)])) rest := by
  refine reads_of_succ rfl fun n s hs => ?_
  simp only [List.cons_append, List.append_assoc, List.nil_append] at hs
  rw [argument]
  refine accepts_advance hs (by simp) fun s₁ hs₁ => ?_
  refine accepts_expect hs₁ (by simp) fun _ s₂ _ hs₂ => ?_
  exact accepts_bracketed h hrest hs₂ fun e s₃ he hs₃ => accepts_pure ⟨he, hs₃⟩

theorem readsAt_builtin (make : Expr → Option Loc → Expr)
    (hfactor : ∀ n s, s.current.kind = k → factor file (n + 1) s = (do
      let e ← argument file n
      return make e (s.current.loc file)) s)
    (h : ReadsAt P (expression file) .expression us) (hR : ∀ e loc, P e → R (make e loc)) :
    ReadsAt R (factor file) .factor ((k, t) :: (.lparen, l) :: (us ++ [(.rparen, r)])) := by
  intro rest hstop
  refine reads_of_succ rfl fun n s hs => ?_
  rw [Accepts, hfactor n s (current_of_words hs).1]
  exact (reads_argument h hstop.ne_nil).bind hs fun e s₁ he hs₁ => accepts_pure ⟨hR e _ he, hs₁⟩

theorem readsAt_head (h : ReadsAt P (expression file) .expression us)
    (hR : ∀ e loc, P e → R (.head e loc)) :
    ReadsAt R (factor file) .factor ((.hdWord, t) :: (.lparen, l) :: (us ++ [(.rparen, r)])) :=
  readsAt_builtin .head (fun n s hk => by rw [factor, bind_of_ok (current_eq s), hk]) h hR

theorem readsAt_tail (h : ReadsAt P (expression file) .expression us)
    (hR : ∀ e loc, P e → R (.tail e loc)) :
    ReadsAt R (factor file) .factor ((.tlWord, t) :: (.lparen, l) :: (us ++ [(.rparen, r)])) :=
  readsAt_builtin .tail (fun n s hk => by rw [factor, bind_of_ok (current_eq s), hk]) h hR

theorem readsAt_length (h : ReadsAt P (expression file) .expression us)
    (hR : ∀ e loc, P e → R (.length e loc)) :
    ReadsAt R (factor file) .factor ((.lenWord, t) :: (.lparen, l) :: (us ++ [(.rparen, r)])) :=
  readsAt_builtin .length (fun n s hk => by rw [factor, bind_of_ok (current_eq s), hk]) h hR

/-- The arguments of `map` stand side by side, so the second one must not go on with the first. -/
theorem readsAt_map (hf : ReadsAt P (expression file) .expression us)
    (hxs : ReadsAt Q (expression file) .expression vs)
    (hnext : ∀ rest, Stops .expression (vs ++ (.rparen, r) :: rest))
    (hR : ∀ f xs loc, P f → Q xs → R (.map f xs loc)) :
    ReadsAt R (factor file) .factor
      ((.mapWord, t) :: (.lparen, l) :: (us ++ (vs ++ [(.rparen, r)]))) := by
  intro rest hstop
  refine reads_of_succ rfl fun n s hs => ?_
  simp only [List.cons_append, List.append_assoc, List.nil_append] at hs
  rw [factor]
  refine accepts_current hs fun line column => accepts_advance hs (by simp) fun s₁ hs₁ => ?_
  refine accepts_expect hs₁ (by simp) fun _ s₂ _ hs₂ => ?_
  refine (hf _ (hnext rest)).bind hs₂ fun f s₃ hf hs₃ => ?_
  exact accepts_bracketed hxs hstop.ne_nil hs₃ fun xs s₄ hxs hs₄ =>
    accepts_pure ⟨hR f xs _ hf hxs, hs₄⟩

theorem readsAt_fold {side : Side} {is : List Word}
    (hf : ReadsAt P (expression file) .expression us)
    (hi : ReadsAt S (expression file) .expression is)
    (hxs : ReadsAt Q (expression file) .expression vs)
    (hnext : ∀ rest, Stops .expression (is ++ (vs ++ (.rparen, r) :: rest)))
    (hnext' : ∀ rest, Stops .expression (vs ++ (.rparen, r) :: rest))
    (hR : ∀ f i xs loc, P f → S i → Q xs → R (.fold side f i xs loc)) :
    ReadsAt R (factor file) .factor
      ((foldWord side, t) :: (.lparen, l) :: (us ++ (is ++ (vs ++ [(.rparen, r)])))) := by
  intro rest hstop
  have hfolded : ∀ loc, Reads R (fun n => folded file n side loc)
      ((foldWord side, t) :: (.lparen, l) :: (us ++ (is ++ (vs ++ [(.rparen, r)])))) rest := by
    refine fun loc => reads_of_succ rfl fun n s hs => ?_
    simp only [List.cons_append, List.append_assoc, List.nil_append] at hs
    simp only [folded]
    refine accepts_advance hs (by simp) fun s₁ hs₁ => ?_
    refine accepts_expect hs₁ (by simp) fun _ s₂ _ hs₂ => ?_
    refine (hf _ (hnext rest)).bind hs₂ fun f s₃ hf hs₃ => ?_
    refine (hi _ (hnext' rest)).bind hs₃ fun i s₄ hi hs₄ => ?_
    exact accepts_bracketed hxs hstop.ne_nil hs₄ fun xs s₅ hxs hs₅ =>
      accepts_pure ⟨hR f i xs _ hf hi hxs, hs₅⟩
  refine reads_of_succ rfl fun n s hs => ?_
  rw [factor]
  refine accepts_current hs fun line column => ?_
  cases side <;> exact hfolded _ n s hs

theorem readsAt_nil (hR : ∀ loc, R (.list [] loc)) :
    ReadsAt R (factor file) .factor [(.lbracket, l), (.rbracket, r)] := by
  intro rest hstop
  refine reads_of_succ rfl fun n s hs => ?_
  rw [factor]
  refine accepts_current hs fun line column => accepts_advance hs (by simp) fun s₁ hs₁ => ?_
  exact accepts_consume hs₁ hstop.ne_nil fun s₂ hs₂ => accepts_pure ⟨hR _, hs₂⟩

theorem reads_noElements {S : List Expr → Prop} (hS : S []) (hk : k ≠ .comma) :
    Reads S (elements file) [] ((k, t) :: rest) := by
  refine reads_of_succ rfl fun n s hs => ?_
  rw [elements]
  exact accepts_consume_other hs hk (accepts_pure ⟨hS, hs⟩)

theorem reads_element {S S' : List Expr → Prop} {c : String}
    (he : Reads P (expression file) us (vs ++ rest)) (hne : us ++ (vs ++ rest) ≠ [])
    (hes : Reads S (elements file) vs rest) (hS : ∀ e es, P e → S es → S' (e :: es)) :
    Reads S' (elements file) ((.comma, c) :: (us ++ vs)) rest := by
  refine reads_of_succ rfl fun n s hs => ?_
  simp only [List.cons_append, List.append_assoc] at hs
  rw [elements]
  refine accepts_consume hs hne fun s₁ hs₁ => he.bind hs₁ fun e s₂ he hs₂ => ?_
  exact hes.bind hs₂ fun es s₃ hes hs₃ => accepts_pure ⟨hS e es he hes, hs₃⟩

theorem readsAt_list {S : List Expr → Prop}
    (he : ∀ rest, Reads P (expression file) us (vs ++ (.rbracket, r) :: rest))
    (hes : ∀ rest, Reads S (elements file) vs ((.rbracket, r) :: rest))
    (hR : ∀ e es loc, P e → S es → R (.list (e :: es) loc)) :
    ReadsAt R (factor file) .factor ((.lbracket, l) :: (us ++ (vs ++ [(.rbracket, r)]))) := by
  intro rest hstop
  refine reads_of_succ rfl fun n s hs => ?_
  simp only [List.cons_append, List.append_assoc, List.nil_append] at hs
  rw [factor]
  refine accepts_current hs fun line column => accepts_advance hs (by simp) fun s₁ hs₁ => ?_
  have hk : s₁.current.kind ≠ .rbracket := fun hk =>
    (he rest).not_refuses hs₁ (expression_refuses file (by rw [hk]; decide))
  refine accepts_consume_other (TokenStream.words_eq s₁) hk ?_
  refine (he rest).bind hs₁ fun e s₂ he hs₂ => (hes rest).bind hs₂ fun es s₃ hes hs₃ => ?_
  exact accepts_expect hs₃ hstop.ne_nil fun _ s₄ _ hs₄ => accepts_pure ⟨hR e es _ he hes, hs₄⟩

theorem readsAt_int {i : Int} (hread : Text.readInt t = .ok i)
    (hR : ∀ loc, R (.literal (.int i) loc)) : ReadsAt R (factor file) .factor [(.int, t)] := by
  intro rest hstop
  refine reads_of_succ rfl fun n s hs => ?_
  rw [factor]
  refine accepts_current hs fun line column => ?_
  dsimp only
  rw [hread]
  exact accepts_advance hs hstop.ne_nil fun s₁ hs₁ => accepts_pure ⟨hR _, hs₁⟩

theorem readsAt_real {x : Float} (hread : Text.readReal? t = some x)
    (hR : ∀ loc, R (.literal (.real x) loc)) : ReadsAt R (factor file) .factor [(.real, t)] := by
  intro rest hstop
  refine reads_of_succ rfl fun n s hs => ?_
  rw [factor]
  refine accepts_current hs fun line column => ?_
  dsimp only
  rw [hread]
  exact accepts_advance hs hstop.ne_nil fun s₁ hs₁ => accepts_pure ⟨hR _, hs₁⟩

theorem readsAt_bool (hR : ∀ loc, R (.literal (.bool (t == "true")) loc)) :
    ReadsAt R (factor file) .factor [(.bool, t)] := by
  intro rest hstop
  refine reads_of_succ rfl fun n s hs => ?_
  rw [factor]
  refine accepts_current hs fun line column => ?_
  exact accepts_advance hs hstop.ne_nil fun s₁ hs₁ => accepts_pure ⟨hR _, hs₁⟩

theorem opens_ident (hR : ∀ loc, R (.ident x loc)) :
    Opens R (factor file) (applications file) .applied [(.ident, x)] := by
  intro Q ws rest hstop hws
  refine reads_of_succ rfl fun n s hs => ?_
  rw [List.append_assoc] at hs
  rw [factor]
  refine accepts_current hs fun line column => ?_
  exact accepts_advance hs hstop.ne_nil fun s₁ hs₁ => hws _ (hR _) n s₁ hs₁

theorem opens_brackets (h : ReadsAt P (expression file) .expression us) :
    Opens P (factor file) (applications file) .applied
      ((.lparen, l) :: (us ++ [(.rparen, r)])) := by
  intro Q ws rest hstop hws
  refine reads_of_succ rfl fun n s hs => ?_
  simp only [List.cons_append, List.append_assoc, List.nil_append] at hs
  rw [factor]
  refine accepts_current hs fun line column => accepts_advance hs (by simp) fun s₁ hs₁ => ?_
  exact accepts_bracketed h hstop.ne_nil hs₁ fun e s₂ he hs₂ => hws e he n s₂ hs₂

theorem Opens.apply (h : Opens P (factor file) (applications file) .applied us)
    (ha : ReadsAt Q (expression file) .expression vs)
    (hR : ∀ f a loc, P f → Q a → R (.apply f a loc)) :
    Opens R (factor file) (applications file) .applied
      (us ++ (.lparen, l) :: (vs ++ [(.rparen, r)])) := by
  intro S ws rest hstop hws
  rw [List.append_assoc, List.cons_append, List.append_assoc]
  refine h _ _ _ (stops_cons.mpr (by decide)) fun f hf => reads_of_succ rfl fun n s hs => ?_
  simp only [List.cons_append, List.append_assoc, List.nil_append] at hs
  simp only [applications]
  refine accepts_kind hs <| accepts_here fun loc => accepts_advance hs (by simp) fun s₁ hs₁ => ?_
  refine accepts_bracketed ha hstop.ne_nil hs₁ fun a s₂ ha hs₂ => ?_
  exact hws _ (hR f a loc hf ha) n s₂ hs₂

theorem Opens.factor (h : Opens P (factor file) (applications file) .applied us) :
    ReadsAt P (Parse.factor file) .factor us := by
  intro rest hstop
  rw [← List.append_nil us]
  refine h _ _ _ (hstop.mono (by decide)) fun e he => reads_of_succ rfl fun n s hs => ?_
  obtain ⟨k, t, rest, rfl, hk⟩ := hstop
  have hread : applications file (n + 1) e s = .ok e s := by
    rw [applications, bind_of_ok (kind_eq s), (current_of_words hs).1]
    cases k <;> first | rfl | simp [continuing] at hk
  exact .inr ⟨e, s, hread, he, hs⟩

end Factors

section Statements

variable {P R : Expr → Prop} {S S' : List Expr → Prop} {us vs : List Word} {x v a c : String}

theorem reads_val (h : ReadsAt P (expression file) .expression us)
    (hR : ∀ e loc, P e → R (.val x e loc)) :
    Reads R (statement file) ((.valWord, v) :: (.ident, x) :: (.assign, a) :: us)
      ((.semicolon, c) :: rest) := by
  intro n s hs
  simp only [List.cons_append] at hs
  have h : Reads P (expression file) us ((.semicolon, c) :: rest) :=
    h _ (stops_cons.mpr (by decide))
  rw [statement]
  refine accepts_kind hs <| accepts_here fun loc => accepts_advance hs (by simp) fun s₁ hs₁ => ?_
  refine accepts_expect hs₁ (by simp) fun name s₂ hx hs₂ => accepts_current hs₂ fun _ _ => ?_
  refine accepts_expect hs₂ (by simp) fun _ s₃ _ hs₃ => ?_
  exact h.bind hs₃ fun e s₄ he hs₄ => accepts_pure ⟨hx ▸ hR e _ he, hs₄⟩

theorem reads_function {y : String} (h : ReadsAt P (expression file) .expression us)
    (hR : ∀ e loc loc', P e → R (.val x (.lambda y e loc) loc')) :
    Reads R (statement file) ((.valWord, v) :: (.ident, x) :: (.ident, y) :: (.assign, a) :: us)
      ((.semicolon, c) :: rest) := by
  intro n s hs
  simp only [List.cons_append] at hs
  have h : Reads P (expression file) us ((.semicolon, c) :: rest) :=
    h _ (stops_cons.mpr (by decide))
  rw [statement]
  refine accepts_kind hs <| accepts_here fun loc => accepts_advance hs (by simp) fun s₁ hs₁ => ?_
  refine accepts_expect hs₁ (by simp) fun name s₂ hx hs₂ => accepts_current hs₂ fun _ _ => ?_
  refine accepts_advance hs₂ (by simp) fun s₃ hs₃ => ?_
  refine accepts_expect hs₃ (by simp) fun _ s₄ _ hs₄ => ?_
  exact h.bind hs₄ fun e s₅ he hs₅ => accepts_pure ⟨hx ▸ hR e _ _ he, hs₅⟩

theorem Reads.statement (h : Reads P (Parse.expression file) us rest) :
    Reads P (statement file) us rest := by
  intro n s hs
  have hread := h n s hs
  have hno := fun hk => h.not_refuses hs (expression_refuses file hk)
  rw [Accepts, Parse.statement, bind_of_ok (kind_eq s)]
  cases hk : s.current.kind with
  | valWord => exact absurd (by rw [hk]; decide) hno
  | _ => exact hread

theorem reads_statements_nil (hS : S []) (n : Nat) :
    Reads S (fun fuel => statements file fuel n) [] ((.eof, t) :: rest) := by
  intro fuel s hs
  cases n with
  | zero => exact accepts_endless
  | succ n => exact .inr ⟨[], s, statements_of_eof (current_of_words hs).1, hS, hs⟩

theorem statement_refuses (file : Option String) (hk : s.current.kind = .eof) :
    Refuses (statement file 6) s := by
  have hexpression := expression_refuses (s := s) file (by rw [hk]; decide)
  rw [Refuses, statement, bind_of_ok (kind_eq s), hk]
  exact hexpression

theorem reads_statements_cons (he : Reads P (statement file) us ((.semicolon, c) :: (vs ++ rest)))
    (hne : vs ++ rest ≠ []) (hes : ∀ n, Reads S (fun fuel => statements file fuel n) vs rest)
    (hS : ∀ e es, P e → S es → S' (e :: es)) (n : Nat) :
    Reads S' (fun fuel => statements file fuel n) (us ++ (.semicolon, c) :: vs) rest := by
  intro fuel s hs
  cases n with
  | zero => exact accepts_endless
  | succ n =>
    simp only [List.cons_append, List.append_assoc] at hs
    have hk : s.current.kind ≠ .eof := fun hk => he.not_refuses hs (statement_refuses file hk)
    simp only [Accepts, statements_of_ne_eof hk]
    refine he.bind hs fun e s₁ he hs₁ => accepts_expect hs₁ hne fun _ s₂ _ hs₂ => ?_
    exact (hes n).bind hs₂ fun es s₃ hes hs₃ => accepts_pure ⟨hS e es he hes, hs₃⟩

end Statements

end Parse

namespace Program

open Parse

theorem numeralFault?_ne_endless (w : Word) : numeralFault? w ≠ some .endless := by
  rcases w with ⟨k, text⟩
  cases k with
  | int =>
    simp only [numeralFault?]
    split <;> simp
  | real =>
    simp only [numeralFault?]
    split <;> simp
  | _ => simp [numeralFault?]

/-- Tokens whose words are read as statements are a program, for the fuel suffices. -/
theorem exists_ofTokens {S : List Expr → Prop} {body : List Token} {last : Token}
    {file : Option String} (hlast : last.kind = .eof)
    (h : ∀ n, Reads S (fun fuel => Parse.statements file fuel n) (body.map Token.bare)
      [last.bare]) :
    ∃ p, ofTokens (body ++ [last]) file = .ok p ∧ S p.statements := by
  have hs : (TokenStream.ofList (body ++ [last])).words = body.map Token.bare ++ [last.bare] := by
    rw [TokenStream.words, toList_ofList (by simp), List.map_append, List.map_singleton]
  let fuel := fuelFor (body ++ [last])
  rcases h fuel fuel _ hs with ⟨e, s', hread, he⟩ | ⟨es, s', hread, hS, -⟩
  · have herror : ofTokens (body ++ [last]) file = .error e := by
      have hp : program file fuel (TokenStream.ofList (body ++ [last])) = .error e s' := by
        rw [program, bind_of_ok (here_eq file _), bind_of_error hread]
      simp only [ofTokens, fuel] at hp ⊢
      rw [hp]
    obtain ⟨_, t, _, -, -, hfault⟩ := fault_of_ofTokens hlast herror he
    exact absurd hfault (numeralFault?_ne_endless _)
  · exact ⟨⟨es, _⟩, ofTokens_eq_ok_iff.mpr ⟨s', program_eq_ok_iff.mpr ⟨rfl, hread⟩⟩, hS⟩

end Program

end Minifun
