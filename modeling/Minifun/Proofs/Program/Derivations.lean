import Minifun.Proofs.Program.Grammar

/-! # What the reader has read

Every reading function takes words from the front of a stream, and what it gives has a derivation
from these words. None of them goes past the end of the text, so all calls are on ever fewer tokens,
and on a stream that ends the fuel suffices. The only breakdown left is that of a numeral without a
number.
-/

namespace Minifun

open Grammar

namespace TokenStream

def words (s : TokenStream) : List Word :=
  s.toList.map Token.bare

def Ends (s : TokenStream) : Prop :=
  ∃ front text, s.words = front ++ [(.eof, text)]

variable {s s' : TokenStream} {w : List Word} {k : TokenKind}

theorem words_eq (s : TokenStream) : s.words = s.current.bare :: s.rest.map Token.bare := rfl

theorem Ends.of_append (h : s.Ends) (hw : s.words = w ++ s'.words) : s'.Ends := by
  obtain ⟨front, text, hs⟩ := h
  obtain ⟨last, hlast⟩ : ∃ last, s'.words = s'.words.dropLast ++ [last] :=
    ⟨_, (List.dropLast_concat_getLast (by simp [words_eq])).symm⟩
  rw [hw, hlast, ← List.append_assoc] at hs
  obtain ⟨-, hlast'⟩ := List.append_inj' hs rfl
  exact ⟨_, text, by rw [hlast, hlast']⟩

theorem length_rest_of_append (hw : s.words = w ++ s'.words) :
    s.rest.length = w.length + s'.rest.length := by
  have h := congrArg List.length hw
  simp only [words_eq, List.length_append, List.length_cons, List.length_map] at h
  omega

theorem Ends.words_advance (h : s.Ends) (hk : s.current.kind ≠ .eof) :
    s.words = [s.current.bare] ++ s.advance.words := by
  obtain ⟨front, text, hs⟩ := h
  have hrest : s.rest ≠ [] := by
    intro hnil
    rw [words_eq, hnil, List.map_nil] at hs
    have hlast := congrArg List.getLast? hs
    rw [List.getLast?_singleton, List.getLast?_concat] at hlast
    exact hk (congrArg Prod.fst (Option.some.inj hlast))
  rw [words, words, Parse.advance_toList hrest]
  rfl

end TokenStream

namespace Parse

variable {α β : Type} {P : α → List Word → Prop} {Q : β → List Word → Prop} {m : Parse α}
  {f : α → Parse β} {file : Option String} {s s' : TokenStream} {k : TokenKind}

/-- What a reader does on a stream: what it gives belongs to the words it has read, and if it breaks
down, then at the first numeral without a number. -/
def Takes (P : α → List Word → Prop) (m : Parse α) (s : TokenStream) : Prop :=
  match m s with
  | .ok a s' => ∃ w, s.words = w ++ s'.words ∧ (∀ x ∈ w, Passable x) ∧ P a w
  | .error e s' => ∀ b, e.cause = .broken b →
      ∃ w, s.words = w ++ s'.words ∧ (∀ x ∈ w, Passable x) ∧ numeralFault? s'.current.bare = some b

section Calculus

theorem takes_pure {a : α} (h : P a []) : Takes P (pure a) s :=
  ⟨[], rfl, by simp, h⟩

theorem takes_fail {cause : ParseCause}
    (h : ∀ b, cause = .broken b → numeralFault? s.current.bare = some b) :
    Takes P (fail file cause) s :=
  fun b hb => ⟨[], rfl, by simp, h b hb⟩

theorem Takes.imp {P' : α → List Word → Prop} (h : Takes P m s) (himp : ∀ a w, P a w → P' a w) :
    Takes P' m s := by
  unfold Takes at h ⊢
  cases hm : m s with
  | ok a s' =>
    simp only [hm] at h ⊢
    obtain ⟨w, hw, hpass, ha⟩ := h
    exact ⟨w, hw, hpass, himp a w ha⟩
  | error e s' =>
    simp only [hm] at h ⊢
    exact h

theorem Takes.bind (hs : s.Ends) (hm : Takes P m s)
    (hf : ∀ a w s', P a w → s'.Ends → s.rest.length = w.length + s'.rest.length →
      Takes (fun b v => Q b (w ++ v)) (f a) s') : Takes Q (m >>= f) s := by
  unfold Takes at hm ⊢
  cases hms : m s with
  | error e s' =>
    simp only [hms] at hm
    simp only [bind_of_error hms]
    exact hm
  | ok a s' =>
    simp only [hms] at hm
    obtain ⟨w, hw, hpass, ha⟩ := hm
    have hfa := hf a w s' ha (hs.of_append hw) (TokenStream.length_rest_of_append hw)
    unfold Takes at hfa
    have hall : ∀ v : List Word, (∀ x ∈ v, Passable x) → ∀ x ∈ w ++ v, Passable x :=
      fun v hv x hx => (List.mem_append.mp hx).elim (hpass x) (hv x)
    simp only [bind_of_ok hms]
    cases hfs : f a s' with
    | error e s'' =>
      simp only [hfs] at hfa ⊢
      intro b hb
      obtain ⟨v, hv, hpass', hfault⟩ := hfa b hb
      exact ⟨w ++ v, by rw [hw, hv, List.append_assoc], hall v hpass', hfault⟩
    | ok b s'' =>
      simp only [hfs] at hfa ⊢
      obtain ⟨v, hv, hpass', hb⟩ := hfa
      exact ⟨w ++ v, by rw [hw, hv, List.append_assoc], hall v hpass', hb⟩

theorem takes_kind {f : TokenKind → Parse β} (h : Takes Q (f s.current.kind) s) :
    Takes Q (kind >>= f) s := h

theorem takes_current {f : Token → Parse β} (h : Takes Q (f s.current) s) :
    Takes Q (current >>= f) s := h

theorem takes_here {f : Loc → Parse β} (h : Takes Q (f (s.current.loc file)) s) :
    Takes Q (here file >>= f) s := h

theorem takes_advance {f : Unit → Parse β} (hs : s.Ends) (hpass : Passable s.current.bare)
    (hf : ∀ s', s'.Ends → s.rest.length = 1 + s'.rest.length →
      Takes (fun b v => Q b (s.current.bare :: v)) (f ()) s') : Takes Q (advance >>= f) s := by
  have hadvance : Takes (fun _ w => w = [s.current.bare]) advance s :=
    ⟨_, hs.words_advance hpass.1, by simpa using hpass, rfl⟩
  refine hadvance.bind hs fun _ w s' hw hs' hlength => ?_
  subst hw
  exact hf s' hs' hlength

theorem passable_of_kind (hk : s.current.kind = k) (hmute : k ∉ [TokenKind.eof, .int, .real]) :
    Passable s.current.bare ∧ s.current.bare = (k, s.current.text) := by
  subst hk
  refine ⟨⟨fun h : s.current.kind = .eof => hmute (by simp [h]), ?_⟩, rfl⟩
  rw [Token.bare]
  cases hkind : s.current.kind <;> simp_all [numeralFault?]

theorem takes_word {f : Unit → Parse β} (hs : s.Ends) (hk : s.current.kind = k)
    (hmute : k ∉ [TokenKind.eof, .int, .real])
    (hf : ∀ s', s'.Ends → s.rest.length = 1 + s'.rest.length →
      Takes (fun b v => Q b ((k, s.current.text) :: v)) (f ()) s') : Takes Q (advance >>= f) s := by
  obtain ⟨hpass, hbare⟩ := passable_of_kind hk hmute
  exact takes_advance hs hpass (hbare ▸ hf)

theorem takes_expect {f : Token → Parse β} (hs : s.Ends) (hmute : k ∉ [TokenKind.eof, .int, .real])
    (hf : ∀ t s', s'.Ends → s.rest.length = 1 + s'.rest.length →
      Takes (fun b v => Q b ((k, t.text) :: v)) (f t) s') : Takes Q (expect file k >>= f) s := by
  have hexpect : Takes (fun t w => w = [(k, t.text)]) (expect file k) s := by
    refine takes_current ?_
    by_cases hk : s.current.kind = k
    · rw [if_pos hk]
      exact takes_word hs hk hmute fun s' _ _ => takes_pure rfl
    · rw [if_neg hk]
      exact takes_fail fun b hb => nomatch hb
  refine hexpect.bind hs fun t w s' hw hs' hlength => ?_
  subst hw
  exact hf t s' hs' hlength

theorem takes_consume {f : Bool → Parse β} (hs : s.Ends) (hmute : k ∉ [TokenKind.eof, .int, .real])
    (hyes : ∀ t s', s'.Ends → s.rest.length = 1 + s'.rest.length →
      Takes (fun b v => Q b ((k, t) :: v)) (f true) s')
    (hno : Takes Q (f false) s) : Takes Q (consume k >>= f) s := by
  by_cases hk : s.current.kind = k
  · have hadvance : advance s = .ok () s.advance := rfl
    have h := takes_word (f := fun _ => f true) (Q := Q) hs hk hmute fun s' => hyes _ s'
    rw [Takes, bind_of_ok hadvance] at h
    rwa [Takes, bind_of_ok (consume_of_eq hk)]
  · rwa [Takes, bind_of_ok (consume_of_ne hk)]

end Calculus

/-- The words that were read have a derivation with the tree that was given. -/
def Parsed (level : Level) (e : Expr) (w : List Word) : Prop :=
  Derives (.expr level e.bare) w

/-- The words that were read continue any derivation of a tree to one of the tree that was given. -/
def Continues (level : Level) (left e : Expr) (w : List Word) : Prop :=
  ∀ u, Derives (.expr level left.bare) u → Derives (.expr level e.bare) (u ++ w)

structure AllTake (file : Option String) (n : Nat) : Prop where
  expression : ∀ {s}, s.Ends → 8 * s.rest.length + 7 ≤ n →
    Takes (Parsed .expression) (expression file n) s
  logical : ∀ {s}, s.Ends → 8 * s.rest.length + 6 ≤ n → Takes (Parsed .logical) (logical file n) s
  logicalRest : ∀ {s} e, s.Ends → 8 * s.rest.length + 1 ≤ n →
    Takes (Continues .logical e) (logicalRest file n e) s
  relational : ∀ {s}, s.Ends → 8 * s.rest.length + 5 ≤ n →
    Takes (Parsed .relational) (relational file n) s
  additive : ∀ {s}, s.Ends → 8 * s.rest.length + 4 ≤ n → Takes (Parsed .sum) (additive file n) s
  additiveRest : ∀ {s} e, s.Ends → 8 * s.rest.length + 1 ≤ n →
    Takes (Continues .sum e) (additiveRest file n e) s
  product : ∀ {s}, s.Ends → 8 * s.rest.length + 3 ≤ n → Takes (Parsed .product) (product file n) s
  productRest : ∀ {s} e, s.Ends → 8 * s.rest.length + 1 ≤ n →
    Takes (Continues .factors e) (productRest file n e) s
  factor : ∀ {s}, s.Ends → 8 * s.rest.length + 2 ≤ n → Takes (Parsed .factor) (factor file n) s
  argument : ∀ {s k}, s.Ends → s.current.kind = k → k ∉ [TokenKind.eof, .int, .real] →
    8 * s.rest.length + 1 ≤ n →
    Takes (fun e w => ∃ l r u, w = (k, s.current.text) :: (.lparen, l) :: (u ++ [(.rparen, r)]) ∧
      Parsed .expression e u) (argument file n) s
  folded : ∀ {s} side loc, s.Ends → s.current.kind = foldWord side → 8 * s.rest.length + 1 ≤ n →
    Takes (Parsed .factor) (folded file n side loc) s
  elements : ∀ {s}, s.Ends → 8 * s.rest.length + 1 ≤ n →
    Takes (fun es w => Derives (.elements (Term.relocateAll (fun _ => none) es)) w)
      (elements file n) s
  applications : ∀ {s} e, s.Ends → 8 * s.rest.length + 1 ≤ n →
    Takes (Continues .applied e) (applications file n e) s

theorem Parsed.length_pos {level : Level} {e : Expr} {w : List Word} (h : Parsed level e w) :
    0 < w.length :=
  List.length_pos_iff.mpr (Derives.ne_nil h)

theorem mute_of_mem_operators {level : Level} {op : BinOp} (h : (k, op) ∈ operators level) :
    k ∉ [TokenKind.eof, .int, .real] := by
  cases level <;> simp [operators] at h <;> grind

theorem continues_refl (level : Level) (e : Expr) : Continues level e e [] :=
  fun u hu => by simpa using hu

theorem takes_further {level operandLevel : Level} {op : BinOp} {operand : Parse Expr}
    {more : Expr → Parse Expr} {left : Expr} (hs : s.Ends)
    (hop : (s.current.kind, op) ∈ operators level)
    (hbinary : ∀ {t a b us vs}, Derives (.expr level a) us → Derives (.expr operandLevel b) vs →
      Derives (.expr level (.binary op a b none)) (us ++ (s.current.kind, t) :: vs))
    (hoperand : ∀ s', s'.Ends → s'.rest.length < s.rest.length →
      Takes (Parsed operandLevel) operand s')
    (hmore : ∀ e s', s'.Ends → s'.rest.length < s.rest.length →
      Takes (Continues level e) (more e) s') :
    Takes (Continues level left) (do
      let loc ← here file
      advance
      let right ← operand
      more (.binary op left right loc)) s := by
  refine takes_here <| takes_word hs rfl (mute_of_mem_operators hop) fun s₁ hs₁ _ => ?_
  refine (hoperand s₁ hs₁ (by omega)).bind hs₁ fun b vs s₂ hb hs₂ _ => ?_
  refine (hmore _ s₂ hs₂ (by omega)).imp fun e w he u hu => ?_
  simpa using he _ (hbinary hu hb)

section Step

variable {n : Nat} (h : AllTake file n)

include h

theorem AllTake.expression_succ (hs : s.Ends) (hn : 8 * s.rest.length + 7 ≤ n + 1) :
    Takes (Parsed .expression) (Parse.expression file (n + 1)) s := by
  rw [Parse.expression]
  refine takes_here <| takes_kind ?_
  cases hk : s.current.kind with
  | letWord =>
    refine takes_word hs hk (by decide) fun s₁ hs₁ _ =>
      takes_expect hs₁ (by decide) fun x s₂ hs₂ _ =>
      takes_expect hs₂ (by decide) fun a s₃ hs₃ _ => ?_
    refine (h.expression hs₃ (by omega)).bind hs₃ fun v us s₄ hv hs₄ _ =>
      takes_expect hs₄ (by decide) fun i s₅ hs₅ _ => ?_
    refine (h.expression hs₅ (by omega)).bind hs₅ fun b vs s₆ hb _ _ => takes_pure ?_
    simpa [Parsed] using Derives.letIn hv hb
  | ifWord =>
    refine takes_word hs hk (by decide) fun s₁ hs₁ _ => ?_
    refine (h.expression hs₁ (by omega)).bind hs₁ fun c cs s₂ hc hs₂ _ =>
      takes_expect hs₂ (by decide) fun t s₃ hs₃ _ => ?_
    refine (h.expression hs₃ (by omega)).bind hs₃ fun a us s₄ ha hs₄ _ =>
      takes_expect hs₄ (by decide) fun l s₅ hs₅ _ => ?_
    refine (h.expression hs₅ (by omega)).bind hs₅ fun b vs s₆ hb _ _ => takes_pure ?_
    simpa [Parsed] using Derives.cond hc ha hb
  | fnWord =>
    refine takes_word hs hk (by decide) fun s₁ hs₁ _ =>
      takes_expect hs₁ (by decide) fun x s₂ hs₂ _ =>
      takes_expect hs₂ (by decide) fun a s₃ hs₃ _ => ?_
    refine (h.expression hs₃ (by omega)).bind hs₃ fun b vs s₄ hb _ _ => takes_pure ?_
    simpa [Parsed] using Derives.lambda hb
  | _ => exact (h.logical hs (by omega)).imp fun e w => .ofLogical

theorem AllTake.logicalRest_succ (e : Expr) (hs : s.Ends) (hn : 8 * s.rest.length + 1 ≤ n + 1) :
    Takes (Continues .logical e) (Parse.logicalRest file (n + 1) e) s := by
  rw [Parse.logicalRest]
  refine takes_kind ?_
  cases hop : logicOp? s.current.kind with
  | none => exact takes_pure (continues_refl _ e)
  | some op =>
    have hop := logicOp?_eq_some_iff.mp hop
    exact takes_further hs hop (fun ha hb => .logic ha hop hb)
      (fun s' hs' _ => h.relational hs' (by omega)) fun e s' hs' _ => h.logicalRest e hs' (by omega)

theorem AllTake.relational_succ (hs : s.Ends) (hn : 8 * s.rest.length + 5 ≤ n + 1) :
    Takes (Parsed .relational) (Parse.relational file (n + 1)) s := by
  rw [Parse.relational]
  refine (h.additive hs (by omega)).bind hs fun a us s₁ ha hs₁ _ => takes_kind ?_
  cases hop : relOp? s₁.current.kind with
  | none => exact takes_pure (by simpa [Parsed] using Derives.ofSum ha)
  | some op =>
    have hop := relOp?_eq_some_iff.mp hop
    refine takes_here <| takes_word hs₁ rfl (mute_of_mem_operators hop) fun s₂ hs₂ _ => ?_
    refine (h.additive hs₂ (by omega)).bind hs₂ fun b vs s₃ hb _ _ => takes_pure ?_
    simpa [Parsed] using Derives.comparison ha hop hb

theorem AllTake.additiveRest_succ (e : Expr) (hs : s.Ends) (hn : 8 * s.rest.length + 1 ≤ n + 1) :
    Takes (Continues .sum e) (Parse.additiveRest file (n + 1) e) s := by
  rw [Parse.additiveRest]
  refine takes_kind ?_
  cases hop : sumOp? s.current.kind with
  | none => exact takes_pure (continues_refl _ e)
  | some op =>
    have hop := sumOp?_eq_some_iff.mp hop
    exact takes_further hs hop (fun ha hb => .addition ha hop hb)
      (fun s' hs' _ => h.product hs' (by omega)) fun e s' hs' _ => h.additiveRest e hs' (by omega)

theorem AllTake.product_succ (hs : s.Ends) (hn : 8 * s.rest.length + 3 ≤ n + 1) :
    Takes (Parsed .product) (Parse.product file (n + 1)) s := by
  rw [Parse.product]
  refine takes_kind ?_
  have hfactors : Takes (Parsed .product) (do
      let left ← Parse.factor file n
      Parse.productRest file n left) s := by
    refine (h.factor hs (by omega)).bind hs fun a us s₁ ha hs₁ _ => ?_
    have := ha.length_pos
    exact (h.productRest a hs₁ (by omega)).imp fun e w he => .ofFactors (he us (.ofFactor ha))
  cases hk : s.current.kind with
  | notWord =>
    refine takes_here <| takes_word hs hk (by decide) fun s₁ hs₁ _ => ?_
    refine (h.relational hs₁ (by omega)).bind hs₁ fun e ws s₂ he _ _ => takes_pure ?_
    simpa [Parsed] using Derives.not he
  | _ => exact hfactors

theorem AllTake.productRest_succ (e : Expr) (hs : s.Ends) (hn : 8 * s.rest.length + 1 ≤ n + 1) :
    Takes (Continues .factors e) (Parse.productRest file (n + 1) e) s := by
  rw [Parse.productRest]
  refine takes_kind ?_
  cases hop : productOp? s.current.kind with
  | none => exact takes_pure (continues_refl _ e)
  | some op =>
    have hop := productOp?_eq_some_iff.mp hop
    exact takes_further hs hop (fun ha hb => .multiplication ha hop hb)
      (fun s' hs' _ => h.factor hs' (by omega)) fun e s' hs' _ => h.productRest e hs' (by omega)

theorem AllTake.builtin {make : Expr → Expr} (hs : s.Ends) (hk : s.current.kind = k)
    (hmute : k ∉ [TokenKind.eof, .int, .real]) (hn : 8 * s.rest.length + 1 ≤ n)
    (hmake : ∀ {e l r u}, Parsed .expression e u →
      Parsed .factor (make e) ((k, s.current.text) :: (.lparen, l) :: (u ++ [(.rparen, r)]))) :
    Takes (Parsed .factor) (Parse.argument file n >>= fun e => pure (make e)) s := by
  refine (h.argument hs hk hmute hn).bind hs fun e w s₁ hw _ _ => takes_pure ?_
  obtain ⟨l, r, u, rfl, he⟩ := hw
  simpa using hmake he

theorem AllTake.factor_succ (hs : s.Ends) (hn : 8 * s.rest.length + 2 ≤ n + 1) :
    Takes (Parsed .factor) (Parse.factor file (n + 1)) s := by
  rw [Parse.factor]
  refine takes_current ?_
  dsimp only
  cases hk : s.current.kind with
  | minus =>
    refine takes_word hs hk (by decide) fun s₁ hs₁ _ => ?_
    refine (h.factor hs₁ (by omega)).bind hs₁ fun e ws s₂ he _ _ => takes_pure ?_
    simpa [Parsed] using Derives.neg he
  | hdWord =>
    exact h.builtin hs hk (by decide) (by omega) fun he => by simpa [Parsed] using Derives.head he
  | tlWord =>
    exact h.builtin hs hk (by decide) (by omega) fun he => by simpa [Parsed] using Derives.tail he
  | lenWord =>
    exact h.builtin hs hk (by decide) (by omega) fun he => by simpa [Parsed] using Derives.length he
  | mapWord =>
    refine takes_word hs hk (by decide) fun s₁ hs₁ _ =>
      takes_expect hs₁ (by decide) fun l s₂ hs₂ _ => ?_
    refine (h.expression hs₂ (by omega)).bind hs₂ fun f fs s₃ hf hs₃ _ => ?_
    refine (h.expression hs₃ (by omega)).bind hs₃ fun xs ws s₄ hxs hs₄ _ => ?_
    refine takes_expect hs₄ (by decide) fun r s₅ _ _ => takes_pure ?_
    simpa [Parsed] using Derives.map hf hxs
  | foldlWord => exact h.folded .left _ hs hk (by omega)
  | foldrWord => exact h.folded .right _ hs hk (by omega)
  | lbracket =>
    refine takes_word hs hk (by decide) fun s₁ hs₁ _ => takes_consume hs₁ (by decide) ?_ ?_
    · exact fun r s₂ _ _ => takes_pure (by simpa [Parsed] using Derives.nil)
    · refine (h.expression hs₁ (by omega)).bind hs₁ fun e ws s₂ he hs₂ _ => ?_
      refine (h.elements hs₂ (by omega)).bind hs₂ fun es us s₃ hes hs₃ _ => ?_
      refine takes_expect hs₃ (by decide) fun r s₄ _ _ => takes_pure ?_
      simpa [Parsed] using Derives.list he hes
  | lparen =>
    refine takes_word hs hk (by decide) fun s₁ hs₁ _ => ?_
    refine (h.expression hs₁ (by omega)).bind hs₁ fun e ws s₂ he hs₂ _ => ?_
    refine takes_expect hs₂ (by decide) fun r s₃ hs₃ _ => ?_
    refine (h.applications e hs₃ (by omega)).imp fun e' w he' => ?_
    simpa [Parsed] using Derives.ofApplied (he' _ (.brackets he))
  | int =>
    have hbare : s.current.bare = (.int, s.current.text) := by rw [Token.bare, hk]
    cases hread : Text.readInt s.current.text with
    | ok i =>
      have hpass : Passable s.current.bare := by simp [Passable, hbare, numeralFault?, hread]
      refine takes_advance hs hpass fun s₁ _ _ => takes_pure ?_
      simpa [Parsed, hbare] using Derives.int hread
    | error fault =>
      cases fault <;> exact takes_fail fun b hb => by
        rw [hbare, numeralFault?, hread, ← ParseCause.broken.inj hb]
  | real =>
    have hbare : s.current.bare = (.real, s.current.text) := by rw [Token.bare, hk]
    cases hread : Text.readReal? s.current.text with
    | some x =>
      have hpass : Passable s.current.bare := by simp [Passable, hbare, numeralFault?, hread]
      refine takes_advance hs hpass fun s₁ _ _ => takes_pure ?_
      simpa [Parsed, hbare] using Derives.real hread
    | none =>
      exact takes_fail fun b hb => by
        simp [hbare, numeralFault?, hread, ← ParseCause.broken.inj hb]
  | bool =>
    refine takes_word hs hk (by decide) fun s₁ _ _ => takes_pure ?_
    simpa [Parsed] using Derives.bool
  | ident =>
    refine takes_word hs hk (by decide) fun s₁ hs₁ _ => ?_
    refine (h.applications _ hs₁ (by omega)).imp fun e w he => ?_
    simpa [Parsed] using Derives.ofApplied (he _ .ident)
  | _ =>
    refine takes_fail fun b hb => ?_
    cases hb

theorem AllTake.argument_succ (hs : s.Ends) (hk : s.current.kind = k)
    (hmute : k ∉ [TokenKind.eof, .int, .real]) (hn : 8 * s.rest.length + 1 ≤ n + 1) :
    Takes (fun e w => ∃ l r u, w = (k, s.current.text) :: (.lparen, l) :: (u ++ [(.rparen, r)]) ∧
      Parsed .expression e u) (Parse.argument file (n + 1)) s := by
  rw [Parse.argument]
  refine takes_word hs hk hmute fun s₁ hs₁ _ => takes_expect hs₁ (by decide) fun l s₂ hs₂ _ => ?_
  refine (h.expression hs₂ (by omega)).bind hs₂ fun e ws s₃ he hs₃ _ => ?_
  exact takes_expect hs₃ (by decide) fun r s₄ _ _ => takes_pure ⟨_, _, ws, rfl, he⟩

theorem AllTake.folded_succ (side : Side) (loc : Loc) (hs : s.Ends)
    (hk : s.current.kind = foldWord side) (hn : 8 * s.rest.length + 1 ≤ n + 1) :
    Takes (Parsed .factor) (Parse.folded file (n + 1) side loc) s := by
  rw [Parse.folded]
  refine takes_word hs hk (by cases side <;> decide) fun s₁ hs₁ _ =>
    takes_expect hs₁ (by decide) fun l s₂ hs₂ _ => ?_
  refine (h.expression hs₂ (by omega)).bind hs₂ fun f fs s₃ hf hs₃ _ => ?_
  refine (h.expression hs₃ (by omega)).bind hs₃ fun i is s₄ hi hs₄ _ => ?_
  refine (h.expression hs₄ (by omega)).bind hs₄ fun xs ws s₅ hxs hs₅ _ => ?_
  refine takes_expect hs₅ (by decide) fun r s₆ _ _ => takes_pure ?_
  simpa [Parsed] using Derives.fold hf hi hxs

theorem AllTake.elements_succ (hs : s.Ends) (hn : 8 * s.rest.length + 1 ≤ n + 1) :
    Takes (fun es w => Derives (.elements (Term.relocateAll (fun _ => none) es)) w)
      (Parse.elements file (n + 1)) s := by
  rw [Parse.elements]
  refine takes_consume hs (by decide) (fun t s₁ hs₁ _ => ?_) (takes_pure .noElements)
  refine (h.expression hs₁ (by omega)).bind hs₁ fun e ws s₂ he hs₂ _ => ?_
  refine (h.elements hs₂ (by omega)).bind hs₂ fun es us s₃ hes _ _ => takes_pure ?_
  simpa using Derives.element he hes

theorem AllTake.applications_succ (e : Expr) (hs : s.Ends) (hn : 8 * s.rest.length + 1 ≤ n + 1) :
    Takes (Continues .applied e) (Parse.applications file (n + 1) e) s := by
  rw [Parse.applications]
  refine takes_kind ?_
  cases hk : s.current.kind with
  | lparen =>
    refine takes_here <| takes_word hs hk (by decide) fun s₁ hs₁ _ => ?_
    refine (h.expression hs₁ (by omega)).bind hs₁ fun a us s₂ ha hs₂ _ => ?_
    refine takes_expect hs₂ (by decide) fun r s₃ hs₃ _ => ?_
    refine (h.applications _ hs₃ (by omega)).imp fun e' w he' u hu => ?_
    simpa using he' _ (.apply hu ha)
  | _ => exact takes_pure (continues_refl _ e)

theorem AllTake.succ : AllTake file (n + 1) where
  expression := h.expression_succ
  logical hs hn := by
    rw [Parse.logical]
    refine (h.relational hs (by omega)).bind hs fun a us s₁ ha hs₁ _ => ?_
    have := ha.length_pos
    exact (h.logicalRest a hs₁ (by omega)).imp fun e w he => he us (.ofRelational ha)
  logicalRest := h.logicalRest_succ
  relational := h.relational_succ
  additive hs hn := by
    rw [Parse.additive]
    refine (h.product hs (by omega)).bind hs fun a us s₁ ha hs₁ _ => ?_
    have := ha.length_pos
    exact (h.additiveRest a hs₁ (by omega)).imp fun e w he => he us (.ofProduct ha)
  additiveRest := h.additiveRest_succ
  product := h.product_succ
  productRest := h.productRest_succ
  factor := h.factor_succ
  argument := h.argument_succ
  folded := h.folded_succ
  elements := h.elements_succ
  applications := h.applications_succ

end Step

theorem allTake (file : Option String) (n : Nat) : AllTake file n := by
  induction n with
  | zero => constructor <;> intros <;> omega
  | succ n ih => exact ih.succ

theorem statement_takes {fuel : Nat} (hs : s.Ends) (hfuel : 8 * s.rest.length + 7 ≤ fuel) :
    Takes (fun e w => DerivesStatement e.bare w) (statement file fuel) s := by
  have h := allTake file fuel
  unfold statement
  refine takes_kind ?_
  cases hk : s.current.kind with
  | valWord =>
    refine takes_here <| takes_word hs hk (by decide) fun s₁ hs₁ _ =>
      takes_expect hs₁ (by decide) fun x s₂ hs₂ _ => takes_current ?_
    have hvalue : Takes (fun e : Expr => fun w =>
          DerivesStatement e.bare ((.valWord, s.current.text) :: (.ident, x.text) :: w))
        (do
          let _ ← expect file .assign
          let value ← expression file fuel
          return .val x.text value (s.current.loc file)) s₂ := by
      refine takes_expect hs₂ (by decide) fun a s₃ hs₃ _ => ?_
      refine (h.expression hs₃ (by omega)).bind hs₃ fun e ws s₄ he _ _ => takes_pure ?_
      simpa using DerivesStatement.val he
    cases hk₂ : s₂.current.kind with
    | ident =>
      refine takes_word hs₂ hk₂ (by decide) fun s₃ hs₃ _ =>
        takes_expect hs₃ (by decide) fun a s₄ hs₄ _ => ?_
      refine (h.expression hs₄ (by omega)).bind hs₄ fun e ws s₅ he _ _ => takes_pure ?_
      simpa using DerivesStatement.function he
    | _ => exact hvalue
  | _ => exact (h.expression hs (by omega)).imp fun e w => .expression

theorem statements_takes {fuel n : Nat} (hs : s.Ends) (hfuel : 8 * s.rest.length + 7 ≤ fuel)
    (hn : s.rest.length < n) :
    Takes (fun es w => DerivesProgram (es.map Term.bare) w) (statements file fuel n) s := by
  induction n generalizing s with
  | zero => omega
  | succ n ih =>
    by_cases hk : s.current.kind = .eof
    · rw [Takes, statements_of_eof hk]
      exact ⟨[], rfl, by simp, .nil⟩
    · rw [Takes, statements_of_ne_eof hk]
      refine (statement_takes hs hfuel).bind hs fun e ws s₁ he hs₁ _ => ?_
      refine takes_expect hs₁ (by decide) fun t s₂ hs₂ _ => ?_
      refine (ih hs₂ (by omega) (by omega)).bind hs₂ fun es us s₃ hes _ _ => takes_pure ?_
      simpa using DerivesProgram.cons he hes

theorem eof_of_statements {fuel n : Nat} {es : List Expr}
    (h : statements file fuel n s = .ok es s') : s'.current.kind = .eof := by
  induction es generalizing s n with
  | nil =>
    have heof := eof_of_statements_nil h
    cases n with
    | zero => exact nomatch h
    | succ n =>
      rw [statements_of_eof heof] at h
      obtain ⟨-, rfl⟩ := EStateM.Result.ok.inj h
      exact heof
  | cons e es ih =>
    cases n with
    | zero => exact nomatch h
    | succ n =>
      have hne : s.current.kind ≠ .eof := by
        intro heof
        rw [statements_of_eof heof] at h
        exact nomatch h
      obtain ⟨_, -, -, hes⟩ := (statements_eq_ok_cons_iff hne).mp h
      exact ih hes

end Parse

namespace Program

open Parse

variable {body : List Token} {last : Token} {file : Option String} {p : Program}

theorem ends_ofList (body : List Token) (hlast : last.kind = .eof) :
    (TokenStream.ofList (body ++ [last])).Ends := by
  refine ⟨body.map Token.bare, last.text, ?_⟩
  rw [TokenStream.words, toList_ofList (by simp), List.map_append, ← hlast]
  rfl

theorem program_takes {fuel : Nat} {s : TokenStream} (hs : s.Ends)
    (hfuel : 8 * s.rest.length + 7 ≤ fuel) :
    Takes (fun p : Program => DerivesProgram (p.statements.map Term.bare)) (program file fuel)
      s := by
  refine takes_here <| (statements_takes hs hfuel (by omega)).bind hs fun es w s' hes _ _ => ?_
  exact takes_pure (by simpa using hes)

/-- What a stream of tokens up to the end of the text is read as. -/
theorem ofTokens_takes (body : List Token) (hlast : last.kind = .eof) (file : Option String) :
    Takes (fun p : Program => DerivesProgram (p.statements.map Term.bare))
      (program file (fuelFor (body ++ [last]))) (TokenStream.ofList (body ++ [last])) := by
  refine program_takes (ends_ofList body hlast) ?_
  have hlength := congrArg List.length (toList_ofList (List.concat_ne_nil last body))
  simp only [TokenStream.toList, List.length_cons] at hlength
  simp only [fuelFor]
  omega

theorem derives_of_ofTokens (hbody : ∀ t ∈ body, t.kind ≠ .eof) (hlast : last.kind = .eof)
    (h : ofTokens (body ++ [last]) file = .ok p) :
    DerivesProgram (p.statements.map Term.bare) (body.map Token.bare) ∧
      ∀ t ∈ body, Passable t.bare := by
  obtain ⟨s', hp⟩ := ofTokens_eq_ok_iff.mp h
  have heof := eof_of_statements (program_eq_ok_iff.mp hp).2
  have htakes := ofTokens_takes body hlast file
  rw [Takes, hp] at htakes
  obtain ⟨w, hw, hpass, hderives⟩ := htakes
  rw [TokenStream.words, toList_ofList (by simp), List.map_append, TokenStream.words_eq] at hw
  have hsplit := congrArg (List.takeWhile fun x => x.1 ≠ .eof) hw
  rw [List.takeWhile_append_of_pos (by simpa [Token.bare] using hbody),
    List.takeWhile_append_of_pos fun x hx => by simpa using (hpass x hx).1] at hsplit
  have hw' : body.map Token.bare = w := by simpa [Token.bare, hlast, heof] using hsplit
  rw [← hw'] at hderives hpass
  exact ⟨hderives, by simpa using hpass⟩

theorem fault_of_ofTokens (hlast : last.kind = .eof) {e : ParseError} {b : Breakdown}
    (h : ofTokens (body ++ [last]) file = .error e) (hb : e.cause = .broken b) :
    ∃ front t rest, body = front ++ t :: rest ∧ (∀ u ∈ front, Passable u.bare) ∧
      numeralFault? t.bare = some b := by
  have htakes := ofTokens_takes body hlast file
  unfold ofTokens at h
  cases hp : program file (fuelFor (body ++ [last])) (TokenStream.ofList (body ++ [last])) with
  | ok p s' =>
    rw [hp] at h
    exact nomatch h
  | error e' s' =>
    rw [hp] at h
    obtain rfl := Except.error.inj h
    rw [Takes, hp] at htakes
    obtain ⟨w, hw, hpass, hfault⟩ := htakes b hb
    rw [TokenStream.words, toList_ofList (by simp)] at hw
    obtain ⟨front, after, hsplit, rfl, hafter⟩ := List.map_eq_append_iff.mp hw
    rw [TokenStream.words_eq] at hafter
    obtain ⟨t, after, rfl, ht, -⟩ := List.map_eq_cons_iff.mp hafter
    rw [← ht] at hfault
    rcases List.eq_nil_or_concat after with rfl | ⟨rest, u, rfl⟩
    · obtain ⟨-, hlast'⟩ := List.append_inj' hsplit rfl
      obtain rfl := List.singleton_inj.mp hlast'
      simp [Token.bare, hlast, numeralFault?] at hfault
    · rw [List.concat_eq_append, ← List.cons_append, ← List.append_assoc] at hsplit
      exact ⟨front, t, rest, (List.append_inj' hsplit rfl).1, by simpa using hpass, hfault⟩

end Program

end Minifun
