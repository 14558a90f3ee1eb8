import Minifun.Proofs.Program.Derivations

/-! # What the reader accepts

A reading function takes words before some others and gives something with a property. Nothing is
said about the fuel: it may be used up, which is excluded elsewhere. What must not follow are words
that go on with the phrase, and what must not come first are words that no expression begins with.
-/

namespace Minifun

open Grammar

namespace Grammar

def continuing : Level → List TokenKind
  | .applied => []
  | .factor => [.lparen]
  | .factors | .product => .lparen :: (operators .factors).map Prod.fst
  | .sum => .lparen :: (operators .factors ++ operators .sum).map Prod.fst
  | .relational =>
    .lparen :: (operators .factors ++ operators .sum ++ operators .relational).map Prod.fst
  | .logical | .expression =>
    .lparen :: (operators .factors ++ operators .sum ++ operators .relational ++
      operators .logical).map Prod.fst

def Stops (level : Level) (ws : List Word) : Prop :=
  ∃ k t rest, ws = (k, t) :: rest ∧ k ∉ continuing level

variable {level level' : Level} {k : TokenKind} {t : String} {ws : List Word}

theorem stops_cons : Stops level ((k, t) :: ws) ↔ k ∉ continuing level := by
  constructor
  · rintro ⟨k', t', rest, heq, hk⟩
    obtain ⟨hw, -⟩ := List.cons.inj heq
    rwa [(Prod.mk.inj hw).1]
  · exact fun hk => ⟨k, t, ws, rfl, hk⟩

theorem Stops.ne_nil (h : Stops level ws) : ws ≠ [] := by
  obtain ⟨k, t, rest, rfl, -⟩ := h
  simp

theorem Stops.mono (h : Stops level ws)
    (hle : continuing level' ⊆ continuing level) : Stops level' ws := by
  obtain ⟨k, t, rest, rfl, hk⟩ := h
  exact ⟨k, t, rest, rfl, fun hk' => hk (hle hk')⟩

theorem eq_none_of_stop {op? : TokenKind → Option BinOp}
    (hop : ∀ {op}, op? k = some op → (k, op) ∈ operators level) (hk : k ∉ continuing level) :
    op? k = none := by
  have hmem : ∀ w ∈ operators level, w.1 ∈ continuing level := by cases level <;> decide
  cases h : op? k with
  | none => rfl
  | some op => exact absurd (hmem _ (hop h)) hk

end Grammar

namespace Parse

variable {α β : Type} {P : α → Prop} {Q : β → TokenStream → Prop} {m : Nat → Parse α}
  {f : α → Parse β} {file : Option String} {s : TokenStream} {k : TokenKind} {t : String}
  {ws rest : List Word}

/-- A reader gives something that it may give, and stops where it may, unless its fuel is used
up. -/
def Accepts (Q : α → TokenStream → Prop) (m : Parse α) (s : TokenStream) : Prop :=
  (∃ e s', m s = .error e s' ∧ e.cause = .broken .endless) ∨ ∃ a s', m s = .ok a s' ∧ Q a s'

/-- A reader takes words before other ones, and gives something with a property, unless its fuel is
used up. -/
def Reads (P : α → Prop) (m : Nat → Parse α) (ws rest : List Word) : Prop :=
  ∀ n s, s.words = ws ++ rest → Accepts (fun a s' => P a ∧ s'.words = rest) (m n) s

section Calculus

theorem accepts_endless {Q : α → TokenStream → Prop} :
    Accepts Q (fail file (.broken .endless)) s :=
  .inl ⟨_, _, rfl, rfl⟩

theorem accepts_pure {Q : α → TokenStream → Prop} {a : α} (h : Q a s) : Accepts Q (pure a) s :=
  .inr ⟨a, s, rfl, h⟩

theorem Accepts.bind {R : α → TokenStream → Prop} {m : Parse α} (hm : Accepts R m s)
    (hf : ∀ a s', R a s' → Accepts Q (f a) s') : Accepts Q (m >>= f) s := by
  rcases hm with ⟨e, s', hm, he⟩ | ⟨a, s', hm, ha⟩
  · exact .inl ⟨e, s', bind_of_error hm, he⟩
  · rw [Accepts, bind_of_ok hm]
    exact hf a s' ha

theorem Reads.bind (h : Reads P m ws rest) {n : Nat} (hs : s.words = ws ++ rest)
    (hf : ∀ a s', P a → s'.words = rest → Accepts Q (f a) s') : Accepts Q (m n >>= f) s :=
  (h n s hs).bind fun a s' ⟨ha, hs'⟩ => hf a s' ha hs'

theorem reads_of_succ (hzero : m 0 = fail file (.broken .endless))
    (hsucc : ∀ n s, s.words = ws ++ rest →
      Accepts (fun a s' => P a ∧ s'.words = rest) (m (n + 1)) s) : Reads P m ws rest := by
  intro n s hs
  cases n with
  | zero =>
    rw [hzero]
    exact accepts_endless
  | succ n => exact hsucc n s hs

theorem current_of_words (hs : s.words = (k, t) :: ws) :
    s.current.kind = k ∧ s.current.text = t := by
  rw [TokenStream.words_eq] at hs
  exact Prod.mk.inj (List.cons.inj hs).1

theorem accepts_kind {f : TokenKind → Parse β} (hs : s.words = (k, t) :: ws)
    (h : Accepts Q (f k) s) : Accepts Q (kind >>= f) s := by
  rw [Accepts, bind_of_ok (kind_eq s), (current_of_words hs).1]
  exact h

theorem accepts_here {f : Loc → Parse β} (h : ∀ loc, Accepts Q (f loc) s) :
    Accepts Q (here file >>= f) s :=
  h _

theorem accepts_current {f : Token → Parse β} (hs : s.words = (k, t) :: ws)
    (h : ∀ line column, Accepts Q (f ⟨k, t, line, column⟩) s) : Accepts Q (current >>= f) s := by
  obtain ⟨rfl, rfl⟩ := current_of_words hs
  exact h s.current.line s.current.column

theorem accepts_advance {f : Unit → Parse β} {w : Word} (hs : s.words = w :: ws) (hws : ws ≠ [])
    (h : ∀ s', s'.words = ws → Accepts Q (f ()) s') : Accepts Q (advance >>= f) s := by
  have hrest : s.rest.map Token.bare = ws := (List.cons.inj hs).2
  refine h s.advance ?_
  rw [TokenStream.words, advance_toList (by simpa [← hrest] using hws), hrest]

theorem accepts_expect {f : Token → Parse β} (hs : s.words = (k, t) :: ws) (hws : ws ≠ [])
    (h : ∀ token s', token.text = t → s'.words = ws → Accepts Q (f token) s') :
    Accepts Q (expect file k >>= f) s := by
  obtain ⟨hk, ht⟩ := current_of_words hs
  rw [Accepts, bind_of_ok (expect_eq_ok_iff.mpr ⟨hk, rfl, rfl⟩)]
  exact accepts_advance (f := fun _ => f s.current) hs hws fun s' hs' => h s.current s' ht hs'

theorem accepts_consume {f : Bool → Parse β} (hs : s.words = (k, t) :: ws) (hws : ws ≠ [])
    (h : ∀ s', s'.words = ws → Accepts Q (f true) s') : Accepts Q (consume k >>= f) s := by
  rw [Accepts, bind_of_ok (consume_of_eq (current_of_words hs).1)]
  exact accepts_advance (f := fun _ => f true) hs hws h

theorem accepts_consume_other {f : Bool → Parse β} {k' : TokenKind} (hs : s.words = (k', t) :: ws)
    (hk : k' ≠ k) (h : Accepts Q (f false) s) : Accepts Q (consume k >>= f) s := by
  obtain ⟨rfl, -⟩ := current_of_words hs
  rwa [Accepts, bind_of_ok (consume_of_ne hk)]

end Calculus

/-- A reader takes words wherever nothing follows that goes on with a phrase of a level. -/
def ReadsAt (P : Expr → Prop) (m : Nat → Parse Expr) (level : Level) (ws : List Word) : Prop :=
  ∀ rest, Stops level rest → Reads P m ws rest

section Refusals

def factorStarts : List TokenKind :=
  [.minus, .hdWord, .tlWord, .lenWord, .mapWord, .foldlWord, .foldrWord, .lbracket, .lparen, .int,
    .real, .bool, .ident]

def logicalStarts : List TokenKind :=
  .notWord :: factorStarts

def expressionStarts : List TokenKind :=
  [.letWord, .ifWord, .fnWord] ++ logicalStarts

def Refuses (m : Parse α) (s : TokenStream) : Prop :=
  ∃ e, m s = .error e s ∧ e.cause ≠ .broken .endless

theorem Refuses.bind {m : Parse α} (h : Refuses m s) :
    Refuses (m >>= f) s := by
  obtain ⟨e, hm, he⟩ := h
  exact ⟨e, bind_of_error hm, he⟩

theorem Reads.not_refuses {n : Nat} (h : Reads P m ws rest)
    (hs : s.words = ws ++ rest) : ¬ Refuses (m n) s := by
  rintro ⟨e, hm, he⟩
  rcases h n s hs with ⟨e', s', hm', he'⟩ | ⟨a, s', hm', -⟩
  · obtain ⟨rfl, -⟩ := EStateM.Result.error.inj (hm.symm.trans hm')
    exact he he'
  · exact nomatch hm.symm.trans hm'

theorem factor_refuses (file : Option String) (hk : s.current.kind ∉ factorStarts) :
    Refuses (factor file 1) s := by
  rw [Refuses, factor, bind_of_ok (current_eq s)]
  cases hkind : s.current.kind <;> first
    | exact absurd (by rw [hkind]; decide) hk
    | exact ⟨_, rfl, by simp⟩

theorem logical_refuses (file : Option String) (hk : s.current.kind ∉ logicalStarts) :
    Refuses (logical file 5) s := by
  have hproduct : Refuses (product file 2) s := by
    have hfactor := factor_refuses file fun h => hk (List.mem_cons_of_mem .notWord h)
    rw [Refuses, product, bind_of_ok (kind_eq s)]
    cases hkind : s.current.kind with
    | notWord => exact absurd (by rw [hkind]; decide) hk
    | _ => exact hfactor.bind
  have hadditive : Refuses (additive file 3) s := by
    rw [additive]
    exact hproduct.bind
  have hrelational : Refuses (relational file 4) s := by
    rw [relational]
    exact hadditive.bind
  rw [logical]
  exact hrelational.bind

theorem expression_refuses (file : Option String) (hk : s.current.kind ∉ expressionStarts) :
    Refuses (expression file 6) s := by
  have hlogical := logical_refuses file fun h => hk (List.mem_append_right _ h)
  rw [Refuses, expression, bind_of_ok (here_eq file s), bind_of_ok (kind_eq s)]
  cases hkind : s.current.kind with
  | letWord | ifWord | fnWord => exact absurd (by rw [hkind]; decide) hk
  | _ => exact hlogical

end Refusals

end Parse

end Minifun
