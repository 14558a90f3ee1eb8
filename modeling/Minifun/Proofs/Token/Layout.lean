import Mathlib.Data.List.TakeWhile
import Minifun.Proofs.Token.Words

/-! # The layout of a text

A text that can be read consists of its tokens with gaps around them. In a gap there is nothing but
blanks and whole comments. Every token has the place where its characters stand, and no token could
have been longer.
-/

namespace Minifun

namespace Cursor

/-- The place behind a text: its line counts the line feeds before it, and its column the characters
since the last of them. -/
def behind (cs : List Char) : Cursor :=
  ⟨1 + cs.count '\n', 1 + (cs.reverse.takeWhile (· ≠ '\n')).length⟩

theorem behind_concat (cs : List Char) (c : Char) : behind (cs ++ [c]) = (behind cs).advance c := by
  by_cases h : c = '\n'
  · simp [behind, advance, h, Nat.add_assoc]
  · simp [behind, advance, h, Nat.add_comm]

@[simp] theorem advanceAll_nil (p : Cursor) : p.advanceAll [] = p := rfl

@[simp] theorem advanceAll_cons (p : Cursor) (c : Char) (cs : List Char) :
    p.advanceAll (c :: cs) = (p.advance c).advanceAll cs := rfl

theorem advanceAll_append (p : Cursor) (cs ds : List Char) :
    p.advanceAll (cs ++ ds) = (p.advanceAll cs).advanceAll ds :=
  List.foldl_append ..

theorem advanceAll_behind (before cs : List Char) :
    (behind before).advanceAll cs = behind (before ++ cs) := by
  induction cs generalizing before with
  | nil => simp
  | cons c cs ih =>
    rw [advanceAll_cons, ← behind_concat, ih]
    simp

end Cursor

namespace Token

/-- The inside of a comment, with the sign that closes it. -/
inductive Inside : List Char → Prop where
  | close : Inside ['*', ')']
  | char {c cs} : ¬ ['(', '*'] <+: c :: cs → ¬ ['*', ')'] <+: c :: cs → Inside cs →
      Inside (c :: cs)
  | nested {inner cs} : Inside inner → Inside cs → Inside ('(' :: '*' :: inner ++ cs)

inductive Gap : List Char → Prop where
  | nil : Gap []
  | space {c cs} : c ∈ [' ', '\t', '\r', '\n'] → Gap cs → Gap (c :: cs)
  | comment {inner cs} : Inside inner → Gap cs → Gap ('(' :: '*' :: inner ++ cs)

/-- The insides of comments that are open at once, from the innermost one on. -/
inductive Insides : Nat → List Char → Prop where
  | nil : Insides 0 []
  | cons {n inner cs} : Inside inner → Insides n cs → Insides (n + 1) (inner ++ cs)

structure Fresh (cs : List Char) : Prop where
  space : ∀ c ∈ cs.head?, isSpace c = false
  comment : ¬ ['(', '*'] <+: cs

section Gaps

variable {c d : Char} {cs inner gap rest : List Char} {depth n : Nat} {opened p q : Cursor}

theorem isSpace_iff : isSpace c = true ↔ c ∈ [' ', '\t', '\r', '\n'] := by
  simp [isSpace, or_assoc]

theorem pair_prefix_iff {a b : Char} : [a, b] <+: c :: d :: cs ↔ c = a ∧ d = b := by
  simp [List.cons_prefix_cons, eq_comm]

theorem insides_zero (h : Insides 0 cs) : cs = [] := by
  cases h
  rfl

theorem insides_succ (h : Insides (n + 1) cs) :
    ∃ inner rest, Inside inner ∧ Insides n rest ∧ cs = inner ++ rest := by
  cases h with
  | cons hinner hrest => exact ⟨_, _, hinner, hrest, rfl⟩

theorem Inside.eq_cons (h : Inside cs) : ∃ c d ds, cs = c :: d :: ds := by
  cases h with
  | close => exact ⟨_, _, _, rfl⟩
  | @char c cs _ _ h =>
    cases h with
    | close | char | nested => exact ⟨_, _, _, rfl⟩
  | nested => exact ⟨_, _, _, rfl⟩

theorem insides_char {after : List Char} (hopen : ¬ (c = '(' ∧ d = '*'))
    (hclose : ¬ (c = '*' ∧ d = ')')) (h : Insides (n + 1) cs) (hcs : d :: rest = cs ++ after) :
    Insides (n + 1) (c :: cs) := by
  obtain ⟨inner, more, hinner, hmore, rfl⟩ := insides_succ h
  obtain ⟨d', e, ds, rfl⟩ := hinner.eq_cons
  obtain ⟨rfl, -⟩ := List.cons.inj hcs
  have hchar : Inside (c :: d :: e :: ds) := by
    constructor
    · rwa [pair_prefix_iff]
    · rwa [pair_prefix_iff]
    · exact hinner
  exact .cons hchar hmore

/-- What is skipped are the insides of the comments that were open, and then a gap. -/
theorem skip_eq_ok (h : skip depth opened p cs = .ok (q, rest)) :
    ∃ insides gap, Insides depth insides ∧ Gap gap ∧ cs = insides ++ gap ++ rest ∧
      q = p.advanceAll (insides ++ gap) ∧ Fresh rest := by
  fun_induction skip depth opened p cs with
  | case1 opened p =>
    obtain ⟨rfl, rfl⟩ := Prod.mk.inj (Except.ok.inj h)
    exact ⟨[], [], .nil, .nil, rfl, rfl, by simp, by simp⟩
  | case2 | case5 => cases h
  | case3 opened p c hc =>
    obtain ⟨rfl, rfl⟩ := Prod.mk.inj (Except.ok.inj h)
    exact ⟨[], [c], .nil, .space (isSpace_iff.mp hc) .nil, rfl, rfl, by simp, by simp⟩
  | case4 opened p c hc =>
    obtain ⟨rfl, rfl⟩ := Prod.mk.inj (Except.ok.inj h)
    exact ⟨[], [], .nil, .nil, rfl, rfl, by simpa using hc, by simp⟩
  | case6 depth opened p c d cs hcd ih =>
    obtain ⟨insides, gap, hinsides, hgap, rfl, rfl, hfresh⟩ := ih h
    obtain ⟨inner, more, hinner, hmore, rfl⟩ := insides_succ hinsides
    simp only [Bool.and_eq_true, decide_eq_true_eq] at hcd
    obtain ⟨rfl, rfl⟩ := hcd
    cases depth with
    | zero =>
      obtain rfl := insides_zero hmore
      exact ⟨[], '(' :: '*' :: inner ++ gap, .nil, .comment hinner hgap, by simp, by simp, hfresh⟩
    | succ n =>
      -- The comment that begins here belongs to the inside of the one around it.
      obtain ⟨outer, more', houter, hmore', rfl⟩ := insides_succ hmore
      exact ⟨('(' :: '*' :: inner ++ outer) ++ more', gap, .cons (.nested hinner houter) hmore',
        hgap, by simp, by simp, hfresh⟩
  | case7 opened p c d cs hcd hc ih =>
    obtain ⟨insides, gap, hinsides, hgap, hcs, rfl, hfresh⟩ := ih h
    obtain rfl := insides_zero hinsides
    exact ⟨[], c :: gap, .nil, .space (isSpace_iff.mp hc) hgap, by simp [hcs], by simp, hfresh⟩
  | case8 opened p c d cs hcd hc =>
    obtain ⟨rfl, rfl⟩ := Prod.mk.inj (Except.ok.inj h)
    refine ⟨[], [], .nil, .nil, rfl, rfl, by simpa using hc, ?_⟩
    rw [pair_prefix_iff]
    simpa using hcd
  | case9 depth opened p c d cs hcd hdepth hclose ih =>
    obtain ⟨insides, gap, hinsides, hgap, rfl, rfl, hfresh⟩ := ih h
    obtain ⟨n, rfl⟩ := Nat.exists_eq_succ_of_ne_zero hdepth
    simp only [Bool.and_eq_true, decide_eq_true_eq] at hclose
    obtain ⟨rfl, rfl⟩ := hclose
    exact ⟨['*', ')'] ++ insides, gap, .cons .close hinsides, hgap, by simp, by simp, hfresh⟩
  | case10 depth opened p c d cs hcd hdepth hclose ih =>
    obtain ⟨insides, gap, hinsides, hgap, hcs, rfl, hfresh⟩ := ih h
    obtain ⟨n, rfl⟩ := Nat.exists_eq_succ_of_ne_zero hdepth
    have hchar : Insides (n + 1) (c :: insides) :=
      insides_char (by simpa using hcd) (by simpa using hclose) hinsides
        (hcs.trans (List.append_assoc ..))
    exact ⟨c :: insides, gap, hchar, hgap, by simp [hcs], by simp, hfresh⟩

theorem skip_gap (h : skip 0 opened p cs = .ok (q, rest)) :
    ∃ gap, Gap gap ∧ cs = gap ++ rest ∧ q = p.advanceAll gap ∧ Fresh rest := by
  obtain ⟨insides, gap, hinsides, hgap, hcs, hq, hfresh⟩ := skip_eq_ok h
  obtain rfl := insides_zero hinsides
  exact ⟨gap, hgap, hcs, hq, hfresh⟩

/-- A comment that does not end is reported where the outermost one begins. -/
theorem skip_eq_error (h : skip depth opened p cs = .error q) :
    (depth ≠ 0 ∧ q = opened) ∨ ∃ front, front <+: cs ∧ q = p.advanceAll front := by
  fun_induction skip depth opened p cs with
  | case1 | case3 | case4 | case8 => cases h
  | case2 | case5 =>
    obtain rfl := Except.error.inj h
    exact .inl ⟨by assumption, rfl⟩
  | case6 depth opened p c d cs hcd ih =>
    rcases ih h with ⟨-, hq⟩ | ⟨front, hfront, rfl⟩
    · by_cases hdepth : depth = 0
      · exact .inr ⟨[], by simp, by simpa [hdepth] using hq⟩
      · exact .inl ⟨hdepth, by simpa [hdepth] using hq⟩
    · exact .inr ⟨c :: d :: front, by simpa using hfront, rfl⟩
  | case7 opened p c d cs hcd hc ih =>
    rcases ih h with ⟨hzero, -⟩ | ⟨front, hfront, rfl⟩
    · exact absurd rfl hzero
    · exact .inr ⟨c :: front, by simpa using hfront, rfl⟩
  | case9 depth opened p c d cs hcd hdepth hclose ih =>
    rcases ih h with ⟨-, hq⟩ | ⟨front, hfront, rfl⟩
    · exact .inl ⟨hdepth, hq⟩
    · exact .inr ⟨c :: d :: front, by simpa using hfront, rfl⟩
  | case10 depth opened p c d cs hcd hdepth hclose ih =>
    rcases ih h with ⟨-, hq⟩ | ⟨front, hfront, rfl⟩
    · exact .inl ⟨hdepth, hq⟩
    · exact .inr ⟨c :: front, by simpa using hfront, rfl⟩

theorem Inside.skip (h : Inside inner) (depth : Nat) (opened p : Cursor) (rest : List Char) :
    ∃ q, Token.skip (depth + 1) opened p (inner ++ rest) = Token.skip depth opened q rest := by
  induction h generalizing depth p rest with
  | close => exact ⟨_, by simp [Token.skip]; rfl⟩
  | @char c cs hopen hclose h ih =>
    obtain ⟨d, e, ds, rfl⟩ := h.eq_cons
    rw [pair_prefix_iff] at hopen hclose
    obtain ⟨q, hq⟩ := ih depth (p.advance c) rest
    refine ⟨q, hq ▸ ?_⟩
    rw [List.cons_append, List.cons_append, Token.skip, if_neg (by simpa using hopen),
      if_neg (Nat.succ_ne_zero depth), if_neg (by simpa using hclose)]
  | @nested inner cs _ _ ih ih' =>
    obtain ⟨q, hq⟩ := ih (depth + 1) ((p.advance '(').advance '*') (cs ++ rest)
    obtain ⟨q', hq'⟩ := ih' depth q rest
    refine ⟨q', hq' ▸ hq ▸ ?_⟩
    simp [Token.skip]

theorem Gap.skip (h : Gap gap) (opened p : Cursor) (rest : List Char) :
    ∃ opened' q, Token.skip 0 opened p (gap ++ rest) = Token.skip 0 opened' q rest := by
  induction h generalizing opened p with
  | nil => exact ⟨opened, p, rfl⟩
  | @space c cs hc _ ih =>
    obtain ⟨opened', q, hq⟩ := ih opened (p.advance c)
    exact ⟨opened', q, by rw [List.cons_append, skip_space (isSpace_iff.mpr hc), hq]⟩
  | @comment inner cs hinner _ ih =>
    obtain ⟨q, hq⟩ := hinner.skip 0 p ((p.advance '(').advance '*') (cs ++ rest)
    obtain ⟨opened', q', hq'⟩ := ih p q
    refine ⟨opened', q', hq' ▸ hq ▸ ?_⟩
    simp [Token.skip]

theorem Fresh.skip (h : Fresh cs) (opened p : Cursor) : Token.skip 0 opened p cs = .ok (p, cs) := by
  obtain ⟨hspace, hcomment⟩ := h
  match cs with
  | [] => rfl
  | [c] => simpa [Token.skip] using hspace
  | c :: d :: cs =>
    rw [pair_prefix_iff] at hcomment
    rw [Token.skip, if_neg (by simpa using hcomment), if_pos rfl,
      if_neg (by simpa using hspace c rfl)]

theorem Gap.skipsTo (hgap : Gap gap) (hfresh : Fresh rest) : SkipsTo (gap ++ rest) rest := by
  intro opened p
  obtain ⟨opened', q, hq⟩ := hgap.skip opened p rest
  exact ⟨q, hq.trans (hfresh.skip opened' q)⟩

theorem Fresh.front {more : List Char} (h : Fresh (cs ++ more)) (hne : cs ≠ []) : Fresh cs := by
  obtain ⟨hspace, hcomment⟩ := h
  constructor
  · rwa [List.head?_append_of_ne_nil _ hne] at hspace
  · exact fun hpre => hcomment (hpre.trans (List.prefix_append ..))

theorem Inside.ends (h : Inside inner) : [')'] <:+ inner := by
  induction h with
  | close => exact List.suffix_cons ..
  | char _ _ _ ih => exact ih.trans (List.suffix_cons ..)
  | nested _ _ _ ih => exact ih.trans (List.suffix_append ..)

theorem Gap.ends (h : Gap gap) :
    ∃ core spaces, gap = core ++ spaces ∧ Gap core ∧ (core = [] ∨ [')'] <:+ core) ∧
      ∀ c ∈ spaces, c ∈ [' ', '\t', '\r', '\n'] := by
  induction h with
  | nil => exact ⟨[], [], rfl, .nil, .inl rfl, by simp⟩
  | @space c cs hc _ ih =>
    obtain ⟨core, spaces, rfl, hcore, rfl | hend, hspaces⟩ := ih
    · exact ⟨[], c :: spaces, rfl, .nil, .inl rfl, List.forall_mem_cons.mpr ⟨hc, hspaces⟩⟩
    · exact ⟨c :: core, spaces, rfl, .space hc hcore, .inr (hend.trans (List.suffix_cons ..)),
        hspaces⟩
  | @comment inner cs hinner _ ih =>
    obtain ⟨core, spaces, rfl, hcore, hend, hspaces⟩ := ih
    refine ⟨'(' :: '*' :: inner ++ core, spaces, by simp, .comment hinner hcore, .inr ?_, hspaces⟩
    rcases hend with rfl | hend
    · rw [List.append_nil]
      exact hinner.ends.trans ((List.suffix_cons ..).trans (List.suffix_cons ..))
    · exact hend.trans (List.suffix_append ..)

end Gaps

inductive Lexeme : TokenKind → List Char → Prop where
  | int {ds} : ds ≠ [] → (∀ d ∈ ds, Text.isDigit d = true) → Lexeme .int ds
  | real {ds es} : ds ≠ [] → (∀ d ∈ ds, Text.isDigit d = true) → es ≠ [] →
      (∀ e ∈ es, Text.isDigit e = true) → Lexeme .real (ds ++ '.' :: es)
  | word {c cs} : isWordStart c = true → (∀ d ∈ cs, isWordChar d = true) →
      Lexeme (wordKind (c :: cs)) (c :: cs)
  | single {c k} : symbol? c = some k → Lexeme k [c]
  | pair {c d k} : pairSymbol? c d = some k → Lexeme k [c, d]

def wordKinds : List TokenKind :=
  .ident :: keywords.map (·.2)

/-- What follows a token does not belong to it: no digit follows a number, and no point with a digit
a whole number; nothing of a word follows a word; and a symbol does not begin a longer one or a
comment. -/
structure Complete (kind : TokenKind) (word after : List Char) : Prop where
  digit : kind = .int ∨ kind = .real → ∀ c ∈ after.head?, Text.isDigit c = false
  point : kind = .int → ∀ c cs, after = '.' :: c :: cs → Text.isDigit c = false
  wordChar : kind ∈ wordKinds → ∀ c ∈ after.head?, isWordChar c = false
  symbol : ∀ c, word = [c] → symbol? c = some kind → ∀ d ∈ after.head?, pairSymbol? c d = none
  comment : kind = .lparen → after.head? ≠ some '*'

section Lexemes

variable {c d : Char} {cs word : List Char} {kind : TokenKind}

theorem symbol?_lparen (h : symbol? c = some .lparen) : c = '(' := by
  unfold symbol? at h
  split at h <;> simp at h ⊢

theorem symbol?_kind (h : symbol? c = some kind) :
    kind ≠ .int ∧ kind ≠ .real ∧ kind ∉ wordKinds := by
  unfold symbol? at h
  split at h <;> cases h <;> decide

theorem pairSymbol?_kind (h : pairSymbol? c d = some kind) :
    kind ≠ .int ∧ kind ≠ .real ∧ kind ∉ wordKinds ∧ kind ≠ .lparen := by
  unfold pairSymbol? at h
  split at h <;> cases h <;> decide

theorem wordKind_mem (word : List Char) : wordKind word ∈ wordKinds := by
  rcases wordKind_cases word with h | h
  · exact h ▸ List.mem_cons_self
  · exact List.mem_cons_of_mem _ (List.mem_map.mpr ⟨_, h, rfl⟩)

theorem symbol?_semicolon (h : symbol? c = some .semicolon) : c = ';' := by
  unfold symbol? at h
  split at h <;> simp at h ⊢

theorem pairSymbol?_semicolon : pairSymbol? c d ≠ some .semicolon := by
  unfold pairSymbol?
  split <;> simp

theorem Lexeme.eq_semicolon (h : Lexeme kind word) (hkind : kind = .semicolon) : word = [';'] := by
  cases h with
  | int | real => cases hkind
  | @word c cs =>
    have hmem := wordKind_mem (c :: cs)
    rw [hkind] at hmem
    exact absurd hmem (by decide)
  | single hc =>
    subst hkind
    rw [symbol?_semicolon hc]
  | pair hcd =>
    subst hkind
    exact absurd hcd pairSymbol?_semicolon

theorem wordKinds_apart (h : kind ∈ wordKinds) : kind ≠ .int ∧ kind ≠ .real ∧ kind ≠ .lparen := by
  revert kind
  decide

theorem not_of_head?_dropWhile {p : Char → Bool} (h : c ∈ (cs.dropWhile p).head?) :
    p c = false := by
  have := List.head?_dropWhile_not p cs
  rw [Option.mem_def.mp h] at this
  simpa using this

theorem complete_number {after : List Char} (hkind : kind = .int ∨ kind = .real)
    (hdigit : ∀ c ∈ after.head?, Text.isDigit c = false)
    (hpoint : kind = .int → ∀ c cs, after = '.' :: c :: cs → Text.isDigit c = false) :
    Complete kind word after where
  digit _ := hdigit
  point := hpoint
  wordChar h := by
    rcases hkind with rfl | rfl
    · exact absurd rfl (wordKinds_apart h).1
    · exact absurd rfl (wordKinds_apart h).2.1
  symbol c _ h := by
    rcases hkind with rfl | rfl
    · exact absurd rfl (symbol?_kind h).1
    · exact absurd rfl (symbol?_kind h).2.1
  comment h := by rcases hkind with rfl | rfl <;> cases h

theorem complete_word {after : List Char} (hkind : kind ∈ wordKinds)
    (hafter : ∀ c ∈ after.head?, isWordChar c = false) : Complete kind word after where
  digit h := by
    obtain ⟨hint, hreal, -⟩ := wordKinds_apart hkind
    rcases h with rfl | rfl
    · exact absurd rfl hint
    · exact absurd rfl hreal
  point h := absurd h (wordKinds_apart hkind).1
  wordChar _ := hafter
  symbol c _ h := absurd hkind (symbol?_kind h).2.2
  comment h := absurd h (wordKinds_apart hkind).2.2

theorem complete_single {after : List Char} (hc : symbol? c = some kind)
    (hpair : ∀ d ∈ after.head?, pairSymbol? c d = none) (hfresh : ¬ ['(', '*'] <+: c :: after) :
    Complete kind [c] after where
  digit h := by
    obtain ⟨hint, hreal, -⟩ := symbol?_kind hc
    rcases h with rfl | rfl
    · exact absurd rfl hint
    · exact absurd rfl hreal
  point h := absurd h (symbol?_kind hc).1
  wordChar h := absurd h (symbol?_kind hc).2.2
  symbol c' hc' _ := by
    obtain rfl := List.singleton_inj.mp hc'
    exact hpair
  comment h hstar := by
    subst h
    obtain rfl := symbol?_lparen hc
    obtain ⟨after, rfl⟩ := List.head?_eq_some_iff.mp hstar
    exact hfresh (pair_prefix_iff.mpr ⟨rfl, rfl⟩)

theorem complete_pair {after : List Char} (h : pairSymbol? c d = some kind) :
    Complete kind [c, d] after where
  digit hk := by
    obtain ⟨hint, hreal, -⟩ := pairSymbol?_kind h
    rcases hk with rfl | rfl
    · exact absurd rfl hint
    · exact absurd rfl hreal
  point hk := absurd hk (pairSymbol?_kind h).1
  wordChar hk := absurd hk (pairSymbol?_kind h).2.2.1
  symbol c' hc' := by simp at hc'
  comment hk := absurd hk (pairSymbol?_kind h).2.2.2

theorem number_complete (hc : Text.isDigit c = true) (h : number (c :: cs) = (kind, word)) :
    ∃ after, c :: cs = word ++ after ∧ Lexeme kind word ∧ Complete kind word after := by
  have hsplit := List.takeWhile_append_dropWhile (p := Text.isDigit) (l := c :: cs)
  have hne : (c :: cs).takeWhile Text.isDigit ≠ [] := by simp [hc]
  have hdigits : ∀ d ∈ (c :: cs).takeWhile Text.isDigit, Text.isDigit d = true :=
    fun d hd => List.mem_takeWhile_imp hd
  unfold number at h
  split at h
  · rename_i rest hrest
    rw [hrest] at hsplit
    split at h
    · rename_i hplaces
      obtain ⟨rfl, rfl⟩ := Prod.mk.inj h
      refine ⟨'.' :: rest, hsplit.symm, .int hne hdigits, complete_number (.inl rfl) ?_ ?_⟩
      · simp [show Text.isDigit '.' = false by decide]
      · rintro - d ds hds
        obtain ⟨-, rfl⟩ := List.cons.inj hds
        cases hd : Text.isDigit d with
        | false => rfl
        | true => simp [hd] at hplaces
    · rename_i hplaces
      obtain ⟨rfl, rfl⟩ := Prod.mk.inj h
      have hrest' := List.takeWhile_append_dropWhile (p := Text.isDigit) (l := rest)
      refine ⟨rest.dropWhile Text.isDigit, ?_, .real hne hdigits hplaces ?_,
        complete_number (.inr rfl) (fun d hd => not_of_head?_dropWhile hd) nofun⟩
      · rw [List.append_assoc, List.cons_append, hrest', hsplit]
      · exact fun d hd => List.mem_takeWhile_imp hd
  · rename_i hpoint
    obtain ⟨rfl, rfl⟩ := Prod.mk.inj h
    refine ⟨_, hsplit.symm, .int hne hdigits, complete_number (.inl rfl) ?_ ?_⟩
    · exact fun d hd => not_of_head?_dropWhile hd
    · exact fun _ d ds hds => absurd hds (hpoint _)

theorem lexeme?_complete (h : lexeme? cs = some (kind, word)) (hfresh : ¬ ['(', '*'] <+: cs) :
    ∃ after, cs = word ++ after ∧ Lexeme kind word ∧ Complete kind word after := by
  cases cs with
  | nil => simp [lexeme?] at h
  | cons c cs =>
    simp only [lexeme?] at h
    by_cases hdigit : Text.isDigit c = true
    · rw [if_pos hdigit] at h
      exact number_complete hdigit (Option.some.inj h)
    rw [if_neg hdigit] at h
    by_cases hstart : isWordStart c = true
    · rw [if_pos hstart] at h
      obtain ⟨rfl, rfl⟩ := Prod.mk.inj (Option.some.inj h)
      have hword : (c :: cs).takeWhile isWordChar = c :: cs.takeWhile isWordChar := by
        simp [isWordChar_of_isWordStart hstart]
      refine ⟨(c :: cs).dropWhile isWordChar, List.takeWhile_append_dropWhile.symm, ?_,
        complete_word (wordKind_mem _) fun d hd => not_of_head?_dropWhile hd⟩
      rw [hword]
      exact .word hstart fun d hd => List.mem_takeWhile_imp hd
    rw [if_neg hstart] at h
    have hsingle : ∀ {cs : List Char}, (∀ d ∈ cs.head?, pairSymbol? c d = none) →
        ¬ ['(', '*'] <+: c :: cs → (symbol? c).map (fun k => (k, [c])) = some (kind, word) →
        ∃ after, c :: cs = word ++ after ∧ Lexeme kind word ∧ Complete kind word after := by
      intro cs hpair hfresh hs
      obtain ⟨k, hk, heq⟩ := Option.map_eq_some_iff.mp hs
      obtain ⟨rfl, rfl⟩ := Prod.mk.inj heq
      exact ⟨cs, rfl, .single hk, complete_single hk hpair hfresh⟩
    cases cs with
    | nil => exact hsingle (by simp) hfresh h
    | cons d cs =>
      simp only at h
      cases hpair : pairSymbol? c d with
      | none =>
        rw [hpair] at h
        exact hsingle (by simpa using hpair) hfresh h
      | some k =>
        rw [hpair] at h
        obtain ⟨rfl, rfl⟩ := Prod.mk.inj (Option.some.inj h)
        exact ⟨cs, rfl, .pair hpair, complete_pair hpair⟩

end Lexemes

def spelling (pieces : List (List Char × Token)) : List Char :=
  pieces.flatMap fun piece => piece.1 ++ piece.2.text.toList

/-- How a token stands in its text: behind a gap, at its place, and complete. -/
structure Sits (before gap : List Char) (t : Token) (after : List Char) : Prop where
  behindGap : Gap gap
  line : t.line = (Cursor.behind (before ++ gap)).line
  column : t.column = (Cursor.behind (before ++ gap)).column
  lexeme : Lexeme t.kind t.text.toList
  complete : Complete t.kind t.text.toList after

section Layout

variable {file : Option String} {n : Nat} {before cs : List Char} {ts : List Token}

@[simp] theorem spelling_nil : spelling [] = [] := rfl

@[simp] theorem spelling_cons (gap : List Char) (t : Token) (pieces : List (List Char × Token)) :
    spelling ((gap, t) :: pieces) = gap ++ t.text.toList ++ spelling pieces := rfl

/-- A text that can be read is a gap, or a gap with a complete token and a text behind them that can
be read from there. -/
theorem lexFrom_cases {p : Cursor} (h : lexFrom file (n + 1) p cs = .ok ts) :
    (Gap cs ∧ ts = [placed (p.advanceAll cs) .eof []]) ∨
      ∃ gap kind word after ts', cs = gap ++ (word ++ after) ∧ Gap gap ∧ Fresh (word ++ after) ∧
        lexeme? (word ++ after) = some (kind, word) ∧ word ≠ [] ∧ Lexeme kind word ∧
        Complete kind word after ∧
        lexFrom file n ((p.advanceAll gap).advanceAll word) after = .ok ts' ∧
        ts = placed (p.advanceAll gap) kind word :: ts' := by
  rw [lexFrom] at h
  cases hskip : skip 0 p p cs with
  | error opened => simp [hskip] at h
  | ok r =>
    obtain ⟨q, rest⟩ := r
    obtain ⟨gap, hgap, rfl, rfl, hfresh⟩ := skip_gap hskip
    simp only [hskip] at h
    cases rest with
    | nil =>
      rw [List.append_nil]
      exact .inl ⟨hgap, (Except.ok.inj h).symm⟩
    | cons c rest =>
      simp only at h
      cases hlex : lexeme? (c :: rest) with
      | none => simp [hlex] at h
      | some r =>
        obtain ⟨kind, word⟩ := r
        obtain ⟨after, hafter, hlexeme, hcomplete⟩ := lexeme?_complete hlex hfresh.comment
        have hword := (lexeme?_begins hlex).2
        simp only [hlex] at h
        simp only [hafter, List.drop_left] at h hlex hfresh ⊢
        cases hrec : lexFrom file n ((p.advanceAll gap).advanceAll word) after with
        | error e => simp [hrec] at h
        | ok ts' =>
          simp only [hrec] at h
          exact .inr ⟨gap, kind, word, after, ts', rfl, hgap, hfresh, hlex, hword, hlexeme,
            hcomplete,
            hrec, (Except.ok.inj h).symm⟩

theorem lexFrom_layout (hn : cs.length < n)
    (h : lexFrom file n (.behind before) cs = .ok ts) :
    ∃ pieces final, cs = spelling pieces ++ final ∧ Gap final ∧
      ts = pieces.map (·.2) ++ [placed (.behind (before ++ cs)) .eof []] ∧
      ∀ front gap t back, pieces = front ++ (gap, t) :: back →
        Sits (before ++ spelling front) gap t (spelling back ++ final) := by
  induction n generalizing before cs ts with
  | zero => omega
  | succ n ih =>
    rcases lexFrom_cases h with ⟨hgap, rfl⟩ |
      ⟨gap, kind, word, after, ts', rfl, hgap, -, -, hword, hlexeme, hcomplete, hrec, rfl⟩
    · rw [Cursor.advanceAll_behind]
      exact ⟨[], cs, rfl, hgap, rfl, by simp⟩
    · have hpos := List.length_pos_iff.mpr hword
      simp only [List.length_append] at hn
      rw [Cursor.advanceAll_behind, Cursor.advanceAll_behind] at hrec
      obtain ⟨pieces, final, rfl, hfinal, rfl, hsits⟩ := ih (by omega) hrec
      rw [Cursor.advanceAll_behind]
      refine ⟨(gap, placed (.behind (before ++ gap)) kind word) :: pieces, final,
        ?_, hfinal, ?_, ?_⟩
      · simp [placed]
      · simp
      · rintro (_ | ⟨piece, front⟩) gap' t back hpieces
        · obtain ⟨heq, rfl⟩ := List.cons.inj hpieces
          obtain ⟨rfl, rfl⟩ := Prod.mk.inj heq
          constructor <;> simp_all [placed]
        · obtain ⟨rfl, hback⟩ := List.cons.inj hpieces
          simpa [placed] using hsits front gap' t back hback

/-- A text that can be read is its tokens with gaps around them. Every token stands behind the
characters that lead up to it and is complete, and the end of the text stands behind all of it. -/
theorem lex_layout {source : String} (h : lex source file = .ok ts) :
    ∃ pieces final, source.toList = spelling pieces ++ final ∧ Gap final ∧
      ts = pieces.map (·.2) ++ [placed (.behind source.toList) .eof []] ∧
      ∀ front gap t back, pieces = front ++ (gap, t) :: back →
        Sits (spelling front) gap t (spelling back ++ final) :=
  @lexFrom_layout file _ [] _ ts (Nat.lt_succ_self _) h

/-- The number behind the comment stands in the second line, at its second character. -/
theorem lex_layout_comment :
    ∃ pieces final, "a (* (* b *) *)\n 12;".toList = spelling pieces ++ final ∧ Gap final ∧
      [⟨.ident, "a", 1, 1⟩, ⟨.int, "12", 2, 2⟩, ⟨.semicolon, ";", 2, 4⟩] = pieces.map (·.2) ∧
      ∀ front gap t back, pieces = front ++ (gap, t) :: back →
        Sits (spelling front) gap t (spelling back ++ final) := by
  have h : lex "a (* (* b *) *)\n 12;" none =
      .ok [⟨.ident, "a", 1, 1⟩, ⟨.int, "12", 2, 2⟩, ⟨.semicolon, ";", 2, 4⟩, ⟨.eof, "", 2, 5⟩] := by
    decide +kernel
  obtain ⟨pieces, final, hsource, hfinal, hts, hsits⟩ := lex_layout h
  have htokens : [⟨.ident, "a", 1, 1⟩, ⟨.int, "12", 2, 2⟩, ⟨.semicolon, ";", 2, 4⟩] =
      pieces.map (·.2) := by
    simpa using congrArg List.dropLast hts
  exact ⟨pieces, final, hsource, hfinal, htokens, hsits⟩

/-- A text that can be read is a gap behind its last token. If this token is a semicolon, the text
up to there has the same words wherever it stands. -/
theorem lexFrom_front {p : Cursor} (hn : cs.length < n) (h : lexFrom file n p cs = .ok ts) :
    ∃ front final words, cs = front ++ final ∧ Gap final ∧ ts.map bare = words ++ [ending] ∧
      (words = [] ↔ front = []) ∧
      (∀ w ∈ words.getLast?, Lexeme w.1 w.2.toList ∧ w.2.toList <:+ front) ∧
      (Closed front → Spells front words) := by
  induction n generalizing p cs ts with
  | zero => omega
  | succ n ih =>
    rcases lexFrom_cases h with ⟨hgap, rfl⟩ |
      ⟨gap, kind, word, after, ts', rfl, hgap, hfresh, hlex, hword, hlexeme, -, hrec, rfl⟩
    · exact ⟨[], cs, [], rfl, hgap, rfl, by simp, by simp,
        fun hclosed => absurd hclosed not_closed_nil⟩
    · have hpos := List.length_pos_iff.mpr hword
      simp only [List.length_append] at hn
      obtain ⟨front, final, words, rfl, hfinal, hts, hnil, hlast, hspells⟩ := ih (by omega) hrec
      refine ⟨gap ++ (word ++ front), final, (kind, String.ofList word) :: words, by simp,
        hfinal, by simp [hts], by simp [hword], ?_, ?_⟩
      · intro w hw
        cases words with
        | nil =>
          obtain rfl : (kind, String.ofList word) = w := by simpa using hw
          simpa [hnil.mp rfl] using hlexeme
        | cons u us =>
          rw [List.getLast?_cons_cons] at hw
          obtain ⟨hlexeme', hsuffix⟩ := hlast w hw
          exact ⟨hlexeme', hsuffix.trans
            ((List.suffix_append word front).trans (List.suffix_append gap _))⟩
      · intro hclosed
        have hne : word ++ front ≠ [] := by simp [hword]
        rw [← List.append_assoc] at hlex hfresh
        have hclosed' : Closed (word ++ front) :=
          List.suffix_of_suffix_length_le hclosed (List.suffix_append ..)
            (List.length_pos_iff.mpr hne)
        have htail : Spells front words := by
          have hfront := closed_drop hclosed' (List.prefix_append word front)
          rw [List.drop_left] at hfront
          rcases hfront with rfl | hfront
          · exact spells_nil_iff.mpr (hnil.mpr rfl)
          · exact hspells hfront
        refine .cons (hgap.skipsTo (hfresh.front hne))
          ((lexeme?_closed hclosed' final).symm.trans hlex) ?_
        rwa [List.drop_left]

end Layout

end Token

end Minifun
