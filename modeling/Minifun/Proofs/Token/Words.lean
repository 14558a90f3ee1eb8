import Mathlib.Data.List.Infix
import Minifun.Text.Blank
import Minifun.Token.Lexer

/-! # The words of a text

The words of a text are its tokens without their places. A text that ends with a semicolon is read
to its end without a look at what follows: the semicolon neither continues a word nor belongs to a
comment. The words of such a text and of another one after it are therefore those of both together.
-/

namespace Minifun

namespace Token

def bare (t : Token) : TokenKind × String :=
  (t.kind, t.text)

@[simp] theorem bare_placed (p : Cursor) (kind : TokenKind) (cs : List Char) :
    (placed p kind cs).bare = (kind, String.ofList cs) := rfl

theorem kind_eq_of_bare {t t' : Token} (h : t'.bare = t.bare) : t'.kind = t.kind :=
  congrArg Prod.fst h

theorem text_eq_of_bare {t t' : Token} (h : t'.bare = t.bare) : t'.text = t.text :=
  congrArg Prod.snd h

def ending : TokenKind × String :=
  (.eof, "")

def Closed (cs : List Char) : Prop :=
  [';'] <:+ cs

/-- Blanks and comments at the front of a text lead up to the rest of it, wherever it stands. -/
def SkipsTo (cs rest : List Char) : Prop :=
  ∀ opened p, ∃ q, skip 0 opened p cs = .ok (q, rest)

inductive Spells : List Char → List (TokenKind × String) → Prop where
  | nil {cs} : SkipsTo cs [] → Spells cs []
  | cons {cs rest kind word words} : SkipsTo cs rest → lexeme? rest = some (kind, word) →
      Spells (rest.drop word.length) words → Spells cs ((kind, String.ofList word) :: words)

variable {c d : Char} {cs rest more word : List Char} {kind : TokenKind}

theorem not_closed_nil : ¬ Closed [] := by
  simp [Closed]

theorem closed_cons : Closed (c :: cs) ↔ (c = ';' ∧ cs = []) ∨ Closed cs := by
  simp [Closed, List.suffix_cons_iff, eq_comm]

theorem Closed.tail (h : Closed (c :: cs)) (hc : c ≠ ';') : Closed cs := by
  rcases closed_cons.mp h with ⟨rfl, -⟩ | h
  · exact absurd rfl hc
  · exact h

theorem Closed.drop_one (h : Closed (c :: d :: cs)) : Closed (d :: cs) := by
  rcases closed_cons.mp h with ⟨-, h⟩ | h
  · simp at h
  · exact h

section Skip

/-- Skipping stops before the last semicolon of a text, and does the same wherever the text stands
and whatever follows it. -/
theorem skip_closed {depth : Nat} {opened p q : Cursor} (hcs : Closed cs)
    (h : skip depth opened p cs = .ok (q, rest)) (more : List Char) :
    Closed rest ∧
      ∀ opened' p', ∃ q', skip depth opened' p' (cs ++ more) = .ok (q', rest ++ more) := by
  fun_induction skip depth opened p cs with
  | case1 => exact absurd hcs not_closed_nil
  | case2 => exact absurd hcs not_closed_nil
  | case3 opened p c hc =>
    obtain ⟨rfl, -⟩ | h := closed_cons.mp hcs
    · simp [isSpace] at hc
    · exact absurd h not_closed_nil
  | case4 opened p c hc =>
    obtain ⟨rfl, -⟩ | h' := closed_cons.mp hcs
    · obtain ⟨-, rfl⟩ := Prod.mk.inj (Except.ok.inj h)
      refine ⟨hcs, fun opened' p' => ⟨p', ?_⟩⟩
      cases more <;> simp [skip, isSpace]
    · exact absurd h' not_closed_nil
  | case5 => simp at h
  | case6 depth opened p c d cs hcd ih =>
    -- The semicolon at the end belongs to no mark of a comment, so it is still there.
    have hd : d ≠ ';' := by rintro rfl; simp at hcd
    obtain ⟨hclosed, hskip⟩ := ih (hcs.drop_one.tail hd) h
    refine ⟨hclosed, fun opened' p' => ?_⟩
    rw [List.cons_append, List.cons_append, skip, if_pos hcd]
    exact hskip _ _
  | case7 opened p c d cs hcd hc ih =>
    obtain ⟨hclosed, hskip⟩ := ih hcs.drop_one h
    refine ⟨hclosed, fun opened' p' => ?_⟩
    rw [List.cons_append, List.cons_append, skip, if_neg hcd, if_pos rfl, if_pos hc]
    exact hskip _ _
  | case8 opened p c d cs hcd hc =>
    obtain ⟨-, rfl⟩ := Prod.mk.inj (Except.ok.inj h)
    refine ⟨hcs, fun opened' p' => ⟨p', ?_⟩⟩
    rw [List.cons_append, List.cons_append, skip, if_neg hcd, if_pos rfl, if_neg hc]
  | case9 depth opened p c d cs hcd hdepth hclose ih =>
    have hd : d ≠ ';' := by rintro rfl; simp at hclose
    obtain ⟨hclosed, hskip⟩ := ih (hcs.drop_one.tail hd) h
    refine ⟨hclosed, fun opened' p' => ?_⟩
    rw [List.cons_append, List.cons_append, skip, if_neg hcd, if_neg hdepth, if_pos hclose]
    exact hskip _ _
  | case10 depth opened p c d cs hcd hdepth hclose ih =>
    obtain ⟨hclosed, hskip⟩ := ih hcs.drop_one h
    refine ⟨hclosed, fun opened' p' => ?_⟩
    rw [List.cons_append, List.cons_append, skip, if_neg hcd, if_neg hdepth, if_neg hclose]
    exact hskip _ _

theorem length_le_of_skip {depth : Nat} {opened p q : Cursor}
    (h : skip depth opened p cs = .ok (q, rest)) : rest.length ≤ cs.length := by
  fun_induction skip depth opened p cs with
  | case1 | case3 | case4 | case8 =>
    obtain ⟨-, rfl⟩ := Prod.mk.inj (Except.ok.inj h)
    simp
  | case2 | case5 => simp at h
  | case6 _ _ _ _ _ _ _ ih | case7 _ _ _ _ _ _ _ ih | case9 _ _ _ _ _ _ _ _ _ ih
  | case10 _ _ _ _ _ _ _ _ _ ih =>
    have := ih h
    simp only [List.length_cons] at this ⊢
    omega

theorem skipsTo_nil : SkipsTo [] [] :=
  fun _ p => ⟨p, rfl⟩

theorem SkipsTo.length_le (h : SkipsTo cs rest) : rest.length ≤ cs.length := by
  obtain ⟨q, hq⟩ := h {} {}
  exact length_le_of_skip hq

theorem SkipsTo.unique {rest' : List Char} (h : SkipsTo cs rest) (h' : SkipsTo cs rest') :
    rest = rest' := by
  obtain ⟨q, hq⟩ := h {} {}
  obtain ⟨q', hq'⟩ := h' {} {}
  rw [hq] at hq'
  exact (Prod.mk.inj (Except.ok.inj hq')).2

theorem skipsTo_of_skip {opened p q : Cursor} (hcs : Closed cs)
    (h : skip 0 opened p cs = .ok (q, rest)) : SkipsTo cs rest := by
  have := (skip_closed hcs h []).2
  rwa [List.append_nil, List.append_nil] at this

theorem SkipsTo.closed (h : SkipsTo cs rest) (hcs : Closed cs) : Closed rest := by
  obtain ⟨q, hq⟩ := h {} {}
  exact (skip_closed hcs hq []).1

theorem SkipsTo.append (h : SkipsTo cs rest) (hcs : Closed cs) (more : List Char) :
    SkipsTo (cs ++ more) (rest ++ more) := by
  obtain ⟨q, hq⟩ := h {} {}
  exact (skip_closed hcs hq more).2

theorem skip_space (hc : isSpace c = true) (opened p : Cursor) (cs : List Char) :
    skip 0 opened p (c :: cs) = skip 0 opened (p.advance c) cs := by
  have hparen : c ≠ '(' := by rintro rfl; simp [isSpace] at hc
  cases cs <;> simp [skip, hc, hparen]

theorem skip_word (hc : isSpace c = false) (hparen : c ≠ '(') (opened p : Cursor)
    (cs : List Char) : skip 0 opened p (c :: cs) = .ok (p, c :: cs) := by
  cases cs <;> simp [skip, hc, hparen]

end Skip

section Lexeme

variable {p : Char → Bool}

theorem isDigit_semicolon : Text.isDigit ';' = false := by decide

theorem isWordChar_semicolon : isWordChar ';' = false := by decide

theorem takeWhile_closed (hp : p ';' = false) (h : Closed cs) (more : List Char) :
    (cs ++ more).takeWhile p = cs.takeWhile p := by
  induction cs with
  | nil => exact absurd h not_closed_nil
  | cons c cs ih =>
    cases hc : p c with
    | false => simp [hc]
    | true =>
      have hne : c ≠ ';' := by rintro rfl; simp [hp] at hc
      simp [hc, ih (h.tail hne)]

theorem dropWhile_closed (hp : p ';' = false) (h : Closed cs) (more : List Char) :
    Closed (cs.dropWhile p) ∧ (cs ++ more).dropWhile p = cs.dropWhile p ++ more := by
  induction cs with
  | nil => exact absurd h not_closed_nil
  | cons c cs ih =>
    cases hc : p c with
    | false => simpa [hc] using h
    | true =>
      have hne : c ≠ ';' := by rintro rfl; simp [hp] at hc
      simpa [hc] using ih (h.tail hne)

theorem number_closed (h : Closed cs) (more : List Char) : number (cs ++ more) = number cs := by
  obtain ⟨hclosed, hdrop⟩ := dropWhile_closed isDigit_semicolon h more
  unfold number
  rw [takeWhile_closed isDigit_semicolon h more, hdrop]
  cases hds : cs.dropWhile Text.isDigit with
  | nil =>
    rw [hds] at hclosed
    exact absurd hclosed not_closed_nil
  | cons d ds =>
    rw [hds] at hclosed
    by_cases hd : d = '.'
    · subst hd
      have hds : Closed ds := hclosed.tail (by decide)
      simp only [List.cons_append, takeWhile_closed isDigit_semicolon hds more]
    · simp [hd]

theorem lexeme?_closed (h : Closed cs) (more : List Char) : lexeme? (cs ++ more) = lexeme? cs := by
  cases cs with
  | nil => exact absurd h not_closed_nil
  | cons c cs =>
    have hnumber := number_closed h more
    have hword := takeWhile_closed isWordChar_semicolon h more
    rw [List.cons_append] at hnumber hword ⊢
    simp only [lexeme?, hnumber, hword]
    cases cs with
    | cons d cs => rfl
    | nil =>
      obtain ⟨rfl, -⟩ | h := closed_cons.mp h
      · cases more with
        | nil => rfl
        | cons d more => simp [pairSymbol?]
      · exact absurd h not_closed_nil

theorem number_begins (hc : Text.isDigit c = true) (cs : List Char) :
    (number (c :: cs)).2 <+: c :: cs ∧ (number (c :: cs)).2 ≠ [] := by
  have hsplit := List.takeWhile_append_dropWhile (p := Text.isDigit) (l := c :: cs)
  have hne : (c :: cs).takeWhile Text.isDigit ≠ [] := by simp [hc]
  unfold number
  split
  · rename_i rest hrest
    have hplaces := List.takeWhile_append_dropWhile (p := Text.isDigit) (l := rest)
    split
    · exact ⟨ List.takeWhile_prefix _, hne⟩
    · refine ⟨⟨rest.dropWhile Text.isDigit, ?_⟩, by simp [hne]⟩
      rw [hrest] at hsplit
      simp only [List.append_assoc, List.cons_append]
      rw [hplaces, hsplit]
  · exact ⟨ List.takeWhile_prefix _, hne⟩

theorem isWordChar_of_isWordStart (h : isWordStart c = true) : isWordChar c = true := by
  simp only [isWordStart, Bool.or_eq_true] at h
  simp only [isWordChar, Text.isAlphanumeric, Bool.or_eq_true]
  rcases h with h | h
  · exact .inl (.inl (.inl h))
  · exact .inr h

theorem lexeme?_begins (h : lexeme? cs = some (kind, word)) : word <+: cs ∧ word ≠ [] := by
  cases cs with
  | nil => simp [lexeme?] at h
  | cons c cs =>
    simp only [lexeme?] at h
    by_cases hdigit : Text.isDigit c = true
    · rw [if_pos hdigit] at h
      have := number_begins hdigit cs
      rwa [Option.some.inj h] at this
    rw [if_neg hdigit] at h
    by_cases hstart : isWordStart c = true
    · rw [if_pos hstart] at h
      obtain ⟨-, rfl⟩ := Prod.mk.inj (Option.some.inj h)
      exact ⟨ List.takeWhile_prefix _, by simp [isWordChar_of_isWordStart hstart]⟩
    rw [if_neg hstart] at h
    have hsymbol : ∀ cs, (symbol? c).map (fun k => (k, [c])) = some (kind, word) →
        word <+: c :: cs ∧ word ≠ [] := by
      intro cs hs
      obtain ⟨k, -, hk⟩ := Option.map_eq_some_iff.mp hs
      obtain ⟨-, rfl⟩ := Prod.mk.inj hk
      simp
    cases cs with
    | nil => exact hsymbol [] h
    | cons d cs =>
      simp only at h
      cases hpair : pairSymbol? c d with
      | none =>
        rw [hpair] at h
        exact hsymbol (d :: cs) h
      | some k =>
        rw [hpair] at h
        obtain ⟨-, rfl⟩ := Prod.mk.inj (Option.some.inj h)
        simp

theorem symbol?_ne_eof : symbol? c ≠ some .eof := by
  unfold symbol?
  split <;> simp

theorem pairSymbol?_ne_eof : pairSymbol? c d ≠ some .eof := by
  unfold pairSymbol?
  split <;> simp

theorem wordKind_cases (word : List Char) :
    wordKind word = .ident ∨ (String.ofList word, wordKind word) ∈ keywords := by
  unfold wordKind
  cases h : keywords.lookup (String.ofList word) with
  | none => exact .inl rfl
  | some k =>
    obtain ⟨front, back, hkeys, -⟩ := List.lookup_eq_some_iff.mp h
    exact .inr (by simp [hkeys])

theorem wordKind_ne_eof (word : List Char) : wordKind word ≠ .eof := by
  have hall : ∀ b ∈ keywords, b.2 ≠ TokenKind.eof := by decide
  rcases wordKind_cases word with h | h
  · simp [h]
  · exact hall _ h

theorem lexeme?_ne_eof (h : lexeme? cs = some (kind, word)) : kind ≠ .eof := by
  rintro rfl
  cases cs with
  | nil => simp [lexeme?] at h
  | cons c cs =>
    simp only [lexeme?] at h
    by_cases hdigit : Text.isDigit c = true
    · rw [if_pos hdigit, Option.some.injEq] at h
      have hkind := congrArg Prod.fst h
      unfold number at hkind
      split at hkind
      · split at hkind <;> simp at hkind
      · simp at hkind
    rw [if_neg hdigit] at h
    by_cases hstart : isWordStart c = true
    · rw [if_pos hstart] at h
      exact wordKind_ne_eof _ (Prod.mk.inj (Option.some.inj h)).1
    rw [if_neg hstart] at h
    cases cs with
    | nil => simp [symbol?_ne_eof] at h
    | cons d cs =>
      simp only at h
      cases hpair : pairSymbol? c d with
      | none => simp [hpair, symbol?_ne_eof] at h
      | some k =>
        rw [hpair] at h
        obtain ⟨rfl, -⟩ := Prod.mk.inj (Option.some.inj h)
        exact pairSymbol?_ne_eof hpair

end Lexeme

section Lexing

variable {file : Option String} {n : Nat} {p : Cursor} {ts : List Token}
  {words words' : List (TokenKind × String)}

theorem closed_drop (h : Closed cs) (hword : word <+: cs) :
    cs.drop word.length = [] ∨ Closed (cs.drop word.length) := by
  obtain ⟨tail, rfl⟩ := hword
  rw [List.drop_left]
  cases tail with
  | nil => exact .inl rfl
  | cons c tail =>
    exact .inr (List.suffix_of_suffix_length_le h (List.suffix_append _ _) (by simp))

theorem length_drop_lt (h : lexeme? cs = some (kind, word)) :
    (cs.drop word.length).length < cs.length := by
  obtain ⟨hpre, hne⟩ := lexeme?_begins h
  have hlen := hpre.length_le
  have hpos := List.length_pos_iff.mpr hne
  rw [List.length_drop]
  omega

theorem spells_of_lexFrom (hcs : cs = [] ∨ Closed cs) (hn : cs.length < n)
    (h : lexFrom file n p cs = .ok ts) :
    ∃ words, Spells cs words ∧ ts.map bare = words ++ [ending] := by
  induction n generalizing p cs ts with
  | zero => omega
  | succ n ih =>
    have hskips : ∀ {q rest}, skip 0 p p cs = .ok (q, rest) → SkipsTo cs rest := by
      intro q rest hskip
      rcases hcs with rfl | hcs
      · obtain ⟨-, rfl⟩ := Prod.mk.inj (Except.ok.inj hskip)
        exact skipsTo_nil
      · exact skipsTo_of_skip hcs hskip
    rw [lexFrom] at h
    cases hskip : skip 0 p p cs with
    | error opened => simp [hskip] at h
    | ok r =>
      obtain ⟨q, rest⟩ := r
      have hrest := hskips hskip
      simp only [hskip] at h
      cases rest with
      | nil =>
        obtain rfl := Except.ok.inj h
        exact ⟨[], .nil hrest, rfl⟩
      | cons c rest =>
        simp only at h
        cases hlex : lexeme? (c :: rest) with
        | none => simp [hlex] at h
        | some r =>
          obtain ⟨kind, word⟩ := r
          have hlt := length_drop_lt hlex
          have hle := hrest.length_le
          -- A word ends at the last semicolon if not before it.
          have htail : (c :: rest).drop word.length = [] ∨
              Closed ((c :: rest).drop word.length) := by
            rcases hcs with rfl | hcs
            · simp at hle
            · exact closed_drop (hrest.closed hcs) (lexeme?_begins hlex).1
          simp only [hlex] at h
          cases hrec : lexFrom file n (q.advanceAll word) ((c :: rest).drop word.length) with
          | error e => simp [hrec] at h
          | ok ts' =>
            simp only [hrec] at h
            obtain rfl := Except.ok.inj h
            obtain ⟨words, hwords, hmap⟩ := ih htail (by omega) hrec
            exact ⟨_, .cons hrest hlex hwords, by simp [hmap]⟩

theorem Spells.lexFrom (h : Spells cs words) (file : Option String) (p : Cursor)
    (hn : cs.length < n) :
    ∃ ts, Token.lexFrom file n p cs = .ok ts ∧ ts.map bare = words ++ [ending] := by
  induction h generalizing n p with
  | nil hskip =>
    obtain ⟨q, hq⟩ := hskip p p
    cases n with
    | zero => omega
    | succ n => exact ⟨[placed q .eof []], by simp only [Token.lexFrom, hq], rfl⟩
  | @cons cs rest kind word words hskip hlex _ ih =>
    obtain ⟨q, hq⟩ := hskip p p
    have hlt := length_drop_lt hlex
    have hle := hskip.length_le
    cases n with
    | zero => omega
    | succ n =>
      obtain ⟨ts, hts, hmap⟩ := ih (n := n) (q.advanceAll word) (by omega)
      refine ⟨placed q kind word :: ts, ?_, by simp [hmap]⟩
      cases rest with
      | nil => simp [lexeme?] at hlex
      | cons c rest => simp only [Token.lexFrom, hq, hlex, hts]

theorem spells_nil_iff : Spells [] words ↔ words = [] := by
  constructor
  · intro h
    cases h with
    | nil => rfl
    | cons hskip hlex =>
      obtain rfl := hskip.unique skipsTo_nil
      simp [lexeme?] at hlex
  · rintro rfl
    exact .nil skipsTo_nil

theorem Spells.append (h : Spells cs words) (hcs : Closed cs) (hmore : Spells more words') :
    Spells (cs ++ more) (words ++ words') := by
  induction h with
  | nil hskip => exact absurd (hskip.closed hcs) not_closed_nil
  | @cons cs rest kind word words hskip hlex hwords ih =>
    have hrest := hskip.closed hcs
    have hpre := (lexeme?_begins hlex).1
    have htail : Spells (rest.drop word.length ++ more) (words ++ words') := by
      rcases closed_drop hrest hpre with hnil | htail
      · rw [hnil] at hwords ⊢
        obtain rfl := spells_nil_iff.mp hwords
        exact hmore
      · exact ih htail
    refine .cons (hskip.append hcs more) ((lexeme?_closed hrest more).trans hlex) ?_
    rwa [List.drop_append_of_le_length hpre.length_le]

theorem Spells.ne_eof (h : Spells cs words) : ∀ w ∈ words, w.1 ≠ .eof := by
  induction h with
  | nil => simp
  | cons _ hlex _ ih => exact List.forall_mem_cons.mpr ⟨lexeme?_ne_eof hlex, ih⟩

def blankCodes : List Nat :=
  [9, 10, 11, 12, 13, 28, 29, 30, 31, 32, 0x85, 0xa0, 0x1680, 0x2000, 0x2001, 0x2002, 0x2003,
    0x2004, 0x2005, 0x2006, 0x2007, 0x2008, 0x2009, 0x200a, 0x2028, 0x2029, 0x202f, 0x205f, 0x3000]

theorem toNat_mem_blankCodes (h : Text.isBlank c = true) : c.toNat ∈ blankCodes := by
  simp only [Text.isBlank, Bool.or_eq_true, Bool.and_eq_true, decide_eq_true_eq, beq_iff_eq] at h
  simp only [blankCodes, List.mem_cons, List.not_mem_nil, or_false]
  omega

theorem blankCodes_begin_no_word : ∀ n ∈ blankCodes,
    Text.isDigit (Char.ofNat n) = false ∧ isWordStart (Char.ofNat n) = false ∧
      symbol? (Char.ofNat n) = none ∧
        ¬ Char.ofNat n ∈ ['+', ':', '-', '!', '<', '>', '(', ';'] := by
  decide +kernel

theorem pairSymbol?_eq_none (h : ¬ c ∈ ['+', ':', '-', '!', '<', '>', '(', ';']) (d : Char) :
    pairSymbol? c d = none := by
  unfold pairSymbol?
  split <;> simp_all

theorem lexeme?_blank (h : Text.isBlank c = true) (cs : List Char) : lexeme? (c :: cs) = none := by
  obtain ⟨hdigit, hstart, hsymbol, hpair⟩ :=
    blankCodes_begin_no_word c.toNat (toNat_mem_blankCodes h)
  rw [Char.ofNat_toNat] at hdigit hstart hsymbol hpair
  simp only [lexeme?, hdigit, hstart, hsymbol]
  cases cs with
  | nil => simp
  | cons d cs => simp [pairSymbol?_eq_none hpair]

theorem ne_of_blank (h : Text.isBlank c = true) : c ≠ ';' ∧ c ≠ '(' := by
  constructor <;> rintro rfl <;> simp [Text.isBlank] at h

theorem Spells.of_blank (h : Spells (c :: cs) words) (hcs : Closed (c :: cs))
    (hc : Text.isBlank c = true) : Spells cs words := by
  obtain ⟨hsemi, hparen⟩ := ne_of_blank hc
  cases h with
  | nil hskip => exact absurd (hskip.closed hcs) not_closed_nil
  | cons hskip hlex hwords =>
    have hspace : isSpace c = true := by
      by_contra hspace
      have hstay : SkipsTo (c :: cs) (c :: cs) := fun opened p =>
        ⟨p, skip_word (Bool.eq_false_iff.mpr hspace) hparen opened p cs⟩
      obtain rfl := hskip.unique hstay
      simp [lexeme?_blank hc] at hlex
    obtain ⟨q, hq⟩ := hskip {} {}
    rw [skip_space hspace] at hq
    exact .cons (skipsTo_of_skip (hcs.tail hsemi) hq) hlex hwords

theorem Spells.dropWhile_blank (h : Spells cs words) (hcs : Closed cs) :
    Spells (cs.dropWhile Text.isBlank) words := by
  induction cs with
  | nil => exact h
  | cons c cs ih =>
    cases hc : Text.isBlank c with
    | false => simpa [hc] using h
    | true =>
      have hrest := ih (h.of_blank hcs hc) (hcs.tail (ne_of_blank hc).1)
      simpa [hc] using hrest

end Lexing

end Token

end Minifun
