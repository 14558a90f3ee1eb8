import Minifun.Proofs.Token.Layout

/-! # Spelling tokens again

A token does not depend on what stands around it in the text: it is read again from its own
characters if a blank or nothing follows them. The texts of the tokens of a text with single blanks
between them therefore have the same kinds and texts of tokens again.
-/

namespace Minifun

namespace Token

/-- The texts of tokens with single blanks between them. The end of the text is not written. -/
def respelling (ts : List Token) : String :=
  " ".intercalate ((ts.filter (·.kind ≠ .eof)).map (·.text))

def Apart (cs : List Char) : Prop :=
  ∀ c ∈ cs.head?, c = ' '

section Lexemes

variable {c d : Char} {cs ds es word after after' : List Char} {kind : TokenKind}

theorem apart_nil : Apart [] := by
  simp [Apart]

theorem apart_space (cs : List Char) : Apart (' ' :: cs) := by
  simp [Apart]

theorem Apart.cases (h : Apart cs) : cs = [] ∨ ∃ rest, cs = ' ' :: rest := by
  cases cs with
  | nil => exact .inl rfl
  | cons c rest =>
    obtain rfl := h c rfl
    exact .inr ⟨rest, rfl⟩

theorem Apart.takeWhile {p : Char → Bool} (hp : p ' ' = false) (hall : ∀ d ∈ ds, p d = true)
    (h : Apart after) :
    (ds ++ after).takeWhile p = ds ∧ (ds ++ after).dropWhile p = after := by
  rw [List.takeWhile_append_of_pos hall, List.dropWhile_append_of_pos hall]
  rcases h.cases with rfl | ⟨rest, rfl⟩ <;> simp [hp]

theorem number_whole (hds : ∀ d ∈ ds, Text.isDigit d = true) (h : Apart after) :
    number (ds ++ after) = (.int, ds) := by
  obtain ⟨htake, hdrop⟩ := h.takeWhile (by decide) hds
  unfold number
  rw [htake, hdrop]
  rcases h.cases with rfl | ⟨rest, rfl⟩
  · rfl
  · simp

theorem number_point (hds : ∀ d ∈ ds, Text.isDigit d = true) (hne : es ≠ [])
    (hes : ∀ e ∈ es, Text.isDigit e = true) (h : Apart after) :
    number (ds ++ '.' :: es ++ after) = (.real, ds ++ '.' :: es) := by
  have hpoint : Text.isDigit '.' = false := by decide
  obtain ⟨htake, -⟩ := h.takeWhile (by decide) hes
  unfold number
  rw [List.append_assoc, List.cons_append, List.takeWhile_append_of_pos hds,
    List.dropWhile_append_of_pos hds]
  simp [hpoint, htake]

theorem number_kind (cs : List Char) : (number cs).1 = .int ∨ (number cs).1 = .real := by
  unfold number
  split
  · split <;> simp
  · simp

theorem number_apart (hc : Text.isDigit c = true) (h : number (c :: cs) = (kind, word))
    (hafter : Apart after) : number (word ++ after) = (kind, word) := by
  obtain ⟨-, -, hlexeme, -⟩ := number_complete hc h
  have hkind : kind = .int ∨ kind = .real := by simpa [h] using number_kind (c :: cs)
  cases hlexeme with
  | int _ hds => exact number_whole hds hafter
  | real _ hds hne hes => exact number_point hds hne hes hafter
  | word =>
    obtain ⟨hint, hreal, -⟩ := wordKinds_apart (wordKind_mem _)
    exact (hkind.elim hint hreal).elim
  | single hs =>
    obtain ⟨hint, hreal, -⟩ := symbol?_kind hs
    exact (hkind.elim hint hreal).elim
  | pair hs =>
    obtain ⟨hint, hreal, -⟩ := pairSymbol?_kind hs
    exact (hkind.elim hint hreal).elim

theorem pairSymbol?_space : pairSymbol? c ' ' = none := by
  unfold pairSymbol?
  split <;> simp_all

theorem lexeme?_apart (h : lexeme? cs = some (kind, word)) (hafter : Apart after) :
    lexeme? (word ++ after) = some (kind, word) := by
  obtain ⟨hbegins, hne⟩ := lexeme?_begins h
  obtain ⟨c, word, rfl⟩ := List.exists_cons_of_ne_nil hne
  obtain ⟨rest, rfl⟩ := hbegins
  rw [List.cons_append] at h ⊢
  simp only [lexeme?] at h ⊢
  by_cases hdigit : Text.isDigit c = true
  · rw [if_pos hdigit] at h ⊢
    rw [← List.cons_append, number_apart hdigit (Option.some.inj h) hafter]
  rw [if_neg hdigit] at h ⊢
  by_cases hstart : isWordStart c = true
  · rw [if_pos hstart] at h ⊢
    obtain ⟨hkind, hword⟩ := Prod.mk.inj (Option.some.inj h)
    have hall : ∀ d ∈ c :: word, isWordChar d = true := by
      rw [← hword]
      exact fun d hd => List.mem_takeWhile_imp hd
    rw [← List.cons_append, (hafter.takeWhile (by decide) hall).1, ← hkind, hword]
  rw [if_neg hstart] at h ⊢
  cases word with
  | nil =>
    have hsymbol : (symbol? c).map (fun k => (k, [c])) = some (kind, [c]) := by
      cases rest with
      | nil => exact h
      | cons d rest =>
        simp only [List.nil_append] at h
        cases hpair : pairSymbol? c d <;> simp_all
    rcases hafter.cases with rfl | ⟨rest', rfl⟩
    · exact hsymbol
    · simpa [pairSymbol?_space] using hsymbol
  | cons d word =>
    simp only [List.cons_append] at h ⊢
    cases hpair : pairSymbol? c d with
    | none => simp [hpair] at h
    | some k => simpa [hpair] using h

theorem Fresh.apart (h : Fresh (word ++ after)) (hne : word ≠ []) (hafter : Apart after') :
    Fresh (word ++ after') := by
  constructor
  · rw [List.head?_append_of_ne_nil _ hne]
    exact (h.front hne).space
  · intro hcomment
    obtain ⟨c, word, rfl⟩ := List.exists_cons_of_ne_nil hne
    cases word with
    | nil => rcases hafter.cases with rfl | ⟨rest, rfl⟩ <;> simp at hcomment
    | cons d word => exact h.comment (pair_prefix_iff.mpr (pair_prefix_iff.mp hcomment))

end Lexemes

section Respelling

variable {cs : List Char} {words : List (TokenKind × String)} {file : Option String} {n : Nat}
  {p : Cursor} {ts : List Token}

def spaced (words : List (TokenKind × String)) : List Char :=
  [' '].intercalate (words.map fun w => w.2.toList)

theorem Spells.space (h : Spells cs words) : Spells (' ' :: cs) words := by
  have hskips : ∀ {rest}, SkipsTo cs rest → SkipsTo (' ' :: cs) rest := by
    intro rest hrest opened p
    rw [skip_space (by decide)]
    exact hrest opened _
  cases h with
  | nil hskip => exact .nil (hskips hskip)
  | cons hskip hlex hwords => exact .cons (hskips hskip) hlex hwords

theorem spaced_cons (w : TokenKind × String) (h : Spells (spaced words) words) :
    ∃ after, spaced (w :: words) = w.2.toList ++ after ∧ Apart after ∧ Spells after words := by
  cases words with
  | nil => exact ⟨[], by simp [spaced], apart_nil, h⟩
  | cons w' words =>
    exact ⟨' ' :: spaced (w' :: words), by simp [spaced], apart_space _, h.space⟩

theorem spells_spaced (hn : cs.length < n) (h : lexFrom file n p cs = .ok ts) :
    ∃ words, ts.map bare = words ++ [ending] ∧ Spells (spaced words) words := by
  induction n generalizing p cs ts with
  | zero => omega
  | succ n ih =>
    rcases lexFrom_cases h with ⟨-, rfl⟩ |
      ⟨gap, kind, word, after, ts', rfl, -, hfresh, hlex, hword, -, -, hrec, rfl⟩
    · exact ⟨[], rfl, .nil skipsTo_nil⟩
    · have hpos := List.length_pos_iff.mpr hword
      simp only [List.length_append] at hn
      obtain ⟨words, hts, hspells⟩ := ih (by omega) hrec
      obtain ⟨after', hspaced, hapart, hafter⟩ :=
        spaced_cons (kind, String.ofList word) hspells
      refine ⟨(kind, String.ofList word) :: words, by simp [hts], ?_⟩
      rw [hspaced, String.toList_ofList]
      have hskips : SkipsTo (word ++ after') (word ++ after') :=
        fun opened p => ⟨p, (hfresh.apart hword hapart).skip opened p⟩
      refine .cons hskips (lexeme?_apart hlex hapart) ?_
      rwa [List.drop_left]

theorem toList_respelling (h : ts.map bare = words ++ [ending]) (hwords : ∀ w ∈ words, w.1 ≠ .eof) :
    (respelling ts).toList = spaced words := by
  have htexts : ((ts.filter (·.kind ≠ .eof)).map (·.text)) = words.map (·.2) := by
    calc ((ts.filter (·.kind ≠ .eof)).map (·.text))
        = ((ts.map bare).filter (·.1 ≠ .eof)).map (·.2) := by
          rw [List.filter_map, List.map_map]
          rfl
      _ = words.map (·.2) := by
          rw [h, List.filter_append, List.filter_eq_self.mpr (by simpa using hwords)]
          simp [ending]
  rw [respelling, htexts, String.toList_intercalate, spaced, List.map_map]
  rfl

/-- The texts of the tokens of a text, with single blanks between them, can be read, and have tokens
of the same kinds and with the same texts. -/
theorem lex_respelling {source : String} (h : lex source file = .ok ts) (file' : Option String) :
    ∃ ts', lex (respelling ts) file' = .ok ts' ∧ ts'.map bare = ts.map bare := by
  obtain ⟨words, hts, hspells⟩ := spells_spaced (Nat.lt_succ_self _) h
  have htext := toList_respelling hts hspells.ne_eof
  obtain ⟨ts', hts', hbare⟩ := hspells.lexFrom file' {} (Nat.lt_succ_self _)
  refine ⟨ts', ?_, hbare.trans hts.symm⟩
  rw [lex, htext]
  exact hts'

/-- The comment goes, and what stood close together stands apart. -/
theorem lex_respelling_dense :
    lex "a1(* (* *) *)++b(2.5)->x1-2" none = .ok
        [⟨.ident, "a1", 1, 1⟩, ⟨.concat, "++", 1, 14⟩, ⟨.ident, "b", 1, 16⟩, ⟨.lparen, "(", 1, 17⟩,
          ⟨.real, "2.5", 1, 18⟩, ⟨.rparen, ")", 1, 21⟩, ⟨.arrow, "->", 1, 22⟩,
          ⟨.ident, "x1", 1, 24⟩, ⟨.minus, "-", 1, 26⟩, ⟨.int, "2", 1, 27⟩, ⟨.eof, "", 1, 28⟩] ∧
      ∃ ts', lex "a1 ++ b ( 2.5 ) -> x1 - 2" none = .ok ts' ∧
        ts'.map bare = [(.ident, "a1"), (.concat, "++"), (.ident, "b"), (.lparen, "("),
          (.real, "2.5"), (.rparen, ")"), (.arrow, "->"), (.ident, "x1"), (.minus, "-"),
          (.int, "2"), (.eof, "")] := by
  have h : lex "a1(* (* *) *)++b(2.5)->x1-2" none = .ok
      [⟨.ident, "a1", 1, 1⟩, ⟨.concat, "++", 1, 14⟩, ⟨.ident, "b", 1, 16⟩, ⟨.lparen, "(", 1, 17⟩,
        ⟨.real, "2.5", 1, 18⟩, ⟨.rparen, ")", 1, 21⟩, ⟨.arrow, "->", 1, 22⟩,
        ⟨.ident, "x1", 1, 24⟩, ⟨.minus, "-", 1, 26⟩, ⟨.int, "2", 1, 27⟩, ⟨.eof, "", 1, 28⟩] := by
    decide +kernel
  exact ⟨h, lex_respelling h none⟩

end Respelling

end Token

end Minifun
