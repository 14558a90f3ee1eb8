import Minifun.Proofs.Token.Layout

/-! # Texts with margins

A text keeps its words when it gets a margin: blanks before it move all its places in the same way,
and blanks and semicolons behind it belong to none of its words. Nor does a margin end a comment, so
an error of the text stays the same error.
-/

namespace Minifun

namespace Token

structure Margin (cs : List Char) : Prop where
  ne_nil : cs ≠ []
  blank : ∀ c ∈ cs, Text.isBlank c = true ∨ c = ';'

section Characters

variable {c : Char} {cs tail : List Char}

theorem marginCodes_apart : ∀ n ∈ 59 :: blankCodes,
    Text.isDigit (Char.ofNat n) = false ∧ isWordChar (Char.ofNat n) = false ∧
      ¬ Char.ofNat n ∈ ['(', '*', ')', '.', '+', '=', '>'] := by
  decide +kernel

/-- A character of a margin goes on with no word, and belongs to no sign of a comment. -/
theorem apart_of_margin (h : Text.isBlank c = true ∨ c = ';') :
    Text.isDigit c = false ∧ isWordChar c = false ∧ ¬ c ∈ ['(', '*', ')', '.', '+', '=', '>'] := by
  have hcode : c.toNat ∈ 59 :: blankCodes := by
    rcases h with h | rfl
    · exact List.mem_cons_of_mem _ (toNat_mem_blankCodes h)
    · exact List.mem_cons_self
  simpa only [Char.ofNat_toNat] using marginCodes_apart c.toNat hcode

theorem Margin.cons (h : Margin tail) :
    ∃ c rest, tail = c :: rest ∧ (Text.isBlank c = true ∨ c = ';') := by
  obtain ⟨c, rest, rfl⟩ := List.exists_cons_of_ne_nil h.ne_nil
  exact ⟨c, rest, rfl, h.blank c List.mem_cons_self⟩

theorem Margin.takeWhile {p : Char → Bool} (h : Margin tail)
    (hp : ∀ c, Text.isBlank c = true ∨ c = ';' → p c = false) (cs : List Char) :
    (cs ++ tail).takeWhile p = cs.takeWhile p ∧
      (cs ++ tail).dropWhile p = cs.dropWhile p ++ tail := by
  obtain ⟨c, rest, rfl, hc⟩ := h.cons
  induction cs with
  | nil => simp [hp c hc]
  | cons d cs ih =>
    cases hd : p d with
    | false => simp [hd]
    | true => simpa [hd] using ih

theorem number_margin (h : Margin tail) (cs : List Char) : number (cs ++ tail) = number cs := by
  have hdigit := fun c hc => (apart_of_margin (c := c) hc).1
  obtain ⟨htake, hdrop⟩ := h.takeWhile hdigit cs
  unfold number
  rw [htake, hdrop]
  cases hds : cs.dropWhile Text.isDigit with
  | nil =>
    obtain ⟨c, rest, rfl, hc⟩ := h.cons
    have hpoint : c ≠ '.' := by
      rintro rfl
      exact (apart_of_margin hc).2.2 (by decide)
    simp [hpoint]
  | cons d ds =>
    by_cases hd : d = '.'
    · subst hd
      simp only [List.cons_append, (h.takeWhile hdigit ds).1]
    · simp [hd]

theorem pairSymbol?_margin (hc : Text.isBlank c = true ∨ c = ';') (d : Char) :
    pairSymbol? d c = none := by
  have hapart := (apart_of_margin hc).2.2
  unfold pairSymbol?
  split <;> simp_all

theorem lexeme?_margin (h : Margin tail) (hne : cs ≠ []) : lexeme? (cs ++ tail) = lexeme? cs := by
  obtain ⟨c, cs, rfl⟩ := List.exists_cons_of_ne_nil hne
  have hnumber := number_margin h (c :: cs)
  have hword := (h.takeWhile (fun c hc => (apart_of_margin hc).2.1) (c :: cs)).1
  rw [List.cons_append] at hnumber hword ⊢
  simp only [lexeme?, hnumber, hword]
  cases cs with
  | cons d cs => rfl
  | nil =>
    obtain ⟨d, rest, rfl, hd⟩ := h.cons
    simp [pairSymbol?_margin hd]

end Characters

section Skipping

variable {tail : List Char} {opened p : Cursor}

theorem skip_opened (opened opened' p : Cursor) (cs : List Char) :
    skip 0 opened p cs = skip 0 opened' p cs := by
  induction cs generalizing p with
  | nil => rfl
  | cons c cs ih =>
    cases cs with
    | nil => rfl
    | cons d cs => simp only [skip, ih, if_true]

theorem skip_margin_open {depth : Nat} (hdepth : depth ≠ 0) (opened p : Cursor)
    (h : ∀ c ∈ tail, Text.isBlank c = true ∨ c = ';') :
    skip depth opened p tail = .error opened := by
  induction tail generalizing p with
  | nil => rw [skip, if_neg hdepth]
  | cons c tail ih =>
    obtain ⟨hc, htail⟩ := List.forall_mem_cons.mp h
    have hapart := (apart_of_margin hc).2.2
    have hopen : c ≠ '(' := by rintro rfl; exact hapart (by decide)
    have hclose : c ≠ '*' := by rintro rfl; exact hapart (by decide)
    cases tail with
    | nil => rw [skip, if_neg hdepth]
    | cons d tail =>
      rw [skip, if_neg (by simp [hopen]), if_neg hdepth, if_neg (by simp [hclose])]
      exact ih _ htail

/-- What skipping does with a text, wherever the text stands and whatever margin it has. -/
inductive Skips (depth : Nat) (u : List Char) : Prop where
  /-- A comment that began before the text does not end. -/
  | unended : depth ≠ 0 →
      (∀ opened p tail, Margin tail → skip depth opened p (u ++ tail) = .error opened) →
      Skips depth u
  /-- A comment of the text does not end. -/
  | comment (front : List Char) : front <+: u → front ≠ u →
      (∀ opened p tail, Margin tail →
        skip depth opened p (u ++ tail) = .error (p.advanceAll front)) → Skips depth u
  /-- A word follows. -/
  | word (gap rest : List Char) : u = gap ++ rest → rest ≠ [] →
      (∀ opened p tail, Margin tail →
        skip depth opened p (u ++ tail) = .ok (p.advanceAll gap, rest ++ tail)) → Skips depth u
  /-- Nothing follows but the margin. -/
  | through :
      (∀ opened opened' p tail, Margin tail →
        skip depth opened p (u ++ tail) = skip 0 opened' (p.advanceAll u) tail) → Skips depth u

theorem Skips.push {depth depth' : Nat} {u : List Char} (x : List Char)
    (begun : Cursor → Cursor → Cursor)
    (hbegun : depth' ≠ 0 → (depth ≠ 0 ∧ ∀ opened p, begun opened p = opened) ∨
      (x ≠ [] ∧ ∀ opened p, begun opened p = p))
    (hskip : ∀ opened p tail, Margin tail → skip depth opened p (x ++ u ++ tail) =
      skip depth' (begun opened p) (p.advanceAll x) (u ++ tail))
    (h : Skips depth' u) : Skips depth (x ++ u) := by
  cases h with
  | unended hdepth h =>
    rcases hbegun hdepth with ⟨hdepth', hbefore⟩ | ⟨hx, hhere⟩
    · refine .unended hdepth' fun opened p tail htail => ?_
      rw [hskip _ _ _ htail, h _ _ _ htail, hbefore]
    · refine .comment [] (by simp) (by simp [hx]) fun opened p tail htail => ?_
      rw [hskip _ _ _ htail, h _ _ _ htail, hhere, Cursor.advanceAll_nil]
  | comment front hfront hne h =>
    refine .comment (x ++ front) ((List.prefix_append_right_inj x).mpr hfront)
      (by simpa using hne) fun opened p tail htail => ?_
    rw [hskip _ _ _ htail, h _ _ _ htail, Cursor.advanceAll_append]
  | word gap rest hu hne h =>
    refine .word (x ++ gap) rest (by rw [hu, List.append_assoc]) hne
      fun opened p tail htail => ?_
    rw [hskip _ _ _ htail, h _ _ _ htail, Cursor.advanceAll_append]
  | through h =>
    refine .through fun opened opened' p tail htail => ?_
    rw [hskip _ _ _ htail, h _ opened' _ _ htail, Cursor.advanceAll_append]

theorem skips_nil (depth : Nat) : Skips depth [] := by
  by_cases hdepth : depth = 0
  · subst hdepth
    exact .through fun opened opened' p tail _ => skip_opened opened opened' p tail
  · exact .unended hdepth fun opened p tail htail => skip_margin_open hdepth opened p htail.blank

/-- A margin is no part of a sign of a comment, so the last character is skipped by itself. -/
theorem skip_last {depth : Nat} (h : Margin tail) (opened p : Cursor) (c : Char) :
    skip depth opened p (c :: tail) =
      if depth = 0 then
        if isSpace c then skip 0 opened (p.advance c) tail else .ok (p, c :: tail)
      else skip depth opened (p.advance c) tail := by
  obtain ⟨d, rest, rfl, hd⟩ := h.cons
  have hapart := (apart_of_margin hd).2.2
  have hopen : d ≠ '*' := by rintro rfl; exact hapart (by decide)
  have hclose : d ≠ ')' := by rintro rfl; exact hapart (by decide)
  rw [skip, if_neg (by simp [hopen]), if_neg (c := (c = '*' && d = ')') = true) (by simp [hclose])]

/-- What skipping does with a text does not depend on where it stands, nor on its margin. -/
theorem skips (depth : Nat) (u : List Char) : Skips depth u := by
  induction depth, ({} : Cursor), ({} : Cursor), u using skip.induct with
  | case1 | case2 => exact skips_nil _
  | case3 opened p c hc =>
    refine .push [c] (fun opened _ => opened) (fun h => absurd rfl h) ?_
      (skips_nil 0)
    intro opened p tail htail
    exact (skip_last htail opened p c).trans (by rw [if_pos rfl, if_pos hc]; rfl)
  | case4 opened p c hc =>
    refine .word [] [c] rfl (List.cons_ne_nil c []) fun opened p tail htail => ?_
    exact (skip_last htail opened p c).trans (by rw [if_pos rfl, if_neg hc]; rfl)
  | case5 depth opened p c hdepth =>
    refine .push [c] (fun opened _ => opened)
      (fun _ => .inl ⟨hdepth, fun _ _ => rfl⟩) ?_ (skips_nil depth)
    intro opened p tail htail
    exact (skip_last htail opened p c).trans (if_neg hdepth)
  | case6 depth opened p c d cs hcd ih =>
    refine .push [c, d] (fun opened p => if depth = 0 then p else opened)
      (fun _ => ?_) ?_ ih
    · by_cases hdepth : depth = 0
      · exact .inr ⟨List.cons_ne_nil _ _, fun _ _ => if_pos hdepth⟩
      · exact .inl ⟨hdepth, fun _ _ => if_neg hdepth⟩
    · intro opened p tail _
      change skip depth opened p (c :: d :: (cs ++ tail)) = _
      rw [skip, if_pos hcd]
      rfl
  | case7 opened p c d cs hcd hc ih =>
    refine .push [c] (fun opened _ => opened) (fun h => absurd rfl h) ?_ ih
    intro opened p tail _
    change skip _ opened p (c :: d :: (cs ++ tail)) = _
    rw [skip, if_neg hcd, if_pos rfl, if_pos hc]
    rfl
  | case8 opened p c d cs hcd hc =>
    refine .word [] (c :: d :: cs) rfl (List.cons_ne_nil c _) fun opened p tail _ => ?_
    change skip _ opened p (c :: d :: (cs ++ tail)) = _
    rw [skip, if_neg hcd, if_pos rfl, if_neg hc]
    rfl
  | case9 depth opened p c d cs hcd hdepth hclose ih =>
    refine .push [c, d] (fun opened _ => opened)
      (fun _ => .inl ⟨hdepth, fun _ _ => rfl⟩) ?_ ih
    intro opened p tail _
    change skip _ opened p (c :: d :: (cs ++ tail)) = _
    rw [skip, if_neg hcd, if_neg hdepth, if_pos hclose]
    rfl
  | case10 depth opened p c d cs hcd hdepth hclose ih =>
    refine .push [c] (fun opened _ => opened)
      (fun _ => .inl ⟨hdepth, fun _ _ => rfl⟩) ?_ ih
    intro opened p tail _
    change skip _ opened p (c :: d :: (cs ++ tail)) = _
    rw [skip, if_neg hcd, if_neg hdepth, if_neg hclose]
    rfl

end Skipping

section Lexing

variable {file : Option String} {n : Nat} {p q : Cursor} {c : Char} {cs ds : List Char}

/-- A word in a text: the characters before it, its kind and its own characters. -/
structure Occurrence where
  before : List Char
  kind : TokenKind
  word : List Char

def Occurrence.token (p : Cursor) (w : Occurrence) : Token :=
  placed (p.advanceAll w.before) w.kind w.word

def Occurrence.push (x : List Char) (w : Occurrence) : Occurrence :=
  { w with before := x ++ w.before }

def errorAt (file : Option String) (cause : LexCause) (p : Cursor) : LexError :=
  ⟨cause, ⟨p.line, p.column, file⟩⟩

theorem lexFrom_of_skip (h : skip 0 p p cs = skip 0 q q ds) :
    lexFrom file (n + 1) p cs = lexFrom file (n + 1) q ds := by
  rw [lexFrom, lexFrom, h]

theorem lexFrom_unended {opened : Cursor} (h : skip 0 p p cs = .error opened) :
    lexFrom file (n + 1) p cs = .error (errorAt file .unterminatedComment opened) := by
  rw [lexFrom, h]
  rfl

theorem lexFrom_unexpected (hskip : skip 0 p p cs = .ok (q, c :: ds))
    (hlex : lexeme? (c :: ds) = none) :
    lexFrom file (n + 1) p cs = .error (errorAt file (.unexpected c) q) := by
  simp only [lexFrom, hskip, hlex]
  rfl

theorem lexFrom_word {kind : TokenKind} {word after : List Char}
    (hskip : skip 0 p p cs = .ok (q, word ++ after))
    (hlex : lexeme? (word ++ after) = some (kind, word)) :
    lexFrom file (n + 1) p cs =
      (lexFrom file n (q.advanceAll word) after).map (placed q kind word :: ·) := by
  obtain ⟨c, rest, hcons⟩ := List.exists_cons_of_ne_nil (l := word ++ after) (by
    intro hnil
    simp [hnil, lexeme?] at hlex)
  have hdrop : (c :: rest).drop word.length = after := by rw [← hcons, List.drop_left]
  rw [hcons] at hskip hlex
  simp only [lexFrom, hskip, hlex, hdrop]
  cases lexFrom file n (q.advanceAll word) after <;> rfl

/-- What reading does with a text, wherever the text stands and whatever margin it has. -/
inductive Lexes (file : Option String) (u : List Char) : Prop where
  | fails (cause : LexCause) (front : List Char) : front <+: u → front ≠ u →
      (∀ n p tail, Margin tail → (u ++ tail).length < n →
        lexFrom file n p (u ++ tail) = .error (errorAt file cause (p.advanceAll front))) →
      Lexes file u
  | words (ws : List Occurrence) : (∀ w ∈ ws, w.before <+: u ∧ w.before ≠ u) →
      (∀ n p tail, Margin tail → (u ++ tail).length < n → ∃ m, tail.length < m ∧
        lexFrom file n p (u ++ tail) =
          (lexFrom file m (p.advanceAll u) tail).map (ws.map (·.token p) ++ ·)) →
      Lexes file u

theorem Lexes.push {gap word after : List Char} {kind : TokenKind}
    (hskip : ∀ opened p tail, Margin tail → skip 0 opened p (gap ++ (word ++ after) ++ tail) =
      .ok (p.advanceAll gap, word ++ after ++ tail))
    (hlex : lexeme? (word ++ after) = some (kind, word)) (hword : word ≠ [])
    (h : Lexes file after) : Lexes file (gap ++ (word ++ after)) := by
  have hpos := List.length_pos_iff.mpr hword
  have hstep : ∀ n p tail, Margin tail →
      lexFrom file (n + 1) p (gap ++ (word ++ after) ++ tail) =
        (lexFrom file n (p.advanceAll (gap ++ word)) (after ++ tail)).map
          (placed (p.advanceAll gap) kind word :: ·) := by
    intro n p tail htail
    have hne : word ++ after ≠ [] := by simp [hword]
    rw [Cursor.advanceAll_append]
    apply lexFrom_word
    · rw [hskip _ _ _ htail, List.append_assoc]
    · rw [← List.append_assoc, lexeme?_margin htail hne, hlex]
  cases h with
  | fails cause front hfront hne h =>
    refine .fails cause (gap ++ word ++ front) ?_ ?_ ?_
    · rw [← List.append_assoc]
      exact (List.prefix_append_right_inj _).mpr hfront
    · rw [← List.append_assoc]
      simpa using hne
    · intro n p tail htail hn
      obtain ⟨n, rfl⟩ := Nat.exists_eq_succ_of_ne_zero (Nat.ne_zero_of_lt hn)
      simp only [List.length_append] at hn
      rw [hstep n p tail htail, h n _ tail htail (by simp only [List.length_append]; omega),
        Cursor.advanceAll_append _ (gap ++ word)]
      rfl
  | words ws hws h =>
    refine .words (⟨gap, kind, word⟩ :: ws.map (Occurrence.push (gap ++ word))) ?_ ?_
    · refine List.forall_mem_cons.mpr ⟨⟨List.prefix_append .., by simp [hword]⟩, ?_⟩
      intro w hw
      obtain ⟨w, hmem, rfl⟩ := List.mem_map.mp hw
      obtain ⟨hpre, hne⟩ := hws w hmem
      rw [← List.append_assoc]
      exact ⟨(List.prefix_append_right_inj _).mpr hpre, by simpa [Occurrence.push] using hne⟩
    · intro n p tail htail hn
      obtain ⟨n, rfl⟩ := Nat.exists_eq_succ_of_ne_zero (Nat.ne_zero_of_lt hn)
      simp only [List.length_append] at hn
      obtain ⟨m, hm, hrest⟩ := h n (p.advanceAll (gap ++ word)) tail htail
        (by simp only [List.length_append]; omega)
      refine ⟨m, hm, ?_⟩
      rw [hstep n p tail htail, hrest, ← Cursor.advanceAll_append, List.append_assoc]
      cases lexFrom file m (p.advanceAll (gap ++ (word ++ after))) tail with
      | error e => rfl
      | ok ts => simp [Except.map, Occurrence.token, Function.comp_def, Occurrence.push,
          Cursor.advanceAll_append]

/-- What reading does with a text does not depend on where it stands, nor on its margin. -/
theorem lexes (file : Option String) (u : List Char) : Lexes file u := by
  induction hlen : u.length using Nat.strong_induction_on generalizing u with
  | h len ih =>
    subst hlen
    cases skips 0 u with
    | unended hzero => exact absurd rfl hzero
    | comment front hfront hne h =>
      refine .fails .unterminatedComment front hfront hne fun n p tail htail hn => ?_
      obtain ⟨n, rfl⟩ := Nat.exists_eq_succ_of_ne_zero (Nat.ne_zero_of_lt hn)
      exact lexFrom_unended (h p p tail htail)
    | word gap rest hu hne h =>
      subst hu
      cases hlex : lexeme? rest with
      | none =>
        obtain ⟨c, rest, rfl⟩ := List.exists_cons_of_ne_nil hne
        refine .fails (.unexpected c) gap (List.prefix_append ..) (by simp)
          fun n p tail htail hn => ?_
        obtain ⟨n, rfl⟩ := Nat.exists_eq_succ_of_ne_zero (Nat.ne_zero_of_lt hn)
        exact lexFrom_unexpected (h p p tail htail) ((lexeme?_margin htail hne).trans hlex)
      | some r =>
        obtain ⟨kind, word⟩ := r
        obtain ⟨⟨after, rfl⟩, hword⟩ := lexeme?_begins hlex
        have hpos := List.length_pos_iff.mpr hword
        refine .push h hlex hword (ih after.length ?_ after rfl)
        simp only [List.length_append]
        omega
    | through h =>
      refine .words [] (by simp) fun n p tail htail hn => ⟨n, ?_, ?_⟩
      · simp only [List.length_append] at hn
        omega
      · obtain ⟨n, rfl⟩ := Nat.exists_eq_succ_of_ne_zero (Nat.ne_zero_of_lt hn)
        rw [lexFrom_of_skip (h p (p.advanceAll u) p tail htail)]
        cases lexFrom file (n + 1) (p.advanceAll u) tail <;> rfl

theorem skip_spaces (h : ∀ c ∈ cs, isSpace c = true) (opened p : Cursor) (ds : List Char) :
    skip 0 opened p (cs ++ ds) = skip 0 opened (p.advanceAll cs) ds := by
  induction cs generalizing p with
  | nil => rfl
  | cons c cs ih =>
    obtain ⟨hc, hcs⟩ := List.forall_mem_cons.mp h
    rw [List.cons_append, skip_space hc, ih hcs, Cursor.advanceAll_cons]

theorem lexFrom_spaces (h : ∀ c ∈ cs, isSpace c = true) (ds : List Char) :
    lexFrom file (n + 1) p (cs ++ ds) = lexFrom file (n + 1) (p.advanceAll cs) ds :=
  lexFrom_of_skip ((skip_spaces h p p ds).trans (skip_opened ..))

theorem lexFrom_semicolon (file : Option String) (n : Nat) (p : Cursor) (cs : List Char) :
    lexFrom file (n + 1) p (';' :: cs) =
      (lexFrom file n (p.advance ';') cs).map (placed p .semicolon [';'] :: ·) := by
  have hlex : lexeme? ([';'] ++ cs) = some (.semicolon, [';']) :=
    lexeme?_closed List.suffix_rfl cs
  exact lexFrom_word (skip_word (by decide) (by decide) p p cs) hlex

theorem lexFrom_margin (hcs : ∀ c ∈ cs, isSpace c = true) (hds : ∀ c ∈ ds, isSpace c = true)
    (file : Option String) (hn : (cs ++ ';' :: ds).length < n) (p : Cursor) :
    lexFrom file n p (cs ++ ';' :: ds) = .ok [placed (p.advanceAll cs) .semicolon [';'],
      placed (p.advanceAll (cs ++ ';' :: ds)) .eof []] := by
  simp only [List.length_append, List.length_cons] at hn
  obtain ⟨n, rfl⟩ : ∃ k, n = k + 2 := ⟨n - 2, by omega⟩
  have hend : lexFrom file (n + 1) ((p.advanceAll cs).advance ';') (ds ++ []) =
      .ok [placed (p.advanceAll (cs ++ ';' :: ds)) .eof []] := by
    rw [lexFrom_spaces hds, ← Cursor.advanceAll_cons, ← Cursor.advanceAll_append]
    rfl
  rw [List.append_nil] at hend
  rw [lexFrom_spaces hcs, lexFrom_semicolon, hend]
  rfl

theorem lexFrom_blank (hblank : Text.isBlank c = true) (hspace : isSpace c = false)
    (file : Option String) (n : Nat) (p : Cursor) (cs : List Char) :
    lexFrom file (n + 1) p (c :: cs) = .error (errorAt file (.unexpected c) p) :=
  lexFrom_unexpected (skip_word hspace (ne_of_blank hblank).2 p p cs) (lexeme?_blank hblank cs)

end Lexing

end Token

end Minifun
