import Minifun.Proofs.Program.Acceptance
import Minifun.Proofs.Program.Breakdowns
import Minifun.Proofs.Session.Cutting
import Minifun.Proofs.Token.Layout

/-! # A text as the input of a session

An input gets a semicolon at its end unless it has one there. A text that succeeds as a program has
a semicolon behind its last statement, but a comment may follow, or there is no statement at all.
The semicolon added to such a text stands alone, and no statement begins with it.
-/

namespace Minifun

open Token Parse Program Grammar

namespace Text

variable {cs front final gap : List Char}

theorem dropEndWhile_of_suffix {c : Char} (hc : isBlank c = false) (h : [c] <:+ cs) :
    dropEndWhile isBlank cs = cs := by
  obtain ⟨front, rfl⟩ := h
  simp [dropEndWhile, hc]

theorem dropEndWhile_append (h : ∀ c ∈ gap, isBlank c = true) :
    dropEndWhile isBlank (cs ++ gap) = dropEndWhile isBlank cs := by
  unfold dropEndWhile
  rw [List.reverse_append, List.dropWhile_append_of_pos (by simpa using h)]

theorem isBlank_of_mem {c : Char} (h : c ∈ [' ', '\t', '\r', '\n']) : isBlank c = true := by
  simp only [List.mem_cons, List.not_mem_nil, or_false] at h
  rcases h with rfl | rfl | rfl | rfl <;> decide

theorem gap_dropWhile (h : Gap gap) : Gap (gap.dropWhile isBlank) := by
  induction h with
  | nil => exact .nil
  | space hc _ ih => rwa [List.dropWhile_cons_of_pos (isBlank_of_mem hc)]
  | comment hinner hrest =>
    rw [List.cons_append, List.dropWhile_cons_of_neg (by decide)]
    exact .comment hinner hrest

/-- A text that ends with a gap is left with a gap that ends with a comment, if with any. -/
theorem trim_layout {source : String} (hsource : source.toList = front ++ final)
    (hfront : front = [] ∨ Closed front) (hfinal : Gap final) :
    ∃ gap, (trim source).toList = front.dropWhile isBlank ++ gap ∧ Gap gap ∧
      (gap = [] ∨ [')'] <:+ gap) := by
  have hstart : ∃ gap, source.toList.dropWhile isBlank = front.dropWhile isBlank ++ gap ∧
      Gap gap := by
    rw [hsource]
    rcases hfront with rfl | hclosed
    · exact ⟨_, rfl, gap_dropWhile hfinal⟩
    · exact ⟨final, (dropWhile_closed (by decide) hclosed final).2, hfinal⟩
  obtain ⟨gap, hdrop, hgap⟩ := hstart
  obtain ⟨core, spaces, rfl, hcore, hend, hspaces⟩ := hgap.ends
  refine ⟨core, ?_, hcore, hend⟩
  rw [trim, String.toList_ofList, hdrop, ← List.append_assoc,
    dropEndWhile_append fun c hc => isBlank_of_mem (hspaces c hc)]
  rcases hend with rfl | hend
  · rw [List.append_nil]
    rcases hfront with rfl | hclosed
    · rfl
    · exact dropEndWhile_of_suffix (by decide) (dropWhile_closed (by decide) hclosed []).1
  · exact dropEndWhile_of_suffix (by decide) (hend.trans (List.suffix_append ..))

end Text

namespace Parse

variable {tail ts : List Token} {file : Option String} {fuel n : Nat} {s s' s₂ : TokenStream}
  {es : List Expr}

def Ended (ts : List Token) : Prop :=
  ∀ t rest, t :: rest <:+ ts → (t.kind = .eof ↔ rest = [])

theorem Ended.suffix {ts' : List Token} (h : Ended ts) (hs : ts' <:+ ts) : Ended ts' :=
  fun t rest ht => h t rest (ht.trans hs)

theorem ended_concat {body : List Token} {last : Token} (hlast : last.kind = .eof)
    (hbody : ∀ t ∈ body, t.kind ≠ .eof) : Ended (body ++ [last]) := by
  intro t rest hsuffix
  rcases List.suffix_concat_iff.mp hsuffix with hnil | ⟨us, hus, hfront⟩
  · exact nomatch hnil
  · cases us with
    | nil =>
      obtain ⟨rfl, rfl⟩ := List.cons.inj hus
      simp [hlast]
    | cons u us =>
      obtain ⟨rfl, rfl⟩ := List.cons.inj hus
      simp [hbody t (hfront.subset List.mem_cons_self)]

/-- A statement before the end of a text is read in the same way where the text goes on, and the
texts agree behind its semicolon. -/
theorem statement_before (htail : tail ≠ []) (hended : Ended s.toList)
    (habreast : Abreast tail s.toList s'.toList) {e : Expr} {s₁ : TokenStream}
    (h : statement file fuel s = .ok e s₁) (hsemi : s₁.current.kind = .semicolon)
    (file' : Option String) (d : Nat) :
    ∃ e' s₁', statement file' (fuel + d) s' = .ok e' s₁' ∧ e'.bare = e.bare ∧
      s'.current.kind = s.current.kind ∧ s₁'.current.kind = .semicolon ∧
      Ended s₁.advance.toList ∧ Abreast tail s₁.advance.toList s₁'.advance.toList := by
  have hlocal := local_statement htail file file' fuel d
  have hsuffix := hlocal.suffix h
  have hs₁ : s₁.rest ≠ [] := by
    intro hnil
    have heof := (hended _ _ hsuffix).mpr hnil
    rw [hsemi] at heof
    cases heof
  obtain ⟨e', s₁', he', hbare, habreast₁⟩ := hlocal.follows h hs₁ habreast
  obtain ⟨hfirst, -⟩ := habreast.step (rest_ne_nil_of_suffix hsuffix hs₁)
  obtain ⟨hcurrent, hbehind⟩ := habreast₁.step hs₁
  refine ⟨e', s₁', he', hbare, Token.kind_eq_of_bare hfirst,
    (Token.kind_eq_of_bare hcurrent).trans hsemi, ?_, ?_⟩
  · rw [advance_toList hs₁]
    exact hended.suffix ((List.suffix_cons ..).trans hsuffix)
  · rwa [advance_toList hs₁, advance_toList (hbehind.ne_nil htail)]

theorem statements_before (htail : tail ≠ []) (hended : Ended s.toList)
    (habreast : Abreast tail s.toList s'.toList) (h : statements file fuel n s = .ok es s₂)
    (file' : Option String) (d k : Nat) :
    ∃ es' m, es'.map Term.bare = es.map Term.bare ∧
      statements file' (fuel + d) (n + k) s' =
        (do
          let rest ← statements file' (fuel + d) (m + 1)
          return es' ++ rest) (.ofList tail) := by
  induction es generalizing s s' n with
  | nil =>
    have hlast : s.rest = [] := (hended _ _ (List.suffix_refl _)).mp (eof_of_statements_nil h)
    have hs' : s'.toList = tail := by
      rw [TokenStream.toList, hlast] at habreast
      exact habreast.eq_of_singleton
    cases n with
    | zero => cases h
    | succ n =>
      refine ⟨[], n + k, rfl, ?_⟩
      obtain ⟨t, ts⟩ := s'
      subst hs'
      simp [TokenStream.toList, TokenStream.ofList, Nat.succ_add]
  | cons e es ih =>
    cases n with
    | zero => cases h
    | succ n =>
      have hne : s.current.kind ≠ .eof := by
        intro heof
        rw [statements_of_eof heof] at h
        cases h
      obtain ⟨s₁, he, hsemi, hrest⟩ := (statements_eq_ok_cons_iff hne).mp h
      obtain ⟨e', s₁', he', hbare, hkind, hsemi', hended₁, habreast₁⟩ :=
        statement_before htail hended habreast he hsemi file' d
      obtain ⟨es', m, hbares, hread⟩ := ih hended₁ habreast₁ hrest
      refine ⟨e' :: es', m, by simp [hbare, hbares], ?_⟩
      rw [Nat.succ_add, statements_of_ne_eof (hkind ▸ hne), bind_of_ok he',
        bind_of_ok (expect_eq_ok_iff.mpr ⟨hsemi', rfl, rfl⟩)]
      cases hafter : statements file' (fuel + d) (m + 1) (.ofList tail) with
      | ok rest s₃ =>
        rw [bind_of_ok hafter] at hread ⊢
        exact bind_of_ok hread
      | error err s₃ =>
        rw [bind_of_error hafter] at hread ⊢
        exact bind_of_error hread

theorem expression_unexpected (file : Option String) (n : Nat)
    (hk : s.current.kind ∉ expressionStarts) :
    expression file (n + 6) s = .error ⟨.unexpected s.current.found, s.current.loc file⟩ s := by
  have hfactor : factor file (n + 1) s =
      .error ⟨.unexpected s.current.found, s.current.loc file⟩ s := by
    rw [factor, bind_of_ok (current_eq s)]
    cases hkind : s.current.kind <;> first
      | exact absurd (by rw [hkind]; decide) hk
      | rfl
  have hproduct : product file (n + 2) s =
      .error ⟨.unexpected s.current.found, s.current.loc file⟩ s := by
    rw [product, bind_of_ok (kind_eq s)]
    cases hkind : s.current.kind with
    | notWord => exact absurd (by rw [hkind]; decide) hk
    | _ => exact bind_of_error hfactor
  rw [expression, bind_of_ok (here_eq file s), bind_of_ok (kind_eq s)]
  cases hkind : s.current.kind with
  | letWord | ifWord | fnWord => exact absurd (by rw [hkind]; decide) hk
  | _ =>
    rw [logical, relational, additive]
    exact bind_of_error (bind_of_error (bind_of_error hproduct))

theorem statement_unexpected (file : Option String) (n : Nat) (hk : s.current.kind = .semicolon) :
    statement file (n + 6) s = .error ⟨.unexpected s.current.found, s.current.loc file⟩ s := by
  rw [statement, bind_of_ok (kind_eq s), hk]
  exact expression_unexpected file n (by rw [hk]; decide)

end Parse

theorem Grammar.DerivesProgram.ends {es : List Expr} {ws : List Word} (h : DerivesProgram es ws) :
    ∀ w ∈ ws.getLast?, w.1 = .semicolon := by
  induction h with
  | nil => simp
  | @cons t e es ws us _ _ ih =>
    cases us with
    | nil => simp
    | cons u us => simpa using ih

namespace Program

variable {source : String} {file : Option String} {p : Program} {body body' tail : List Token}
  {last : Token}

/-- A text that is a program ends with its last semicolon and a gap, or is nothing but a gap. -/
theorem parse_front (h : parse source file = .ok p) :
    ∃ front final body last, source.toList = front ++ final ∧ Gap final ∧
      Spells front (body.map Token.bare) ∧ (front = [] ∧ body = [] ∨ Closed front ∧ body ≠ []) ∧
      (∀ t ∈ body, t.kind ≠ .eof) ∧ last.kind = .eof ∧ ofTokens (body ++ [last]) file = .ok p := by
  obtain ⟨ts, hlex, hp⟩ := parse_eq_ok_iff.mp h
  obtain ⟨body, last, rfl, hlast, hbody⟩ := lexFrom_ends hlex
  obtain ⟨front, final, words, hsource, hfinal, hts, hnil, hends, hspells⟩ :=
    lexFrom_front (Nat.lt_succ_self _) hlex
  have hwords : body.map Token.bare = words := by
    rw [List.map_append] at hts
    exact List.append_inj_left' hts rfl
  subst hwords
  have hsemicolon := (derives_of_ofTokens hbody hlast hp).1.ends
  cases hw : (body.map Token.bare).getLast? with
  | none =>
    obtain rfl := List.map_eq_nil_iff.mp (List.getLast?_eq_none_iff.mp hw)
    obtain rfl := hnil.mp rfl
    exact ⟨[], final, [], last, hsource, hfinal, spells_nil_iff.mpr rfl, .inl ⟨rfl, rfl⟩, hbody,
      hlast, hp⟩
  | some w =>
    obtain ⟨hlexeme, hclosed⟩ := hends w hw
    rw [hlexeme.eq_semicolon (hsemicolon w hw)] at hclosed
    have hne : body ≠ [] := by
      rintro rfl
      exact nomatch hw
    exact ⟨front, final, body, last, hsource, hfinal, hspells hclosed, .inr ⟨hclosed, hne⟩, hbody,
      hlast, hp⟩

theorem statements_of_ofTokens (hbody : ∀ t ∈ body, t.kind ≠ .eof) (hlast : last.kind = .eof)
    (h : ofTokens (body ++ [last]) file = .ok p)
    (hbody' : body'.map Token.bare = body.map Token.bare) (htail : tail ≠ [])
    (file' : Option String) :
    ∃ es' m, es'.map Term.bare = p.statements.map Term.bare ∧
      Parse.statements file' (fuelFor (body' ++ tail)) (fuelFor (body' ++ tail))
        (.ofList (body' ++ tail)) =
        (do
          let rest ← Parse.statements file' (fuelFor (body' ++ tail)) (m + 1)
          return es' ++ rest) (.ofList tail) := by
  obtain ⟨s₂, hprogram⟩ := ofTokens_eq_ok_iff.mp h
  have hstatements := (program_eq_ok_iff.mp hprogram).2
  have hended := ended_concat hlast hbody
  have habreast : Abreast tail (body ++ [last]) (body' ++ tail) := abreast_of_words last hbody'
  have hlength : body'.length = body.length := by simpa using congrArg List.length hbody'
  have hpos := List.length_pos_iff.mpr htail
  have hfuel : fuelFor (body' ++ tail) = fuelFor (body ++ [last]) + 8 * (tail.length - 1) := by
    simp only [fuelFor, List.length_append, List.length_singleton]
    omega
  rw [← toList_ofList (List.concat_ne_nil last body)] at hended habreast
  rw [← toList_ofList (List.append_ne_nil_of_right_ne_nil body' htail)] at habreast
  rw [hfuel]
  exact statements_before htail hended habreast hstatements file' _ _

theorem ofTokens_again (hbody : ∀ t ∈ body, t.kind ≠ .eof) (hlast : last.kind = .eof)
    (h : ofTokens (body ++ [last]) file = .ok p)
    (hbody' : body'.map Token.bare = body.map Token.bare) {last' : Token}
    (hlast' : last'.kind = .eof) (file' : Option String) :
    ∃ p', ofTokens (body' ++ [last']) file' = .ok p' ∧
      p'.statements.map Term.bare = p.statements.map Term.bare := by
  obtain ⟨es', m, hbare, hread⟩ :=
    statements_of_ofTokens hbody hlast h hbody' (List.cons_ne_nil last' []) file'
  rw [bind_of_ok (statements_of_eof hlast')] at hread
  refine ⟨⟨es' ++ [], _⟩, ofTokens_eq_ok_iff.mpr ⟨_, program_eq_ok_iff.mpr ⟨rfl, hread⟩⟩, ?_⟩
  rwa [List.append_nil]

theorem ofTokens_semicolon (hbody : ∀ t ∈ body, t.kind ≠ .eof) (hlast : last.kind = .eof)
    (h : ofTokens (body ++ [last]) file = .ok p)
    (hbody' : body'.map Token.bare = body.map Token.bare) {semicolon : Token}
    (hsemicolon : semicolon.kind = .semicolon) (file' : Option String) :
    ofTokens (body' ++ semicolon :: tail) file' =
      .error ⟨.unexpected semicolon.found, semicolon.loc file'⟩ := by
  obtain ⟨es', m, -, hread⟩ :=
    statements_of_ofTokens hbody hlast h hbody' (List.cons_ne_nil semicolon tail) file'
  have hne : (TokenStream.ofList (semicolon :: tail)).current.kind ≠ .eof := by
    rw [TokenStream.ofList, hsemicolon]
    decide
  have hfuel : fuelFor (body' ++ semicolon :: tail) =
      8 * (body'.length + tail.length) + 10 + 6 := by
    simp only [fuelFor, List.length_append, List.length_cons]
    omega
  have hstatement := statement_unexpected file' (8 * (body'.length + tail.length) + 10)
    (s := .ofList (semicolon :: tail)) hsemicolon
  rw [← hfuel] at hstatement
  rw [bind_of_error ((statements_of_ne_eof hne).trans (bind_of_error hstatement))] at hread
  unfold ofTokens program
  rw [bind_of_ok (here_eq file' _), bind_of_error hread]
  rfl

theorem statements_ne_nil (hbody : ∀ t ∈ body, t.kind ≠ .eof) (hne : body ≠ [])
    (h : ofTokens (body ++ [last]) file = .ok p) : p.statements ≠ [] := by
  obtain ⟨s₂, hprogram⟩ := ofTokens_eq_ok_iff.mp h
  have hstatements := (program_eq_ok_iff.mp hprogram).2
  intro hnil
  rw [hnil] at hstatements
  cases body with
  | nil => exact hne rfl
  | cons t body => exact hbody t List.mem_cons_self (eof_of_statements_nil hstatements)

end Program

namespace Session

variable {source : String} {file : Option String} {p : Program}

theorem reads_of_parse (h : Program.parse source file = .ok p)
    (hend : (Text.trim source).endsWith ";" = true) :
    p.statements ≠ [] ∧ Reads source (p.statements.map Term.bare) := by
  obtain ⟨front, final, body, last, hsource, hfinal, hspells, hfront, hbody, hlast, hp⟩ :=
    parse_front h
  obtain ⟨gap, htrim, -, hgap⟩ :=
    Text.trim_layout hsource (hfront.imp And.left And.left) hfinal
  have hclosed := endsWith_iff_closed.mp hend
  obtain rfl : gap = [] := by
    rcases hgap with hgap | hgap
    · exact hgap
    · rw [htrim] at hclosed
      have hsame := List.suffix_of_suffix_length_le hclosed
        (hgap.trans (List.suffix_append ..)) (Nat.le_refl 1)
      exact absurd hsame (by decide)
  rw [List.append_nil] at htrim
  rcases hfront with ⟨rfl, rfl⟩ | ⟨hfront, hne⟩
  · rw [htrim] at hclosed
    exact absurd hclosed not_closed_nil
  have hwords := hspells.dropWhile_blank hfront
  obtain ⟨ts, hlex, hts⟩ := hwords.lexFrom none {} (Nat.lt_succ_self _)
  obtain ⟨body', lasts, rfl, hbody', hlasts⟩ := List.map_eq_append_iff.mp hts
  obtain ⟨last', rfl, hlast'⟩ := List.map_eq_singleton_iff.mp hlasts
  have heof : last'.kind = .eof := congrArg Prod.fst hlast'
  obtain ⟨p', hp', hbare⟩ := ofTokens_again hbody hlast hp hbody' heof none
  refine ⟨statements_ne_nil hbody hne hp, p', parse_eq_ok_iff.mpr ⟨_, ?_, hp'⟩, hbare⟩
  rw [terminated, if_pos hend, lex, htrim]
  exact hlex

theorem spells_semicolon {gap : List Char} (h : Gap gap) :
    Spells (gap ++ [';']) [(.semicolon, ";")] := by
  have hfresh : Fresh [';'] := ⟨by simp [isSpace], by decide⟩
  have hlex : lexeme? [';'] = some (.semicolon, [';']) := rfl
  exact .cons (h.skipsTo hfresh) hlex (spells_nil_iff.mpr rfl)

/-- A program that ends with a gap gets a semicolon too many. -/
theorem parse_terminated_of_gap (h : Program.parse source file = .ok p)
    (hend : ¬ (Text.trim source).endsWith ";" = true) :
    ∃ loc, Program.parse (terminated source) none = .error (.parsing ⟨.unexpected ";", loc⟩) := by
  obtain ⟨front, final, body, last, hsource, hfinal, hspells, hfront, hbody, hlast, hp⟩ :=
    parse_front h
  obtain ⟨gap, htrim, hgap, -⟩ :=
    Text.trim_layout hsource (hfront.imp And.left And.left) hfinal
  have hterminated : (terminated source).toList =
      front.dropWhile Text.isBlank ++ (gap ++ [';']) := by
    rw [terminated, if_neg hend, String.toList_append, htrim, List.append_assoc]
    rfl
  have hwords : Spells (terminated source).toList
      (body.map Token.bare ++ [(.semicolon, ";")]) := by
    rw [hterminated]
    rcases hfront with ⟨rfl, rfl⟩ | ⟨hclosed, -⟩
    · exact spells_semicolon hgap
    · exact (hspells.dropWhile_blank hclosed).append
        (dropWhile_closed (by decide) hclosed []).1 (spells_semicolon hgap)
  obtain ⟨ts, hlex, hts⟩ := hwords.lexFrom none {} (Nat.lt_succ_self _)
  rw [List.append_assoc] at hts
  obtain ⟨body', tail, rfl, hbody', htail⟩ := List.map_eq_append_iff.mp hts
  obtain ⟨semicolon, tail, rfl, hsemicolon, -⟩ := List.map_eq_cons_iff.mp htail
  obtain ⟨hkind, htext⟩ := Prod.mk.inj hsemicolon
  have herror : ofTokens (body' ++ semicolon :: tail) none =
      .error ⟨.unexpected semicolon.found, semicolon.loc none⟩ :=
    ofTokens_semicolon hbody hlast hp hbody' hkind none
  refine ⟨semicolon.loc none, ?_⟩
  rw [Program.parse, lex, hlex]
  simp [herror, ParseError.failure, Token.found, htext]

theorem execute_of_reads {depth : Nat} {r : Result}
    (hp : Program.parse source file = .ok p) (hne : p.statements ≠ [])
    (hreads : Reads source (p.statements.map Term.bare)) (h : run depth source file = .ok r) :
    ∃ pairs, (({ depth := depth } : Session).execute source).outcome =
        .ok pairs ∧ pairs.length = p.statements.length ∧
      pairs.getLast?.map bareAnswer = some (r.answer.bare, r.type) := by
  have hrun := @run_outline depth _ _ _ hp hne
  rw [h] at hrun
  obtain ⟨result, hall, hlast⟩ := Option.bind_eq_some_iff.mp hrun.symm
  have hexecute : _ = ({} : Outline).statements depth (p.statements.map Term.bare) :=
    @execute_reads { depth := depth } _ _ rfl hreads
  rw [hall] at hexecute
  generalize ({ depth := depth } : Session).execute source = executed at hexecute ⊢
  obtain ⟨pairs, hok, hresult⟩ := eq_ok_of_map_eq_some hexecute
  have hlength := Outline.length_statements hall
  refine ⟨pairs, hok, ?_, ?_⟩
  · simpa [← hresult] using hlength
  · rw [← List.getLast?_map, ← hlast, ← hresult]

/-- A text that succeeds as a program succeeds as the first input of a session exactly if it ends
with a semicolon, apart from blanks. There is then one answer for each statement, and the last one
is that of the program, with its type. Otherwise the semicolon that is added is reported. Answers
are compared without the places in the bodies of closures. -/
theorem execute_of_run {depth : Nat} {r : Result}
    (h : run depth source file = .ok r) :
    ∃ p, Program.parse source file = .ok p ∧
      let executed := ({ depth := depth } : Session).execute source
      if (Text.trim source).endsWith ";" then
        ∃ pairs, executed.outcome = .ok pairs ∧ pairs.length = p.statements.length ∧
          pairs.getLast?.map bareAnswer = some (r.answer.bare, r.type)
      else ∃ loc, executed.outcome = .error (.parsing ⟨.unexpected ";", loc⟩) := by
  obtain ⟨p, hp⟩ : ∃ p, Program.parse source file = .ok p := by
    cases hp : Program.parse source file with
    | ok p => exact ⟨p, rfl⟩
    | error e =>
      rw [run, hp] at h
      exact nomatch h
  have hclosed (hend : (Text.trim source).endsWith ";" = true) :=
    execute_of_reads hp (reads_of_parse hp hend).1 (reads_of_parse hp hend).2 h
  have hgap (hend : ¬ (Text.trim source).endsWith ";" = true) :
      ∃ loc, (({ depth := depth } : Session).execute source).outcome =
        .error (.parsing ⟨.unexpected ";", loc⟩) := by
    obtain ⟨loc, hparse⟩ := parse_terminated_of_gap hp hend
    exact ⟨loc, by rw [execute_of_unread hparse]⟩
  refine ⟨p, hp, ?_⟩
  rw [ite_prop_iff_and]
  exact ⟨hclosed, hgap⟩

/-- A program with a blank line at its end. -/
theorem execute_of_run_lines :
    ∃ r pairs, run 2 "val one := 1;\none + 1;\n\n" none = .ok r ∧
      (({ depth := 2 } : Session).execute "val one := 1;\none + 1;\n\n").outcome = .ok pairs ∧
      pairs.length = 2 ∧ pairs.getLast?.map bareAnswer = some (r.answer.bare, .int) := by
  have htype : ((run 2 "val one := 1;\none + 1;\n\n" none).toOption.map (·.type)) = some .int := by
    decide +kernel
  have hlength : ((Program.parse "val one := 1;\none + 1;\n\n" none).toOption.map
      (·.statements.length)) = some 2 := by decide +kernel
  obtain ⟨r, hr, ht⟩ := eq_ok_of_map_eq_some htype
  obtain ⟨p, hp, hexecuted⟩ := execute_of_run hr
  rw [if_pos (by decide +kernel)] at hexecuted
  obtain ⟨pairs, hok, hpairs, hlast⟩ := hexecuted
  rw [hp] at hlength
  rw [ht] at hlast
  exact ⟨r, pairs, hr, hok, hpairs.trans (Option.some.inj hlength), hlast⟩

/-- A comment behind the last statement, and a text with no statement at all. -/
theorem execute_fails_of_run :
    ((run standardDepth "1; (* one *)" none).isOk = true ∧
      (({} : Session).execute "1; (* one *)").outcome.isOk = false) ∧
    (run standardDepth "" none).isOk = true ∧ (({} : Session).execute "").outcome.isOk = false := by
  decide +kernel

end Session

end Minifun
