import Minifun.Proofs.Program.Locations
import Minifun.Proofs.Program.Moving
import Minifun.Proofs.Term.Sites
import Minifun.Proofs.Token.Margins

/-! # Places in an input

A session reads an input without the blanks around it, and with a semicolon at its end. The places
of errors are those in the text that is read, and not in the input as it was given: blanks before
the input move the places of its first line, line feeds among them the lines, and blanks behind the
input the semicolon that is added.
-/

namespace Minifun

open Token

namespace Text

def leading (source : String) : List Char :=
  source.toList.takeWhile isBlank

def trailing (source : String) : List Char :=
  ((source.toList.dropWhile isBlank).reverse.takeWhile isBlank).reverse

theorem toList_eq_margins (source : String) :
    source.toList = leading source ++ ((trim source).toList ++ trailing source) := by
  have hend : source.toList.dropWhile isBlank = (trim source).toList ++ trailing source := by
    rw [trim, String.toList_ofList, dropEndWhile, trailing, ← List.reverse_append,
      List.takeWhile_append_dropWhile, List.reverse_reverse]
  rw [← hend, leading, List.takeWhile_append_dropWhile]

theorem isBlank_of_mem_leading {source : String} {c : Char} (h : c ∈ leading source) :
    isBlank c = true :=
  List.mem_takeWhile_imp h

theorem isBlank_of_mem_trailing {source : String} {c : Char} (h : c ∈ trailing source) :
    isBlank c = true :=
  List.mem_takeWhile_imp (List.mem_reverse.mp h)

end Text

namespace Cursor

variable {cs ds : List Char}

theorem behind_append_of_not_mem (h : '\n' ∉ ds) :
    behind (cs ++ ds) = ⟨(behind cs).line, (behind cs).column + ds.length⟩ := by
  have hall : ∀ c ∈ ds.reverse, decide (c ≠ '\n') = true := by
    intro c hc
    simp only [List.mem_reverse] at hc
    exact decide_eq_true fun heq => h (heq ▸ hc)
  simp only [behind, List.count_append, List.count_eq_zero_of_not_mem h, List.reverse_append,
    List.takeWhile_append_of_pos hall, List.length_append, List.length_reverse]
  simp only [Nat.add_zero, mk.injEq, true_and]
  omega

theorem behind_of_not_mem (h : '\n' ∉ cs) : behind cs = ⟨1, 1 + cs.length⟩ :=
  @behind_append_of_not_mem [] cs h

/-- Line feeds in a text hide the columns of what stands before it. -/
theorem behind_append_of_mem (h : '\n' ∈ ds) :
    behind (cs ++ ds) = ⟨cs.count '\n' + (behind ds).line, (behind ds).column⟩ := by
  have hstop : (ds.reverse.takeWhile (· ≠ '\n')).length ≠ ds.reverse.length := by
    intro hall
    have heq := ( List.takeWhile_prefix _).eq_of_length hall
    have hfeed := List.mem_takeWhile_imp (heq ▸ List.mem_reverse.mpr h)
    simp at hfeed
  simp only [behind, List.count_append, List.reverse_append, List.takeWhile_append, if_neg hstop]
  simp only [mk.injEq, and_true]
  omega

theorem behind_ne {front : List Char} (h : front <+: cs) (hne : front ≠ cs) :
    behind front ≠ behind cs := by
  obtain ⟨rest, rfl⟩ := h
  intro heq
  by_cases hfeed : '\n' ∈ rest
  · have hpos := List.count_pos_iff.mpr hfeed
    have hline := congrArg line heq
    simp only [behind, List.count_append] at hline
    omega
  · have hcolumn := congrArg column heq
    rw [behind_append_of_not_mem hfeed] at hcolumn
    dsimp only at hcolumn
    have hrest : rest = [] := List.length_eq_zero_iff.mp (by omega)
    exact hne (by simp [hrest])

end Cursor

namespace Loc

variable {file : Option String} {lead front cs : List Char}

theorem behind_ne (h : front <+: cs) (hne : front ≠ cs) : behind file front ≠ behind file cs := by
  intro heq
  have hline : (Cursor.behind front).line = (Cursor.behind cs).line :=
    Int.ofNat.inj (congrArg line heq)
  have hcolumn : (Cursor.behind front).column = (Cursor.behind cs).column :=
    Int.ofNat.inj (congrArg column heq)
  exact Cursor.behind_ne h hne (congrArg₂ Cursor.mk hline hcolumn)

/-- The place in a text with more before it. -/
def after (lead : List Char) (l : Loc) : Loc :=
  if l.line = 1 then
    { l with
      line := (Cursor.behind lead).line
      column := (Cursor.behind lead).column - 1 + l.column }
  else { l with line := lead.count '\n' + l.line }

theorem after_behind (file : Option String) (lead front : List Char) :
    (behind file front).after lead = behind file (lead ++ front) := by
  by_cases h : '\n' ∈ front
  · have hpos := List.count_pos_iff.mpr h
    have hline : ¬ (behind file front).line = 1 := by
      simp only [behind, Cursor.behind]
      omega
    rw [after, if_neg hline, behind, behind, Cursor.behind_append_of_mem h]
    simp
  · have hline : (behind file front).line = 1 := by
      simp [behind, Cursor.behind, List.count_eq_zero_of_not_mem h]
    rw [after, if_pos hline, behind, behind, Cursor.behind_append_of_not_mem h,
      Cursor.behind_of_not_mem h]
    simp only [mk.injEq, and_true, true_and]
    push_cast
    omega

/-- More before a text moves all places in its first line, and the others if it has line feeds. -/
theorem after_eq_self_iff :
    (behind file front).after lead = behind file front ↔
      lead = [] ∨ '\n' ∉ lead ∧ 1 < (behind file front).line := by
  constructor
  · intro heq
    by_cases hline : (behind file front).line = 1
    · rw [after, if_pos hline] at heq
      have hl : ((Cursor.behind lead).line : Int) = 1 := (congrArg line heq).trans hline
      have hc : ((Cursor.behind lead).column : Int) - 1 + (behind file front).column =
          (behind file front).column := congrArg column heq
      have hnot : '\n' ∉ lead := by
        refine List.count_eq_zero.mp ?_
        simp only [Cursor.behind] at hl
        omega
      rw [Cursor.behind_of_not_mem hnot] at hc
      dsimp only at hc
      exact .inl (List.length_eq_zero_iff.mp (by omega))
    · rw [after, if_neg hline] at heq
      have hl : (lead.count '\n' : Int) + (behind file front).line = (behind file front).line :=
        congrArg line heq
      refine .inr ⟨List.count_eq_zero.mp (by omega), ?_⟩
      simp only [behind, Cursor.behind] at hline ⊢
      omega
  · rintro (rfl | ⟨hnot, hline⟩)
    · rw [after_behind, List.nil_append]
    · rw [after, if_neg (by omega), List.count_eq_zero.mpr hnot]
      simp

theorem behind_margins_iff {trail : List Char} :
    behind file (lead ++ (cs ++ trail)) = behind file cs ↔
      (lead = [] ∨ '\n' ∉ lead ∧ 1 < (behind file cs).line) ∧ trail = [] := by
  constructor
  · intro heq
    have hline := congrArg line heq
    simp only [behind, Cursor.behind, List.count_append] at hline
    have hfeed : '\n' ∉ trail := List.count_eq_zero.mp (by omega)
    have hcolumn : ((Cursor.behind (lead ++ cs)).column : Int) + trail.length =
        (Cursor.behind cs).column := by
      have hc := congrArg column heq
      rw [← List.append_assoc, behind, Cursor.behind_append_of_not_mem hfeed] at hc
      simpa [behind] using hc
    have hle : (Cursor.behind cs).column ≤ (Cursor.behind (lead ++ cs)).column := by
      by_cases hmem : '\n' ∈ cs
      · rw [Cursor.behind_append_of_mem hmem]
      · rw [Cursor.behind_append_of_not_mem hmem, Cursor.behind_of_not_mem hmem]
        simp [Cursor.behind]
    have htrail : trail = [] := List.length_eq_zero_iff.mp (by omega)
    subst htrail
    rw [List.append_nil, ← after_behind] at heq
    exact ⟨after_eq_self_iff.mp heq, rfl⟩
  · rintro ⟨hlead, rfl⟩
    rw [List.append_nil, ← after_behind]
    exact after_eq_self_iff.mpr hlead

end Loc

def TypeError.moved (g : Option Loc → Option Loc) (e : TypeError) : TypeError :=
  ⟨e.cause, g e.loc⟩

namespace Checker

open Infer

variable {shared shared' : Shared}

theorem outcome_relocate (g : Option Loc → Option Loc) (c : Checker)
    (hnext : shared'.next = shared.next) (ss : List Expr) :
    (c.check shared' (Term.relocateAll g ss)).outcome =
      (c.check shared ss).outcome.mapError (TypeError.moved g) := by
  have ha := c.alongside_relocate g hnext ss
  generalize hx : Term.inferStatements [] .nothing ss (c.start shared) = x,
    hy : Term.inferStatements [] .nothing (Term.relocateAll g ss) (c.start shared') = y at ha
  cases ha with
  | @ok t t' st st' ht hr =>
    obtain ⟨-, hs, -⟩ := renamed_unnamed_iff.mp hr
    obtain rfl : t' = t := ht.trans t.rename_id
    rw [check_of_ok hx, check_of_ok hy, hs]
    rfl
  | error hr =>
    rw [check_of_error hx, check_of_error hy]
    rfl

theorem checkEach_relocate (g : Option Loc → Option Loc) (c : Checker)
    (hnext : shared'.next = shared.next) (ss : List Expr) :
    (c.checkEach shared' (Term.relocateAll g ss)).1 =
      (c.checkEach shared ss).1.mapError (TypeError.moved g) := by
  induction ss generalizing c shared shared' with
  | nil => rfl
  | cons s ss ih =>
    have hout : (c.check shared' [s.relocate g]).outcome =
        (c.check shared [s]).outcome.mapError (TypeError.moved g) :=
      outcome_relocate g c hnext [s]
    obtain ⟨-, hchecker, hnext'⟩ := c.check_relocate g hnext [s]
    simp only [Term.relocateAll] at hchecker hnext'
    rw [Term.relocateAll]
    cases hc : (c.check shared [s]).outcome with
    | error e =>
      rw [hc] at hout
      rw [checkEach_cons_of_error hc, checkEach_cons_of_error hout]
      rfl
    | ok t =>
      rw [hc] at hout
      rw [checkEach_cons_of_ok hc, checkEach_cons_of_ok hout]
      dsimp only
      rw [hchecker, ih _ hnext']
      cases ((c.check shared [s]).checker.checkEach (c.check shared [s]).shared ss).1 <;> rfl

end Checker

namespace Failure

def early : Failure → Bool
  | lexical _ | parsing _ | typing _ => true
  | evaluation _ | breakdown _ => false

def site : Failure → Option Loc
  | lexical e => e.loc
  | parsing e => e.loc
  | typing e => e.loc
  | evaluation _ | breakdown _ => none

def siteOf {α : Type} : Except Failure α → Option Loc
  | .error f => f.site
  | .ok _ => none

def moved (g : Loc → Loc) : Failure → Failure
  | lexical e => lexical { e with loc := g e.loc }
  | parsing e => parsing { e with loc := g e.loc }
  | typing e => typing (e.moved (Option.map g))
  | evaluation e => evaluation e
  | breakdown b => breakdown b

@[simp] theorem site_moved (g : Loc → Loc) (f : Failure) : (f.moved g).site = f.site.map g := by
  cases f <;> rfl

theorem failure_moved (g : Loc → Loc) (cause : ParseCause) (l : Loc) :
    (ParseError.failure ⟨cause, l⟩).moved g = ParseError.failure ⟨cause, g l⟩ := by
  cases cause <;> rfl

end Failure

def StandsIn (cs : List Char) (loc : Option Loc) : Prop :=
  ∃ front, front <+: cs ∧ loc = some (.behind none front)

namespace Session

/-- An input with its blanks, and with a semicolon behind them unless it has one before them. -/
def untrimmed (source : String) : String :=
  if (Text.trim source).endsWith ";" then source else source ++ ";"

def examine (s : Session) (text : String) : Except Failure (List Ty) :=
  match Program.parse text none with
  | .error f => .error f
  | .ok p => (s.checker.checkEach ⟨s.next, {}⟩ p.statements).1.mapError .typing

def AtAdded (source : String) (l : Loc) : Prop :=
  (Text.trim source).endsWith ";" = false ∧ l = .behind none (Text.trim source).toList

instance (source : String) (l : Loc) : Decidable (AtAdded source l) :=
  inferInstanceAs (Decidable (_ ∧ _))

/-- Where a place of the text that is read stands in the input with its blanks. -/
def original (source : String) (l : Loc) : Loc :=
  if AtAdded source l then .behind none source.toList else l.after (Text.leading source)

variable {s : Session} {source : String} {f : Failure}

theorem examine_of_unread {text : String} (h : Program.parse text none = .error f) :
    s.examine text = .error f := by
  simp only [examine, h]

theorem examine_of_read {text : String} {p : Program} (h : Program.parse text none = .ok p) :
    s.examine text = (s.checker.checkEach ⟨s.next, {}⟩ p.statements).1.mapError .typing := by
  simp only [examine, h]

theorem examine_of_execute (h : (s.execute source).outcome = .error f) (hf : f.early = true) :
    s.examine (terminated source) = .error f := by
  cases hp : Program.parse (terminated source) none with
  | error e =>
    rw [execute_of_unread hp] at h
    obtain rfl := Except.error.inj h
    exact examine_of_unread hp
  | ok p =>
    rw [examine_of_read hp]
    generalize hc : s.checker.checkEach ⟨s.next, {}⟩ p.statements = checked
    obtain ⟨e | types, checker, shared⟩ := checked
    · rw [execute_of_illTyped hp hc] at h
      obtain rfl := Except.error.inj h
      rfl
    · cases hs : (s.evaluate p.statements).stop with
      | none =>
        rw [execute_of_ok hp hc hs] at h
        exact nomatch h
      | some stop =>
        rw [execute_of_stopped hp hc hs] at h
        obtain rfl := Except.error.inj h
        cases stop <;> exact nomatch hf

/-- An input is cut into its blanks, a text without its last semicolon, this semicolon, and blanks
before or behind it. -/
structure Cut (source : String) (u between rest : List Char) : Prop where
  trimmed : (between = [] ∧ (Text.trim source).toList = u ++ [';']) ∨
    (rest = [] ∧ (Text.trim source).toList = u)
  read : (terminated source).toList = u ++ [';']
  given : (untrimmed source).toList = Text.leading source ++ (u ++ (between ++ ';' :: rest))
  trailing : between ++ rest = Text.trailing source
  /-- Places before the semicolon are moved by the blanks before the input. -/
  word : ∀ front, front <+: u → front ≠ u →
    original source (.behind none front) = .behind none (Text.leading source ++ front)
  /-- The semicolon is also moved by the blanks between it and the text. -/
  semicolon : original source (.behind none u) =
    .behind none (Text.leading source ++ (u ++ between))

theorem exists_cut (source : String) : ∃ u between rest, Cut source u between rest := by
  have hsource := Text.toList_eq_margins source
  cases hend : (Text.trim source).endsWith ";" with
  | true =>
    obtain ⟨u, hu⟩ := Program.endsWith_iff_closed.mp hend
    have horiginal : ∀ l, original source l = l.after (Text.leading source) := by
      intro l
      exact if_neg fun h => Bool.noConfusion (hend.symm.trans h.1)
    refine ⟨u, [], Text.trailing source, ?_, ?_, ?_, rfl, ?_, ?_⟩
    · exact .inl ⟨rfl, hu.symm⟩
    · rw [Session.terminated, if_pos hend, hu]
    · rw [Session.untrimmed, if_pos hend, hsource, ← hu]
      simp
    · intro front _ _
      rw [horiginal, Loc.after_behind]
    · rw [horiginal, Loc.after_behind, List.append_nil]
  | false =>
    refine ⟨(Text.trim source).toList, Text.trailing source, [], ?_, ?_, ?_, ?_, ?_, ?_⟩
    · exact .inr ⟨rfl, rfl⟩
    · simp [Session.terminated, hend]
    · simp [Session.untrimmed, hend, hsource]
    · exact List.append_nil _
    · intro front hfront hne
      have hplace : ¬ AtAdded source (.behind none front) := by
        rintro ⟨-, heq⟩
        exact Loc.behind_ne hfront hne heq
      rw [original, if_neg hplace, Loc.after_behind]
    · rw [original, if_pos ⟨hend, rfl⟩, hsource]

variable {u between rest : List Char}

/-- How the text that is read and the input with its blanks are read: both have the same error, or
the same words up to the margin behind them. -/
inductive Lexing (source : String) (u between rest : List Char) : Prop where
  | fails (cause : LexCause) (front : List Char) : front <+: u → front ≠ u →
      lex (terminated source) none = .error ⟨cause, .behind none front⟩ →
      ((∀ c ∈ Text.leading source, isSpace c = true) →
        lex (untrimmed source) none = .error ⟨cause, original source (.behind none front)⟩) →
      Lexing source u between rest
  | words (ws : List Occurrence) : (∀ w ∈ ws, w.before <+: u ∧ w.before ≠ u) →
      lex (terminated source) none = .ok (ws.map (·.token (.behind [])) ++
        [placed (.behind u) .semicolon [';'], placed (.behind (u ++ [';'])) .eof []]) →
      ((∀ c ∈ Text.leading source, isSpace c = true) → ∃ m, (between ++ ';' :: rest).length < m ∧
        lex (untrimmed source) none =
          (lexFrom none m (.behind (Text.leading source ++ u)) (between ++ ';' :: rest)).map
            (ws.map (·.token (.behind (Text.leading source))) ++ ·)) →
      Lexing source u between rest

theorem Cut.margin (h : Cut source u between rest) : Margin (between ++ ';' :: rest) := by
  have hblank : ∀ c ∈ between ++ rest, Text.isBlank c = true := by
    rw [h.trailing]
    exact fun c hc => Text.isBlank_of_mem_trailing hc
  refine ⟨by simp, fun c hc => ?_⟩
  simp only [List.mem_append, List.mem_cons] at hc hblank
  rcases hc with hc | rfl | hc
  · exact .inl (hblank c (.inl hc))
  · exact .inr rfl
  · exact .inl (hblank c (.inr hc))

theorem Cut.lexing (h : Cut source u between rest) : Lexing source u between rest := by
  have hterminated : ∀ {r}, (∀ n, (u ++ [';']).length < n →
      lexFrom none n (.behind []) (u ++ [';']) = r) → lex (terminated source) none = r := by
    intro r hr
    unfold lex
    rw [h.read]
    exact hr _ (Nat.lt_succ_self _)
  have hsemicolon : Margin [';'] := ⟨by simp, by simp⟩
  have huntrimmed : (∀ c ∈ Text.leading source, isSpace c = true) →
      ∃ n, (u ++ (between ++ ';' :: rest)).length < n ∧ lex (untrimmed source) none =
        lexFrom none n (.behind (Text.leading source)) (u ++ (between ++ ';' :: rest)) := by
    intro hspaces
    have hadvance := Cursor.advanceAll_behind [] (Text.leading source)
    rw [List.nil_append] at hadvance
    refine ⟨(untrimmed source).toList.length + 1, ?_, ?_⟩
    · simp only [h.given, List.length_append]
      omega
    · unfold lex
      rw [← hadvance, ← lexFrom_spaces hspaces, h.given]
      rfl
  cases lexes none u with
  | fails cause front hfront hne hlex =>
    refine .fails cause front hfront hne (hterminated fun n hn => ?_) fun hspaces => ?_
    · rw [hlex n _ _ hsemicolon hn, Cursor.advanceAll_behind]
      rfl
    · obtain ⟨n, hn, htext⟩ := huntrimmed hspaces
      rw [htext, hlex n _ _ h.margin hn, Cursor.advanceAll_behind, h.word front hfront hne]
      rfl
  | words ws hws hlex =>
    refine .words ws hws (hterminated fun n hn => ?_) fun hspaces => ?_
    · obtain ⟨m, hm, htext⟩ := hlex n (.behind []) _ hsemicolon hn
      have hend : lexFrom none m ((Cursor.behind []).advanceAll u) ([] ++ [';']) = _ :=
        lexFrom_margin (by simp) (by simp) none hm _
      rw [List.nil_append, Cursor.advanceAll_behind, Cursor.advanceAll_nil,
        Cursor.advanceAll_behind] at hend
      rw [htext, Cursor.advanceAll_behind, hend]
      rfl
    · obtain ⟨n, hn, htext⟩ := huntrimmed hspaces
      obtain ⟨m, hm, hwords⟩ := hlex n (.behind (Text.leading source)) _ h.margin hn
      rw [Cursor.advanceAll_behind] at hwords
      exact ⟨m, hm, htext.trans hwords⟩

theorem loc_placed (cs : List Char) (kind : TokenKind) (word : List Char) :
    (placed (.behind cs) kind word).loc none = .behind none cs := rfl

theorem loc_token (cs : List Char) (w : Occurrence) :
    (w.token (.behind cs)).loc none = .behind none (cs ++ w.before) := by
  rw [Occurrence.token, Cursor.advanceAll_behind, loc_placed]

theorem parse_of_unlexed {text : String} {e : LexError} (h : lex text none = .error e) :
    Program.parse text none = .error (.lexical e) := by
  simp only [Program.parse, h]

theorem parse_of_tokens {text : String} {ts : List Token} (h : lex text none = .ok ts) :
    Program.parse text none = (Program.ofTokens ts none).mapError ParseError.failure := by
  simp only [Program.parse, h]
  cases Program.ofTokens ts none <;> rfl

/-- A token that stands behind a part of a text, and is left as it is. -/
def Pinned (u : List Char) (t t' : Token) : Prop :=
  t' = t ∧ StandsIn u (some (t.loc none))

theorem moves_pinned {g : Option Loc → Option Loc} (hg : ∀ loc, StandsIn u loc → g loc = loc) :
    Parse.Moves (Pinned u) none g where
  bare := by
    rintro t _ ⟨rfl, -⟩
    rfl
  loc := by
    rintro t _ ⟨rfl, hstands⟩
    exact hg _ hstands

theorem paired_pinned {ws : List Occurrence} (hws : ∀ w ∈ ws, w.before <+: u ∧ w.before ≠ u) :
    let tokens := ws.map (·.token (.behind [])) ++
      [placed (.behind u) .semicolon [';'], placed (.behind (u ++ [';'])) .eof []]
    Parse.Paired (Pinned u) tokens tokens := by
  have hsemicolon : Pinned u (placed (.behind u) .semicolon [';'])
      (placed (.behind u) .semicolon [';']) :=
    ⟨rfl, u, List.prefix_rfl, congrArg some (loc_placed ..)⟩
  refine (Parse.Paired.last hsemicolon rfl rfl rfl).map_append fun w hw => ?_
  exact ⟨rfl, w.before, (hws w hw).1, congrArg some (loc_token [] w)⟩

/-- The tokens that are read stand behind parts of the text. The program does not change when other
places are moved, and an error stands at a token. -/
theorem Cut.parse_pinned (h : Cut source u between rest) {g : Option Loc → Option Loc}
    (hg : ∀ loc, StandsIn u loc → g loc = loc) :
    (∃ p, Program.parse (Session.terminated source) none = .ok p ∧
      Term.relocateAll g p.statements = p.statements) ∨
    ∃ f, Program.parse (Session.terminated source) none = .error f ∧
      (f.early = true → StandsIn u f.site) := by
  cases h.lexing with
  | fails cause front hfront _ hlex _ =>
    exact .inr ⟨_, parse_of_unlexed hlex, fun _ => ⟨front, hfront, rfl⟩⟩
  | words ws hws hlex _ =>
    have hread := parse_of_tokens hlex
    rcases Program.ofTokens_paired (moves_pinned hg) (paired_pinned hws) with
      ⟨p, p', hp, hp', hmoved⟩ | ⟨t, -, cause, ⟨-, hstands⟩, hp, -⟩
    · obtain rfl := Except.ok.inj (hp.symm.trans hp')
      rw [hp] at hread
      exact .inl ⟨p, hread, hmoved.symm⟩
    · rw [hp] at hread
      refine .inr ⟨_, hread, fun hearly => ?_⟩
      cases cause with
      | broken b => exact nomatch hearly
      | expected | unexpected => exact hstands

theorem Cut.relocate_parsed (h : Cut source u between rest) {p : Program}
    (hp : Program.parse (Session.terminated source) none = .ok p) {g : Option Loc → Option Loc}
    (hg : ∀ loc, StandsIn u loc → g loc = loc) :
    Term.relocateAll g p.statements = p.statements := by
  rcases h.parse_pinned hg with ⟨p', hp', hsame⟩ | ⟨f, hf, -⟩
  · obtain rfl := Except.ok.inj (hp.symm.trans hp')
    exact hsame
  · exact nomatch hp.symm.trans hf

theorem Cut.site (h : Cut source u between rest) (hf : f.early = true)
    (hex : s.examine (Session.terminated source) = .error f) : StandsIn u f.site := by
  cases hp : Program.parse (Session.terminated source) none with
  | error f' =>
    rw [examine_of_unread hp] at hex
    obtain rfl := Except.error.inj hex
    rcases h.parse_pinned (g := id) fun _ _ => rfl with ⟨p, hp', -⟩ | ⟨f'', hp', hsite⟩
    · exact nomatch hp.symm.trans hp'
    · obtain rfl := Except.error.inj (hp.symm.trans hp')
      exact hsite hf
  | ok p =>
    rw [examine_of_read hp] at hex
    cases hc : (s.checker.checkEach ⟨s.next, {}⟩ p.statements).1 with
    | ok types =>
      rw [hc] at hex
      exact nomatch hex
    | error e =>
      rw [hc] at hex
      obtain rfl := Except.error.inj hex
      refine mem_of_fixed fun g hg => ?_
      have hmoved : (s.checker.checkEach ⟨s.next, {}⟩ (Term.relocateAll g p.statements)).1 = _ :=
        Checker.checkEach_relocate g s.checker rfl p.statements
      rw [h.relocate_parsed hp hg, hc] at hmoved
      exact (congrArg TypeError.loc (Except.error.inj hmoved)).symm

def Shifted (source : String) (t t' : Token) : Prop :=
  t'.bare = t.bare ∧ t'.loc none = original source (t.loc none)

theorem moves_shifted (source : String) :
    Parse.Moves (Shifted source) none (Option.map (original source)) :=
  ⟨And.left, fun ht => congrArg some ht.2.symm⟩

theorem Cut.paired_shifted (h : Cut source u between rest) {ws : List Occurrence}
    (hws : ∀ w ∈ ws, w.before <+: u ∧ w.before ≠ u) :
    Parse.Paired (Shifted source)
      (ws.map (·.token (.behind [])) ++
        [placed (.behind u) .semicolon [';'], placed (.behind (u ++ [';'])) .eof []])
      (ws.map (·.token (.behind (Text.leading source))) ++
        [placed (.behind (Text.leading source ++ (u ++ between))) .semicolon [';'],
          placed (.behind (Text.leading source ++ u ++ (between ++ ';' :: rest))) .eof []]) := by
  have hsemicolon : Shifted source (placed (.behind u) .semicolon [';'])
      (placed (.behind (Text.leading source ++ (u ++ between))) .semicolon [';']) :=
    ⟨rfl, by rw [loc_placed, loc_placed, h.semicolon]⟩
  refine (Parse.Paired.last hsemicolon rfl rfl rfl).map_append fun w hw => ⟨rfl, ?_⟩
  obtain ⟨hpre, hne⟩ := hws w hw
  rw [loc_token, loc_token, List.nil_append, h.word _ hpre hne]

theorem Cut.examine (h : Cut source u between rest)
    (hlead : ∀ c ∈ Text.leading source, isSpace c = true)
    (htrail : ∀ c ∈ Text.trailing source, isSpace c = true) :
    s.examine (Session.untrimmed source) =
      (s.examine (Session.terminated source)).mapError (Failure.moved (original source)) := by
  cases h.lexing with
  | fails cause front _ _ hlex hgiven =>
    rw [examine_of_unread (parse_of_unlexed hlex),
      examine_of_unread (parse_of_unlexed (hgiven hlead))]
    rfl
  | words ws hws hlex hgiven =>
    rw [← h.trailing] at htrail
    obtain ⟨hbetween, hrest⟩ := List.forall_mem_append.mp htrail
    have htext : lex (Session.untrimmed source) none =
        .ok (ws.map (·.token (.behind (Text.leading source))) ++
          [placed (.behind (Text.leading source ++ (u ++ between))) .semicolon [';'],
            placed (.behind (Text.leading source ++ u ++ (between ++ ';' :: rest))) .eof []]) := by
      obtain ⟨m, hm, htext⟩ := hgiven hlead
      rw [htext, lexFrom_margin hbetween hrest none hm, Cursor.advanceAll_behind,
        Cursor.advanceAll_behind, List.append_assoc]
      rfl
    have hread := parse_of_tokens hlex
    have hgiven := parse_of_tokens htext
    rcases Program.ofTokens_paired (moves_shifted source) (h.paired_shifted hws) with
      ⟨p, p', hp, hp', hmoved⟩ | ⟨t, t', cause, ⟨-, hloc⟩, hp, hp'⟩
    · rw [hp] at hread
      rw [hp'] at hgiven
      rw [examine_of_read hread, examine_of_read hgiven, hmoved,
        Checker.checkEach_relocate _ s.checker rfl]
      cases (s.checker.checkEach ⟨s.next, {}⟩ p.statements).1 <;> rfl
    · rw [hp] at hread
      rw [hp', hloc] at hgiven
      rw [examine_of_unread hread, examine_of_unread hgiven]
      exact congrArg Except.error (Failure.failure_moved ..).symm

/-- The error at the first blank of a margin that does not separate words. -/
def stray? (before margin : List Char) : Option LexError :=
  (margin.find? (!isSpace ·)).map fun c =>
    ⟨.unexpected c, .behind none (before ++ margin.takeWhile isSpace)⟩

theorem stray?_eq_none_iff {before margin : List Char} :
    stray? before margin = none ↔ ∀ c ∈ margin, isSpace c = true := by
  simp [stray?]

theorem lexFrom_stray {before margin : List Char} {e : LexError}
    (he : stray? before margin = some e)
    (hblank : ∀ c ∈ margin, Text.isBlank c = true) (n : Nat) (more : List Char) :
    lexFrom none (n + 1) (.behind before) (margin ++ more) = .error e := by
  obtain ⟨c, hc, rfl⟩ := Option.map_eq_some_iff.mp he
  obtain ⟨hspace, spaces, rest, rfl, hspaces⟩ := List.find?_eq_some_iff_append.mp hc
  simp only [Bool.not_eq_true'] at hspace
  simp only [Bool.not_not] at hspaces
  have htake : (spaces ++ c :: rest).takeWhile isSpace = spaces := by
    rw [List.takeWhile_append_of_pos hspaces]
    simp [hspace]
  rw [List.append_assoc, lexFrom_spaces hspaces, List.cons_append,
    lexFrom_blank (hblank c (by simp)) hspace, Cursor.advanceAll_behind, htake]
  rfl

theorem lex_stray_leading (h : Cut source u between rest) {e : LexError}
    (he : stray? [] (Text.leading source) = some e) :
    lex (Session.untrimmed source) none = .error e := by
  unfold lex
  rw [h.given]
  exact lexFrom_stray he (fun c hc => Text.isBlank_of_mem_leading hc) _ _

theorem lexFrom_stray_trailing (h : Cut source u between rest) {e : LexError}
    (he : stray? (Text.leading source ++ (Text.trim source).toList) (Text.trailing source) = some e)
    {m : Nat} (hm : (between ++ ';' :: rest).length < m) :
    lexFrom none m (.behind (Text.leading source ++ u)) (between ++ ';' :: rest) = .error e := by
  have hblank : ∀ c ∈ Text.trailing source, Text.isBlank c = true :=
    fun c hc => Text.isBlank_of_mem_trailing hc
  simp only [List.length_append, List.length_cons] at hm
  obtain ⟨m, rfl⟩ : ∃ k, m = k + 2 := ⟨m - 2, by omega⟩
  rcases h.trimmed with ⟨rfl, htrim⟩ | ⟨rfl, htrim⟩
  · obtain rfl : rest = Text.trailing source := h.trailing
    have hstray := lexFrom_stray he hblank m []
    rw [htrim, List.append_nil, ← List.append_assoc, Cursor.behind_concat] at hstray
    rw [List.nil_append, lexFrom_semicolon, hstray]
    rfl
  · obtain rfl : between = Text.trailing source := (List.append_nil _).symm.trans h.trailing
    rw [htrim] at he
    exact lexFrom_stray he hblank (m + 1) [';']

/-- What is wrong with an input as it was given, where the text that is read has an error. -/
def reported (source : String) (f : Failure) : Failure :=
  match stray? [] (Text.leading source), f,
    stray? (Text.leading source ++ (Text.trim source).toList) (Text.trailing source) with
  | some e, _, _ => .lexical e
  | none, .lexical _, _ => f.moved (original source)
  | none, _, some e => .lexical e
  | none, _, none => f.moved (original source)

theorem ne_lexical_of_tokens {text : String} {ts : List Token} (h : lex text none = .ok ts)
    (hex : s.examine text = .error f) (e : LexError) : f ≠ .lexical e := by
  rintro rfl
  have hparse := parse_of_tokens h
  cases hp : Program.ofTokens ts none with
  | error e' =>
    rw [hp] at hparse
    rw [examine_of_unread hparse] at hex
    obtain ⟨cause, loc⟩ := e'
    cases cause <;> exact nomatch Except.error.inj hex
  | ok p =>
    rw [hp] at hparse
    rw [examine_of_read hparse] at hex
    cases hc : (s.checker.checkEach ⟨s.next, {}⟩ p.statements).1 with
    | error e' =>
      rw [hc] at hex
      exact nomatch Except.error.inj hex
    | ok types =>
      rw [hc] at hex
      exact nomatch hex

theorem Cut.reported (h : Cut source u between rest)
    (hex : s.examine (Session.terminated source) = .error f) :
    s.examine (Session.untrimmed source) = .error (reported source f) := by
  unfold Session.reported
  cases hlead : stray? [] (Text.leading source) with
  | some e => exact examine_of_unread (parse_of_unlexed (lex_stray_leading h hlead))
  | none =>
    have hspaces := stray?_eq_none_iff.mp hlead
    cases htrail : stray? (Text.leading source ++ (Text.trim source).toList)
      (Text.trailing source) with
    | none =>
      have hmoved := h.examine (s := s) hspaces (stray?_eq_none_iff.mp htrail)
      rw [hex] at hmoved
      cases f <;> exact hmoved
    | some e =>
      cases h.lexing with
      | fails cause front _ _ hlex hgiven =>
        rw [examine_of_unread (parse_of_unlexed hlex)] at hex
        obtain rfl := Except.error.inj hex
        exact examine_of_unread (parse_of_unlexed (hgiven hspaces))
      | words ws _ hlex hgiven =>
        obtain ⟨m, hm, htext⟩ := hgiven hspaces
        rw [lexFrom_stray_trailing h htrail hm] at htext
        have hmoved : s.examine (Session.untrimmed source) = .error (.lexical e) :=
          examine_of_unread (parse_of_unlexed htext)
        cases f with
        | lexical e' => exact absurd rfl (ne_lexical_of_tokens hlex hex e')
        | parsing | typing | evaluation | breakdown => exact hmoved

theorem reported_of_spaces
    (h : ∀ c ∈ Text.leading source ++ Text.trailing source, isSpace c = true) (f : Failure) :
    reported source f = f.moved (original source) := by
  obtain ⟨hlead, htrail⟩ := List.forall_mem_append.mp h
  simp only [reported, stray?_eq_none_iff.mpr hlead, stray?_eq_none_iff.mpr htrail]
  cases f <;> rfl

theorem original_eq_self_iff (source : String) (front : List Char) :
    original source (.behind none front) = .behind none front ↔
      (Text.leading source = [] ∨ '\n' ∉ Text.leading source ∧ 1 < (Loc.behind none front).line) ∧
        (AtAdded source (.behind none front) → Text.trailing source = []) := by
  by_cases hplace : AtAdded source (.behind none front)
  · have heq := hplace.2
    rw [original, if_pos hplace, Text.toList_eq_margins source, heq, Loc.behind_margins_iff,
      ← heq]
    simp [hplace]
  · rw [original, if_neg hplace, Loc.after_eq_self_iff]
    simp [hplace]

/-- An error of reading or checking an input has its place in the text that is read. In the input as
it was given the error stands where the blanks around it move this place, if all of them separate
words; else it may be that a blank is in error. The two places are the same exactly if no blanks
stand before the input, or none of them is a line feed and the error is not in the first line; and
if the error is not at a semicolon that is added behind blanks. -/
theorem execute_place (h : (s.execute source).outcome = .error f) (hf : f.early = true) :
    ∃ l, f.site = some l ∧ s.examine (untrimmed source) = .error (reported source f) ∧
      ((∀ c ∈ Text.leading source ++ Text.trailing source, isSpace c = true) →
        reported source f = f.moved (original source) ∧
        ((reported source f).site = f.site ↔
          (Text.leading source = [] ∨ '\n' ∉ Text.leading source ∧ 1 < l.line) ∧
            (AtAdded source l → Text.trailing source = []))) := by
  obtain ⟨u, between, rest, hcut⟩ := exists_cut source
  have hex := examine_of_execute h hf
  obtain ⟨front, -, hsite⟩ := hcut.site hf hex
  refine ⟨_, hsite, hcut.reported hex, fun hspaces => ?_⟩
  have hreported := reported_of_spaces hspaces f
  refine ⟨hreported, ?_⟩
  rw [hreported, Failure.site_moved, hsite, Option.map_some, Option.some_inj, original_eq_self_iff]

/-- The line feed before the input moves the error from the third line to the second one. -/
theorem execute_place_lines :
    ∃ f, (({} : Session).execute "\n 1;\n y; ").outcome = .error f ∧ f.early = true ∧
      f.site = some ⟨2, 2, none⟩ ∧
      ({} : Session).examine "\n 1;\n y; " = .error (reported "\n 1;\n y; " f) ∧
      (reported "\n 1;\n y; " f).site = some ⟨3, 2, none⟩ := by
  obtain ⟨f, hf, ht⟩ := exists_error_of_test
    (r := (({} : Session).execute "\n 1;\n y; ").outcome)
    (fun f => f.early && f.site == some ⟨2, 2, none⟩) (by decide +kernel)
  simp only [Bool.and_eq_true, beq_iff_eq] at ht
  obtain ⟨l, -, hex, hplace⟩ := execute_place hf ht.1
  have huntrimmed : untrimmed "\n 1;\n y; " = "\n 1;\n y; " := by decide +kernel
  have horiginal : original "\n 1;\n y; " ⟨2, 2, none⟩ = ⟨3, 2, none⟩ := by decide +kernel
  rw [huntrimmed] at hex
  have hmoved := (hplace (List.all_eq_true.mp (by decide +kernel))).1
  refine ⟨f, hf, ht.1, ht.2, hex, ?_⟩
  rw [hmoved, Failure.site_moved, ht.2, Option.map_some, horiginal]

/-- The name is reported two columns before its place, and the semicolon that is added one column
before the place behind the input. -/
theorem execute_misplaces :
    (Failure.siteOf (({} : Session).execute "  x;").outcome = some ⟨1, 1, none⟩ ∧
      Failure.siteOf (({} : Session).examine (untrimmed "  x;")) = some ⟨1, 3, none⟩) ∧
    Failure.siteOf (({} : Session).execute "1 + ").outcome = some ⟨1, 4, none⟩ ∧
      Failure.siteOf (({} : Session).examine (untrimmed "1 + ")) = some ⟨1, 5, none⟩ := by
  decide +kernel

end Session

end Minifun
