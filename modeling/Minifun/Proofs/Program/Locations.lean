import Minifun.Proofs.Program.Anchors
import Minifun.Proofs.Program.Breakdowns
import Minifun.Proofs.Session.Outline
import Minifun.Proofs.Text.Lines
import Minifun.Proofs.Token.Layout

/-! # The places of errors

An error of a text points into the text. The tokens stand in the text, and so do the errors of the
lexer. All places of a program are places of tokens, and neither inference nor evaluation makes up
places: moving the places of a program moves those of its errors along. An error of a program
therefore stays where it is when all places that do not point into the text are moved there.
-/

namespace Minifun

/-- A place in a text: the text has its line, and its column is that of a character in the line or
the one after the last of them. -/
structure Loc.PointsInto (l : Loc) (source : String) : Prop where
  line_pos : 1 ≤ l.line
  line_le : l.line ≤ (Text.lines source).length
  column_pos : 1 ≤ l.column
  column_le : ∀ text, (Text.lines source)[(l.line - 1).toNat]? = some text →
    l.column ≤ text.length + 1

def Loc.behind (file : Option String) (cs : List Char) : Loc :=
  ⟨(Cursor.behind cs).line, (Cursor.behind cs).column, file⟩

namespace Text

/-- The characters since the last line feed before a place belong to the line of this place. -/
theorem getElem?_splitLines (front back : List Char) :
    ∃ line, (splitLines (front ++ back))[front.count '\n']? = some line ∧
      (front.reverse.takeWhile (· ≠ '\n')).length ≤ line.length := by
  induction front with
  | nil =>
    obtain ⟨l, ls, hls⟩ := List.exists_cons_of_ne_nil (splitLines_ne_nil back)
    exact ⟨l, by simp [hls], by simp⟩
  | cons c front ih =>
    obtain ⟨line, hline, hle⟩ := ih
    by_cases hc : c = '\n'
    · subst hc
      refine ⟨line, by simpa [splitLines] using hline, ?_⟩
      rw [List.reverse_cons, List.takeWhile_append]
      split <;> simp_all
    · obtain ⟨l, ls, hls, hcons⟩ := splitLines_cons hc (front ++ back)
      rw [hls] at hline
      rw [List.cons_append, hcons, List.count_cons_of_ne hc, List.reverse_cons,
        List.takeWhile_append]
      cases hcount : front.count '\n' with
      | zero =>
        obtain rfl : l = line := by simpa [hcount] using hline
        refine ⟨c :: l, rfl, ?_⟩
        split
        · rename_i hall
          rw [List.length_append, List.takeWhile_cons_of_pos (by simpa using hc), ← hall]
          simpa using hle
        · exact Nat.le_succ_of_le hle
      | succ n =>
        -- The last line feed before the place stops the count before it reaches the new character.
        refine ⟨line, by simpa [hcount] using hline, ?_⟩
        have hmem : '\n' ∈ front := List.count_pos_iff.mp (hcount ▸ Nat.succ_pos n)
        have hstop : (front.reverse.takeWhile (· ≠ '\n')).length ≠ front.reverse.length := by
          intro hall
          have heq := ( List.takeWhile_prefix _).eq_of_length hall
          have hfeed := List.mem_takeWhile_imp (heq ▸ List.mem_reverse.mpr hmem)
          simp at hfeed
        rwa [if_neg hstop]

end Text

theorem Loc.pointsInto_behind {front : List Char} {source : String} (h : front <+: source.toList)
    (file : Option String) : (Loc.behind file front).PointsInto source := by
  obtain ⟨back, hback⟩ := h
  obtain ⟨line, hline, hle⟩ := Text.getElem?_splitLines front back
  rw [hback] at hline
  have hlines : (Text.lines source)[front.count '\n']? = some (String.ofList line) := by
    simp [Text.lines, hline]
  have hlt : front.count '\n' < (Text.lines source).length :=
    (List.getElem?_eq_some_iff.mp hlines).1
  constructor
  · simp only [behind, Cursor.behind]
    omega
  · simp only [behind, Cursor.behind]
    omega
  · simp only [behind, Cursor.behind]
    omega
  · intro text htext
    have hindex : ((behind file front).line - 1).toNat = front.count '\n' := by
      simp only [behind, Cursor.behind]
      omega
    rw [hindex, hlines] at htext
    obtain rfl := Option.some.inj htext
    simp only [behind, Cursor.behind, String.length_ofList]
    omega

namespace Token

theorem lexFrom_places (file : Option String) (n : Nat) (before cs : List Char) :
    match lexFrom file n (.behind before) cs with
    | .ok ts => ∀ t ∈ ts, ∃ front, front <+: before ++ cs ∧ t.loc file = Loc.behind file front
    | .error e => ∃ front, front <+: before ++ cs ∧ e.loc = Loc.behind file front := by
  induction n generalizing before cs with
  | zero =>
    simp only [lexFrom, List.mem_singleton]
    rintro t rfl
    exact ⟨before, List.prefix_append .., rfl⟩
  | succ n ih =>
    rw [lexFrom]
    cases hskip : skip 0 (.behind before) (.behind before) cs with
    | error opened =>
      rcases skip_eq_error hskip with ⟨hzero, -⟩ | ⟨front, hfront, rfl⟩
      · exact absurd rfl hzero
      · refine ⟨before ++ front, List.prefix_append_right_inj before |>.mpr hfront, ?_⟩
        rw [Cursor.advanceAll_behind]
        rfl
    | ok r =>
      obtain ⟨q, rest⟩ := r
      obtain ⟨gap, -, rfl, rfl, -⟩ := skip_gap hskip
      rw [Cursor.advanceAll_behind, ← List.append_assoc]
      cases rest with
      | nil =>
        simp only [List.mem_singleton]
        rintro t rfl
        exact ⟨before ++ gap, by simp, rfl⟩
      | cons c rest =>
        simp only
        cases hlex : lexeme? (c :: rest) with
        | none => exact ⟨before ++ gap, List.prefix_append .., rfl⟩
        | some r =>
          obtain ⟨kind, word⟩ := r
          obtain ⟨after, hafter⟩ := (lexeme?_begins hlex).1
          have hrest := ih (before ++ gap ++ word) after
          simp only [Cursor.advanceAll_behind, ← hafter, List.drop_left]
          rw [List.append_assoc _ word after] at hrest
          cases hrec : lexFrom file n (.behind (before ++ gap ++ word)) after with
          | error e =>
            rw [hrec] at hrest
            exact hrest
          | ok ts =>
            rw [hrec] at hrest
            refine List.forall_mem_cons.mpr ⟨?_, hrest⟩
            exact ⟨before ++ gap, List.prefix_append .., rfl⟩

theorem lex_points (source : String) (file : Option String) :
    match lex source file with
    | .ok ts => ∀ t ∈ ts, (t.loc file).PointsInto source
    | .error e => e.loc.file = file ∧ e.loc.PointsInto source := by
  have h : match lex source file with
      | .ok ts => ∀ t ∈ ts, ∃ front, front <+: source.toList ∧ t.loc file = Loc.behind file front
      | .error e => ∃ front, front <+: source.toList ∧ e.loc = Loc.behind file front :=
    lexFrom_places file _ [] source.toList
  cases hlex : lex source file with
  | ok ts =>
    rw [hlex] at h
    intro t ht
    obtain ⟨front, hfront, hloc⟩ := h t ht
    rw [hloc]
    exact Loc.pointsInto_behind hfront file
  | error e =>
    rw [hlex] at h
    obtain ⟨front, hfront, hloc⟩ := h
    exact ⟨congrArg Loc.file hloc, hloc ▸ Loc.pointsInto_behind hfront file⟩

end Token

section Pinned

variable {g : Option Loc → Option Loc}

theorem Infer.Alongside.place_eq {χ : Infer.Relabelling} {α : Type} {Q : α → α → Prop}
    {x y : EStateM.Result TypeError InferState α} {e : TypeError} {st st' : InferState}
    (h : Alongside χ Q x y) (hx : x = .error e st) (hy : y = .error e st') :
    χ.place e.loc = e.loc := by
  cases h with
  | ok => exact nomatch hx
  | error =>
    obtain ⟨rfl, -⟩ := EStateM.Result.error.inj hx
    obtain ⟨he, -⟩ := EStateM.Result.error.inj hy
    exact congrArg TypeError.loc he

/-- An error of inference stays where it is if all places of the statements do. -/
theorem Checker.check_pinned {ss : List Expr} (hss : Term.relocateAll g ss = ss) {c : Checker}
    {shared : Shared} {e : TypeError} (h : (c.check shared ss).outcome = .error e) :
    g e.loc = e.loc := by
  have halong := c.alongside_relocate g (Eq.refl shared.next) ss
  cases hx : Term.inferStatements [] .nothing ss (c.start shared) with
  | ok t st =>
    rw [check_of_ok hx] at h
    exact nomatch h
  | error e' st =>
    rw [check_of_error hx] at h
    obtain rfl := Except.error.inj h
    have hy : Term.inferStatements [] .nothing (Term.relocateAll g ss) (c.start shared) =
        .error e' st := by rw [hss, hx]
    exact halong.place_eq hx hy

theorem ShiftedEnd.stop_eq {α : Type} {Q : α → α → Prop}
    {x y : EStateM.Result Stop (Frame Value) α} {stop : Stop} {f f' : Frame Value}
    (h : ShiftedEnd g Q x y) (hx : x = .error stop f) (hy : y = .error stop f') :
    stop.relocate g = stop := by
  cases h with
  | ok => exact nomatch hx
  | error =>
    obtain ⟨rfl, -⟩ := EStateM.Result.error.inj hx
    exact (EStateM.Result.error.inj hy).1

theorem ShiftedEnd.frame_eq {α : Type} {Q : α → α → Prop}
    {x y : EStateM.Result Stop (Frame Value) α} {a b : α} {f : Frame Value}
    (h : ShiftedEnd g Q x y) (hx : x = .ok a f) (hy : y = .ok b f) :
    Frame.relocate g f = f := by
  cases h with
  | error => exact nomatch hx
  | ok =>
    obtain ⟨-, rfl⟩ := EStateM.Result.ok.inj hx
    exact (EStateM.Result.ok.inj hy).2

theorem evalStatement_pinned (depth : Nat) {s : Expr} {frame : Frame Value}
    (hs : s.relocate g = s) (hframe : Frame.relocate g frame = frame) :
    ShiftedEnd g (Placed g) (s.evalStatement depth frame) (s.evalStatement depth frame) := by
  have hshift := evalStatement_relocate (g := g) depth s frame
  rwa [hs, hframe] at hshift

theorem Program.evalAll_pinned {depth : Nat} {ss : List Expr} {frame : Frame Value} {stop : Stop}
    (hss : Term.relocateAll g ss = ss) (hframe : Frame.relocate g frame = frame)
    (h : (evalAll depth ss frame).stop = some stop) : stop.relocate g = stop := by
  induction ss generalizing frame with
  | nil => exact nomatch h
  | cons s ss ih =>
    obtain ⟨hs, hss⟩ := List.cons.inj hss
    have hshift := evalStatement_pinned depth hs hframe
    cases hr : s.evalStatement depth frame with
    | error stop' frame' =>
      rw [evalAll_cons_of_error hr] at h
      obtain rfl := Option.some.inj h
      exact hshift.stop_eq hr hr
    | ok v frame' =>
      rw [evalAll_cons_of_ok hr] at h
      exact ih hss (hshift.frame_eq hr hr) h

end Pinned

/-- A place that is known, belongs to a file and points into its text. -/
def Located (source : String) (file : Option String) (loc : Option Loc) : Prop :=
  ∃ l, loc = some l ∧ l.file = file ∧ l.PointsInto source

/-- All places can be moved into a text while those that point into it stay. -/
theorem exists_located (source : String) (file : Option String) :
    ∃ g : Option Loc → Option Loc, (∀ loc, Located source file loc → g loc = loc) ∧
      ∀ loc, Located source file (g loc) := by
  classical
  have hstart : Located source file (some (.behind file [])) :=
    ⟨_, rfl, rfl, Loc.pointsInto_behind List.nil_prefix file⟩
  refine ⟨fun loc => if Located source file loc then loc else some (.behind file []), ?_, ?_⟩
  · intro loc hloc
    exact if_pos hloc
  · intro loc
    dsimp only
    split
    · assumption
    · exact hstart

theorem TypeError.loc_diagnostic (e : TypeError) : e.diagnostic.loc = e.loc := by
  unfold TypeError.diagnostic
  split <;> rfl

variable {source : String} {file : Option String} {f : Failure} {d : Diagnostic}

theorem Program.parse_located {g : Option Loc → Option Loc}
    (hg : ∀ loc, Located source file loc → g loc = loc) :
    match parse source file with
    | .ok p => Term.relocateAll g p.statements = p.statements
    | .error f => ∀ d, f.diagnose = .ok d → Located source file d.loc := by
  have hlex := Token.lex_points source file
  unfold parse
  cases hts : Token.lex source file with
  | error e =>
    rw [hts] at hlex
    intro d hd
    obtain rfl := Except.ok.inj hd
    exact ⟨e.loc, rfl, hlex⟩
  | ok ts =>
    rw [hts] at hlex
    have hpins : Parse.Pins (fun t => (t.loc file).PointsInto source) file g :=
      fun t ht => hg _ ⟨_, rfl, rfl, ht⟩
    have hne : ts ≠ [] := by
      obtain ⟨body, last, rfl, -⟩ := Token.lexFrom_ends hts
      simp
    have hp := ofTokens_pinned hpins hne hlex
    cases hprogram : ofTokens ts file with
    | ok p =>
      rw [hprogram] at hp
      simpa only [hprogram] using hp
    | error e =>
      rw [hprogram] at hp
      obtain ⟨t, ht, hloc⟩ := hp
      simp only [hprogram]
      intro d hd
      unfold ParseError.failure at hd
      split at hd
      · exact nomatch hd
      · obtain rfl := Except.ok.inj hd
        exact ⟨t.loc file, congrArg some hloc, rfl, ht⟩

theorem Program.check_located {p : Program} {g : Option Loc → Option Loc}
    (hmove : ∀ loc, Located source file (g loc))
    (hp : Term.relocateAll g p.statements = p.statements) (h : p.check = .error f)
    (hd : f.diagnose = .ok d) : Located source file d.loc := by
  unfold check at h
  split at h
  · rename_i e he
    obtain rfl := Except.error.inj h
    obtain rfl := Except.ok.inj hd
    rw [e.loc_diagnostic, ← Checker.check_pinned hp he]
    exact hmove e.loc
  · exact nomatch h

theorem Program.eval_located {p : Program} {g : Option Loc → Option Loc} {depth : Nat}
    (hmove : ∀ loc, Located source file (g loc))
    (hp : Term.relocateAll g p.statements = p.statements) (h : p.eval depth = .error f)
    (hd : f.diagnose = .ok d) : Located source file d.loc := by
  unfold eval at h
  cases hstop : (evalAll depth p.statements []).stop with
  | none => simp [hstop] at h
  | some stop =>
    have hpinned := evalAll_pinned hp rfl hstop
    simp only [hstop, Except.error.injEq] at h
    subst h
    cases stop with
    | error e =>
      obtain rfl := Except.ok.inj hd
      have hloc : g e.loc = e.loc := congrArg EvalError.loc (Stop.error.inj hpinned)
      change Located source file e.loc
      rw [← hloc]
      exact hmove e.loc
    | outOfDepth | broken => exact nomatch hd

/-- An error of a text has a place in the text, of the file that was given. -/
theorem run_located {depth : Nat} (h : run depth source file = .error f)
    (hd : f.diagnose = .ok d) : Located source file d.loc := by
  obtain ⟨g, hfix, hmove⟩ := exists_located source file
  have hparse := Program.parse_located hfix
  unfold run at h
  cases hp : Program.parse source file with
  | error f' =>
    rw [hp] at h hparse
    obtain rfl := Except.error.inj h
    exact hparse d hd
  | ok p =>
    rw [hp] at h hparse
    cases hc : p.check with
    | error f' =>
      obtain rfl : f' = f := by simpa [hc, bind, Except.bind] using h
      exact Program.check_located hmove hparse hc hd
    | ok type =>
      cases he : p.eval depth with
      | error f' =>
        obtain rfl : f' = f := by simpa [hc, he, bind, Except.bind] using h
        exact Program.eval_located hmove hparse he hd
      | ok v => simp [hc, he, bind, Except.bind, pure, Except.pure] at h

theorem exists_error_of_test {ε α : Type} {r : Except ε α} (test : ε → Bool)
    (h : (match r with
      | .ok _ => false
      | .error e => test e) = true) : ∃ e, r = .error e ∧ test e = true := by
  cases r with
  | ok a => exact nomatch h
  | error e => exact ⟨e, rfl, h⟩

/-- Calls without end are reported at a place in the text. -/
theorem run_located_endless :
    ∃ e, run 3 "val f x := f(x);\n f(1);" (some "loop") = .error (.evaluation e) ∧
      e.cause = .tooDeep ∧ Located "val f x := f(x);\n f(1);" (some "loop") e.loc := by
  obtain ⟨f, hf, ht⟩ := exists_error_of_test
    (r := run 3 "val f x := f(x);\n f(1);" (some "loop"))
    (fun
      | .evaluation ⟨.tooDeep, _⟩ => true
      | _ => false) (by decide +kernel)
  split at ht
  · exact ⟨_, hf, rfl, run_located hf rfl⟩
  · exact nomatch ht

end Minifun
