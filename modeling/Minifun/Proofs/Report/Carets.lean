import Mathlib.Data.List.Basic
import Minifun.Proofs.Text.Decimal
import Minifun.Proofs.Text.Lines
import Minifun.Report.Excerpt

/-! # Carets under a column

An excerpt shows the line of a place behind its number, and carets in the line below. The number
takes four digits or more, while the carets are set for a number of four. So the first caret stands
under the column of the place if the number of the line has no more digits than that, and else
further left by the digits that are too many.
-/

namespace Minifun

namespace Text

theorem length_padLeft (width : Nat) (s : String) :
    (padLeft width s).length = max width s.length := by
  rw [padLeft, String.length_append, blanks, String.length_ofList, List.length_replicate]
  omega

theorem oneLine_toString (n : Nat) : OneLine (toString n) :=
  fun h => absurd (isDigit_of_mem_nat h) (by decide)

theorem length_toString_le_iff {n : Nat} : (toString n).length ≤ 4 ↔ n < 10000 := by
  change n.repr.length ≤ 4 ↔ n < 10 ^ 4
  rw [← String.length_toList, Nat.toList_repr]
  exact Nat.length_toDigits_le_iff (by decide) (by decide)

end Text

namespace Excerpt

open Text (lines OneLine)

def margin (number : Nat) : String :=
  "→ " ++ gutter number

theorem markedLine_plain (number : Nat) (line : String) :
    markedLine .plain number line = margin number ++ line := by
  change "→" ++ " " ++ gutter number ++ line = "→ " ++ gutter number ++ line
  rfl

theorem length_margin (number : Nat) :
    (margin number).length = 5 + max 4 (toString number).length := by
  rw [margin, gutter, String.length_append, String.length_append, Text.length_padLeft]
  change 2 + (_ + 3) = _
  omega

theorem oneLine_margin (number : Nat) : OneLine (margin number) := by
  rw [margin, gutter, Text.padLeft]
  simp only [Text.oneLine_append, Text.oneLine_blanks, Text.oneLine_toString, true_and]
  decide

section Carets

variable (line : String) (column : Int)

theorem toList_caretLine : (caretLine .plain line column).toList =
    ("       │ ".toList ++ List.replicate (column - 1).toNat ' ') ++
      List.replicate (caretCount line.length column) '^' := by
  simp only [caretLine, Palette.paint, Text.blanks, String.toList_append, String.toList_ofList]

theorem oneLine_caretLine : OneLine (caretLine .plain line column) := by
  rw [OneLine, toList_caretLine]
  simp

theorem caretCount_pos (length : Nat) : 0 < caretCount length column := by
  rw [caretCount]
  omega

theorem caret_mem_caretLine : '^' ∈ (caretLine .plain line column).toList := by
  rw [toList_caretLine]
  exact List.mem_append_right _
    (List.mem_replicate.mpr ⟨Nat.ne_of_gt (caretCount_pos column _), rfl⟩)

theorem idxOf_caretLine :
    (caretLine .plain line column).toList.idxOf '^' = 9 + (column - 1).toNat := by
  obtain ⟨n, hn⟩ := Nat.exists_eq_succ_of_ne_zero
    (Nat.ne_of_gt (caretCount_pos column line.length))
  rw [toList_caretLine, List.idxOf_append_of_notMem (by simp), hn, List.replicate_succ,
    List.idxOf_cons_self, List.length_append, List.length_replicate]
  rfl

variable {line column}

theorem length_caretLine_le (hcol : 1 ≤ column) (hlen : column ≤ line.length) :
    (caretLine .plain line column).length ≤ 9 + line.length := by
  rw [← String.length_toList, toList_caretLine, List.length_append, List.length_append,
    List.length_replicate, List.length_replicate, caretCount]
  change 9 + _ + _ ≤ _
  omega

end Carets

section Lines

variable {source line : String} {loc : Loc} {n : Nat}

theorem body_append (p : Palette) (loc : Loc) (number : Nat) (ls ms : List String) :
    body p loc number (ls ++ ms) = body p loc number ls ++ body p loc (number + ls.length) ms := by
  induction ls generalizing number with
  | nil => rfl
  | cons l ls ih =>
    rw [List.cons_append, body, body, ih, List.length_cons, Nat.add_right_comm, Nat.add_assoc]
    split
    · split <;> rfl
    · rfl

/-- The window shows the line of the place, and the numbers go on to the number of this line. -/
theorem window_eq {ls : List String} (hn : loc.line = n + 1) (hline : ls[n]? = some line)
    (context : Nat) :
    ∃ above below, (window ls loc context).2 = above ++ line :: below ∧
      (window ls loc context).1 + above.length = n + 1 := by
  obtain ⟨hlt, rfl⟩ := List.getElem?_eq_some_iff.mp hline
  have hstart : (loc.line - context - 1).toNat = n - context := by omega
  have hstop : (min (ls.length : Int) (loc.line + context)).toNat =
      min ls.length (n + 1 + context) := by omega
  simp only [window, hstart, hstop]
  generalize hs : min ls.length (n + 1 + context) = stop
  have hns : n < (ls.take stop).length := by
    rw [List.length_take]
    omega
  refine ⟨((ls.take stop).take n).drop (n - context), (ls.take stop).drop (n + 1), ?_, ?_⟩
  · have hsplit : ls.take stop = (ls.take stop).take n ++ ls[n] :: (ls.take stop).drop (n + 1) := by
      have hget : (ls.take stop)[n] = ls[n] := List.getElem_take
      rw [← hget, ← List.drop_eq_getElem_cons hns, List.take_append_drop]
    conv_lhs => rw [hsplit]
    rw [List.drop_append_of_le_length]
    rw [List.length_take]
    omega
  · rw [List.length_drop, List.length_take]
    omega

/-- Right below the line of the place in a report stand the carets. -/
theorem lines_render (message : String) (context : Nat) (hn : loc.line = n + 1)
    (hline : (lines source)[n]? = some line) (hcol : 1 ≤ loc.column) :
    ∃ above below, lines (render .plain source loc message context) =
      above ++ (margin (n + 1) ++ line) :: caretLine .plain line loc.column :: below := by
  obtain ⟨above, below, hshown, hnumber⟩ := window_eq hn hline context
  have hlt : n < (lines source).length := (List.getElem?_eq_some_iff.mp hline).1
  have hmarked : OneLine (margin (n + 1) ++ line) :=
    Text.oneLine_append.mpr
      ⟨oneLine_margin _, Text.oneLine_of_mem_lines (List.mem_of_getElem? hline)⟩
  have hbody : body .plain loc (window (lines source) loc context).1 (above ++ line :: below) =
      body .plain loc (window (lines source) loc context).1 above ++
        (margin (n + 1) ++ line) :: caretLine .plain line loc.column ::
          body .plain loc (n + 2) below := by
    rw [body_append, hnumber, body, if_pos (by omega), if_pos (by omega), markedLine_plain]
  -- What comes before are the message, which may have lines of its own, and the lines above.
  obtain ⟨head, tail, hreport⟩ : ∃ head tail,
      render .plain source loc message context = Text.joinLines
        (head ++ (margin (n + 1) ++ line) :: caretLine .plain line loc.column :: tail) := by
    rw [render, if_pos (by omega)]
    simp only [hshown, hbody]
    rw [← List.cons_append, ← List.cons_append, ← List.append_assoc]
    exact ⟨_, _, rfl⟩
  rw [hreport, Text.lines_joinLines_eq_flatMap (by simp), List.flatMap_append, List.flatMap_cons,
    List.flatMap_cons, Text.lines_of_oneLine hmarked, Text.lines_of_oneLine (oneLine_caretLine _ _)]
  exact ⟨_, _, rfl⟩

end Lines

/-- The line right below the one of a place has its first caret under the column of the place, if
the number of the line has at most four digits, and else to the left of it by the further digits.
The carets do not go on behind the line. -/
theorem caret_under_column {source line : String} {loc : Loc} (message : String) (context : Nat)
    (hpos : 1 ≤ loc.line) (hline : (lines source)[(loc.line - 1).toNat]? = some line)
    (hcol : 1 ≤ loc.column) (hlen : loc.column ≤ line.length) :
    ∃ above front caret below,
      lines (render .plain source loc message context) =
          above ++ (front ++ line) :: caret :: below ∧
        front = "→ " ++ gutter loc.line.toNat ∧
        '^' ∈ caret.toList ∧
        caret.toList.idxOf '^' + ((toString loc.line.toNat).length - 4) =
          front.length + (loc.column - 1).toNat ∧
        (caret.toList.idxOf '^' = front.length + (loc.column - 1).toNat ↔ loc.line < 10000) ∧
        caret.length ≤ (front ++ line).length := by
  obtain ⟨n, hn⟩ : ∃ n : Nat, loc.line = n + 1 := ⟨(loc.line - 1).toNat, by omega⟩
  have hnumber : loc.line.toNat = n + 1 := by omega
  have hindex : (loc.line - 1).toNat = n := by omega
  rw [hindex] at hline
  obtain ⟨above, below, hreport⟩ := lines_render message context hn hline hcol
  have hdigits := Text.length_toString_le_iff (n := n + 1)
  have hend := length_caretLine_le hcol hlen
  have hmargin := length_margin (n + 1)
  refine ⟨above, margin (n + 1), caretLine .plain line loc.column, below, hreport,
    ?_, ?_, ?_, ?_, ?_⟩
  · rw [hnumber, margin]
  · exact caret_mem_caretLine line loc.column
  · rw [idxOf_caretLine, hnumber]
    omega
  · rw [idxOf_caretLine]
    omega
  · rw [String.length_append]
    omega

/-- The second of two lines, marked at its fifth character. -/
theorem caret_under_column_second :
    ∃ above front caret below,
      lines (render .plain "val x := 1;\nx + y;" ⟨2, 5, none⟩ "" 2) =
          above ++ (front ++ "x + y;") :: caret :: below ∧
        front = "→ " ++ gutter 2 ∧
        '^' ∈ caret.toList ∧
        caret.toList.idxOf '^' + ((toString 2).length - 4) = front.length + 4 ∧
        (caret.toList.idxOf '^' = front.length + 4 ↔ (2 : Int) < 10000) ∧
        caret.length ≤ (front ++ "x + y;").length :=
  @caret_under_column "val x := 1;\nx + y;" "x + y;" ⟨2, 5, none⟩ "" 2 (by decide) (by decide)
    (by decide) (by decide)

theorem splitLines_newlines (n : Nat) (cs : List Char) :
    Text.splitLines (List.replicate n '\n' ++ cs) = List.replicate n [] ++ Text.splitLines cs := by
  induction n with
  | zero => rfl
  | succ n ih => rw [List.replicate_succ, List.cons_append, Text.splitLines, if_pos rfl, ih]; rfl

/-- The only character of line 10000 stands one to the right of the caret. -/
theorem caret_left_of_column :
    let source := String.ofList (List.replicate 9999 '\n' ++ ['x'])
    lines (render .plain source ⟨10000, 1, none⟩ "" 0) =
        ["at 10000:1", "", "→ 10000 │ x", "       │ ^"] ∧
      "→ 10000 │ x".toList.idxOf 'x' = 10 ∧ "       │ ^".toList.idxOf '^' = 9 := by
  intro source
  have hlines : lines source = List.replicate 9999 "" ++ ["x"] := by
    rw [Text.lines, String.toList_ofList, splitLines_newlines, List.map_append, List.map_replicate]
    rfl
  have hlength : (lines source).length = 10000 := by
    rw [hlines, List.length_append, List.length_replicate]
    rfl
  have hwindow : window (lines source) ⟨10000, 1, none⟩ 0 = (10000, ["x"]) := by
    simp only [window, hlength]
    change (9999 + 1, ((lines source).take 10000).drop 9999) = _
    rw [List.take_of_length_le (Nat.le_of_eq hlength), hlines,
      List.drop_left' List.length_replicate]
  have hrender : render .plain source ⟨10000, 1, none⟩ "" 0 =
      Text.joinLines ["at 10000:1", "", "→ 10000 │ x", "       │ ^"] := by
    rw [render, if_pos (by rw [hlength]; decide)]
    simp only [hwindow]
    rfl
  refine ⟨?_, by decide, by decide⟩
  rw [hrender, Text.lines_joinLines (by decide) (by simp [OneLine])]

end Excerpt

end Minifun
