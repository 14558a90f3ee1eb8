import Minifun.Text.Similar
import Mathlib.Order.Bounds.Basic
import Mathlib.Order.MinMax
import Mathlib.Tactic.SplitIfs

/-! # Edits

A list of characters is edited by putting in, taking out or replacing one character. The distance of
two lists that the table of rows gives is the length of a shortest way of edits from one to the
other. The cells of the table obey a recursion on the last characters of two beginnings; it is
stated on the reversed lists, where these characters are the first ones.
-/

namespace Minifun.Text

inductive Edit : List Char → List Char → Prop where
  | insert (front back : List Char) (c : Char) : Edit (front ++ back) (front ++ c :: back)
  | delete (front back : List Char) (c : Char) : Edit (front ++ c :: back) (front ++ back)
  | replace (front back : List Char) (c d : Char) : Edit (front ++ c :: back) (front ++ d :: back)

inductive Edits : Nat → List Char → List Char → Prop where
  | none (a : List Char) : Edits 0 a a
  | more {n : Nat} {a b c : List Char} : Edit a b → Edits n b c → Edits (n + 1) a c

/-- The least number of edits, by the first characters of two lists. -/
def leastEdits : List Char → List Char → Nat
  | [], b => b.length
  | _ :: a, [] => a.length + 1
  | c :: a, d :: b =>
    min (min (leastEdits a (d :: b) + 1) (leastEdits (c :: a) b + 1))
      (leastEdits a b + if c = d then 0 else 1)
termination_by a b => a.length + b.length

section Ways

variable {m n : Nat} {a b c : List Char}

theorem Edit.symm (h : Edit a b) : Edit b a := by
  cases h with
  | insert front back c => exact .delete front back c
  | delete front back c => exact .insert front back c
  | replace front back c d => exact .replace front back d c

theorem Edit.reverse (h : Edit a b) : Edit a.reverse b.reverse := by
  cases h with
  | insert front back c => simpa using Edit.insert back.reverse front.reverse c
  | delete front back c => simpa using Edit.delete back.reverse front.reverse c
  | replace front back c d => simpa using Edit.replace back.reverse front.reverse c d

theorem Edit.cons (x : Char) (h : Edit a b) : Edit (x :: a) (x :: b) := by
  cases h with
  | insert front back c => exact .insert (x :: front) back c
  | delete front back c => exact .delete (x :: front) back c
  | replace front back c d => exact .replace (x :: front) back c d

theorem Edits.eq_of_zero (h : Edits 0 a b) : a = b := by
  cases h
  rfl

theorem Edits.trans (h : Edits m a b) (h' : Edits n b c) : Edits (m + n) a c := by
  induction h with
  | none a => rwa [Nat.zero_add]
  | more he _ ih =>
    rw [Nat.add_right_comm]
    exact .more he (ih h')

theorem Edit.edits (h : Edit a b) : Edits 1 a b :=
  .more h (.none b)

theorem Edits.symm (h : Edits n a b) : Edits n b a := by
  induction h with
  | none a => exact .none a
  | more he _ ih => exact ih.trans he.symm.edits

theorem Edits.reverse (h : Edits n a b) : Edits n a.reverse b.reverse := by
  induction h with
  | none a => exact .none a.reverse
  | more he _ ih => exact .more he.reverse ih

theorem Edits.cons (x : Char) (h : Edits n a b) : Edits n (x :: a) (x :: b) := by
  induction h with
  | none a => exact .none (x :: a)
  | more he _ ih => exact .more (he.cons x) ih

theorem edits_nil (b : List Char) : Edits b.length [] b := by
  induction b with
  | nil => exact .none []
  | cons d b ih => exact .more (.insert [] [] d) (ih.cons d)

end Ways

section Least

variable {n : Nat} {a b : List Char}

@[simp] theorem leastEdits_nil_left (b : List Char) : leastEdits [] b = b.length := by
  rw [leastEdits]

@[simp] theorem leastEdits_nil_right (a : List Char) : leastEdits a [] = a.length := by
  cases a with
  | nil => rw [leastEdits, List.length_nil]
  | cons c a => rw [leastEdits, List.length_cons]

theorem leastEdits_cons_cons (c d : Char) (a b : List Char) :
    leastEdits (c :: a) (d :: b) =
      min (min (leastEdits a (d :: b) + 1) (leastEdits (c :: a) b + 1))
        (leastEdits a b + if c = d then 0 else 1) := by
  rw [leastEdits]

theorem edits_leastEdits (a b : List Char) : Edits (leastEdits a b) a b := by
  fun_induction leastEdits a b with
  | case1 b => exact edits_nil b
  | case2 c a => exact (edits_nil (c :: a)).symm
  | case3 c a d b ihDelete ihInsert ihReplace =>
    rcases min_choice (min (leastEdits a (d :: b) + 1) (leastEdits (c :: a) b + 1))
      (leastEdits a b + if c = d then 0 else 1) with h | h
    · rw [h]
      rcases min_choice (leastEdits a (d :: b) + 1) (leastEdits (c :: a) b + 1) with h | h
      · rw [h]
        exact .more (.delete [] a c) ihDelete
      · rw [h]
        exact ihInsert.trans (Edit.insert [] b d).edits
    · rw [h]
      split_ifs with hcd
      · subst hcd
        exact ihReplace.cons c
      · exact .more (.replace [] a c d) (ihReplace.cons d)

theorem leastEdits_self (a : List Char) : leastEdits a a = 0 := by
  induction a with
  | nil => exact leastEdits_nil_left []
  | cons c a ih =>
    rw [leastEdits_cons_cons, ih, if_pos rfl]
    exact Nat.min_zero _

theorem leastEdits_cons_left_le (c : Char) (a b : List Char) :
    leastEdits (c :: a) b ≤ leastEdits a b + 1 := by
  cases b with
  | nil => simp
  | cons d b =>
    rw [leastEdits_cons_cons]
    omega

theorem leastEdits_cons_right_le (d : Char) (a b : List Char) :
    leastEdits a (d :: b) ≤ leastEdits a b + 1 := by
  cases a with
  | nil => simp
  | cons c a =>
    rw [leastEdits_cons_cons]
    omega

/-- One list is at most one edit further from every list than another one. -/
def Near (a b : List Char) : Prop :=
  ∀ c, leastEdits a c ≤ leastEdits b c + 1

theorem near_cons_left (x : Char) (a : List Char) : Near (x :: a) a :=
  leastEdits_cons_left_le x a

theorem near_cons_right (x : Char) (a : List Char) : Near a (x :: a) := by
  intro c
  induction c with
  | nil =>
    simp only [leastEdits_nil_right, List.length_cons]
    omega
  | cons d c ih =>
    -- The cell may come from the one before it in its row, of which the induction knows the fact.
    have hcell := leastEdits_cons_cons x d a c
    have hright := leastEdits_cons_right_le d a c
    split_ifs at hcell <;> omega

theorem near_cons_cons (x y : Char) (a : List Char) : Near (x :: a) (y :: a) := by
  intro c
  induction c with
  | nil => simp
  | cons d c ih =>
    have hleft := leastEdits_cons_cons x d a c
    have hright := leastEdits_cons_cons y d a c
    split_ifs at hleft hright <;> omega

theorem Near.cons (x : Char) (h : Near a b) : Near (x :: a) (x :: b) := by
  intro c
  induction c with
  | nil =>
    have hlen := h []
    simp only [leastEdits_nil_right, List.length_cons] at hlen ⊢
    omega
  | cons d c ih =>
    -- Each neighbour of the one cell is at most one more than the same neighbour of the other.
    have hleft := leastEdits_cons_cons x d a c
    have hright := leastEdits_cons_cons x d b c
    have hreplace := h c
    have hdelete := h (d :: c)
    split_ifs at hleft hright <;> omega

theorem Near.append (front : List Char) (h : Near a b) : Near (front ++ a) (front ++ b) := by
  induction front with
  | nil => exact h
  | cons x front ih => exact ih.cons x

theorem Edit.near (h : Edit a b) : Near a b := by
  cases h with
  | insert front back c => exact (near_cons_right c back).append front
  | delete front back c => exact (near_cons_left c back).append front
  | replace front back c d => exact (near_cons_cons c d back).append front

/-- No way of edits is shorter than the recursion counts. -/
theorem Edits.leastEdits_le (h : Edits n a b) : leastEdits a b ≤ n := by
  induction h with
  | none a => exact (leastEdits_self a).le
  | @more n a b c he _ ih => exact (he.near c).trans (Nat.succ_le_succ ih)

theorem leastEdits_isLeast (a b : List Char) : IsLeast {n | Edits n a b} (leastEdits a b) :=
  ⟨edits_leastEdits a b, fun _ => Edits.leastEdits_le⟩

end Least

section Rows

/-- The cells of a row after the one for `s`, which is the beginning of the other word read so far,
in reverse. The row belongs to the reversed beginning `r`. -/
def cells (r : List Char) : List Char → List Char → List Nat
  | _, [] => []
  | s, d :: ds => leastEdits r (d :: s) :: cells r (d :: s) ds

theorem cells_nil (s ds : List Char) :
    cells [] s ds = List.range' (s.length + 1) ds.length := by
  induction ds generalizing s with
  | nil => rfl
  | cons d ds ih => simp [cells, ih, List.range'_succ]

/-- The new cells are again those of the recursion. -/
theorem nextCells_cells (c : Char) (r s ds : List Char) :
    nextCells c (leastEdits r s) (leastEdits (c :: r) s) ds (cells r s ds) =
      cells (c :: r) s ds := by
  induction ds generalizing s with
  | nil => rfl
  | cons d ds ih => simp only [cells, nextCells, ← leastEdits_cons_cons, ih]

def row (b r : List Char) : List Nat :=
  leastEdits r [] :: cells r [] b

theorem row_nil (b : List Char) : row b [] = List.range (b.length + 1) := by
  rw [row, cells_nil, leastEdits_nil_right, List.length_nil, List.range_eq_range',
    List.range'_succ]

theorem nextRow_row (b r : List Char) (c : Char) : nextRow b (row b r) c = row b (c :: r) := by
  have hfirst : leastEdits r [] + 1 = leastEdits (c :: r) [] := by simp
  rw [row, row, nextRow, hfirst, nextCells_cells]

theorem foldl_nextRow (a b r : List Char) :
    a.foldl (nextRow b) (row b r) = row b (a.reverse ++ r) := by
  induction a generalizing r with
  | nil => rfl
  | cons c a ih =>
    rw [List.foldl_cons, nextRow_row, ih, List.reverse_cons, List.append_assoc,
      List.singleton_append]

theorem getLastD_cells (r s ds : List Char) (n : Nat) :
    (leastEdits r s :: cells r s ds).getLastD n = leastEdits r (ds.reverse ++ s) := by
  induction ds generalizing s n with
  | nil => rfl
  | cons d ds ih =>
    rw [cells, List.getLastD_cons, ih, List.reverse_cons, List.append_assoc,
      List.singleton_append]

theorem distance_eq_leastEdits (a b : List Char) :
    distance a b = leastEdits a.reverse b.reverse := by
  rw [distance, ← row_nil, foldl_nextRow, row, getLastD_cells, List.append_nil, List.append_nil]

end Rows

section Distance

variable {a b : List Char}

theorem edits_reverse_iff {n : Nat} : Edits n a.reverse b.reverse ↔ Edits n a b :=
  ⟨fun h => by simpa using h.reverse, Edits.reverse⟩

theorem edits_comm {n : Nat} : Edits n a b ↔ Edits n b a :=
  ⟨Edits.symm, Edits.symm⟩

theorem distance_isLeast (a b : List Char) : IsLeast {n | Edits n a b} (distance a b) := by
  rw [distance_eq_leastEdits]
  simpa only [edits_reverse_iff] using leastEdits_isLeast a.reverse b.reverse

theorem editDistance_least (a b : String) :
    IsLeast {n | Edits n a.toList b.toList} (editDistance a b) := by
  rw [editDistance]
  split
  · simpa only [edits_comm] using distance_isLeast b.toList a.toList
  · exact distance_isLeast a.toList b.toList

end Distance

/-- The edit distance of two names is the length of a shortest way of edits from one to the other.
It does not matter which of the names comes first, only equal names have no distance, and no way
through a third name is shorter. -/
theorem editDistance_isLeast :
    (∀ a b : String, IsLeast {n | Edits n a.toList b.toList} (editDistance a b)) ∧
      (∀ a b : String, editDistance a b = editDistance b a) ∧
      (∀ a b : String, editDistance a b = 0 ↔ a = b) ∧
      ∀ a b c : String, editDistance a c ≤ editDistance a b + editDistance b c := by
  have hway (a b : String) : Edits (editDistance a b) a.toList b.toList :=
    (editDistance_least a b).1
  have hle {a b : String} {n : Nat} (h : Edits n a.toList b.toList) : editDistance a b ≤ n :=
    (editDistance_least a b).2 h
  refine ⟨editDistance_least, fun a b => ?_, fun a b => ⟨fun h => ?_, ?_⟩, fun a b c => ?_⟩
  · exact Nat.le_antisymm (hle (hway b a).symm) (hle (hway a b).symm)
  · have hnone := hway a b
    rw [h] at hnone
    exact String.toList_injective hnone.eq_of_zero
  · rintro rfl
    exact Nat.le_zero.mp (hle (.none a.toList))
  · exact hle ((hway a b).trans (hway b c))

end Minifun.Text
