import Minifun.Text.Lines

/-! # Joining lines and taking them apart

A text is taken apart into the lines that it was joined from, if there is a line and no line has a
line feed in it.
-/

namespace Minifun.Text

def OneLine (s : String) : Prop :=
  '\n' ∉ s.toList

instance (s : String) : Decidable (OneLine s) :=
  inferInstanceAs (Decidable ('\n' ∉ s.toList))

@[simp] theorem oneLine_append {s t : String} : OneLine (s ++ t) ↔ OneLine s ∧ OneLine t := by
  simp [OneLine]

@[simp] theorem oneLine_blanks (n : Nat) : OneLine (blanks n) := by
  simp [OneLine, blanks]

def OneLines (ls : List String) : Prop :=
  ∀ l ∈ ls, OneLine l

@[simp] theorem oneLines_nil : OneLines [] := by
  simp [OneLines]

@[simp] theorem oneLines_cons {l : String} {ls : List String} :
    OneLines (l :: ls) ↔ OneLine l ∧ OneLines ls :=
  List.forall_mem_cons

@[simp] theorem oneLines_append {ls ms : List String} :
    OneLines (ls ++ ms) ↔ OneLines ls ∧ OneLines ms :=
  List.forall_mem_append

theorem splitLines_ne_nil (cs : List Char) : splitLines cs ≠ [] := by
  cases cs with
  | nil => simp [splitLines]
  | cons c cs =>
    unfold splitLines
    split
    · simp
    · split <;> simp

theorem splitLines_cons {c : Char} (hc : c ≠ '\n') (cs : List Char) :
    ∃ l ls, splitLines cs = l :: ls ∧ splitLines (c :: cs) = (c :: l) :: ls := by
  obtain ⟨l, ls, hls⟩ := List.exists_cons_of_ne_nil (splitLines_ne_nil cs)
  exact ⟨l, ls, hls, by simp [splitLines, hc, hls]⟩

theorem splitLines_append (cs ds : List Char) :
    splitLines (cs ++ '\n' :: ds) = splitLines cs ++ splitLines ds := by
  induction cs with
  | nil => exact if_pos rfl
  | cons c cs ih =>
    by_cases hc : c = '\n'
    · subst hc
      rw [List.cons_append, splitLines, if_pos rfl, ih, splitLines, if_pos rfl, List.cons_append]
    · obtain ⟨l, ls, hls, hcons⟩ := splitLines_cons hc cs
      rw [List.cons_append, splitLines, if_neg hc, ih, hcons, hls]
      rfl

theorem splitLines_of_not_mem {cs : List Char} (h : '\n' ∉ cs) : splitLines cs = [cs] := by
  induction cs with
  | nil => rfl
  | cons c cs ih =>
    rw [splitLines, if_neg (List.ne_of_not_mem_cons h).symm,
      ih (List.not_mem_of_not_mem_cons h)]

theorem not_mem_of_mem_splitLines {cs l : List Char} (h : l ∈ splitLines cs) : '\n' ∉ l := by
  induction cs generalizing l with
  | nil => simp_all [splitLines]
  | cons c cs ih =>
    by_cases hc : c = '\n'
    · subst hc
      rw [splitLines, if_pos rfl] at h
      rcases List.mem_cons.mp h with rfl | h
      · exact List.not_mem_nil
      · exact ih h
    · obtain ⟨l', ls, hls, hcons⟩ := splitLines_cons hc cs
      rw [hls] at ih
      rw [hcons] at h
      rcases List.mem_cons.mp h with rfl | h
      · exact List.not_mem_cons_of_ne_of_not_mem (Ne.symm hc) (ih List.mem_cons_self)
      · exact ih (List.mem_cons_of_mem l' h)

theorem oneLine_of_mem_lines {s l : String} (h : l ∈ lines s) : OneLine l := by
  obtain ⟨cs, hcs, rfl⟩ := List.mem_map.mp h
  rw [OneLine, String.toList_ofList]
  exact not_mem_of_mem_splitLines hcs

theorem lines_of_oneLine {s : String} (h : OneLine s) : lines s = [s] := by
  rw [lines, splitLines_of_not_mem h, List.map_singleton, String.ofList_toList]

theorem mem_of_mem_splitLines {cs l : List Char} {c : Char} (hl : l ∈ splitLines cs) (hc : c ∈ l) :
    c ∈ cs := by
  induction cs generalizing l with
  | nil =>
    obtain rfl := List.mem_singleton.mp hl
    exact hc
  | cons d cs ih =>
    by_cases hd : d = '\n'
    · subst hd
      rw [splitLines, if_pos rfl] at hl
      rcases List.mem_cons.mp hl with rfl | hl
      · cases hc
      · exact List.mem_cons_of_mem _ (ih hl hc)
    · obtain ⟨l', ls, hls, hcons⟩ := splitLines_cons hd cs
      rw [hls] at ih
      rw [hcons] at hl
      rcases List.mem_cons.mp hl with rfl | hl
      · rcases List.mem_cons.mp hc with rfl | hc
        · exact List.mem_cons_self
        · exact List.mem_cons_of_mem d (ih List.mem_cons_self hc)
      · exact List.mem_cons_of_mem d (ih (List.mem_cons_of_mem l' hl) hc)

theorem lines_joinLines_eq_flatMap {ls : List String} (hne : ls ≠ []) :
    lines (joinLines ls) = ls.flatMap lines := by
  induction ls with
  | nil => exact absurd rfl hne
  | cons l ls ih =>
    cases ls with
    | nil => simp [joinLines]
    | cons l' ls =>
      rw [lines, joinLines, String.intercalate_cons_cons, String.append_assoc, String.toList_append,
        String.toList_append]
      change (splitLines (_ ++ '\n' :: _)).map String.ofList = _
      rw [splitLines_append, List.map_append]
      exact congrArg (lines l ++ ·) (ih (List.cons_ne_nil l' ls))

theorem flatMap_lines {ls : List String} (h : OneLines ls) : ls.flatMap lines = ls := by
  induction ls with
  | nil => rfl
  | cons l ls ih =>
    obtain ⟨hl, hls⟩ := oneLines_cons.mp h
    rw [List.flatMap_cons, lines_of_oneLine hl, ih hls, List.singleton_append]

theorem lines_joinLines {ls : List String} (hne : ls ≠ []) (h : OneLines ls) :
    lines (joinLines ls) = ls := by
  rw [lines_joinLines_eq_flatMap hne, flatMap_lines h]

theorem joinLines_injective {ls ms : List String} (hls : ls ≠ []) (hl : OneLines ls)
    (hms : ms ≠ []) (hm : OneLines ms) (h : joinLines ls = joinLines ms) : ls = ms := by
  rw [← lines_joinLines hls hl, h, lines_joinLines hms hm]

end Minifun.Text
