import Minifun.Proofs.Text.Decimal
import Minifun.Ty.Basic

/-! # Displayed types

The written form of a type tells where it ends: lists and functions are closed by their brackets,
and the number of a variable by what is not a digit. So a type is read off its written form, but
for the constraints of its variables, which are not written.
-/

namespace Minifun.Ty

open Text (EndsNumber)

def chars : Ty → List Char
  | .int => ['i', 'n', 't']
  | .real => ['r', 'e', 'a', 'l']
  | .bool => ['b', 'o', 'o', 'l']
  | .list a => '[' :: ' ' :: (a.chars ++ [' ', ']'])
  | .fn a b => '(' :: (a.chars ++ ' ' :: '-' :: '>' :: ' ' :: (b.chars ++ [')']))
  | .var i _ => 't' :: (toString i).toList
  | .nothing => ['N', 'o', 'n', 'e']

theorem toList_text (t : Ty) : t.text.toList = t.chars := by
  induction t with
  | int | real | bool | nothing => rfl
  | list a ih => simp [text, chars, String.toList_append, ih]
  | fn a b iha ihb => simp [text, chars, String.toList_append, iha, ihb]
  | var i c => simp [text, chars, String.toList_append]

theorem chars_append_inj {s t : Ty} {rest rest' : List Char} (hr : EndsNumber rest)
    (hr' : EndsNumber rest') (h : s.chars ++ rest = t.chars ++ rest') :
    s.bare = t.bare ∧ rest = rest' := by
  -- What follows a part of a type is a blank or a bracket, so the parts are told apart in turn.
  induction s generalizing t rest rest' with
  | int | real | bool | nothing => cases t <;> simp_all [chars]
  | list a ih =>
    cases t with
    | list b =>
      simp only [chars, List.cons_append, List.append_assoc, List.cons.injEq, true_and] at h
      obtain ⟨hab, hrest⟩ := ih (by simp) (by simp) h
      simp only [List.cons.injEq, true_and] at hrest
      exact ⟨congrArg list hab, hrest⟩
    | _ => simp [chars] at h
  | fn a b iha ihb =>
    cases t with
    | fn c d =>
      simp only [chars, List.cons_append, List.append_assoc, List.cons.injEq, true_and] at h
      obtain ⟨hac, h⟩ := iha (by simp) (by simp) h
      simp only [List.cons.injEq, true_and] at h
      obtain ⟨hbd, hrest⟩ := ihb (by simp) (by simp) h
      simp only [List.cons.injEq, true_and] at hrest
      have hbare : fn a.bare b.bare = fn c.bare d.bare := by rw [hac, hbd]
      exact ⟨hbare, hrest⟩
    | _ => simp [chars] at h
  | var i c =>
    cases t with
    | var j d =>
      obtain ⟨rfl, hrest⟩ := Text.toString_append_inj hr hr' (List.cons.inj h).2
      exact ⟨rfl, hrest⟩
    | _ => simp [chars] at h

@[simp] theorem chars_bare (t : Ty) : t.bare.chars = t.chars := by
  induction t with
  | int | real | bool | nothing | var => rfl
  | list a ih => exact congrArg (fun cs => '[' :: ' ' :: (cs ++ [' ', ']'])) ih
  | fn a b iha ihb =>
    change '(' :: (a.bare.chars ++ ' ' :: '-' :: '>' :: ' ' :: (b.bare.chars ++ [')'])) = _
    rw [iha, ihb, chars]

/-- Two types are displayed alike just if they agree but for the constraints of their variables. -/
theorem text_eq_text_iff (s t : Ty) : s.text = t.text ↔ s.same t = true := by
  rw [same_iff, ← String.toList_inj, toList_text, toList_text]
  constructor
  · intro h
    have hend : s.chars ++ [] = t.chars ++ [] := by rw [h]
    exact (chars_append_inj (by simp) (by simp) hend).1
  · intro h
    rw [← chars_bare s, h, chars_bare]

end Minifun.Ty
