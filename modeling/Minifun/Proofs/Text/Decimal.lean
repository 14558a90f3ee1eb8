/-! # Cutting off numbers

Where a text begins with a number, the number ends with its last digit. So the number can be told
from what follows it, as long as that does not begin with a digit itself.
-/

namespace Minifun.Text

theorem append_inj_of_all {α : Type} {p : α → Bool} {xs ys rest rest' : List α}
    (hx : ∀ a ∈ xs, p a = true) (hy : ∀ a ∈ ys, p a = true)
    (hr : ∀ a ∈ rest.head?, p a = false) (hr' : ∀ a ∈ rest'.head?, p a = false)
    (h : xs ++ rest = ys ++ rest') : xs = ys ∧ rest = rest' := by
  have hnil : ∀ {l : List α}, (∀ a ∈ l.head?, p a = false) → l.takeWhile p = [] := by
    intro l hl
    cases l with
    | nil => rfl
    | cons a l => exact List.takeWhile_cons_of_neg (by simp [hl a rfl])
  have hfront := congrArg (List.takeWhile p) h
  rw [List.takeWhile_append_of_pos hx, List.takeWhile_append_of_pos hy, hnil hr, hnil hr',
    List.append_nil, List.append_nil] at hfront
  subst hfront
  exact ⟨rfl, List.append_cancel_left h⟩

def EndsNumber (cs : List Char) : Prop :=
  ∀ c ∈ cs.head?, c.isDigit = false

@[simp] theorem endsNumber_nil : EndsNumber [] := by
  simp [EndsNumber]

@[simp] theorem endsNumber_cons (c : Char) (cs : List Char) :
    EndsNumber (c :: cs) ↔ c.isDigit = false := by
  simp [EndsNumber]

theorem isDigit_of_mem_digits {n : Nat} {c : Char} (h : c ∈ Nat.toDigits 10 n) :
    c.isDigit = true :=
  Nat.isDigit_of_mem_toDigits (by decide) (by decide) h

theorem isDigit_of_mem_nat {n : Nat} {c : Char} (h : c ∈ (toString n).toList) :
    c.isDigit = true := by
  change c ∈ n.repr.toList at h
  rw [Nat.toList_repr] at h
  exact isDigit_of_mem_digits h

theorem digits_injective {m n : Nat} (h : Nat.toDigits 10 m = Nat.toDigits 10 n) : m = n := by
  have hm : Nat.ofDigitChars 10 (Nat.toDigits 10 m) 0 = m :=
    Nat.ofDigitChars_toDigits (by decide) (by decide)
  have hn : Nat.ofDigitChars 10 (Nat.toDigits 10 n) 0 = n :=
    Nat.ofDigitChars_toDigits (by decide) (by decide)
  rw [← hm, ← hn, h]

variable {rest rest' : List Char}

theorem digits_append_inj {m n : Nat} (hr : EndsNumber rest) (hr' : EndsNumber rest')
    (h : Nat.toDigits 10 m ++ rest = Nat.toDigits 10 n ++ rest') : m = n ∧ rest = rest' := by
  obtain ⟨hd, rfl⟩ := append_inj_of_all (fun _ => isDigit_of_mem_digits)
    (fun _ => isDigit_of_mem_digits) hr hr' h
  exact ⟨digits_injective hd, rfl⟩

theorem toList_toString (i : Int) :
    (toString i).toList =
      if i < 0 then '-' :: Nat.toDigits 10 i.natAbs else Nat.toDigits 10 i.natAbs := by
  cases i with
  | ofNat n =>
    have h : ¬ Int.ofNat n < 0 := Int.not_lt.mpr (Int.natCast_nonneg n)
    rw [if_neg h]
    exact Nat.toList_repr
  | negSucc n =>
    rw [if_pos (Int.negSucc_lt_zero n)]
    change ("-" ++ (n + 1).repr).toList = _
    rw [String.toList_append, Nat.toList_repr]
    rfl

theorem mem_toString {i : Int} {c : Char} (h : c ∈ (toString i).toList) :
    c = '-' ∨ c.isDigit = true := by
  rw [toList_toString] at h
  split at h
  · exact (List.mem_cons.mp h).imp id isDigit_of_mem_digits
  · exact .inr (isDigit_of_mem_digits h)

theorem toString_append_inj {i j : Int} (hr : EndsNumber rest) (hr' : EndsNumber rest')
    (h : (toString i).toList ++ rest = (toString j).toList ++ rest') : i = j ∧ rest = rest' := by
  have hsign : ∀ (n : Nat) (cs cs' : List Char), Nat.toDigits 10 n ++ cs ≠ '-' :: cs' := by
    intro n cs cs' h
    obtain ⟨d, ds, hd⟩ := List.exists_cons_of_ne_nil (Nat.toDigits_ne_nil (n := n) (b := 10))
    have hdigit : d.isDigit = true := isDigit_of_mem_digits (n := n) (by simp [hd])
    rw [hd] at h
    obtain rfl : d = '-' := (List.cons.inj h).1
    exact absurd hdigit (by decide)
  rw [toList_toString, toList_toString] at h
  split at h <;> split at h
  · obtain ⟨hij, hrest⟩ := digits_append_inj hr hr' (List.cons.inj h).2
    exact ⟨by omega, hrest⟩
  · exact absurd h.symm (hsign _ _ _)
  · exact absurd h (hsign _ _ _)
  · obtain ⟨hij, hrest⟩ := digits_append_inj hr hr' h
    exact ⟨by omega, hrest⟩

end Minifun.Text
