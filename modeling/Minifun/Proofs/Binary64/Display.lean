import Mathlib.Data.List.TakeWhile
import Minifun.Binary64.Written
import Minifun.Proofs.Binary64.Neighbourhoods
import Minifun.Proofs.Text.Decimal

/-! # Displayed reals

A real can be told from its written form. The digits, the point and the exponent determine a
rational, which lies in the neighbourhood of one real only. A point, an exponent or a letter tells
the written form from that of a whole number.
-/

namespace Minifun.Binary64

open Text (isDigit_of_mem_digits)

/-- What stands before the first occurrence of a character, and what stands behind it. -/
def cut (mark : Char) : List Char → List Char × List Char
  | [] => ([], [])
  | c :: cs => if c = mark then ([], cs) else (c :: (cut mark cs).1, (cut mark cs).2)

/-- The number that digits denote, whatever stands between them. -/
def digitsValue (cs : List Char) : Nat :=
  Nat.ofDigitChars 10 (cs.filter Char.isDigit) 0

def pointed (cs : List Char) : ℚ :=
  digitsValue cs * 10 ^ (-(cut '.' cs).2.length : Int)

def power (cs : List Char) : Int :=
  if cs.head? = some '-' then -digitsValue cs else digitsValue cs

def denoted (cs : List Char) : ℚ :=
  pointed (cut 'e' cs).1 * 10 ^ power (cut 'e' cs).2

def Digits (cs : List Char) : Prop :=
  ∀ c ∈ cs, c.isDigit = true

section Digits

variable {cs ds es : List Char} {mark : Char}

theorem cut_of_not_mem (h : mark ∉ cs) : cut mark cs = (cs, []) := by
  induction cs with
  | nil => rfl
  | cons c cs ih =>
    rw [cut, if_neg (List.ne_of_not_mem_cons h).symm, ih (List.not_mem_of_not_mem_cons h)]

theorem cut_append (h : mark ∉ cs) : cut mark (cs ++ mark :: ds) = (cs, ds) := by
  induction cs with
  | nil => exact if_pos rfl
  | cons c cs ih =>
    rw [List.cons_append, cut, if_neg (List.ne_of_not_mem_cons h).symm,
      ih (List.not_mem_of_not_mem_cons h)]

theorem Digits.append (h : Digits ds) (h' : Digits es) : Digits (ds ++ es) := by
  intro c hc
  exact (List.mem_append.mp hc).elim (h c) (h' c)

theorem Digits.not_mem (h : Digits ds) (hmark : mark.isDigit = false) : mark ∉ ds := by
  intro hmem
  simp [h mark hmem] at hmark

theorem Digits.digitsValue (h : Digits ds) : digitsValue ds = Nat.ofDigitChars 10 ds 0 := by
  rw [Binary64.digitsValue, List.filter_eq_self.mpr h]

theorem digits_zeros (n : Nat) : Digits (List.replicate n '0') := by
  intro c hc
  rw [List.eq_of_mem_replicate hc]
  decide

theorem digits_toDigits (n : Nat) : Digits (Nat.toDigits 10 n) :=
  fun _ => isDigit_of_mem_digits

theorem ofDigitChars_zeros (ds : List Char) (n : Nat) :
    Nat.ofDigitChars 10 (ds ++ List.replicate n '0') 0 = Nat.ofDigitChars 10 ds 0 * 10 ^ n := by
  rw [Nat.ofDigitChars_append, Nat.ofDigitChars_replicate_zero, Nat.mul_comm]

theorem zeros_ofDigitChars (ds : List Char) (n : Nat) :
    Nat.ofDigitChars 10 (List.replicate n '0' ++ ds) 0 = Nat.ofDigitChars 10 ds 0 := by
  rw [Nat.ofDigitChars_append, Nat.ofDigitChars_replicate_zero, Nat.mul_zero]

theorem pointed_digits (h : Digits ds) : pointed ds = Nat.ofDigitChars 10 ds 0 := by
  have hpoint : '.' ∉ ds := h.not_mem (by decide)
  simp [pointed, h.digitsValue, cut_of_not_mem hpoint]

theorem pointed_append (h : Digits ds) (h' : Digits es) :
    pointed (ds ++ '.' :: es) = Nat.ofDigitChars 10 (ds ++ es) 0 * 10 ^ (-es.length : Int) := by
  have hfilter : digitsValue (ds ++ '.' :: es) = digitsValue (ds ++ es) := by
    have hpoint : Char.isDigit '.' = false := by decide
    simp [digitsValue, hpoint]
  rw [pointed, hfilter, (h.append h').digitsValue, cut_append (h.not_mem (by decide))]

theorem denoted_of_not_mem (h : 'e' ∉ cs) : denoted cs = pointed cs := by
  have hpower : power [] = 0 := rfl
  rw [denoted, cut_of_not_mem h, hpower, zpow_zero, mul_one]

theorem denoted_append (h : 'e' ∉ cs) (ds : List Char) :
    denoted (cs ++ 'e' :: ds) = pointed cs * 10 ^ power ds := by
  rw [denoted, cut_append h]

end Digits

/-- Characters are the written form of a number: they begin with a digit, there is a point or an
exponent in them, and they denote the number. -/
structure Displays (cs : List Char) (x : ℚ) : Prop where
  denotes : denoted cs = x
  begins : ∃ c ∈ cs.head?, c.isDigit = true
  marked : '.' ∈ cs ∨ 'e' ∈ cs
  chars : ∀ c ∈ cs, c.isDigit = true ∨ c ∈ ['.', 'e', '+', '-']

section Displays

variable {form : WrittenForm} {ds es cs : List Char} {x : ℚ}

theorem displays_pointed (hne : ds ≠ []) (h : Digits ds) (h' : Digits es) :
    Displays (ds ++ '.' :: es) (Nat.ofDigitChars 10 (ds ++ es) 0 * 10 ^ (-es.length : Int)) := by
  have hmark : ∀ {ds}, Digits ds → 'e' ∉ ds := fun h => h.not_mem (by decide)
  have he : 'e' ∉ ds ++ '.' :: es := by simp [hmark h, hmark h']
  constructor
  · rw [denoted_of_not_mem he, pointed_append h h']
  · obtain ⟨c, cs, rfl⟩ := List.exists_cons_of_ne_nil hne
    exact ⟨c, rfl, h c List.mem_cons_self⟩
  · exact .inl (by simp)
  · intro c hc
    rcases List.mem_append.mp hc with hc | hc
    · exact .inl (h c hc)
    · rcases List.mem_cons.mp hc with rfl | hc
      · exact .inr (by simp)
      · exact .inl (h' c hc)

theorem placePoint_of_length_le {n : Nat} (hn : 0 < n) (h : ds.length ≤ n) :
    placePoint ds n = ds ++ List.replicate (n - ds.length) '0' ++ ['.', '0'] := by
  rw [placePoint, if_neg (by omega)]
  simp only [Int.toNat_natCast, List.drop_eq_nil_of_le h, List.take_of_length_le h]

theorem placePoint_of_lt_length {n : Nat} (hn : 0 < n) (h : n < ds.length) :
    placePoint ds n = ds.take n ++ '.' :: ds.drop n := by
  have hne : ds.drop n ≠ [] := mt List.drop_eq_nil_iff.mp (Nat.not_le.mpr h)
  obtain ⟨c, cs, hdrop⟩ := List.exists_cons_of_ne_nil hne
  rw [placePoint, if_neg (by omega)]
  simp only [Int.toNat_natCast, hdrop, Nat.sub_eq_zero_of_le h.le, List.replicate_zero,
    List.append_nil]

theorem displays_placePoint_of_nonpos (h : Digits ds) {n : Int} (hn : n ≤ 0) :
    Displays (placePoint ds n) (Nat.ofDigitChars 10 ds 0 * 10 ^ (n - ds.length)) := by
  have hzeros : Digits (List.replicate n.natAbs '0' ++ ds) := (digits_zeros _).append h
  have hvalue : Nat.ofDigitChars 10 (['0'] ++ (List.replicate n.natAbs '0' ++ ds)) 0 =
      Nat.ofDigitChars 10 ds 0 := by
    rw [← zeros_ofDigitChars ds (n.natAbs + 1), List.replicate_succ]
    rfl
  have hplaces : n - ds.length = (-(List.replicate n.natAbs '0' ++ ds).length : Int) := by
    rw [List.length_append, List.length_replicate]
    omega
  rw [placePoint, if_pos hn, hplaces, ← hvalue]
  exact displays_pointed (List.cons_ne_nil _ _) (digits_zeros 1) hzeros

theorem displays_placePoint_of_length_le (hne : ds ≠ []) (h : Digits ds) {n : Nat} (hn : 0 < n)
    (hlength : ds.length ≤ n) :
    Displays (placePoint ds n) (Nat.ofDigitChars 10 ds 0 * 10 ^ ((n : Int) - ds.length)) := by
  have hfront : Digits (ds ++ List.replicate (n - ds.length) '0') := h.append (digits_zeros _)
  have hvalue : (Nat.ofDigitChars 10 ds 0 : ℚ) * 10 ^ ((n : Int) - ds.length) =
      Nat.ofDigitChars 10 (ds ++ List.replicate (n - ds.length) '0' ++ ['0']) 0 *
        10 ^ (-['0'].length : Int) := by
    have hten : ((n : Int) - ds.length) = (n - ds.length : Nat) := by omega
    have hlast : Nat.ofDigitChars 10 (ds ++ List.replicate (n - ds.length) '0' ++ ['0']) 0 =
        Nat.ofDigitChars 10 ds 0 * 10 ^ (n - ds.length) * 10 := by
      rw [← ofDigitChars_zeros, ← Nat.pow_one 10, ← ofDigitChars_zeros]
      rfl
    rw [hten, hlast, zpow_natCast]
    push_cast
    rw [List.length_singleton, Nat.cast_one, zpow_neg_one, mul_inv_cancel_right₀ (by norm_num)]
  rw [placePoint_of_length_le hn hlength, hvalue]
  exact displays_pointed (List.append_ne_nil_of_left_ne_nil hne _) hfront (digits_zeros 1)

theorem displays_placePoint_of_lt_length (h : Digits ds) {n : Nat} (hn : 0 < n)
    (hlength : n < ds.length) :
    Displays (placePoint ds n) (Nat.ofDigitChars 10 ds 0 * 10 ^ ((n : Int) - ds.length)) := by
  have hplaces : (n : Int) - ds.length = (-(ds.drop n).length : Int) := by
    rw [List.length_drop]
    omega
  have hfront : Digits (ds.take n) := fun c hc => h c (List.mem_of_mem_take hc)
  have hback : Digits (ds.drop n) := fun c hc => h c (List.mem_of_mem_drop hc)
  have hne : ds.take n ≠ [] := by
    rw [Ne, List.take_eq_nil_iff, not_or]
    exact ⟨by omega, List.ne_nil_of_length_pos (by omega)⟩
  have hdisplays := displays_pointed hne hfront hback
  rwa [List.take_append_drop, ← hplaces, ← placePoint_of_lt_length hn hlength] at hdisplays

theorem displays_placePoint (hne : ds ≠ []) (h : Digits ds) (n : Int) :
    Displays (placePoint ds n) (Nat.ofDigitChars 10 ds 0 * 10 ^ (n - ds.length)) := by
  rcases le_or_gt n 0 with hn | hn
  · exact displays_placePoint_of_nonpos h hn
  · obtain ⟨n, rfl⟩ := Int.eq_ofNat_of_zero_le hn.le
    have hpos : 0 < n := Int.natCast_pos.mp hn
    rcases Nat.lt_or_ge n ds.length with hlt | hge
    · exact displays_placePoint_of_lt_length h hpos hlt
    · exact displays_placePoint_of_length_le hne h hpos hge

theorem power_writeExponent (form : WrittenForm) (e : Int) : power (writeExponent form e) = e := by
  have hdigits : Digits
      (List.replicate (form.exponentDigits - (Nat.toDigits 10 e.natAbs).length) '0' ++
      Nat.toDigits 10 e.natAbs) := (digits_zeros _).append (digits_toDigits _)
  have hvalue : digitsValue (writeExponent form e) = e.natAbs := by
    have hcons : ∀ c : Char, c.isDigit = false → ∀ ds, digitsValue (c :: ds) = digitsValue ds := by
      intro c hc ds
      simp [digitsValue, hc]
    rw [writeExponent, hcons _ (by split <;> decide), hdigits.digitsValue, zeros_ofDigitChars]
    exact Nat.ofDigitChars_toDigits (by decide) (by decide)
  unfold power
  rw [hvalue]
  unfold writeExponent
  by_cases he : e < 0
  · rw [if_pos he, List.head?_cons, if_pos rfl]
    omega
  · rw [if_neg he, List.head?_cons, if_neg (by decide)]
    omega

theorem chars_writeExponent (form : WrittenForm) (e : Int) :
    ∀ c ∈ writeExponent form e, c.isDigit = true ∨ c ∈ ['.', 'e', '+', '-'] := by
  intro c hc
  unfold writeExponent at hc
  rcases List.mem_cons.mp hc with rfl | hc
  · right
    split <;> simp
  · exact .inl ((digits_zeros _).append (digits_toDigits _) c hc)

theorem displays_writeScientific (hne : ds ≠ []) (h : Digits ds) (e : Int) :
    Displays (writeScientific form ds e) (Nat.ofDigitChars 10 ds 0 * 10 ^ (e + 1 - ds.length)) := by
  obtain ⟨d, rest, rfl⟩ := List.exists_cons_of_ne_nil hne
  have hd : Digits [d] := by simpa [Digits] using h d List.mem_cons_self
  have hrest : Digits rest := fun c hc => h c (List.mem_cons_of_mem _ hc)
  set front := if rest.isEmpty then [d] else d :: '.' :: rest with hfront
  have hwrite : writeScientific form (d :: rest) e = front ++ 'e' :: writeExponent form e := rfl
  -- A single digit has no point.
  obtain ⟨hvalue, he, hhead, hchars⟩ : pointed front =
      Nat.ofDigitChars 10 (d :: rest) 0 * 10 ^ (-rest.length : Int) ∧ 'e' ∉ front ∧
      front.head? = some d ∧ ∀ c ∈ front, c.isDigit = true ∨ c ∈ ['.', 'e', '+', '-'] := by
    cases rest with
    | nil =>
      refine ⟨by simp [hfront, pointed_digits hd], hd.not_mem (by decide), rfl, ?_⟩
      exact fun c hc => .inl (hd c hc)
    | cons d' rest =>
      have hdisplays := displays_pointed (List.cons_ne_nil d []) hd hrest
      have he : 'e' ∉ front := by
        have hmark : ∀ ds, Digits ds → 'e' ∉ ds := fun ds h => h.not_mem (by decide)
        have he := hmark _ h
        simpa [hfront] using he
      exact ⟨pointed_append hd hrest, he, rfl, hdisplays.chars⟩
  constructor
  · rw [hwrite, denoted_append he, power_writeExponent, hvalue, mul_assoc,
      ← zpow_add₀ (by norm_num)]
    congr 2
    simp only [List.length_cons]
    omega
  · rw [hwrite, List.head?_append, hhead]
    exact ⟨d, rfl, h d List.mem_cons_self⟩
  · rw [hwrite]
    exact .inr (by simp)
  · rw [hwrite]
    intro c hc
    rcases List.mem_append.mp hc with hc | hc
    · exact hchars c hc
    · rcases List.mem_cons.mp hc with rfl | hc
      · exact .inr (by simp)
      · exact chars_writeExponent form e c hc

theorem exists_zeros (cs : List Char) :
    ∃ n, cs = Text.dropEndWhile (· == '0') cs ++ List.replicate n '0' := by
  have hzeros : ∀ c ∈ cs.reverse.takeWhile (· == '0'), c = '0' := by
    intro c hc
    exact beq_iff_eq.mp (List.mem_takeWhile_imp (p := fun c => c == '0') hc)
  refine ⟨(cs.reverse.takeWhile (· == '0')).length, ?_⟩
  rw [← List.reverse_inj, List.reverse_append, List.reverse_replicate,
    ← List.eq_replicate_of_mem hzeros, Text.dropEndWhile, List.reverse_reverse,
    List.takeWhile_append_dropWhile]

theorem displays_writeDecimal {d : Nat} (hd : 0 < d) (e : Int) :
    Displays (writeDecimal form d e) (d * 10 ^ e) := by
  obtain ⟨n, hn⟩ := exists_zeros (Nat.toDigits 10 d)
  unfold writeDecimal
  set significant := Text.dropEndWhile (· == '0') (Nat.toDigits 10 d) with hsignificant
  have hdigits : Digits significant := by
    intro c hc
    exact digits_toDigits d c (hn ▸ List.mem_append_left _ hc)
  have hlength : (Nat.toDigits 10 d).length = significant.length + n := by
    rw [hn, List.length_append, List.length_replicate]
  have hvalue : Nat.ofDigitChars 10 significant 0 * 10 ^ n = d := by
    rw [← ofDigitChars_zeros, ← hn, Nat.ofDigitChars_toDigits (by decide) (by decide)]
  have hne : significant ≠ [] := by
    intro hnil
    rw [hnil] at hvalue
    simp at hvalue
    omega
  have hexponent : (d : ℚ) * 10 ^ e = Nat.ofDigitChars 10 significant 0 *
      10 ^ (e + (Nat.toDigits 10 d).length - 1 + 1 - significant.length) := by
    rw [hlength, ← hvalue]
    push_cast
    rw [mul_assoc, ← zpow_natCast, ← zpow_add₀ (by norm_num)]
    congr 2
    omega
  rw [hexponent]
  dsimp only
  split
  · exact displays_placePoint hne hdigits _
  · exact displays_writeScientific hne hdigits _

end Displays

section Texts

variable {m n : Nat} {e f : Int} {x y : Float}

def magnitude (m : Nat) (e : Int) : ℚ :=
  if m = 0 then 0 else (shortest m e).1 * 10 ^ (shortest m e).2

theorem magnitude_pos (hm : Canonical m e) (hpos : 0 < m) : 0 < magnitude m e := by
  have hdigits : (0 : ℚ) < (shortest m e).1 := by exact_mod_cast shortest_pos hm hpos
  rw [magnitude, if_neg (by omega)]
  positivity

theorem magnitude_injective (hm : Canonical m e) (hn : Canonical n f)
    (h : magnitude m e = magnitude n f) : m = n ∧ e = f := by
  have hzero : ∀ {m : Nat} {e : Int}, Canonical m e → m = 0 → e = leastExponent := by
    intro m e hm hzero
    rcases hm.least.lt_or_eq with hlt | heq
    · have := hm.full hlt
      omega
    · exact heq.symm
  rcases Nat.eq_zero_or_pos m with hm0 | hmpos
  · rcases Nat.eq_zero_or_pos n with hn0 | hnpos
    · exact ⟨hm0.trans hn0.symm, (hzero hm hm0).trans (hzero hn hn0).symm⟩
    · have hpos := magnitude_pos hn hnpos
      rw [← h, magnitude, if_pos hm0] at hpos
      exact absurd hpos (lt_irrefl 0)
  · rcases Nat.eq_zero_or_pos n with hn0 | hnpos
    · have hpos := magnitude_pos hm hmpos
      rw [h, magnitude, if_pos hn0] at hpos
      exact absurd hpos (lt_irrefl 0)
    · rw [magnitude, magnitude, if_neg (by omega), if_neg (by omega)] at h
      exact hm.eq_of_shortest hmpos hn hnpos h

def writeMagnitude (form : WrittenForm) (m : Nat) (e : Int) : List Char :=
  if m = 0 then ['0', '.', '0'] else writeDecimal form (shortest m e).1 (shortest m e).2

theorem write_finite (form : WrittenForm) (negative : Bool) (m : Nat) (e : Int) :
    write form (.finite negative m e) =
      if negative then '-' :: writeMagnitude form m e else writeMagnitude form m e := by
  -- The digits become variables, or else they are searched for.
  obtain ⟨⟨d, place⟩, hdigits⟩ : ∃ digits, shortest m e = digits := ⟨_, rfl⟩
  rw [write, writeMagnitude, hdigits]

theorem displays_writeMagnitude (hm : Canonical m e) (form : WrittenForm) :
    Displays (writeMagnitude form m e) (magnitude m e) := by
  by_cases hzero : m = 0
  · have hdigit : Digits ['0'] := digits_zeros 1
    have hdisplays := displays_pointed (List.cons_ne_nil '0' []) hdigit hdigit
    have hvalue : Nat.ofDigitChars 10 (['0'] ++ ['0']) 0 = 0 := rfl
    rw [hvalue, Nat.cast_zero, zero_mul] at hdisplays
    rw [writeMagnitude, magnitude, if_pos hzero, if_pos hzero]
    exact hdisplays
  · rw [writeMagnitude, magnitude, if_neg hzero, if_neg hzero]
    exact displays_writeDecimal (shortest_pos hm (Nat.pos_of_ne_zero hzero)) _

theorem signed_inj {negative negative' : Bool} {cs ds : List Char} (hcs : cs.head? ≠ some '-')
    (hds : ds.head? ≠ some '-')
    (h : (if negative then '-' :: cs else cs) = if negative' then '-' :: ds else ds) :
    negative = negative' ∧ cs = ds := by
  cases negative <;> cases negative'
  · exact ⟨rfl, h⟩
  · exact absurd (congrArg List.head? h) hcs
  · exact absurd (congrArg List.head? h.symm) hds
  · exact ⟨rfl, (List.cons.inj h).2⟩

theorem Displays.head_ne {cs : List Char} {x : ℚ} (h : Displays cs x) : cs.head? ≠ some '-' := by
  intro hminus
  obtain ⟨c, hc, hdigit⟩ := h.begins
  obtain rfl := Option.some.inj (hminus.symm.trans hc)
  exact absurd hdigit (by decide)

theorem write_finite_injective {negative negative' : Bool} (hm : Canonical m e)
    (hn : Canonical n f) {form : WrittenForm}
    (h : write form (.finite negative m e) = write form (.finite negative' n f)) :
    negative = negative' ∧ m = n ∧ e = f := by
  have hx := displays_writeMagnitude hm form
  have hy := displays_writeMagnitude hn form
  rw [write_finite, write_finite] at h
  obtain ⟨hsign, hdigits⟩ := signed_inj hx.head_ne hy.head_ne h
  refine ⟨hsign, magnitude_injective hm hn ?_⟩
  rw [← hx.denotes, ← hy.denotes, hdigits]

theorem write_finite_chars (hm : Canonical m e) (form : WrittenForm) (negative : Bool) :
    ∀ c ∈ write form (.finite negative m e), c.isDigit = true ∨ c ∈ ['.', 'e', '+', '-'] := by
  have hx := displays_writeMagnitude hm form
  intro c hc
  rw [write_finite] at hc
  split at hc
  · rcases List.mem_cons.mp hc with rfl | hc
    · exact .inr (by simp)
    · exact hx.chars c hc
  · exact hx.chars c hc

/-- The characters of a written real. Every written form has a mark in it that a whole number does
not have: a point, an exponent or a letter. -/
theorem write_chars (form : WrittenForm) (x : Float) :
    (∀ c ∈ write form (parts x), c.isDigit = true ∨ c ∈ ['.', 'e', '+', '-', 'i', 'n', 'f', 'a']) ∧
      ∃ c ∈ write form (parts x), c ∈ ['.', 'e', 'n'] := by
  cases hparts : parts x with
  | nan => exact ⟨by simp [write], 'n', by simp [write]⟩
  | infinite negative => cases negative <;> exact ⟨by simp [write], 'n', by simp [write]⟩
  | finite negative m e =>
    have hm := parts_canonical hparts
    have hmark : ∀ c ∈ ['.', 'e', '+', '-'], c ∈ ['.', 'e', '+', '-', 'i', 'n', 'f', 'a'] := by simp
    refine ⟨fun c hc => (write_finite_chars hm form negative c hc).imp id (hmark c), ?_⟩
    have hsub : ∀ c ∈ writeMagnitude form m e, c ∈ write form (.finite negative m e) := by
      rw [write_finite]
      cases negative <;> simp +contextual
    rcases (displays_writeMagnitude hm form).marked with hpoint | hexponent
    · exact ⟨'.', hsub _ hpoint, by simp⟩
    · exact ⟨'e', hsub _ hexponent, by simp⟩

/-- Different reals are displayed differently. -/
theorem text_injective (h : text x = text y) : x = y := by
  have hwrite : write .standard (parts x) = write .standard (parts y) := String.ofList_inj.mp h
  refine parts_injective ?_
  -- Only the words have letters in them.
  have hword : ∀ {z : Float} {negative : Bool} {m : Nat} {e : Int},
      parts z = .finite negative m e → 'n' ∉ write .standard (parts z) := by
    intro z negative m e hz hmem
    rw [hz] at hmem
    exact absurd (write_finite_chars (parts_canonical hz) _ _ _ hmem) (by decide)
  cases hx : parts x with
  | finite negative m e =>
    have hnone := hword hx
    rw [hwrite] at hnone
    cases hy : parts y with
    | finite negative' n f =>
      rw [hx, hy] at hwrite
      obtain ⟨rfl, rfl, rfl⟩ :=
        write_finite_injective (parts_canonical hx) (parts_canonical hy) hwrite
      rfl
    | nan => simp [hy, write] at hnone
    | infinite negative' => cases negative' <;> simp [hy, write] at hnone
  | nan =>
    rw [hx] at hwrite
    cases hy : parts y with
    | finite negative' n f =>
      have hnone := hword hy
      rw [← hwrite] at hnone
      simp [write] at hnone
    | nan => rfl
    | infinite negative' => cases negative' <;> simp [hy, write] at hwrite
  | infinite negative =>
    rw [hx] at hwrite
    cases hy : parts y with
    | finite negative' n f =>
      have hnone := hword hy
      rw [← hwrite] at hnone
      cases negative <;> simp [write] at hnone
    | nan => cases negative <;> simp [hy, write] at hwrite
    | infinite negative' => cases negative <;> cases negative' <;> simp [hy, write] at hwrite ⊢

theorem mem_text {c : Char} (h : c ∈ (text x).toList) :
    c.isDigit = true ∨ c ∈ ['.', 'e', '+', '-', 'i', 'n', 'f', 'a'] := by
  rw [text, String.toList_ofList] at h
  exact (write_chars .standard x).1 c h

theorem text_ne_toString (x : Float) (i : Int) : text x ≠ toString i := by
  intro h
  obtain ⟨c, hc, hmark⟩ := (write_chars .standard x).2
  have hmem : c ∈ (toString i).toList := by
    rw [← h, text, String.toList_ofList]
    exact hc
  have hnumber : ∀ c ∈ ['.', 'e', 'n'], ¬ (c = '-' ∨ c.isDigit = true) := by simp
  exact hnumber c hmark (Text.mem_toString hmem)

end Texts

end Minifun.Binary64
