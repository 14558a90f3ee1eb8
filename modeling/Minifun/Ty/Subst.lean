import Minifun.Ty.Basic

/-! # Substitutions

A substitution binds type variables to types, which may mention further bound variables. Applying
it follows the bindings to the end. When no variable leads back to itself this takes at most as many
steps as there are bindings, so the number of bindings bounds the recursion. A variable bound to a
missing type has its place among the bindings, but it stands for itself and may be bound again.
-/

namespace Minifun

/-- Bindings of type variables in the order in which they were made. -/
structure Subst where
  bindings : List (Int × Ty) := []
deriving DecidableEq, Repr, Inhabited

namespace Subst

def lookup (s : Subst) (id : Int) : Option Ty :=
  (s.bindings.lookup id).filter fun t => !t.isNothing

/-- Bindings with one more. A variable that is bound already keeps its place. -/
def insert (id : Int) (t : Ty) : List (Int × Ty) → List (Int × Ty)
  | [] => [(id, t)]
  | b :: bs => if b.1 = id then (id, t) :: bs else b :: insert id t bs

/-- The substitution with a variable bound to a type. Whether it may be bound is for the caller to
check. -/
def bind (s : Subst) (id : Int) (t : Ty) : Subst :=
  ⟨insert id t s.bindings⟩

def size (s : Subst) : Nat :=
  s.bindings.length

/-- The number of bindings to types that are not missing. -/
def strength (s : Subst) : Nat :=
  s.bindings.countP fun b => !b.2.isNothing

/-- The type with its variables replaced along chains of at most `n` bindings. -/
def applyWithin (s : Subst) : Nat → Ty → Ty
  | 0 => id
  | n + 1 => Ty.mapVars fun i c =>
    match s.lookup i with
    | none => .var i c
    | some t => applyWithin s n t

def apply (s : Subst) (t : Ty) : Ty :=
  s.applyWithin s.size t

/-- Whether applying the substitution to a type comes to an end: no variable is left that stands for
something. -/
def settles (s : Subst) (t : Ty) : Bool :=
  (s.apply t).vars.all fun v => (s.lookup v.1).isNone

/-- New numbers for variables: the first one that occurs becomes `t0`, the next one `t1`. A variable
keeps the constraint of its first occurrence. -/
def renumber : List (Int × Option Constraint) → List (Int × Ty) → List (Int × Ty)
  | [], known => known
  | (i, c) :: vs, known =>
    match known.lookup i with
    | some _ => renumber vs known
    | none => renumber vs (known ++ [(i, .var known.length c)])

def canonical (t : Ty) : Ty :=
  let names := renumber t.vars []
  t.mapVars fun i c => (names.lookup i).getD (.var i c)

/-- The type as it is shown outside: bound variables replaced and the rest numbered anew. -/
def externalize (s : Subst) (t : Ty) : Ty :=
  canonical (s.apply t)

/-- Two types as they are shown outside together, so that a variable of both has one number. -/
def externalizePair (s : Subst) (a b : Ty) : Ty × Ty :=
  match s.externalize (.fn a b) with
  | .fn a' b' => (a', b')
  | _ => (a, b)

def text (s : Subst) : String :=
  "\x7b" ++ ", ".intercalate (s.bindings.map fun b => "t" ++ toString b.1 ++ " := " ++ b.2.text) ++
    "\x7d"

theorem lookup_cons (b : Int × Ty) (bs : List (Int × Ty)) (j : Int) :
    List.lookup j (b :: bs) = if j = b.1 then some b.2 else List.lookup j bs := by
  obtain ⟨i, t⟩ := b
  by_cases h : j = i
  · simp [h]
  · simp [List.lookup_cons, h, beq_false_of_ne h]

theorem lookup_insert (i j : Int) (t : Ty) (bs : List (Int × Ty)) :
    List.lookup j (insert i t bs) = if j = i then some t else List.lookup j bs := by
  induction bs with
  | nil => simp [insert, lookup_cons]
  | cons b bs ih =>
    by_cases hb : b.1 = i
    · by_cases h : j = i <;> simp [insert, lookup_cons, hb, h]
    · by_cases h : j = i
      · subst h
        have : j ≠ b.1 := fun e => hb e.symm
        simp [insert, hb, lookup_cons, ih, this]
      · simp [insert, hb, lookup_cons, ih, h]

theorem insert_of_lookup_eq_none {i : Int} {t : Ty} {bs : List (Int × Ty)}
    (h : bs.lookup i = none) : insert i t bs = bs ++ [(i, t)] := by
  induction bs with
  | nil => rfl
  | cons b bs ih =>
    rw [lookup_cons] at h
    split at h
    · simp at h
    · rename_i hb
      have hb' : b.1 ≠ i := fun e => hb e.symm
      simp [insert, hb', ih h]

theorem lookup_bind (s : Subst) (i j : Int) (t : Ty) (h : t.isNothing = false) :
    (s.bind i t).lookup j = if j = i then some t else s.lookup j := by
  simp only [lookup, bind, lookup_insert]
  by_cases hj : j = i <;> simp [hj, h]

theorem strength_bind (s : Subst) (i : Int) (t : Ty) (h : s.lookup i = none)
    (ht : t.isNothing = false) : (s.bind i t).strength = s.strength + 1 := by
  obtain ⟨bs⟩ := s
  simp only [lookup, bind, strength] at *
  induction bs with
  | nil => simp [insert, ht]
  | cons b bs ih =>
    rw [lookup_cons] at h
    by_cases hi : i = b.1
    · have hb : b.2.isNothing = true := by simpa [hi] using h
      simp [insert, hi, hb, ht]
    · have hb : b.1 ≠ i := fun e => hi e.symm
      simp only [hi, if_false] at h
      simp [insert, hb, List.countP_cons, ih h]
      omega

theorem lookup_renumber_of_known {vs : List (Int × Option Constraint)} {known : List (Int × Ty)}
    {i : Int} {u : Ty} (h : known.lookup i = some u) : (renumber vs known).lookup i = some u := by
  induction vs generalizing known with
  | nil => exact h
  | cons v vs ih =>
    obtain ⟨j, c⟩ := v
    unfold renumber
    split
    · exact ih h
    · exact ih (by rw [List.lookup_append, h, Option.some_or])

theorem exists_lookup_renumber {vs : List (Int × Option Constraint)} (known : List (Int × Ty))
    {i : Int} {c : Option Constraint} (h : (i, c) ∈ vs) :
    ∃ u, (renumber vs known).lookup i = some u := by
  induction vs generalizing known with
  | nil => exact nomatch h
  | cons v vs ih =>
    obtain ⟨j, d⟩ := v
    unfold renumber
    rcases List.mem_cons.mp h with h | h
    · obtain ⟨rfl, rfl⟩ := Prod.mk.inj h
      split
      · exact ⟨_, lookup_renumber_of_known ‹_›⟩
      · refine ⟨.var known.length c, lookup_renumber_of_known ?_⟩
        rw [List.lookup_append, ‹known.lookup i = none›]
        simp
    · split
      · exact ih _ h
      · exact ih _ h

end Subst

end Minifun
