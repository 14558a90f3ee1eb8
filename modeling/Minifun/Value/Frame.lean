/-! # Frames

A frame lists the names of one scope with what they stand for, in the order in which they were
bound. Binding a name again keeps its place. A view of several frames lists the inner ones first,
and of several bindings of a name only the first counts.
-/

namespace Minifun

abbrev Frame (α : Type) := List (String × α)

namespace Frame

variable {α : Type}

def find? (f : Frame α) (name : String) : Option α :=
  f.lookup name

def defines (f : Frame α) (name : String) : Bool :=
  f.any fun b => b.1 == name

/-- The frame with a name bound, in its old place if it has one and at the end otherwise. -/
def define (name : String) (a : α) : Frame α → Frame α
  | [] => [(name, a)]
  | b :: bs => if b.1 = name then (name, a) :: bs else b :: define name a bs

def ofList (bindings : List (String × α)) : Frame α :=
  bindings.foldl (fun f b => define b.1 b.2 f) []

/-- The bindings whose names are neither in `seen` nor bound earlier. -/
def distinctFrom (seen : List String) : List (String × α) → Frame α
  | [] => []
  | b :: bs =>
    if seen.contains b.1 then distinctFrom seen bs
    else b :: distinctFrom (b.1 :: seen) bs

def distinct (bindings : List (String × α)) : Frame α :=
  distinctFrom [] bindings

def names (f : Frame α) : List String :=
  f.map (·.1)

@[simp] theorem find?_nil (x : String) : Frame.find? ([] : Frame α) x = none := rfl

@[simp] theorem find?_cons (b : String × α) (f : Frame α) (x : String) :
    Frame.find? (b :: f) x = if x = b.1 then some b.2 else Frame.find? f x := by
  obtain ⟨y, a⟩ := b
  by_cases h : x = y
  · simp [Frame.find?, h]
  · simp [Frame.find?, List.lookup_cons, h, beq_false_of_ne h]

theorem mem_of_find?_eq_some {f : Frame α} {x : String} {a : α} (h : f.find? x = some a) :
    (x, a) ∈ f := by
  obtain ⟨l₁, l₂, rfl, -⟩ := List.lookup_eq_some_iff.mp h
  exact List.mem_append_right _ List.mem_cons_self

theorem find?_define (x y : String) (a : α) (f : Frame α) :
    Frame.find? (define x a f) y = if y = x then some a else Frame.find? f y := by
  induction f with
  | nil => simp [define]
  | cons b f ih =>
    by_cases h : b.1 = x
    · by_cases hy : y = x <;> simp [define, h, hy]
    · by_cases hy : y = x
      · subst hy
        have : y ≠ b.1 := fun e => h e.symm
        simp [define, h, ih, this]
      · simp [define, h, ih, hy]

theorem defines_iff (f : Frame α) (x : String) : f.defines x = true ↔ x ∈ f.names := by
  simp only [defines, names, List.any_eq_true, beq_iff_eq, List.mem_map]

theorem names_define_of_mem {x : String} {f : Frame α} (a : α) (h : x ∈ f.names) :
    (define x a f).names = f.names := by
  induction f with
  | nil => simp [names] at h
  | cons b f ih =>
    by_cases hb : b.1 = x
    · simp [define, hb, names]
    · have hx : x ∈ names f := by
        simp only [names, List.map_cons, List.mem_cons] at h
        rcases h with h | h
        · exact absurd h.symm hb
        · exact h
      have := ih hx
      simp only [names] at this
      simp [define, hb, names, this]

theorem define_of_not_mem {x : String} {f : Frame α} (a : α) (h : x ∉ f.names) :
    define x a f = f ++ [(x, a)] := by
  induction f with
  | nil => rfl
  | cons b f ih =>
    simp only [names, List.map_cons, List.mem_cons, not_or] at h
    have hb : b.1 ≠ x := fun e => h.1 e.symm
    simp [define, hb, ih h.2]

theorem names_define_of_not_mem {x : String} {f : Frame α} (a : α) (h : x ∉ f.names) :
    (define x a f).names = f.names ++ [x] := by
  simp [define_of_not_mem a h, names]

theorem define_define (x : String) (a b : α) (f : Frame α) :
    define x b (define x a f) = define x b f := by
  induction f with
  | nil => simp [define]
  | cons c f ih =>
    by_cases hc : c.1 = x
    · simp [define, hc]
    · simp [define, hc, ih]

theorem mem_names_define {x : String} {f : Frame α} (h : x ∈ f.names) (y : String) (a : α) :
    x ∈ (define y a f).names := by
  by_cases hy : y ∈ f.names
  · rwa [names_define_of_mem a hy]
  · rw [names_define_of_not_mem a hy]
    exact List.mem_append_left _ h

theorem find?_eq_none_iff (f : Frame α) (x : String) : f.find? x = none ↔ x ∉ f.names := by
  induction f with
  | nil => simp [names]
  | cons b f ih =>
    by_cases h : x = b.1
    · simp [h, names]
    · simpa [h, names] using ih

theorem find?_distinctFrom (seen : List String) (bs : List (String × α)) (x : String)
    (h : x ∉ seen) : Frame.find? (distinctFrom seen bs) x = Frame.find? bs x := by
  induction bs generalizing seen with
  | nil => rfl
  | cons b bs ih =>
    by_cases hb : b.1 ∈ seen
    · have : x ≠ b.1 := fun e => h (e ▸ hb)
      simp [distinctFrom, hb, ih seen h, this]
    · by_cases hx : x = b.1
      · simp [distinctFrom, hb, hx]
      · have : x ∉ b.1 :: seen := by simp [hx, h]
        simp [distinctFrom, hb, hx, ih _ this]

@[simp] theorem find?_distinct (bs : List (String × α)) (x : String) :
    Frame.find? (distinct bs) x = Frame.find? bs x :=
  find?_distinctFrom [] bs x (by simp)

theorem not_mem_names_distinctFrom (seen : List String) (bs : List (String × α)) {x : String}
    (h : x ∈ seen) : x ∉ (distinctFrom seen bs).names := by
  induction bs generalizing seen with
  | nil => simp [distinctFrom, names]
  | cons b bs ih =>
    by_cases hb : b.1 ∈ seen
    · simpa [distinctFrom, hb] using ih seen h
    · have hx : x ≠ b.1 := fun e => hb (e ▸ h)
      have := ih (b.1 :: seen) (by simp [h])
      simp only [names] at this
      simp [distinctFrom, hb, names, hx, this]

theorem nodup_names_distinctFrom (seen : List String) (bs : List (String × α)) :
    (distinctFrom seen bs).names.Nodup := by
  induction bs generalizing seen with
  | nil => simp [distinctFrom, names]
  | cons b bs ih =>
    by_cases hb : b.1 ∈ seen
    · simpa [distinctFrom, hb] using ih seen
    · have hn : b.1 ∉ (distinctFrom (b.1 :: seen) bs).names :=
        not_mem_names_distinctFrom _ bs (by simp)
      have := ih (b.1 :: seen)
      simp only [names] at this hn
      simp [distinctFrom, hb, names, this, hn]

theorem mem_of_mem_distinctFrom {seen : List String} {bs : List (String × α)} {b : String × α}
    (h : b ∈ distinctFrom seen bs) : b ∈ bs := by
  induction bs generalizing seen with
  | nil => exact nomatch h
  | cons c bs ih =>
    unfold distinctFrom at h
    split at h
    · exact List.mem_cons_of_mem _ (ih h)
    · rcases List.mem_cons.mp h with rfl | h
      · exact List.mem_cons_self
      · exact List.mem_cons_of_mem _ (ih h)

theorem mem_of_mem_distinct {bs : List (String × α)} {b : String × α} (h : b ∈ distinct bs) :
    b ∈ bs :=
  mem_of_mem_distinctFrom h

theorem nodup_names_distinct (bs : List (String × α)) : (distinct bs).names.Nodup :=
  nodup_names_distinctFrom [] bs

end Frame

end Minifun
