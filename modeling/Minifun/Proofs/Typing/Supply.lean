import Minifun.Proofs.Typing.Renaming
import Minifun.Typing.Checker

/-! # Checkers and the supply of variables

The variables a checker knows were drawn from the supply. A checker that draws from a supply that is
further on therefore finds the same as before, under other numbers. The answers of a checker show no
numbers, so it cannot be seen from them who else has drawn from the supply.
-/

namespace Minifun

def Ty.Below (n : Nat) (t : Ty) : Prop :=
  ∀ i c, (i, c) ∈ t.vars → i < n

structure Checker.Below (n : Nat) (c : Checker) : Prop where
  frame : ∀ b ∈ c.frame, b.2.Below n
  subst : ∀ b ∈ c.subst.bindings, b.1 < n ∧ b.2.Below n

section Bounds

variable {π σ : Int → Int} {n : Nat}

def beyond (n : Nat) (i : Int) : Int :=
  if i < n then i else i + 1

theorem beyond_injective (n : Nat) : Function.Injective (beyond n) := by
  intro i j h
  unfold beyond at h
  split_ifs at h <;> omega

theorem beyond_eq_self_iff {i : Int} : beyond n i = i ↔ i < n := by
  unfold beyond
  split_ifs <;> omega

theorem Ty.below_iff_rename_beyond {t : Ty} : t.Below n ↔ t.rename (beyond n) = t := by
  simp only [Ty.Below, Ty.rename_eq_self_iff, beyond_eq_self_iff]

theorem Frame.rename_eq_self_iff {f : Frame Ty} :
    Frame.rename π f = f ↔ ∀ b ∈ f, b.2.rename π = b.2 := by
  induction f with
  | nil => simp [Frame.rename]
  | cons b f ih =>
    simp only [Frame.rename, List.map_cons, List.cons.injEq, List.forall_mem_cons] at ih ⊢
    rw [ih]
    simp [Prod.ext_iff]

theorem Subst.rename_eq_self_iff {s : Subst} :
    s.rename π = s ↔ ∀ b ∈ s.bindings, π b.1 = b.1 ∧ b.2.rename π = b.2 := by
  obtain ⟨bs⟩ := s
  simp only [Subst.rename, Subst.mk.injEq]
  induction bs with
  | nil => simp
  | cons b bs ih =>
    simp only [List.map_cons, List.cons.injEq, List.forall_mem_cons, ih]
    simp [Prod.ext_iff]

theorem Frame.rename_id (f : Frame Ty) : Frame.rename id f = f :=
  Frame.rename_eq_self_iff.mpr fun b _ => b.2.rename_id

theorem Subst.rename_id (s : Subst) : s.rename id = s :=
  Subst.rename_eq_self_iff.mpr fun b _ => ⟨rfl, b.2.rename_id⟩

theorem Frame.rename_congr {f : Frame Ty} (h : ∀ b ∈ f, b.2.rename π = b.2.rename σ) :
    Frame.rename π f = Frame.rename σ f :=
  List.map_congr_left fun b hb => by rw [h b hb]

theorem Subst.rename_congr {s : Subst}
    (h : ∀ b ∈ s.bindings, π b.1 = σ b.1 ∧ b.2.rename π = b.2.rename σ) :
    s.rename π = s.rename σ := by
  simp only [Subst.rename, Subst.mk.injEq]
  exact List.map_congr_left fun b hb => by rw [(h b hb).1, (h b hb).2]

theorem Ty.Below.rename_congr {t : Ty} (ht : t.Below n) (h : ∀ i : Int, i < n → π i = σ i) :
    t.rename π = t.rename σ :=
  Ty.rename_congr fun i c hv => h i (ht i c hv)

theorem Checker.below_iff_rename_beyond {c : Checker} :
    c.Below n ↔ Frame.rename (beyond n) c.frame = c.frame ∧
      c.subst.rename (beyond n) = c.subst := by
  rw [Frame.rename_eq_self_iff, Subst.rename_eq_self_iff]
  simp only [beyond_eq_self_iff, ← Ty.below_iff_rename_beyond]
  exact ⟨fun h => ⟨h.frame, h.subst⟩, fun h => ⟨h.1, h.2⟩⟩

theorem Ty.Below.mono {m : Nat} {t : Ty} (ht : t.Below n) (h : n ≤ m) : t.Below m := by
  intro i c hv
  have := ht i c hv
  omega

theorem Checker.Below.empty : ({} : Checker).Below n :=
  ⟨fun _ hb => absurd hb List.not_mem_nil, fun _ hb => absurd hb List.not_mem_nil⟩

theorem Checker.Below.mono {m : Nat} {c : Checker} (hc : c.Below n) (h : n ≤ m) : c.Below m := by
  constructor
  · exact fun b hb => (hc.frame b hb).mono h
  · intro b hb
    have hb' := hc.subst b hb
    exact ⟨by omega, hb'.2.mono h⟩

end Bounds

namespace Checker

open Infer

variable {c c' : Checker} {n n' : Nat} {shared shared' : Shared}

theorem instep_program {χ : Relabelling} (hplace : χ.place = id) (ss : List Expr) :
    InStep χ (Named χ) (Term.inferStatements [] .nothing ss)
      (Term.inferStatements [] .nothing ss) := by
  have h := instep_statements (χ := χ) (follows_all ss) [] .nothing
  rwa [hplace, Term.relocateAll_id] at h

def left (c : Checker) (shared : Shared) (ss : List Expr) : InferState :=
  final (Term.inferStatements [] .nothing ss (c.start shared))

theorem check_checker (c : Checker) (shared : Shared) (ss : List Expr) :
    (c.check shared ss).checker = ⟨(c.left shared ss).frame, (c.left shared ss).subst⟩ := by
  unfold check left
  cases Term.inferStatements [] .nothing ss (c.start shared) <;> rfl

theorem check_next (c : Checker) (shared : Shared) (ss : List Expr) :
    (c.check shared ss).shared.next = (c.left shared ss).next := by
  unfold check left
  cases Term.inferStatements [] .nothing ss (c.start shared) <;> rfl

def unused (c : Checker) (shared : Shared) (ss : List Expr) : Relabelling where
  number := beyond (c.left shared ss).next
  injective := beyond_injective _
  limit := (c.left shared ss).next

theorem next_le_check (c : Checker) (shared : Shared) (ss : List Expr) :
    shared.next ≤ (c.check shared ss).shared.next := by
  rw [check_next]
  exact (instep_program (χ := c.unused shared ss) rfl ss).next_le (c.start shared)

theorem alongside_left {χ : Relabelling} {st st' : InferState} {m m' : Infer Ty}
    (h : InStep χ (Named χ) m m') (hr : Renamed χ st st') (hlim : (final (m st)).next ≤ χ.limit) :
    Renamed χ (final (m st)) (final (m' st')) := by
  have ha := h.along st st' hr hlim
  generalize m st = x, m' st' = y at ha
  cases ha with
  | ok _ hr' => exact hr'
  | error hr' => exact hr'

/-- What a checker knows after a check are variables drawn by then. Whatever was not drawn may be
moved on without any change to the run, so it is not mentioned. -/
theorem Below.check (hc : c.Below shared.next) (ss : List Expr) :
    (c.check shared ss).checker.Below (c.check shared ss).shared.next := by
  have hle := next_le_check c shared ss
  rw [check_next] at hle
  have hstart := below_iff_rename_beyond.mp (hc.mono hle)
  have hr : Renamed (c.unused shared ss) (c.start shared) (c.start shared) := by
    refine ⟨fun i _ hi => ?_, hstart.1.symm, hstart.2.symm, rfl⟩
    exact (beyond_eq_self_iff.mpr hi).trans (Int.add_zero i).symm
  have hend := alongside_left (instep_program rfl ss) hr (Nat.le_refl _)
  rw [check_checker, check_next, below_iff_rename_beyond]
  exact ⟨hend.frame.symm, hend.subst.symm⟩

/-- A checker that may be further on in the supply is another one under other numbers. -/
structure RenamedTo (π : Int → Int) (n n' : Nat) (c c' : Checker) : Prop where
  injective : Function.Injective π
  drawn : ∀ i : Int, i < n → π i < n'
  next_le : n ≤ n'
  below : c.Below n
  frame : c'.frame = Frame.rename π c.frame
  subst : c'.subst = c.subst.rename π

def Mirrors (n n' : Nat) (c c' : Checker) : Prop :=
  ∃ π, RenamedTo π n n' c c'

theorem Below.mirrors (h : c.Below n) : Mirrors n n c c :=
  ⟨id, Function.injective_id, fun _ hi => hi, Nat.le_refl n, h, (Frame.rename_id _).symm,
    (Subst.rename_id _).symm⟩

theorem Mirrors.mono {m' : Nat} (h : Mirrors n n' c c') (hle : n' ≤ m') : Mirrors n m' c c' := by
  obtain ⟨π, h⟩ := h
  refine ⟨π, h.injective, fun i hi => ?_, Nat.le_trans h.next_le hle, h.below, h.frame, h.subst⟩
  have := h.drawn i hi
  omega

/-- Numbers drawn so far changed in one way, and all further ones moved by one distance. -/
def drawnThenMoved (π : Int → Int) (n n' : Nat) (i : Int) : Int :=
  if i < n then π i else i + (n' - n : Nat)

theorem RenamedTo.injective_moved {π : Int → Int} (h : RenamedTo π n n' c c') :
    Function.Injective (drawnThenMoved π n n') := by
  intro i j hij
  have hle := h.next_le
  have hi := h.drawn i
  have hj := h.drawn j
  unfold drawnThenMoved at hij
  split_ifs at hij with hin hjn hjn
  · exact h.injective hij
  · have := hi hin
    omega
  · have := hj hjn
    omega
  · omega

def RenamedTo.relabelling {π : Int → Int} (h : RenamedTo π n n' c c') (limit : Nat) :
    Relabelling where
  number := drawnThenMoved π n n'
  injective := h.injective_moved
  distance := n' - n
  limit := limit

theorem RenamedTo.renamed {π : Int → Int} (h : RenamedTo π shared.next shared'.next c c')
    (limit : Nat) : Renamed (h.relabelling limit) (c.start shared) (c'.start shared') := by
  have hagree : ∀ i : Int, i < shared.next → π i = drawnThenMoved π shared.next shared'.next i :=
    fun i hi => (if_pos hi).symm
  constructor
  · intro i hi _
    exact if_neg (Int.not_lt.mpr hi)
  · rw [start, h.frame]
    exact Frame.rename_congr fun b hb => (h.below.frame b hb).rename_congr hagree
  · rw [start, h.subst]
    refine Subst.rename_congr fun b hb => ?_
    have hb' := h.below.subst b hb
    exact ⟨hagree b.1 hb'.1, hb'.2.rename_congr hagree⟩
  · have hle := h.next_le
    simp only [start, relabelling]
    omega

theorem Mirrors.check (shared shared' : Shared) (h : Mirrors shared.next shared'.next c c')
    (ss : List Expr) :
    (c'.check shared' ss).outcome = (c.check shared ss).outcome ∧
      Mirrors (c.check shared ss).shared.next (c'.check shared' ss).shared.next
        (c.check shared ss).checker (c'.check shared' ss).checker := by
  obtain ⟨π, h⟩ := h
  have hin := instep_program (χ := h.relabelling (c.left shared ss).next) rfl ss
  have hr := h.renamed (c.left shared ss).next
  constructor
  · have ha := hin.along _ _ hr (Nat.le_refl _)
    unfold Checker.check
    generalize Term.inferStatements [] .nothing ss (c.start shared) = x,
      Term.inferStatements [] .nothing ss (c'.start shared') = y at ha
    cases ha with
    | ok ht hr' =>
      simp only [hr'.subst, ht]
      rw [Subst.externalize_rename (Relabelling.injective _)]
    | error _ => rfl
  · have hend := alongside_left hin hr (Nat.le_refl _)
    have hbelow := h.below.check ss
    have hle := next_le_check c shared ss
    have hle' := next_le_check c' shared' ss
    have hnext : (c'.check shared' ss).shared.next =
        (c.check shared ss).shared.next + (shared'.next - shared.next) := by
      rw [check_next, check_next]
      exact hend.next
    refine ⟨_, h.injective_moved, fun i hi => ?_, by omega, hbelow, ?_, ?_⟩
    · have hd := h.drawn i
      unfold drawnThenMoved
      split_ifs with hin
      · have := hd hin
        omega
      · omega
    · rw [check_checker, check_checker]
      exact hend.frame
    · rw [check_checker, check_checker]
      exact hend.subst

theorem Mirrors.typeOf? (h : Mirrors n n' c c') (x : String) : c'.typeOf? x = c.typeOf? x := by
  obtain ⟨π, h⟩ := h
  simp only [Checker.typeOf?, h.frame, h.subst, Frame.find?_rename, Option.map_map,
    Function.comp_def, Subst.externalize_rename h.injective]

theorem Mirrors.globals (h : Mirrors n n' c c') : c'.globals = c.globals := by
  obtain ⟨π, h⟩ := h
  simp only [Checker.globals, h.frame, h.subst, Frame.rename, List.map_map, Function.comp_def,
    Subst.externalize_rename h.injective]

theorem checkEach_cons_of_error {s : Expr} {e : TypeError}
    (h : (c.check shared [s]).outcome = .error e) (ss : List Expr) :
    c.checkEach shared (s :: ss) =
      (.error e, (c.check shared [s]).checker, (c.check shared [s]).shared) := by
  simp only [checkEach, h]

theorem checkEach_cons_of_ok {s : Expr} {t : Ty} (h : (c.check shared [s]).outcome = .ok t)
    (ss : List Expr) :
    c.checkEach shared (s :: ss) =
      let rest := (c.check shared [s]).checker.checkEach (c.check shared [s]).shared ss
      (rest.1.map (t :: ·), rest.2) := by
  simp only [checkEach, h]

theorem next_le_checkEach (c : Checker) (shared : Shared) (ss : List Expr) :
    shared.next ≤ (c.checkEach shared ss).2.2.next := by
  induction ss generalizing c shared with
  | nil => exact Nat.le_refl _
  | cons s ss ih =>
    have hfirst := next_le_check c shared [s]
    cases h : (c.check shared [s]).outcome with
    | error e =>
      rw [checkEach_cons_of_error h]
      exact hfirst
    | ok t =>
      rw [checkEach_cons_of_ok h]
      exact Nat.le_trans hfirst (ih _ _)

theorem Mirrors.checkEach (shared shared' : Shared) (h : Mirrors shared.next shared'.next c c')
    (ss : List Expr) :
    (c'.checkEach shared' ss).1 = (c.checkEach shared ss).1 ∧
      Mirrors (c.checkEach shared ss).2.2.next (c'.checkEach shared' ss).2.2.next
        (c.checkEach shared ss).2.1 (c'.checkEach shared' ss).2.1 := by
  induction ss generalizing c c' shared shared' with
  | nil => exact ⟨rfl, h⟩
  | cons s ss ih =>
    obtain ⟨hout, hfirst⟩ := h.check shared shared' [s]
    cases hs : (c.check shared [s]).outcome with
    | error e =>
      rw [checkEach_cons_of_error hs, checkEach_cons_of_error (hout.trans hs)]
      exact ⟨rfl, hfirst⟩
    | ok t =>
      obtain ⟨hrest, hm⟩ := ih _ _ hfirst
      rw [checkEach_cons_of_ok hs, checkEach_cons_of_ok (hout.trans hs)]
      exact ⟨congrArg (Except.map (t :: ·)) hrest, hm⟩

end Checker

end Minifun
