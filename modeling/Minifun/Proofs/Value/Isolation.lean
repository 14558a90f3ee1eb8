import Mathlib.Logic.Relation
import Minifun.Proofs.Eval.Bounds
import Minifun.Frames

/-! # Snapshots of shared frames

A binding added to a frame is seen from that frame and from the frames that descend from it, and
from nowhere else. A snapshot has no frame around it. So it goes on to show what its source showed
when it was taken, whatever is bound elsewhere, and what is bound in it stays within it and its
descendants.
-/

namespace Minifun

namespace Frame

variable {α : Type}

theorem mem_names_distinct_iff (bs : List (String × α)) (x : String) :
    x ∈ (distinct bs).names ↔ (Frame.find? bs x).isSome := by
  rw [← find?_distinct, Option.isSome_iff_ne_none, ne_eq, find?_eq_none_iff, Classical.not_not]

end Frame

inductive FrameStep where
  /-- A new frame, which may lie within a frame. -/
  | new (bindings : List (String × Held)) (parent : Option Nat)
  | extend (frame : Nat) (name : String) (a : Held)
  | snapshot (frame : Nat)
  | define (frame : Nat) (name : String) (a : Held)
  | bindRecursive (frame : Nat) (name param : String) (body : Expr)

namespace FrameStep

def frame? : FrameStep → Option Nat
  | new _ parent => parent
  | extend frame _ _ | snapshot frame | define frame _ _ | bindRecursive frame _ _ _ => some frame

def perform (s : Frames Held) : FrameStep → Frames Held
  | new bindings parent => (s.add (Frame.ofList bindings) parent).1
  | extend frame name a => (s.extend frame name a).1
  | snapshot frame => (s.snapshot frame).1
  | define frame name a => s.define frame name a
  | bindRecursive frame name param body => (s.bindRecursive frame name param body).1

def bound? (frame : Nat) : FrameStep → Option (String × Held)
  | define f name a => if f = frame then some (name, a) else none
  | _ => none

end FrameStep

namespace Frames

variable {s t u : Frames Held} {i j k : Nat}

/-- The frames after a step that starts from a frame that has been made. -/
def step? (s : Frames Held) (step : FrameStep) : Option (Frames Held) :=
  if step.frame?.all (· < s.frames.length) then some (step.perform s) else none

def run? (s : Frames Held) (steps : List FrameStep) : Option (Frames Held) :=
  steps.foldlM step? s

def Within (s : Frames Held) (i j : Nat) : Prop :=
  ∃ f, s.frames[i]? = some f ∧ f.parent = some j

def Descends (s : Frames Held) : Nat → Nat → Prop :=
  Relation.TransGen s.Within

/-- One frame shows the same names as another, in the same order and with the same meaning. -/
structure SameView (s : Frames Held) (i : Nat) (t : Frames Held) (j : Nat) : Prop where
  lookup : ∀ x, s.lookup i x = t.lookup j x
  names : s.names i = t.names j

def Linked (s : Frames Held) : Prop :=
  ∀ i j, s.Within i j → j < i

/-! ### What is seen from a frame -/

theorem sameView_of_bindings (h : s.bindings i = t.bindings j) : SameView s i t j := by
  constructor
  · intro x
    rw [Frames.lookup, h, Frames.lookup]
  · rw [Frames.names, items, h, Frames.names, items]

theorem chain_congr {n : Nat} (h : ∀ j, Relation.ReflTransGen s.Within i j →
    t.frames[j]? = s.frames[j]?) : t.chain n i = s.chain n i := by
  induction n generalizing i with
  | zero => rfl
  | succ n ih =>
    simp only [chain]
    rw [h i .refl]
    cases hf : s.frames[i]? with
    | none => rfl
    | some f =>
      cases hp : f.parent with
      | none => simp [hp]
      | some p =>
        have hin : s.Within i p := ⟨f, hf, hp⟩
        simp only [hp]
        rw [ih fun j hj => h j (.head hin hj)]

theorem bindings_congr (h : ∀ j, Relation.ReflTransGen s.Within i j →
    t.frames[j]? = s.frames[j]?) : t.bindings i = s.bindings i :=
  chain_congr h

theorem getElem?_define (s : Frames Held) (i j : Nat) (x : String) (a : Held) (h : i ≠ j) :
    (s.define i x a).frames[j]? = s.frames[j]? := by
  simp [define, h]

theorem getElem?_add (s : Frames Held) (bs : Frame Held) (p : Option Nat)
    (h : j < s.frames.length) :
    (s.add bs p).1.frames[j]? = s.frames[j]? := by
  simp [add, List.getElem?_append_left h]

theorem sameView_define (hne : j ≠ i) (h : ¬ s.Descends j i) (x : String) (a : Held) :
    SameView (s.define i x a) j s j := by
  refine sameView_of_bindings (bindings_congr fun k hk => getElem?_define s i k x a ?_)
  rintro rfl
  rcases Relation.reflTransGen_iff_eq_or_transGen.mp hk with rfl | hk
  · exact hne rfl
  · exact h hk

/-! ### What steps do -/

/-- A step binds a name in a frame, or adds a frame behind the others whose link, if it has one,
leads to one of them. -/
theorem step_cases {step : FrameStep} (h : s.step? step = some t) :
    (∃ i x a, step = .define i x a ∧ t = s.define i x a) ∨
      (∀ i x a, step ≠ .define i x a) ∧
        ∃ bs p, (∀ j, p = some j → j < s.frames.length) ∧ t = (s.add bs p).1 := by
  obtain ⟨hin, ht⟩ := Option.ite_none_right_eq_some.mp h
  cases step with
  | define i x a => exact .inl ⟨i, x, a, rfl, (Option.some.inj ht).symm⟩
  | new bs p =>
    refine .inr ⟨by simp, _, p, ?_, (Option.some.inj ht).symm⟩
    rintro j rfl
    simpa [FrameStep.frame?] using hin
  | extend i x a =>
    refine .inr ⟨by simp, _, some i, ?_, (Option.some.inj ht).symm⟩
    rintro j ⟨⟩
    simpa [FrameStep.frame?] using hin
  | snapshot i => exact .inr ⟨by simp, _, none, by simp, (Option.some.inj ht).symm⟩
  | bindRecursive i x param body =>
    refine .inr ⟨by simp, _, some i, ?_, (Option.some.inj ht).symm⟩
    rintro j ⟨⟩
    simpa [FrameStep.frame?] using hin

theorem within_define (s : Frames Held) (k : Nat) (x : String) (a : Held) :
    (s.define k x a).Within i j ↔ s.Within i j := by
  simp only [Within, define, List.getElem?_modify]
  cases s.frames[i]? with
  | none => simp
  | some f => by_cases h : k = i <;> simp [h]

theorem Linked.add (hs : s.Linked) {bs : Frame Held} {p : Option Nat}
    (hp : ∀ j, p = some j → j < s.frames.length) : (s.add bs p).1.Linked := by
  rintro i j ⟨f, hf, hj⟩
  rcases Nat.lt_trichotomy i s.frames.length with hi | rfl | hi
  · rw [getElem?_add s bs p hi] at hf
    exact hs i j ⟨f, hf, hj⟩
  · simp only [Frames.add, List.getElem?_concat_length, Option.some.injEq] at hf
    subst hf
    exact hp j hj
  · rw [List.getElem?_eq_none (by simp only [Frames.add, List.length_append]; exact hi)] at hf
    cases hf

theorem Linked.step {step : FrameStep} (hs : s.Linked) (h : s.step? step = some t) :
    t.Linked := by
  obtain ⟨k, x, a, -, rfl⟩ | ⟨-, bs, p, hp, rfl⟩ := step_cases h
  · intro i j hij
    exact hs i j ((within_define s k x a).mp hij)
  · exact hs.add hp

theorem Linked.run {steps : List FrameStep} (hs : s.Linked) (h : s.run? steps = some t) :
    t.Linked := by
  induction steps generalizing s with
  | nil =>
    obtain rfl : s = t := Option.some.inj h
    exact hs
  | cons step steps ih =>
    obtain ⟨u, hu, h⟩ := Option.bind_eq_some_iff.mp h
    exact ih (hs.step hu) h

theorem le_of_reaches (hs : s.Linked) (h : Relation.ReflTransGen s.Within i j) : j ≤ i := by
  induction h with
  | refl => exact Nat.le_refl i
  | tail _ hlink ih => exact Nat.le_trans (Nat.le_of_lt (hs _ _ hlink)) ih

theorem bindings_add (hs : s.Linked) (hi : i < s.frames.length) (bs : Frame Held)
    (p : Option Nat) : (s.add bs p).1.bindings i = s.bindings i :=
  bindings_congr fun _ hj =>
    getElem?_add s bs p (Nat.lt_of_le_of_lt (le_of_reaches hs hj) hi)

/-! ### Frames of their own -/

def Alone (s : Frames Held) (i : Nat) (bs : Frame Held) : Prop :=
  s.frames[i]? = some ⟨bs, none⟩

theorem Alone.bindings {bs : Frame Held} (h : s.Alone i bs) : s.bindings i = bs := by
  rw [Frames.bindings, chain, h]

theorem Alone.not_descends {bs : Frame Held} (h : s.Alone i bs) : ¬ s.Descends i j := by
  intro hd
  obtain ⟨k, ⟨f, hf, hp⟩, -⟩ := Relation.TransGen.head'_iff.mp hd
  obtain rfl : ⟨bs, none⟩ = f := Option.some.inj (h.symm.trans hf)
  cases hp

theorem alone_snapshot (s : Frames Held) (i : Nat) :
    (s.snapshot i).1.Alone (s.snapshot i).2 (s.items i) := by
  simp [Alone, snapshot, add]

theorem bound?_eq_none {step : FrameStep} (h : ∀ x a, step ≠ .define i x a) :
    step.bound? i = none := by
  cases step with
  | define k x a =>
    have hk : k ≠ i := by
      rintro rfl
      exact h x a rfl
    simp [FrameStep.bound?, hk]
  | new | extend | snapshot | bindRecursive => rfl

theorem Alone.step {bs : Frame Held} {step : FrameStep} (hi : s.Alone i bs)
    (h : s.step? step = some t) :
    t.Alone i ((step.bound? i).elim bs fun b => bs.define b.1 b.2) := by
  obtain ⟨k, x, a, rfl, rfl⟩ | ⟨hstep, bs', p, -, rfl⟩ := step_cases h
  · by_cases hk : k = i
    · subst hk
      simp only [Alone] at hi
      simp [Alone, Frames.define, FrameStep.bound?, hi]
    · simp only [FrameStep.bound?, if_neg hk, Option.elim_none]
      exact (getElem?_define s k i x a hk).trans hi
  · rw [bound?_eq_none (hstep i)]
    exact (getElem?_add s bs' p (List.getElem?_eq_some_iff.mp hi).1).trans hi

theorem Alone.run {bs : Frame Held} {steps : List FrameStep} (hi : s.Alone i bs)
    (h : s.run? steps = some t) :
    t.Alone i ((steps.filterMap (FrameStep.bound? i)).foldl (fun f b => f.define b.1 b.2) bs) := by
  induction steps generalizing s bs with
  | nil =>
    obtain rfl : s = t := Option.some.inj h
    exact hi
  | cons step steps ih =>
    obtain ⟨u, hu, h⟩ := Option.bind_eq_some_iff.mp h
    have hrest := ih (hi.step hu) h
    cases hb : step.bound? i with
    | none => simpa [hb] using hrest
    | some b => simpa [hb] using hrest

theorem Alone.sameView_items {bs : List (String × Held)} (h : s.Alone i (Frame.distinct bs))
    (hbs : t.bindings j = bs) : SameView s i t j := by
  constructor
  · intro x
    rw [Frames.lookup, h.bindings, Frames.lookup, hbs]
    exact Frame.find?_distinct bs x
  · rw [Frames.names, items, h.bindings, Frames.names, items, hbs, Frame.distinct_distinct]

/-- A snapshot shows what its source shows. Bindings added to other frames, then and later, do not
change it, and bindings added to it change frames that descend from it only. The names that a frame
shows are listed once each, and are those that stand for something. -/
theorem snapshot_isolated {steps : List FrameStep} (hs : run? {} steps = some s) :
    (∀ i, (s.names i).Nodup ∧ ∀ x, x ∈ s.names i ↔ (s.lookup i x).isSome) ∧
    ∀ source < s.frames.length, ∀ t copy, s.snapshot source = (t, copy) →
      SameView t copy t source ∧
      ∀ later u, t.run? later = some u →
        ((∀ x a, .define copy x a ∉ later) → SameView u copy t source) ∧
        (∀ i ≠ copy, ∀ x a, SameView (u.define i x a) copy u copy) ∧
        ∀ i ≠ copy, ¬ u.Descends i copy → ∀ x a, SameView (u.define copy x a) i u i := by
  have hlinked : s.Linked := by
    refine Linked.run (s := {}) ?_ hs
    rintro i j ⟨f, hf, -⟩
    simp at hf
  refine ⟨fun i => ⟨Frame.nodup_names_distinct _, Frame.mem_names_distinct_iff _⟩, ?_⟩
  rintro source hsource t copy hcopy
  obtain rfl : (s.snapshot source).1 = t := congrArg Prod.fst hcopy
  obtain rfl : (s.snapshot source).2 = copy := congrArg Prod.snd hcopy
  have halone := alone_snapshot s source
  have hsource' : (s.snapshot source).1.bindings source = s.bindings source :=
    bindings_add hlinked hsource _ none
  refine ⟨halone.sameView_items hsource', fun later u hu => ?_⟩
  have hlater := halone.run hu
  refine ⟨fun hnone => ?_, fun i hi x a => ?_, fun i hi hd x a => sameView_define hi hd x a⟩
  · have hbound : later.filterMap (FrameStep.bound? (s.snapshot source).2) = [] := by
      rw [List.filterMap_eq_nil_iff]
      intro step hstep
      refine bound?_eq_none fun x a he => hnone x a ?_
      rwa [← he]
    rw [hbound] at hlater
    exact hlater.sameView_items hsource'
  · exact sameView_define (Ne.symm hi) hlater.not_descends x a

/-- A snapshot taken within a frame of a program does not see what the program binds later. -/
theorem snapshot_isolated_program :
    let one : Held := .value (.int 1)
    let steps : List FrameStep := [.new [("a", one)] none, .extend 0 "b" one]
    let later : List FrameStep := [.define 0 "c" one, .define 1 "a" (.value (.bool true))]
    ∃ s u : Frames Held, run? {} steps = some s ∧ (s.snapshot 1).1.run? later = some u ∧
      SameView u 2 (s.snapshot 1).1 1 ∧ u.names 2 = ["b", "a"] ∧ u.names 1 = ["b", "a", "c"] := by
  intro one steps later
  refine ⟨_, _, rfl, rfl, ?_, rfl, rfl⟩
  have h := @snapshot_isolated _ steps rfl
  refine ((h.2 1 (by decide) _ _ rfl).2 later _ rfl).1 ?_
  intro x a hmem
  simp [later, FrameStep.perform, extend, add] at hmem

end Frames

end Minifun
