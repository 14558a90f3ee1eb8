import Minifun.Proofs.Typing.Events
import Minifun.Typing.Checker

/-! # Fresh variables and given types

Variables are drawn with consecutive numbers, so none is drawn twice in a run. The types of the
names that inference is given may mention variables that were not drawn from its supply. No variable
that is drawn is among these exactly if the given types have no number from the one that is next in
the supply on, up to as many as the program needs.
-/

namespace Minifun

def Frame.numbers (f : Frame Ty) : List Int :=
  f.flatMap fun b => b.2.vars.map (·.1)

namespace Infer

def Act.isDraw : Act → Bool
  | draw _ => true
  | note _ _ => false

/-- The number of variables that inference on statements draws if it succeeds. -/
def demand (ss : List Expr) : Nat :=
  (Term.actsAll ss).countP Act.isDraw

theorem length_drawn (es : List Event) :
    (drawn es).length = (es.map Event.act).countP Act.isDraw := by
  rw [drawn, List.length_filterMap_eq_countP, List.countP_map]
  congr 1
  funext e
  cases e <;> rfl

section

variable {n k : Nat} {given : List Int}

theorem forall_range'_notMem_iff :
    (∀ i ∈ List.range' n k, (i : Int) ∉ given) ↔ ∀ i ∈ given, ¬ (n ≤ i ∧ i < n + k) := by
  simp only [List.mem_range'_1]
  constructor
  · rintro h i hi ⟨hle, hlt⟩
    have hcast : (i.toNat : Int) = i := Int.toNat_of_nonneg (by omega)
    exact h i.toNat (by omega) (hcast ▸ hi)
  · intro h i hi hmem
    exact h i hmem (by omega)

end

/-- Inference on statements draws consecutive variables. None of them is in the given types exactly
if no number in these is in the range of what is drawn. The range has the length that can be read
off the statements if inference succeeds, and is not longer if it fails. -/
theorem drawn_fresh_iff (outer : List (Frame Ty)) (ss : List Expr) (s : InferState) :
    let run := Term.inferStatements outer .nothing ss
    let given := (s.frame :: outer).flatMap Frame.numbers
    (∃ es, Performs run s es) ∧
      ∀ es, Performs run s es →
        drawn es = List.range' s.next (drawn es).length ∧ (drawn es).Nodup ∧
        ((∀ i ∈ drawn es, (i : Int) ∉ given) ↔
          ∀ i ∈ given, ¬ (s.next ≤ i ∧ i < s.next + (drawn es).length)) ∧
        match run s with
        | .ok _ _ => (drawn es).length = demand ss
        | .error _ _ => (drawn es).length ≤ demand ss := by
  intro run given
  obtain ⟨es₀, hes₀, hdone⟩ : ∃ es, Performs run s es ∧ Fulfils _ _ (run s) :=
    does_statements (acts_all ss) outer .nothing s
  refine ⟨⟨es₀, hes₀⟩, fun es hes => ?_⟩
  obtain ⟨hdrawn, hnext⟩ := hes.drawn_eq
  have hlength : (drawn es).length = (drawn es₀).length := by
    have hnext₀ := hes₀.drawn_eq.2
    omega
  refine ⟨hdrawn, ?_, ?_, ?_⟩
  · rw [hdrawn]
    exact List.nodup_range'
  · rw [← forall_range'_notMem_iff, ← hdrawn]
  · rw [hlength, length_drawn]
    cases hrun : run s with
    | ok t s' =>
      rw [hrun] at hdone
      exact congrArg (List.countP Act.isDraw) hdone
    | error e s' =>
      rw [hrun] at hdone
      exact List.Sublist.countP_le hdone.sublist

/-- The parameter of a function gets the variable that stands for the type of another name. -/
theorem drawn_not_fresh :
    let given : Checker := { frame := [("x", .var 0 none)] }
    let function : Expr := .lambda "y" (.ident "x" (some ⟨1, 9, none⟩)) (some ⟨1, 1, none⟩)
    (∃ es, Performs (Term.inferStatements [] .nothing [function]) (given.start {}) es ∧
        ∃ i ∈ drawn es, (i : Int) ∈ given.frame.numbers) ∧
      (given.check {} [function]).outcome = .ok (.fn (.var 0 none) (.var 0 none)) := by
  intro given function
  obtain ⟨es, hes, hdone⟩ := does_statements (acts_all [function]) [] .nothing (given.start {})
  refine ⟨⟨es, hes, 0, ?_, by decide⟩, by decide⟩
  have hdone : es.map Event.act = Term.actsAll [function] := hdone
  have hlength : (drawn es).length = 1 := by
    rw [length_drawn, hdone]
    decide
  rw [hes.drawn_eq.1, hlength]
  decide

end Infer

end Minifun
