import Minifun.Proofs.Eval.Bounds
import Minifun.Proofs.Program.Plain
import Minifun.Proofs.Session.Outline

/-! # Programs under larger bounds

A program that does not reach the bound on calls ends in the same way under every larger one. The
bound is reached inside an expression and reported at the statement around it. Nothing between these
two places takes the report for something else, so what is not reported was not cut off.
-/

namespace Minifun

def Stop.TooDeep : Stop → Prop
  | .error e => e.cause.kind = some .recursionDepth
  | .outOfDepth | .broken _ => False

def EndsTooDeep (r : EStateM.Result Stop (Frame Value) Value) : Prop :=
  ∃ stop f, r = .error stop f ∧ stop.TooDeep

theorem EvalCause.kind_eq_recursionDepth_iff {cause : EvalCause} :
    cause.kind = some .recursionDepth ↔ cause = .tooDeep := by
  cases cause <;> simp [kind]

/-- Outside statements the bound has no report of its own. -/
theorem Stop.exhausted_iff {stop : Stop} : stop.Exhausted ↔ stop = .outOfDepth ∨ stop.TooDeep := by
  cases stop with
  | error e => simp [Exhausted, TooDeep, EvalCause.kind_eq_recursionDepth_iff]
  | outOfDepth => simp [Exhausted]
  | broken => simp [Exhausted, TooDeep]

section Statements

variable {depth depth' : Nat} {enter : Enter} {outer : Scope Value} {ss : List Expr} {last : Value}
  {frame f : Frame Value} {stop : Stop}

theorem Eval.statement_ne_outOfDepth {loc : Option Loc} {m : Eval Value} :
    Eval.statement loc m frame ≠ .error .outOfDepth f := by
  unfold Eval.statement
  intro h
  split at h
  · exact nomatch h
  · rename_i hm
    exact hm f h

theorem evalStatements_ne_outOfDepth :
    Term.evalStatements enter outer last ss frame ≠ .error .outOfDepth f := by
  induction ss generalizing last frame with
  | nil =>
    rw [Term.evalStatements]
    exact fun h => nomatch h
  | cons s ss ih =>
    rw [Term.evalStatements]
    cases hs : Eval.statement s.loc (s.evalWith enter outer) frame with
    | ok v f' =>
      rw [bind_of_ok hs]
      exact ih
    | error stop f' =>
      rw [bind_of_error hs]
      intro h
      rw [h] at hs
      exact Eval.statement_ne_outOfDepth hs

theorem endsTooDeep_of_exhausted
    (h : Term.evalStatements enter outer last ss frame = .error stop f) (hstop : stop.Exhausted) :
    EndsTooDeep (Term.evalStatements enter outer last ss frame) := by
  rcases Stop.exhausted_iff.mp hstop with rfl | hdeep
  · exact absurd h evalStatements_ne_outOfDepth
  · exact ⟨stop, f, h, hdeep⟩

end Statements

namespace Program

variable {depth depth' : Nat} {ss : List Expr} {frame : Frame Value}

theorem block_cut (h : depth ≤ depth') (p : Program) (outer : Scope Value) (frame : Frame Value) :
    EndsTooDeep (p.block.evalWith (Term.enterWithin depth) outer frame) ∨
      p.block.evalWith (Term.enterWithin depth) outer frame =
        p.block.evalWith (Term.enterWithin depth') outer frame := by
  have hcut := bounded (enterCut_enterWithin h) p.block outer outer (.refl outer) frame
  rcases hcut with ⟨stop, f, hstop, hex⟩ | heq
  · left
    rw [block, Term.evalWith] at hstop ⊢
    exact endsTooDeep_of_exhausted hstop hex
  · exact .inr heq

theorem evalStatement_cut (h : depth ≤ depth') (s : Expr) (frame : Frame Value) :
    (∃ stop f, s.evalStatement depth frame = .error stop f ∧ stop.TooDeep) ∨
      s.evalStatement depth frame = s.evalStatement depth' frame := by
  have hcut := (bounded (enterCut_enterWithin h) s .empty .empty (.refl _)).statement s.loc frame
  rcases hcut with ⟨stop, f, hstop, hex⟩ | heq
  · left
    rcases Stop.exhausted_iff.mp hex with rfl | hdeep
    · exact absurd hstop Eval.statement_ne_outOfDepth
    · exact ⟨stop, f, hstop, hdeep⟩
  · exact .inr heq

/-- Statements that are evaluated one after the other go as under a larger bound, up to the one that
nests calls too deeply if there is one. -/
theorem evalAll_cut (h : depth ≤ depth') (ss : List Expr) (frame : Frame Value) :
    ((∃ stop, (evalAll depth ss frame).stop = some stop ∧ stop.TooDeep) ∧
        (evalAll depth ss frame).answers <+: (evalAll depth' ss frame).answers) ∨
      evalAll depth ss frame = evalAll depth' ss frame := by
  induction ss generalizing frame with
  | nil => exact .inr rfl
  | cons s ss ih =>
    rcases evalStatement_cut h s frame with ⟨stop, f, hstop, hdeep⟩ | heq
    · left
      rw [evalAll_cons_of_error hstop]
      exact ⟨⟨stop, rfl, hdeep⟩, List.nil_prefix⟩
    · cases hs : s.evalStatement depth frame with
      | error stop f =>
        right
        rw [evalAll_cons_of_error hs, evalAll_cons_of_error (heq ▸ hs)]
      | ok v f =>
        rw [evalAll_cons_of_ok hs, evalAll_cons_of_ok (heq ▸ hs)]
        rcases ih f with ⟨hdeep, hanswers⟩ | hall
        · exact .inl ⟨hdeep, List.cons_prefix_cons.mpr ⟨rfl, hanswers⟩⟩
        · exact .inr (by rw [hall])

/-- A larger bound on the calls that may be open changes no result, no error and no definition of a
program that does not nest calls too deeply, in whatever scope it is evaluated. A program that does
so under the larger bound does so under the smaller one. The same holds of the answers of all
statements, and the answers given before a bound is reached stay under a larger one. -/
theorem eval_of_bound_le (h : depth ≤ depth') (p : Program) (outer : Scope Value)
    (frame : Frame Value) :
    let r := p.block.evalWith (Term.enterWithin depth) outer frame
    let r' := p.block.evalWith (Term.enterWithin depth') outer frame
    let all := evalAll depth p.statements frame
    let all' := evalAll depth' p.statements frame
    (¬ EndsTooDeep r → r' = r) ∧ (EndsTooDeep r' → EndsTooDeep r) ∧
      ((∀ stop, all.stop = some stop → ¬ stop.TooDeep) → all' = all) ∧
      (∀ stop', all'.stop = some stop' → stop'.TooDeep →
        ∃ stop, all.stop = some stop ∧ stop.TooDeep) ∧
      all.answers <+: all'.answers := by
  intro r r' all all'
  have hblock : EndsTooDeep r ∨ r = r' := block_cut h p outer frame
  have hall : ((∃ stop, all.stop = some stop ∧ stop.TooDeep) ∧ all.answers <+: all'.answers) ∨
      all = all' := evalAll_cut h p.statements frame
  refine ⟨fun hr => ?_, fun hr' => ?_, fun hstop => ?_, fun stop' hstop' hdeep => ?_, ?_⟩
  · exact (hblock.resolve_left hr).symm
  · rcases hblock with hr | heq
    · exact hr
    · exact heq ▸ hr'
  · rcases hall with ⟨⟨stop, hdeep, hex⟩, -⟩ | heq
    · exact absurd hex (hstop stop hdeep)
    · exact heq.symm
  · rcases hall with ⟨hdeep, -⟩ | heq
    · exact hdeep
    · exact ⟨stop', heq ▸ hstop', hdeep⟩
  · rcases hall with ⟨-, hanswers⟩ | heq
    · exact hanswers
    · exact heq ▸ List.prefix_rfl

def givesInt (n : Int) : EStateM.Result Stop (Frame Value) Value → Bool
  | .ok (.int m) _ => m == n
  | _ => false

def givesUp : EStateM.Result Stop (Frame Value) Value → Bool
  | .error (.error e) _ => e.cause == .tooDeep
  | _ => false

theorem exists_of_givesInt {n : Int} {r : EStateM.Result Stop (Frame Value) Value}
    (h : givesInt n r = true) : ∃ f, r = .ok (.int n) f := by
  unfold givesInt at h
  split at h
  · exact ⟨_, by rw [beq_iff_eq.mp h]⟩
  · exact nomatch h

theorem endsTooDeep_of_givesUp {r : EStateM.Result Stop (Frame Value) Value}
    (h : givesUp r = true) : EndsTooDeep r := by
  unfold givesUp at h
  split at h
  · exact ⟨_, _, rfl, EvalCause.kind_eq_recursionDepth_iff.mpr (beq_iff_eq.mp h)⟩
  · exact nomatch h

/-- Four calls are open at once in the sum of the numbers up to three. Under that bound the sum is
there, and it is the same under a larger one; under a smaller one the definition alone is done. -/
theorem eval_of_bound_le_sum :
    ∃ p, parse "val sum n := if n = 0 then 0 else n + sum(n - 1); sum(3);" none = .ok p ∧
      let eval := fun depth => p.block.evalWith (Term.enterWithin depth) .empty []
      (∃ f, eval 4 = .ok (.int 6) f ∧ eval 100 = .ok (.int 6) f) ∧ EndsTooDeep (eval 3) ∧
      (evalAll 3 p.statements []).answers <+: (evalAll 100 p.statements []).answers := by
  obtain ⟨p, hp, ht⟩ := exists_of_parse
    "val sum n := if n = 0 then 0 else n + sum(n - 1); sum(3);" none
    (fun p => givesInt 6 (p.block.evalWith (Term.enterWithin 4) .empty []) &&
      givesUp (p.block.evalWith (Term.enterWithin 3) .empty [])) (by decide +kernel)
  obtain ⟨hsix, hthree⟩ := Bool.and_eq_true_iff.mp ht
  obtain ⟨f, hr⟩ := exists_of_givesInt hsix
  have hsame := (eval_of_bound_le (by decide : 4 ≤ 100) p .empty []).1 (by simp [EndsTooDeep, hr])
  exact ⟨p, hp, ⟨f, hr, hsame.trans hr⟩, endsTooDeep_of_givesUp hthree,
    (eval_of_bound_le (by decide : 3 ≤ 100) p .empty []).2.2.2.2⟩

end Program

end Minifun
