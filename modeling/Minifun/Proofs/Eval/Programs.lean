import Minifun.Proofs.Eval.Soundness
import Minifun.Proofs.Typing.Statements

/-! # Evaluation of typed programs

A typed program whose definitions have names apart from those that functions and `let` bind is
evaluated to inhabitants of its types, whatever bound there is on nested calls. The names keep the
definitions from hiding what closures have captured. The only failure that statements add is a
second definition of a name, and calls that nest too deeply become an error at their statement.
-/

namespace Minifun

def Term.defined? : Expr → Option String
  | .val x _ _ => some x
  | _ => none

/-- The value that a statement leaves: of a definition, what its name is bound to, and else its
answer. -/
def Term.left (s : Expr) (answer : Value) (frame : Frame Value) : Option Value :=
  match s.defined? with
  | some x => frame.find? x
  | none => some answer

def Program.defined (p : Program) : List String :=
  p.statements.filterMap Term.defined?

def Program.binders (p : Program) : List String :=
  Term.bindersOf p.statements

/-- The failures of typed programs: a zero divisor, an empty list, a list in a list, a second
definition of a name, calls that nest too deeply, and the remainder of an infinite real. -/
def Failure.Expected : Failure → Prop
  | .evaluation e => e.cause.kind ∈ [some .divisionByZero, some .emptyList, some .nestedList,
      some .duplicateDefinition, some .recursionDepth]
  | .breakdown b => b = .infiniteRemainder
  | _ => False

/-- The names that closures can see when some names are bound in functions and a frame has been
filled by definitions. -/
def Sees (N : String → Prop) (frame : Frame Value) (x : String) : Prop :=
  N x ∨ x ∈ frame.names

/-- What a statement makes of a frame that serves one context: a frame that serves another one and
an inhabitant, or an expected failure. -/
def Leaves (N : String → Prop) (s : Expr) (τ : Ground) (Δ : Context) :
    EStateM.Result Stop (Frame Value) Value → Prop
  | .ok v frame => (Scope.frame frame .empty).Serves (Sees N frame) Δ ∧
      ∃ w, s.left v frame = some w ∧ w.InhabitsIn (Sees N frame) τ
  | .error stop _ => stop.failure.Expected

section Statements

variable {N D D' : String → Prop} {Γ Δ : Context} {s e : Expr} {τ : Ground} {frame : Frame Value}
  {x : String} {v w : Value} {loc : Option Loc} {depth : Nat}

theorem statement_of_ok {m : Eval Value} {frame' : Frame Value} (h : m frame = .ok v frame') :
    Eval.statement loc m frame = .ok v frame' := by
  simp only [Eval.statement, h]

theorem Stop.Benign.leaves {stop : Stop} {m : Eval Value} {frame' : Frame Value}
    (h : stop.Benign) (hm : m frame = .error stop frame') :
    Leaves N s τ Δ (Eval.statement loc m frame) := by
  cases stop with
  | error e =>
    simp only [Eval.statement, hm]
    simp only [Stop.Benign, List.mem_cons, List.not_mem_nil, or_false] at h
    simp only [Leaves, Stop.failure, Failure.Expected, List.mem_cons, List.not_mem_nil, or_false]
    tauto
  | outOfDepth =>
    simp [Eval.statement, hm, Leaves, Stop.failure, Failure.Expected, EvalCause.kind]
  | broken b =>
    simp only [Eval.statement, hm]
    exact h

theorem Scope.Serves.define (hs : (Scope.frame frame .empty).Serves D Γ) (hD : ∀ y, D y → D' y)
    (hx : D' x) (hw : w.InhabitsIn D' τ) :
    (Scope.frame (frame.define x w) .empty).Serves D' (Γ.bind x τ) := by
  intro y υ hy
  by_cases he : y = x
  · subst he
    rw [Context.bind_self] at hy
    exact ⟨hx, w, by simp [Scope.lookup, Frame.find?_define], Option.some.inj hy ▸ hw⟩
  · rw [Context.bind_of_ne he] at hy
    obtain ⟨hd, u, hu, hi⟩ := hs y υ hy
    refine ⟨hD y hd, u, ?_, hi.mono hD⟩
    simpa [Scope.lookup, Frame.find?_define, he] using hu

/-- A value that does not see a name stays in its type when it is bound to the name. -/
theorem Value.InhabitsIn.tied (hv : v.InhabitsIn D τ) (hx : ¬ D x) (hD : ∀ y, D y → D' y)
    (hx' : D' x) : (v.tied x).InhabitsIn D' τ := by
  cases τ with
  | fn σ τ =>
    obtain ⟨p, body, scope, rfl, hb, Γ, hs, ht⟩ := hv.exists_closure
    refine inhabitsIn_knot (Γ := Γ) hx' (fun y υ _ hy => ?_) (fun y hy => hD y (hb y hy)) ?_
    · exact hs.mono hD y υ hy
    · have hnone : Γ x = none := by
        cases h : Γ x with
        | none => rfl
        | some υ => exact absurd (hs x υ h).1 hx
      exact ht.weaken ((Context.within_bind_of_none hnone _).bind p σ)
  | int | real | bool | list =>
    have h : v.tied x = v := by
      cases hv.looks
      rfl
    rw [h]
    exact hv.mono hD

theorem sees_define (h : Sees N frame x) (y : String) (v : Value) :
    Sees N (frame.define y v) x :=
  h.imp_right fun hx => Frame.mem_names_define hx y v

theorem sees_define_self (N : String → Prop) (frame : Frame Value) (x : String) (v : Value) :
    Sees N (frame.define x v) x := by
  by_cases hx : x ∈ frame.names
  · exact .inr (by rwa [Frame.names_define_of_mem v hx])
  · exact .inr (by simp [Frame.names_define_of_not_mem v hx])

theorem leaves_expression (hs : (Scope.frame frame .empty).Serves (Sees N frame) Γ)
    (hd : e.defined? = none)
    (h : Runs (Sees N frame) (Term.enterWithin depth) frame .empty e τ) :
    Leaves N e τ Γ (e.evalStatement depth frame) := by
  unfold Runs Safe at h
  split at h
  · rename_i v frame' hm
    obtain ⟨rfl, hv⟩ := h
    rw [Term.evalStatement, Term.eval, statement_of_ok hm]
    exact ⟨hs, v, by simp [Term.left, hd], hv⟩
  · rename_i stop frame' hm
    exact h.2.leaves hm

theorem leaves_val (hs : (Scope.frame frame .empty).Serves (Sees N frame) Γ)
    (h : x ∉ frame.names → Safe frame (Eval.demand e.loc (e.eval depth)) fun v =>
      (v.tied x).InhabitsIn (Sees N (frame.define x (v.tied x))) τ) :
    Leaves N (.val x e loc) τ (Γ.bind x τ) ((Term.val x e loc).evalStatement depth frame) := by
  have hval := Term.evalWith_val (Term.enterWithin depth) .empty x e loc frame
  by_cases hx : frame.defines x
  · rw [if_pos hx] at hval
    simp only [Term.evalStatement, Term.eval, Eval.statement, hval]
    simp [Leaves, Stop.failure, Failure.Expected, EvalCause.kind]
  · rw [if_neg hx] at hval
    have h := h (mt (Frame.defines_iff frame x).mpr hx)
    unfold Safe at h
    split at h
    · rename_i v frame' hm
      obtain ⟨rfl, hv⟩ := h
      simp only [Term.eval] at hm
      rw [hm] at hval
      rw [Term.evalStatement, Term.eval, statement_of_ok hval]
      refine ⟨hs.define (fun y hy => sees_define hy x _) (sees_define_self N _ x _) hv, _, ?_, hv⟩
      simp [Term.left, Term.defined?, Frame.find?_define]
    · rename_i stop frame' hm
      simp only [Term.eval] at hm
      rw [hm] at hval
      exact h.2.leaves hval

theorem StatementType.leaves (h : StatementType Γ s τ Δ)
    (hs : (Scope.frame frame .empty).Serves (Sees N frame) Γ) (hb : ∀ x ∈ s.binders, N x)
    (hN : ∀ x, s.defined? = some x → ¬ N x) (depth : Nat) :
    Leaves N s τ Δ (s.evalStatement depth frame) := by
  have henter := enterSafe_enterWithin (Sees N frame) depth
  cases h with
  | expression he =>
    refine leaves_expression hs ?_ (he.runs henter hs fun x hx => .inl (hb x hx))
    cases he <;> rfl
  | value hl he =>
    rename_i x e loc
    refine leaves_val hs fun hx => ?_
    have hruns : Runs _ _ frame .empty e τ := he.runs henter hs fun x hx => .inl (hb x hx)
    refine Safe.imp hruns.demand fun v hv => ?_
    refine hv.tied ?_ (fun y hy => sees_define hy x _) (sees_define_self N frame x _)
    rintro (h | h)
    · exact hN x rfl h
    · exact hx h
  | function hl he =>
    rename_i x e loc
    cases he with
    | @lambda _ p body σ τ _ ht =>
      refine leaves_val hs fun hx => ?_
      refine Safe.bind (Q := fun v => v = .closure p body (Scope.frame frame .empty).snapshot) ?_ ?_
      · unfold Safe Term.eval
        rw [Term.evalWith_lambda]
        exact ⟨rfl, rfl⟩
      · rintro _ rfl
        refine safe_pure (Value.inhabitsIn_knot (Γ := Γ) (sees_define_self N frame x _) ?_ ?_ ht)
        · intro y υ _ hy
          exact (hs.snapshot.mono fun z hz => sees_define hz x _) y υ hy
        · exact fun y hy => .inl (hb y hy)
    | _ => exact nomatch hl

end Statements

/-- A typed program leaves an inhabitant of its type, or stops for an expected reason. -/
theorem ProgramType.leaves {N : String → Prop} {Γ : Context} {ss : List Expr} {τ : Ground}
    (h : ProgramType Γ ss τ) {frame : Frame Value}
    (hs : (Scope.frame frame .empty).Serves (Sees N frame) Γ) (hb : ∀ s ∈ ss, ∀ x ∈ s.binders, N x)
    (hN : ∀ s ∈ ss, ∀ x, s.defined? = some x → ¬ N x) (depth : Nat) :
    match (Program.evalAll depth ss frame).stop with
    | some stop => stop.failure.Expected
    | none => ∃ s v w, ss.getLast? = some s ∧
        (Program.evalAll depth ss frame).answers.getLast? = some v ∧
        s.left v (Program.evalAll depth ss frame).frame = some w ∧ w.Inhabits τ := by
  induction h generalizing frame with
  | @last Γ Δ s τ hst =>
    have hl := hst.leaves hs (hb s List.mem_cons_self) (hN s List.mem_cons_self) depth
    cases hr : s.evalStatement depth frame with
    | error stop frame' =>
      rw [hr] at hl
      rw [Program.evalAll_cons_of_error hr]
      exact hl
    | ok v frame' =>
      rw [hr] at hl
      rw [Program.evalAll_cons_of_ok hr]
      obtain ⟨-, w, hw, hi⟩ := hl
      exact ⟨s, v, w, rfl, rfl, hw, hi.inhabits⟩
  | @next Γ Δ s ss σ τ hst hss ih =>
    have hl := hst.leaves hs (hb s List.mem_cons_self) (hN s List.mem_cons_self) depth
    cases hr : s.evalStatement depth frame with
    | error stop frame' =>
      rw [hr] at hl
      rw [Program.evalAll_cons_of_error hr]
      exact hl
    | ok v frame' =>
      rw [hr] at hl
      rw [Program.evalAll_cons_of_ok hr]
      have hrest := ih hl.1 (fun s h => hb s (List.mem_cons_of_mem _ h))
        fun s h => hN s (List.mem_cons_of_mem _ h)
      simp only
      split at hrest
      · exact hrest
      · obtain ⟨t, u, w, ht, hu, hw, hi⟩ := hrest
        exact ⟨t, u, w, by simp [List.getLast?_cons, ht], by simp [List.getLast?_cons, hu], hw, hi⟩

namespace Program

variable {p : Program} {T : Ty}

/-- A program that is read and has a type, and whose definitions have names of their own, is
evaluated to inhabitants of all instances of the type, up to expected failures. -/
theorem eval_of_check (source : String) (file : Option String) (hp : parse source file = .ok p)
    (hT : p.check = .ok T) (hn : ∀ x ∈ p.defined, x ∉ p.binders) (depth : Nat) :
    (∀ failure, p.eval depth = .error failure → failure.Expected) ∧
      ∀ answer, p.eval depth = .ok answer → ∀ s, p.statements.getLast? = some s →
        ∀ τ, T.HasInstance τ →
          ∃ v, s.left answer (evalAll depth p.statements []).frame = some v ∧ v.Inhabits τ := by
  by_cases hne : p.statements = []
  · refine ⟨fun failure hf => ?_, fun answer _ s hs => ?_⟩
    · simp [eval, hne] at hf
    · simp [hne] at hs
  · have hspec := check_spec (plain_of_parse hp) hne
    rw [hT] at hspec
    obtain ⟨⟨σ, hσ⟩, htype⟩ := hspec
    have hserves : (Scope.frame [] .empty).Serves (Sees (· ∈ p.binders) []) Context.empty := nofun
    have hleaves := fun τ hτ => ((htype τ).mpr hτ).leaves hserves
      (fun s hs x hx => Term.mem_bindersOf.mpr ⟨s, hs, hx⟩)
      (fun s hs x hx => hn x (List.mem_filterMap.mpr ⟨s, hs, hx⟩)) depth
    have heval : p.eval depth = match (evalAll depth p.statements []).stop with
      | some stop => .error stop.failure
      | none => .ok (evalAll depth p.statements []).answer := rfl
    rw [heval]
    cases hstop : (evalAll depth p.statements []).stop with
    | some stop =>
      have hexp := hleaves σ hσ
      rw [hstop] at hexp
      refine ⟨fun failure hf => Except.error.inj hf ▸ hexp, fun answer ha => ?_⟩
      exact nomatch ha
    | none =>
      refine ⟨fun failure hf => (nomatch hf), fun answer ha s hs τ hτ => ?_⟩
      have hval := hleaves τ hτ
      rw [hstop] at hval
      obtain ⟨t, v, w, ht, hv, hw, hi⟩ := hval
      obtain rfl := Option.some.inj (ht.symm.trans hs)
      refine ⟨w, ?_, hi⟩
      rw [← Except.ok.inj ha, Evaluated.answer, List.getLastD_eq_getLast?, hv]
      exact hw

/-- A definition whose right side is an application, not written as a function, is applied along a
list. -/
theorem eval_of_check_map :
    ∃ p v, parse "val add := fn x -> fn y -> x + y; val next := add(1); map(next [1, 2]);" none =
        .ok p ∧ p.check = .ok (.list .int) ∧ (∀ x ∈ p.defined, x ∉ p.binders) ∧
      p.eval 3 = .ok v ∧ v.text = "[2, 3]" ∧ v.Inhabits (.list .int) := by
  obtain ⟨p, hp, ht⟩ := exists_of_parse
    "val add := fn x -> fn y -> x + y; val next := add(1); map(next [1, 2]);" none
    (fun p => decide (p.check = .ok (.list .int)) &&
      decide (∀ x ∈ p.defined, x ∉ p.binders) &&
      decide (p.statements.getLast?.map Term.defined? = some none) &&
      decide ((p.eval 3).toOption.map Value.text = some "[2, 3]")) (by decide +kernel)
  simp only [Bool.and_eq_true, decide_eq_true_eq] at ht
  obtain ⟨⟨⟨hT, hn⟩, hlast⟩, htext⟩ := ht
  cases he : p.eval 3 with
  | error failure => simp [he, Except.toOption] at htext
  | ok v =>
    have hv : v.text = "[2, 3]" := by simpa [he, Except.toOption] using htext
    obtain ⟨s, hs, hd⟩ := Option.map_eq_some_iff.mp hlast
    have hinst : (Ty.list .int).HasInstance (.list .int) :=
      ⟨fun _ => .int, by simp [Ty.vars], rfl⟩
    obtain ⟨w, hw, hi⟩ := (eval_of_check _ none hp hT hn 3).2 _ he s hs _ hinst
    simp only [Term.left, hd, Option.some.injEq] at hw
    subst hw
    exact ⟨p, v, hp, hT, hn, he, hv, hi⟩

end Program

end Minifun
