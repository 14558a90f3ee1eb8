import Minifun.Proofs.Sequence
import Minifun.Run

/-! # The shape of parsed programs

What the reader builds are plain expressions: constants are numbers and truth values, operators are
those of the language, and definitions stand only at the top. Every reading function keeps to this,
whatever tokens it is given.
-/

namespace Minifun

/-- An expression of the language, without definitions or blocks in it. -/
inductive Plain : Expr → Prop where
  | int {n loc} : Plain (.literal (.int n) loc)
  | real {x loc} : Plain (.literal (.real x) loc)
  | bool {b loc} : Plain (.literal (.bool b) loc)
  | ident {x loc} : Plain (.ident x loc)
  | neg {e loc} : Plain e → Plain (.unary .neg e loc)
  | not {e loc} : Plain e → Plain (.unary .not e loc)
  | binary {op a b loc} : op ∈ BinOp.all → Plain a → Plain b → Plain (.binary op a b loc)
  | list {es loc} : (∀ e ∈ es, Plain e) → Plain (.list es loc)
  | head {e loc} : Plain e → Plain (.head e loc)
  | tail {e loc} : Plain e → Plain (.tail e loc)
  | length {e loc} : Plain e → Plain (.length e loc)
  | cond {c a b loc} : Plain c → Plain a → Plain b → Plain (.cond c a b loc)
  | lambda {x body loc} : Plain body → Plain (.lambda x body loc)
  | apply {f a loc} : Plain f → Plain a → Plain (.apply f a loc)
  | letIn {x v body loc} : Plain v → Plain body → Plain (.letIn x v body loc)
  | map {f xs loc} : Plain f → Plain xs → Plain (.map f xs loc)
  | fold {side f i xs loc} : Plain f → Plain i → Plain xs → Plain (.fold side f i xs loc)

inductive PlainStatement : Expr → Prop where
  | val {x e loc} : Plain e → PlainStatement (.val x e loc)
  | expression {e} : Plain e → PlainStatement e

namespace Parse

def Yields {α : Type} (P : α → Prop) (m : Parse α) : Prop :=
  ∀ s a s', m s = .ok a s' → P a

variable {α β : Type} {P : α → Prop} {Q : β → Prop} {m : Parse α} {f : α → Parse β}

theorem yields_pure {a : α} (h : P a) : Yields P (pure a) := by
  intro s b s' hb
  obtain ⟨rfl, -⟩ := EStateM.Result.ok.inj hb
  exact h

theorem Yields.bind (hm : Yields P m) (hf : ∀ a, P a → Yields Q (f a)) : Yields Q (m >>= f) := by
  intro s b s'' h
  cases hs : m s with
  | error e s' =>
    rw [bind_of_error hs] at h
    exact nomatch h
  | ok a s' =>
    rw [bind_of_ok hs] at h
    exact hf a (hm s a s' hs) s' b s'' h

theorem Yields.after (hf : ∀ a, Yields Q (f a)) : Yields Q (m >>= f) :=
  Yields.bind (P := fun _ => True) (fun _ _ _ _ => trivial) fun a _ => hf a

theorem yields_fail (file : Option String) (cause : ParseCause) : Yields P (fail file cause) := by
  intro s a s' h
  exact nomatch h

theorem logicOp?_mem {k : TokenKind} {op : BinOp} (h : logicOp? k = some op) : op ∈ BinOp.all := by
  cases k <;> simp [logicOp?] at h <;> simp [← h, BinOp.all]

theorem relOp?_mem {k : TokenKind} {op : BinOp} (h : relOp? k = some op) : op ∈ BinOp.all := by
  cases k <;> simp [relOp?] at h <;> simp [← h, BinOp.all]

theorem sumOp?_mem {k : TokenKind} {op : BinOp} (h : sumOp? k = some op) : op ∈ BinOp.all := by
  cases k <;> simp [sumOp?] at h <;> simp [← h, BinOp.all]

theorem productOp?_mem {k : TokenKind} {op : BinOp} (h : productOp? k = some op) :
    op ∈ BinOp.all := by
  cases k <;> simp [productOp?] at h <;> simp [← h, BinOp.all]

structure AllPlain (file : Option String) (n : Nat) : Prop where
  expression : Yields Plain (expression file n)
  logical : Yields Plain (logical file n)
  logicalRest : ∀ e, Plain e → Yields Plain (logicalRest file n e)
  relational : Yields Plain (relational file n)
  additive : Yields Plain (additive file n)
  additiveRest : ∀ e, Plain e → Yields Plain (additiveRest file n e)
  product : Yields Plain (product file n)
  productRest : ∀ e, Plain e → Yields Plain (productRest file n e)
  factor : Yields Plain (factor file n)
  argument : Yields Plain (argument file n)
  folded : ∀ side loc, Yields Plain (folded file n side loc)
  elements : Yields (fun es => ∀ e ∈ es, Plain e) (elements file n)
  applications : ∀ e, Plain e → Yields Plain (applications file n e)

section Step

variable {file : Option String} {n : Nat} (h : AllPlain file n)

include h

theorem AllPlain.expression_succ : Yields Plain (Parse.expression file (n + 1)) := by
  rw [Parse.expression]
  refine .after fun loc => .after fun k => ?_
  split
  · exact .after fun _ => .after fun _ => .after fun _ => h.expression.bind fun v hv =>
      .after fun _ => h.expression.bind fun body hb => yields_pure (.letIn hv hb)
  · exact .after fun _ => h.expression.bind fun c hc => .after fun _ =>
      h.expression.bind fun a ha => .after fun _ => h.expression.bind fun b hb =>
        yields_pure (.cond hc ha hb)
  · exact .after fun _ => .after fun _ => .after fun _ => h.expression.bind fun body hb =>
      yields_pure (.lambda hb)
  · exact h.logical

theorem AllPlain.logicalRest_succ {e : Expr} (he : Plain e) :
    Yields Plain (Parse.logicalRest file (n + 1) e) := by
  rw [Parse.logicalRest]
  refine .after fun k => ?_
  split
  · exact yields_pure he
  · rename_i op hop
    exact .after fun _ => .after fun _ => h.relational.bind fun b hb =>
      h.logicalRest _ (.binary (logicOp?_mem hop) he hb)

theorem AllPlain.relational_succ : Yields Plain (Parse.relational file (n + 1)) := by
  rw [Parse.relational]
  refine h.additive.bind fun a ha => .after fun k => ?_
  split
  · exact yields_pure ha
  · rename_i op hop
    exact .after fun _ => .after fun _ => h.additive.bind fun b hb =>
      yields_pure (.binary (relOp?_mem hop) ha hb)

theorem AllPlain.additiveRest_succ {e : Expr} (he : Plain e) :
    Yields Plain (Parse.additiveRest file (n + 1) e) := by
  rw [Parse.additiveRest]
  refine .after fun k => ?_
  split
  · exact yields_pure he
  · rename_i op hop
    exact .after fun _ => .after fun _ => h.product.bind fun b hb =>
      h.additiveRest _ (.binary (sumOp?_mem hop) he hb)

theorem AllPlain.product_succ : Yields Plain (Parse.product file (n + 1)) := by
  rw [Parse.product]
  refine .after fun k => ?_
  split
  · exact .after fun _ => .after fun _ => h.relational.bind fun e he => yields_pure (.not he)
  · exact h.factor.bind fun e he => h.productRest e he

theorem AllPlain.productRest_succ {e : Expr} (he : Plain e) :
    Yields Plain (Parse.productRest file (n + 1) e) := by
  rw [Parse.productRest]
  refine .after fun k => ?_
  split
  · exact yields_pure he
  · rename_i op hop
    exact .after fun _ => .after fun _ => h.factor.bind fun b hb =>
      h.productRest _ (.binary (productOp?_mem hop) he hb)

theorem AllPlain.factor_succ : Yields Plain (Parse.factor file (n + 1)) := by
  rw [Parse.factor]
  refine .after fun token => ?_
  dsimp only
  split
  · exact .after fun _ => h.factor.bind fun e he => yields_pure (.neg he)
  · exact h.argument.bind fun e he => yields_pure (.head he)
  · exact h.argument.bind fun e he => yields_pure (.tail he)
  · exact h.argument.bind fun e he => yields_pure (.length he)
  · exact .after fun _ => .after fun _ => h.expression.bind fun f hf =>
      h.expression.bind fun xs hxs => .after fun _ => yields_pure (.map hf hxs)
  · exact h.folded _ _
  · exact h.folded _ _
  · refine .after fun _ => .after fun closed => ?_
    split
    · exact yields_pure (.list fun e he => absurd he List.not_mem_nil)
    · refine h.expression.bind fun e he => h.elements.bind fun es hes => .after fun _ =>
        yields_pure (.list fun e' he' => ?_)
      rcases List.mem_cons.mp he' with rfl | he'
      · exact he
      · exact hes e' he'
  · exact .after fun _ => h.expression.bind fun e he => .after fun _ => h.applications e he
  · split
    · exact .after fun _ => yields_pure .int
    · exact yields_fail file _
    · exact yields_fail file _
  · split
    · exact .after fun _ => yields_pure .real
    · exact yields_fail file _
  · exact .after fun _ => yields_pure .bool
  · exact .after fun _ => h.applications _ .ident
  · exact yields_fail file _

theorem AllPlain.elements_succ :
    Yields (fun es => ∀ e ∈ es, Plain e) (Parse.elements file (n + 1)) := by
  rw [Parse.elements]
  refine .after fun more => ?_
  split
  · refine h.expression.bind fun e he => h.elements.bind fun es hes => yields_pure fun e' he' => ?_
    rcases List.mem_cons.mp he' with rfl | he'
    · exact he
    · exact hes e' he'
  · exact yields_pure fun e he => absurd he List.not_mem_nil

theorem AllPlain.applications_succ {e : Expr} (he : Plain e) :
    Yields Plain (Parse.applications file (n + 1) e) := by
  rw [Parse.applications]
  refine .after fun k => ?_
  split
  · exact .after fun _ => .after fun _ => h.expression.bind fun a ha => .after fun _ =>
      h.applications _ (.apply he ha)
  · exact yields_pure he

theorem AllPlain.succ : AllPlain file (n + 1) where
  expression := h.expression_succ
  logical := by
    rw [Parse.logical]
    exact h.relational.bind fun e he => h.logicalRest e he
  logicalRest _ := h.logicalRest_succ
  relational := h.relational_succ
  additive := by
    rw [Parse.additive]
    exact h.product.bind fun e he => h.additiveRest e he
  additiveRest _ := h.additiveRest_succ
  product := h.product_succ
  productRest _ := h.productRest_succ
  factor := h.factor_succ
  argument := by
    rw [Parse.argument]
    exact .after fun _ => .after fun _ => h.expression.bind fun e he => .after fun _ =>
      yields_pure he
  folded side loc := by
    rw [Parse.folded]
    exact .after fun _ => .after fun _ => h.expression.bind fun f hf =>
      h.expression.bind fun i hi => h.expression.bind fun xs hxs => .after fun _ =>
        yields_pure (.fold hf hi hxs)
  elements := h.elements_succ
  applications _ := h.applications_succ

end Step

theorem allPlain (file : Option String) (n : Nat) : AllPlain file n := by
  induction n with
  | succ n ih => exact ih.succ
  | zero =>
    -- Without fuel every reading function fails.
    constructor <;> intros <;>
      simp only [Parse.expression, Parse.logical, Parse.logicalRest, Parse.relational,
        Parse.additive, Parse.additiveRest, Parse.product, Parse.productRest, Parse.factor,
        Parse.argument, Parse.folded, Parse.elements, Parse.applications] <;>
      exact yields_fail file _

theorem statement_yields (file : Option String) (fuel : Nat) :
    Yields PlainStatement (statement file fuel) := by
  have hexpr := (allPlain file fuel).expression
  unfold statement
  refine .after fun k => ?_
  split
  · refine .after fun _ => .after fun _ => .after fun _ => .after fun next => ?_
    split
    · exact .after fun _ => .after fun _ => hexpr.bind fun e he => yields_pure (.val (.lambda he))
    · exact .after fun _ => hexpr.bind fun e he => yields_pure (.val he)
  · exact fun s e s' h => .expression (hexpr s e s' h)

theorem statements_yields (file : Option String) (fuel n : Nat) :
    Yields (fun ss => ∀ s ∈ ss, PlainStatement s) (statements file fuel n) := by
  induction n with
  | zero =>
    rw [statements]
    exact yields_fail file _
  | succ n ih =>
    rw [statements]
    refine .after fun k => ?_
    split
    · exact yields_pure fun e he => absurd he List.not_mem_nil
    · refine (statement_yields file fuel).bind fun e he => .after fun _ => ih.bind fun es hes =>
        yields_pure fun e' he' => ?_
      rcases List.mem_cons.mp he' with rfl | he'
      · exact he
      · exact hes e' he'

end Parse

theorem Program.plain_of_parse {source : String} {file : Option String} {p : Program}
    (h : Program.parse source file = .ok p) : ∀ s ∈ p.statements, PlainStatement s := by
  unfold Program.parse at h
  split at h
  · exact nomatch h
  · rename_i tokens _
    split at h
    · exact nomatch h
    · rename_i p' hp
      obtain rfl := Except.ok.inj h
      unfold Program.ofTokens at hp
      split at hp
      · rename_i q s' hq
        obtain rfl := Except.ok.inj hp
        have hy : Parse.Yields (fun p : Program => ∀ s ∈ p.statements, PlainStatement s)
            (Parse.program file (fuelFor tokens)) := by
          unfold Parse.program
          exact .after fun _ => (Parse.statements_yields file _ _).bind fun ss hss =>
            Parse.yields_pure hss
        exact hy _ _ _ hq
      · exact nomatch hp

theorem Program.exists_of_parse (source : String) (file : Option String) (test : Program → Bool)
    (h : (match Program.parse source file with
      | .ok p => test p
      | .error _ => false) = true) : ∃ p, Program.parse source file = .ok p ∧ test p = true := by
  split at h
  · rename_i p hp
    exact ⟨p, hp, h⟩
  · exact nomatch h

end Minifun
