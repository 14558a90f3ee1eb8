import Minifun.Proofs.Sequence
import Minifun.Proofs.Term.Places

/-! # Evaluation does not look at places

When all places of a term and of the values in sight are moved, evaluation gives the same answer
with its places moved, or stops for the same reason at the moved place.
-/

namespace Minifun

def Stop.relocate (g : Option Loc → Option Loc) : Stop → Stop
  | .error e => .error ⟨e.cause, g e.loc⟩
  | .outOfDepth => .outOfDepth
  | .broken b => .broken b

inductive Shifted (g : Option Loc → Option Loc) {α : Type} (Q : α → α → Prop) :
    Except Stop α → Except Stop α → Prop where
  | ok {a b} : Q a b → Shifted g Q (.ok a) (.ok b)
  | error (stop) : Shifted g Q (.error stop) (.error (stop.relocate g))

/-- Two evaluations end in frames that differ in places only, both with related answers or both for
the same reason. -/
inductive ShiftedEnd (g : Option Loc → Option Loc) {α : Type} (Q : α → α → Prop) :
    EStateM.Result Stop (Frame Value) α → EStateM.Result Stop (Frame Value) α → Prop where
  | ok {a b f} : Q a b → ShiftedEnd g Q (.ok a f) (.ok b (Frame.relocate g f))
  | error (stop f) :
      ShiftedEnd g Q (.error stop f) (.error (stop.relocate g) (Frame.relocate g f))

def Shifts (g : Option Loc → Option Loc) {α : Type} (Q : α → α → Prop) (m m' : Eval α) : Prop :=
  ∀ f, ShiftedEnd g Q (m f) (m' (Frame.relocate g f))

abbrev Placed (g : Option Loc → Option Loc) (v v' : Value) : Prop :=
  v' = v.relocate g

def EnterShifts (g : Option Loc → Option Loc) (enter : Enter) : Prop :=
  ∀ p body s v, Shifted g (Placed g) (enter p body s v)
    (enter p (body.relocate g) (s.relocate g) (v.relocate g))

/-- Evaluation of a term does not look at places. -/
def EvalShifts (g : Option Loc → Option Loc) (enter : Enter) (e : Expr) : Prop :=
  ∀ outer, Shifts g (Placed g) (e.evalWith enter outer)
    ((e.relocate g).evalWith enter (outer.relocate g))

variable {g : Option Loc → Option Loc}

section Calculus

variable {α β : Type} {Q : α → α → Prop} {S : β → β → Prop}

theorem shifted_error (cause : EvalCause) (loc : Option Loc) :
    Shifted g Q (.error (.error ⟨cause, loc⟩)) (.error (.error ⟨cause, g loc⟩)) :=
  .error (.error ⟨cause, loc⟩)

theorem Shifted.bind {r r' : Except Stop α} {k k' : α → Except Stop β} (h : Shifted g Q r r')
    (hk : ∀ a b, Q a b → Shifted g S (k a) (k' b)) : Shifted g S (r >>= k) (r' >>= k') := by
  cases h with
  | ok hq => exact hk _ _ hq
  | error stop => exact .error stop

theorem shifts_pure {a b : α} (h : Q a b) : Shifts g Q (pure a) (pure b) :=
  fun _ => .ok h

theorem shifts_fail (cause : EvalCause) (loc : Option Loc) :
    Shifts g Q (Eval.fail cause loc) (Eval.fail cause (g loc)) :=
  fun f => .error (.error ⟨cause, loc⟩) f

theorem Shifted.lift {r r' : Except Stop α} (h : Shifted g Q r r') :
    Shifts g Q (Eval.lift r) (Eval.lift r') := by
  cases h with
  | ok hq => exact shifts_pure hq
  | error stop => exact .error stop

theorem Shifts.bind {m m' : Eval α} {k k' : α → Eval β} (h : Shifts g Q m m')
    (hk : ∀ a b, Q a b → Shifts g S (k a) (k' b)) : Shifts g S (m >>= k) (m' >>= k') := by
  intro f
  have hm := h f
  generalize hx : m f = x, hy : m' (Frame.relocate g f) = y at hm
  cases hm with
  | ok hq =>
    rw [bind_of_ok hx, bind_of_ok hy]
    exact hk _ _ hq _
  | error stop f =>
    rw [bind_of_error hx, bind_of_error hy]
    exact .error stop f

theorem Shifts.value {m m' : Eval Value} {k k' : Value → Eval β} (h : Shifts g (Placed g) m m')
    (hk : ∀ v, Shifts g S (k v) (k' (v.relocate g))) : Shifts g S (m >>= k) (m' >>= k') :=
  h.bind fun v _ hv => hv ▸ hk v

theorem Shifts.scope {k k' : Scope Value → Eval β} (outer : Scope Value)
    (hk : ∀ s, Shifts g S (k s) (k' (s.relocate g))) :
    Shifts g S (Eval.scope outer >>= k) (Eval.scope (outer.relocate g) >>= k') := by
  intro f
  have h := hk (.frame f outer) f
  rw [Scope.relocate] at h
  exact h

theorem Shifts.within {m m' : Eval Value} {Q : Value → Value → Prop} (h : Shifts g Q m m')
    (f : Frame Value) : Shifted g Q (Eval.within f m) (Eval.within (Frame.relocate g f) m') := by
  have hm := h f
  unfold Eval.within
  generalize m f = x, m' (Frame.relocate g f) = y at hm
  cases hm with
  | ok hq => exact .ok hq
  | error stop => exact .error stop

theorem Shifts.demand {m m' : Eval Value} (h : Shifts g (Placed g) m m') (loc : Option Loc) :
    Shifts g (Placed g) (Eval.demand loc m) (Eval.demand (g loc) m') := by
  refine h.value fun v => ?_
  rw [Value.isValue_relocate]
  split
  · exact shifts_pure rfl
  · exact shifts_fail _ loc

theorem shifts_elements (what : String) (loc : Option Loc) (v : Value) :
    Shifts g (fun vs vs' => vs' = Value.relocateAll g vs) (Eval.elements what loc v)
      (Eval.elements what (g loc) (v.relocate g)) := by
  cases v with
  | list vs =>
    rw [Value.relocate]
    exact shifts_pure rfl
  | int | real | bool | closure | name | nothing =>
    simp only [Value.relocate]
    exact shifts_fail _ loc

def CallShifts (g : Option Loc → Option Loc) (call call' : Value → Except Stop Value) : Prop :=
  ∀ v, Shifted g (Placed g) (call v) (call' (v.relocate g))

theorem shifts_callee {enter : Enter} (henter : EnterShifts g enter) (what : String)
    (loc : Option Loc) (v : Value) :
    Shifts g (CallShifts g) (Eval.callee enter what loc v)
      (Eval.callee enter what (g loc) (v.relocate g)) := by
  cases v with
  | closure p body s =>
    rw [Value.relocate]
    exact shifts_pure (henter p body s)
  | int | real | bool | list | name | nothing =>
    simp only [Value.relocate]
    exact shifts_fail _ loc

theorem shifted_mapM {call call' : Value → Except Stop Value} (h : CallShifts g call call')
    (vs : List Value) :
    Shifted g (fun ws ws' => ws' = Value.relocateAll g ws) (vs.mapM call)
      ((Value.relocateAll g vs).mapM call') := by
  induction vs with
  | nil => exact .ok rfl
  | cons v vs ih =>
    rw [Value.relocateAll, List.mapM_cons, List.mapM_cons]
    refine (h v).bind fun w w' hw => ih.bind fun ws ws' hws => .ok ?_
    rw [hw, hws, Value.relocateAll]

theorem shifted_callTwice {enter : Enter} (henter : EnterShifts g enter) (keyword : String)
    (loc : Option Loc) {call call' : Value → Except Stop Value} (h : CallShifts g call call')
    (a b : Value) :
    Shifted g (Placed g) (Eval.callTwice enter keyword loc call a b)
      (Eval.callTwice enter keyword (g loc) call' (a.relocate g) (b.relocate g)) := by
  refine (h a).bind fun v v' hv => ?_
  subst hv
  cases v with
  | closure p body s =>
    rw [Value.relocate]
    exact henter p body s b
  | int | real | bool | list | name | nothing =>
    simp only [Value.relocate]
    exact shifted_error _ loc

theorem shifted_foldlM {step step' : Value → Value → Except Stop Value}
    (h : ∀ a v, Shifted g (Placed g) (step a v) (step' (a.relocate g) (v.relocate g)))
    (a : Value) (vs : List Value) :
    Shifted g (Placed g) (vs.foldlM step a)
      ((Value.relocateAll g vs).foldlM step' (a.relocate g)) := by
  induction vs generalizing a with
  | nil => exact .ok rfl
  | cons v vs ih =>
    rw [Value.relocateAll, List.foldlM_cons, List.foldlM_cons]
    exact (h a v).bind fun b b' hb => hb ▸ ih b

theorem shifted_foldValues (side : Side) {step step' : Value → Value → Except Stop Value}
    (h : ∀ a v, Shifted g (Placed g) (step a v) (step' (a.relocate g) (v.relocate g)))
    (a : Value) (vs : List Value) :
    Shifted g (Placed g) (Eval.foldValues side step a vs)
      (Eval.foldValues side step' (a.relocate g) (Value.relocateAll g vs)) := by
  cases side with
  | left => exact shifted_foldlM h a vs
  | right =>
    have hrev : (Value.relocateAll g vs).reverse = Value.relocateAll g vs.reverse := by
      rw [Value.relocateAll_eq_map, Value.relocateAll_eq_map, List.map_reverse]
    simp only [Eval.foldValues, hrev]
    exact shifted_foldlM (fun a v => h v a) a vs.reverse

end Calculus

section Operations

variable {loc : Option Loc}

theorem shifted_plain {v : Value} (h : v.relocate g = v) :
    Shifted g (Placed g) (.ok v) (.ok v) :=
  .ok h.symm

theorem shifted_operandError (loc : Option Loc) (symbol : String) (a b : Value) :
    Shifted g (Placed g) (.error (.error ⟨Value.operandError symbol a b, loc⟩))
      (.error (.error ⟨Value.operandError symbol (a.relocate g) (b.relocate g), g loc⟩)) := by
  have h : Value.operandError symbol (a.relocate g) (b.relocate g) =
      Value.operandError symbol a b := by simp only [Value.operandError, Value.cls_relocate]
  rw [h]
  exact shifted_error _ loc

theorem shifted_negate (op : UnOp) (v : Value) :
    Shifted g (Placed g) (v.negate op loc) ((v.relocate g).negate op (g loc)) := by
  cases op <;> cases v <;> simp only [Value.relocate, Value.negate] <;>
    first | exact shifted_plain (by simp) | exact shifted_error _ loc

theorem shifted_onReals (op : ArithOp) (x y : Float) :
    Shifted g (Placed g) (op.onReals x y loc) (op.onReals x y (g loc)) := by
  cases op with
  | add | sub | mul => exact shifted_plain (by simp)
  | div =>
    simp only [ArithOp.onReals]
    split
    · exact shifted_error _ loc
    · exact shifted_plain (by simp)
  | mod =>
    simp only [ArithOp.onReals]
    split
    · exact shifted_error _ loc
    · cases Binary64.remainder? x y with
      | some r => exact shifted_plain (by simp)
      | none => exact .error (.broken .infiniteRemainder)

theorem shifted_arithmetic (op : ArithOp) (a b : Value) :
    Shifted g (Placed g) (a.arithmetic op b loc)
      ((a.relocate g).arithmetic op (b.relocate g) (g loc)) := by
  have herror := shifted_operandError (g := g) loc op.symbol a b
  cases a with
  | int m =>
    cases b with
    | int n =>
      simp only [Value.relocate, Value.arithmetic]
      cases op.onInts m n with
      | some k => exact shifted_plain (by simp)
      | none => exact shifted_error _ loc
    | real | bool | list | closure | name | nothing =>
      simp only [Value.relocate, Value.arithmetic] at herror ⊢
      exact herror
  | real x =>
    cases b with
    | real y =>
      simp only [Value.relocate, Value.arithmetic]
      exact shifted_onReals op x y
    | int | bool | list | closure | name | nothing =>
      simp only [Value.relocate, Value.arithmetic] at herror ⊢
      exact herror
  | bool | list | closure | name | nothing =>
    simp only [Value.relocate, Value.arithmetic] at herror ⊢
    exact herror

theorem shifted_compare (op : RelOp) (a b : Value) :
    Shifted g (Placed g) (a.compare op b loc)
      ((a.relocate g).compare op (b.relocate g) (g loc)) := by
  have herror := shifted_operandError (g := g) loc op.symbol a b
  cases a with
  | int m =>
    cases b with
    | int n => exact shifted_plain (by simp)
    | real | bool | list | closure | name | nothing =>
      simp only [Value.relocate, Value.compare] at herror ⊢
      exact herror
  | real x =>
    cases b with
    | real y => exact shifted_plain (by simp)
    | int | bool | list | closure | name | nothing =>
      simp only [Value.relocate, Value.compare] at herror ⊢
      exact herror
  | bool | list | closure | name | nothing =>
    simp only [Value.relocate, Value.compare] at herror ⊢
    exact herror

theorem shifted_classOf (v : Value) :
    Shifted g (fun c d => d = c) v.classOf (v.relocate g).classOf := by
  simp only [Value.classOf, Value.isValue_relocate, Value.cls_relocate]
  split
  · exact .ok rfl
  · exact .error (.broken (.unclassed v.cls))

theorem relocateAll_append (vs ws : List Value) :
    Value.relocateAll g (vs ++ ws) = Value.relocateAll g vs ++ Value.relocateAll g ws := by
  simp only [Value.relocateAll_eq_map, List.map_append]

theorem shifted_append_lists (vs ws : List Value) :
    Shifted g (Placed g) ((Value.list vs).append (.list ws) loc)
      ((Value.list (Value.relocateAll g vs)).append (.list (Value.relocateAll g ws)) (g loc)) := by
  have hall : Shifted g (Placed g) (.ok (.list (vs ++ ws)))
      (.ok (.list (Value.relocateAll g vs ++ Value.relocateAll g ws))) :=
    .ok (by rw [Placed, Value.relocate, relocateAll_append])
  cases vs with
  | nil => exact hall
  | cons v vs =>
    cases ws with
    | nil => exact hall
    | cons w ws =>
      simp only [Value.relocateAll, Value.append, Value.sameClass_relocate] at hall ⊢
      by_cases h : v.sameClass w = true
      · rwa [if_pos h, if_pos h]
      · rw [if_neg h, if_neg h]
        refine (shifted_classOf v).bind fun c d hcd => (shifted_classOf w).bind fun c' d' hcd' => ?_
        rw [hcd, hcd']
        exact shifted_error _ loc

theorem shifted_append (a b : Value) :
    Shifted g (Placed g) (a.append b loc) ((a.relocate g).append (b.relocate g) (g loc)) := by
  cases a with
  | list vs =>
    cases b with
    | list ws =>
      simp only [Value.relocate]
      exact shifted_append_lists vs ws
    | int | real | bool | closure | name | nothing =>
      simp only [Value.relocate]
      exact shifted_error _ loc
  | int | real | bool | closure | name | nothing =>
    simp only [Value.relocate, Value.append, Value.cls_relocate]
    exact shifted_error _ loc

theorem shifted_operate (op : BinOp) (a b : Value) :
    Shifted g (Placed g) (a.operate op b loc)
      ((a.relocate g).operate op (b.relocate g) (g loc)) := by
  cases op with
  | arith op => exact shifted_arithmetic op a b
  | rel op => exact shifted_compare op a b
  | concat => exact shifted_append a b
  | logic | other => exact shifted_error _ loc

end Operations

section Constructs

variable {enter : Enter} {a b c e f i xs v body : Expr} {es : List Expr} {loc : Option Loc}
  {x : String}

theorem EvalShifts.demand (he : EvalShifts g enter e) (outer : Scope Value) :
    Shifts g (Placed g) (Eval.demand e.loc (e.evalWith enter outer))
      (Eval.demand (g e.loc) ((e.relocate g).evalWith enter (outer.relocate g))) :=
  (he outer).demand e.loc

theorem evalShifts_literal {v : Value} : EvalShifts g enter (.literal v loc) := by
  intro outer
  rw [Term.relocate, Term.evalWith, Term.evalWith]
  exact shifts_pure rfl

theorem evalShifts_ident : EvalShifts g enter (.ident x loc) := by
  intro outer
  rw [Term.relocate, Term.evalWith, Term.evalWith]
  refine Shifts.scope outer fun s => ?_
  rw [Scope.lookup_relocate, Scope.names_scope_relocate]
  cases s.lookup x with
  | none => exact shifts_fail _ loc
  | some v =>
    cases v with
    | nothing =>
      simp only [Option.map_some, Value.relocate]
      exact shifts_fail _ loc
    | int | real | bool | list | closure | name =>
      simp only [Option.map_some, Value.relocate]
      exact shifts_pure (by simp only [Placed, Value.relocate])

theorem evalShifts_unary {op : UnOp} (he : EvalShifts g enter e) :
    EvalShifts g enter (.unary op e loc) := by
  intro outer
  rw [Term.relocate, Term.evalWith, Term.evalWith, Term.loc_relocate]
  exact (he.demand outer).value fun v => (shifted_negate op v).lift

theorem evalShifts_logic {op : LogicOp} (ha : EvalShifts g enter a) (hb : EvalShifts g enter b) :
    EvalShifts g enter (.binary (.logic op) a b loc) := by
  intro outer
  rw [Term.relocate, Term.evalWith, Term.evalWith, Term.loc_relocate, Term.loc_relocate]
  refine (ha.demand outer).value fun v => ?_
  cases v with
  | bool left =>
    simp only [Value.relocate]
    split
    · exact shifts_pure (by simp only [Placed, Value.relocate])
    · refine (hb.demand outer).value fun w => ?_
      cases w with
      | bool right =>
        simp only [Value.relocate]
        exact shifts_pure (by simp only [Placed, Value.relocate])
      | int | real | list | closure | name | nothing =>
        simp only [Value.relocate]
        exact shifts_fail _ b.loc
  | int | real | list | closure | name | nothing =>
    simp only [Value.relocate]
    exact shifts_fail _ a.loc

theorem evalShifts_operate {op : BinOp} (hop : ∀ op', op ≠ .logic op')
    (ha : EvalShifts g enter a) (hb : EvalShifts g enter b) :
    EvalShifts g enter (.binary op a b loc) := by
  intro outer
  rw [Term.relocate, Term.evalWith, Term.evalWith, Term.loc_relocate, Term.loc_relocate]
  · exact (ha.demand outer).value fun v => (hb.demand outer).value fun w =>
      (shifted_operate op v w).lift
  · exact hop
  · exact hop

theorem shifts_elementsOf (hes : ∀ e ∈ es, EvalShifts g enter e) (outer : Scope Value)
    (first : Option Value) :
    Shifts g (fun vs vs' => vs' = Value.relocateAll g vs) (Term.evalElements enter outer first es)
      (Term.evalElements enter (outer.relocate g) (first.map (Value.relocate g))
        (Term.relocateAll g es)) := by
  induction es generalizing first with
  | nil =>
    rw [Term.relocateAll, Term.evalElements, Term.evalElements]
    exact shifts_pure rfl
  | cons e es ih =>
    have hrest := fun first => ih (fun e he => hes e (List.mem_cons_of_mem _ he)) first
    rw [Term.relocateAll, Term.evalElements, Term.evalElements, Term.loc_relocate]
    refine ((hes e List.mem_cons_self).demand outer).value fun v => ?_
    rw [Value.isList_relocate]
    split
    · exact shifts_fail _ e.loc
    · cases first with
      | none =>
        refine (hrest (some v)).bind fun vs vs' hvs => shifts_pure ?_
        rw [hvs, Value.relocateAll]
      | some u =>
        simp only [Option.map_some, Value.sameClass_relocate, Value.cls_relocate]
        by_cases h : u.sameClass v = true
        · rw [if_pos h, if_pos h]
          refine (hrest (some u)).bind fun vs vs' hvs => shifts_pure ?_
          rw [hvs, Value.relocateAll]
        · rw [if_neg h, if_neg h]
          exact shifts_fail _ e.loc

theorem evalShifts_list (hes : ∀ e ∈ es, EvalShifts g enter e) :
    EvalShifts g enter (.list es loc) := by
  intro outer
  rw [Term.relocate, Term.evalWith, Term.evalWith]
  refine (shifts_elementsOf hes outer none).bind fun vs vs' hvs => shifts_pure ?_
  rw [hvs, Placed, Value.relocate]

theorem EvalShifts.elements (he : EvalShifts g enter e) (outer : Scope Value) (what : String)
    {β : Type} {S : β → β → Prop} {k k' : List Value → Eval β}
    (hk : ∀ vs, Shifts g S (k vs) (k' (Value.relocateAll g vs))) :
    Shifts g S
      (Eval.demand e.loc (e.evalWith enter outer) >>= fun v => Eval.elements what e.loc v >>= k)
      (Eval.demand (g e.loc) ((e.relocate g).evalWith enter (outer.relocate g)) >>= fun v =>
        Eval.elements what (g e.loc) v >>= k') :=
  (he.demand outer).value fun v => (shifts_elements what e.loc v).bind fun vs _ hvs => hvs ▸ hk vs

theorem evalShifts_head (he : EvalShifts g enter e) : EvalShifts g enter (.head e loc) := by
  intro outer
  rw [Term.relocate, Term.evalWith, Term.evalWith, Term.loc_relocate]
  refine he.elements outer _ fun vs => ?_
  cases vs with
  | nil => exact shifts_fail _ loc
  | cons v vs => exact shifts_pure rfl

theorem evalShifts_tail (he : EvalShifts g enter e) : EvalShifts g enter (.tail e loc) := by
  intro outer
  rw [Term.relocate, Term.evalWith, Term.evalWith, Term.loc_relocate]
  refine he.elements outer _ fun vs => ?_
  cases vs with
  | nil => exact shifts_fail _ loc
  | cons v vs => exact shifts_pure (by simp only [Placed, Value.relocate])

theorem evalShifts_length (he : EvalShifts g enter e) : EvalShifts g enter (.length e loc) := by
  intro outer
  rw [Term.relocate, Term.evalWith, Term.evalWith, Term.loc_relocate]
  refine he.elements outer _ fun vs => ?_
  rw [Value.relocateAll_eq_map, List.length_map]
  exact shifts_pure (by simp only [Placed, Value.relocate])

theorem evalShifts_cond (hc : EvalShifts g enter c) (ha : EvalShifts g enter a)
    (hb : EvalShifts g enter b) : EvalShifts g enter (.cond c a b loc) := by
  intro outer
  rw [Term.relocate, Term.evalWith, Term.evalWith, Term.loc_relocate, Term.loc_relocate,
    Term.loc_relocate]
  refine (hc.demand outer).value fun v => ?_
  cases v with
  | bool t =>
    rw [Value.relocate]
    cases t with
    | true => exact ha.demand outer
    | false => exact hb.demand outer
  | int | real | list | closure | name | nothing =>
    simp only [Value.relocate]
    exact shifts_fail _ c.loc

theorem evalShifts_lambda : EvalShifts g enter (.lambda x body loc) := by
  intro outer
  rw [Term.relocate, Term.evalWith, Term.evalWith]
  refine Shifts.scope outer fun s => shifts_pure ?_
  rw [Placed, Value.relocate, Scope.snapshot_relocate]

theorem EvalShifts.callee (henter : EnterShifts g enter) (he : EvalShifts g enter e)
    (outer : Scope Value) (what : String) {β : Type} {S : β → β → Prop}
    {k k' : (Value → Except Stop Value) → Eval β}
    (hk : ∀ call call', CallShifts g call call' → Shifts g S (k call) (k' call')) :
    Shifts g S
      (Eval.demand e.loc (e.evalWith enter outer) >>= fun v =>
        Eval.callee enter what e.loc v >>= k)
      (Eval.demand (g e.loc) ((e.relocate g).evalWith enter (outer.relocate g)) >>= fun v =>
        Eval.callee enter what (g e.loc) v >>= k') :=
  (he.demand outer).value fun v => (shifts_callee henter what e.loc v).bind hk

theorem evalShifts_apply (henter : EnterShifts g enter) (hf : EvalShifts g enter f)
    (ha : EvalShifts g enter a) : EvalShifts g enter (.apply f a loc) := by
  intro outer
  rw [Term.relocate, Term.evalWith, Term.evalWith, Term.loc_relocate, Term.loc_relocate]
  exact hf.callee henter outer _ fun call call' hcall =>
    (ha.demand outer).value fun v => (hcall v).lift

theorem evalShifts_letIn (hv : EvalShifts g enter v) (hb : EvalShifts g enter body) :
    EvalShifts g enter (.letIn x v body loc) := by
  intro outer
  rw [Term.relocate, Term.evalWith, Term.evalWith, Term.loc_relocate, Term.loc_relocate]
  refine (hv.demand outer).value fun w => Shifts.scope outer fun s => Shifted.lift ?_
  have h := (hb.demand s).within [(x, w)]
  simpa using h

theorem evalShifts_val (he : EvalShifts g enter e) : EvalShifts g enter (.val x e loc) := by
  intro outer f
  have h := he.demand outer f
  rw [Term.relocate, Term.evalWith_val, Term.evalWith_val, Term.loc_relocate,
    Frame.defines_relocate]
  by_cases hd : f.defines x = true
  · rw [if_pos hd, if_pos hd]
    exact .error (.error ⟨.alreadyDefined x, loc⟩) f
  · rw [if_neg hd, if_neg hd]
    generalize Eval.demand e.loc (e.evalWith enter outer) f = r, Eval.demand (g e.loc)
      ((e.relocate g).evalWith enter (outer.relocate g)) (Frame.relocate g f) = r' at h
    cases h with
    | ok hv =>
      rw [hv]
      dsimp only
      rw [← Value.tied_relocate, ← Frame.define_relocate]
      exact .ok (by simp only [Placed, Value.relocate])
    | error stop f => exact .error stop f

theorem evalShifts_map (henter : EnterShifts g enter) (hf : EvalShifts g enter f)
    (hx : EvalShifts g enter xs) : EvalShifts g enter (.map f xs loc) := by
  intro outer
  rw [Term.relocate, Term.evalWith, Term.evalWith, Term.loc_relocate, Term.loc_relocate]
  refine hf.callee henter outer _ fun call call' hcall => hx.elements outer _ fun vs => ?_
  refine (shifted_mapM hcall vs).lift.bind fun ws ws' hws => shifts_pure ?_
  rw [hws, Placed, Value.relocate]

theorem evalShifts_fold (henter : EnterShifts g enter) {side : Side} (hf : EvalShifts g enter f)
    (hi : EvalShifts g enter i) (hx : EvalShifts g enter xs) :
    EvalShifts g enter (.fold side f i xs loc) := by
  intro outer
  rw [Term.relocate, Term.evalWith, Term.evalWith, Term.loc_relocate, Term.loc_relocate,
    Term.loc_relocate]
  refine hf.callee henter outer _ fun call call' hcall => (hi.demand outer).value fun v => ?_
  refine hx.elements outer _ fun vs => Shifted.lift ?_
  exact shifted_foldValues side (shifted_callTwice henter side.keyword f.loc hcall) v vs

theorem Shifts.statement {m m' : Eval Value} (h : Shifts g (Placed g) m m') (loc : Option Loc) :
    Shifts g (Placed g) (Eval.statement loc m) (Eval.statement (g loc) m') := by
  intro fr
  have hm := h fr
  unfold Eval.statement
  generalize m fr = r, m' (Frame.relocate g fr) = r' at hm
  cases hm with
  | ok hv => exact .ok hv
  | error stop f =>
    cases stop with
    | outOfDepth => exact .error (.error ⟨.tooDeep, loc⟩) _
    | error e => exact .error (.error e) _
    | broken b => exact .error (.broken b) _

theorem shifts_statements (hes : ∀ e ∈ es, EvalShifts g enter e) (outer : Scope Value)
    (last : Value) :
    Shifts g (Placed g) (Term.evalStatements enter outer last es)
      (Term.evalStatements enter (outer.relocate g) (last.relocate g) (Term.relocateAll g es)) := by
  induction es generalizing last with
  | nil =>
    rw [Term.relocateAll, Term.evalStatements, Term.evalStatements]
    exact shifts_pure rfl
  | cons e es ih =>
    rw [Term.relocateAll, Term.evalStatements, Term.evalStatements, Term.loc_relocate]
    exact ((hes e List.mem_cons_self outer).statement e.loc).value fun v =>
      ih (fun e he => hes e (List.mem_cons_of_mem _ he)) v

theorem evalShifts_block (hes : ∀ e ∈ es, EvalShifts g enter e) :
    EvalShifts g enter (.block es loc) := by
  intro outer
  rw [Term.relocate, Term.evalWith, Term.evalWith]
  have h := shifts_statements hes outer .nothing
  rwa [Value.relocate] at h

end Constructs

section Terms

variable {enter : Enter}

mutual

theorem evalShifts (henter : EnterShifts g enter) : ∀ e : Expr, EvalShifts g enter e
  | .literal _ _ => evalShifts_literal
  | .ident _ _ => evalShifts_ident
  | .unary _ e _ => evalShifts_unary (evalShifts henter e)
  | .binary (.logic _) a b _ => evalShifts_logic (evalShifts henter a) (evalShifts henter b)
  | .binary (.arith _) a b _ | .binary (.rel _) a b _ | .binary .concat a b _
  | .binary (.other _) a b _ =>
    evalShifts_operate (by simp) (evalShifts henter a) (evalShifts henter b)
  | .list es _ => evalShifts_list (evalShifts_all henter es)
  | .head e _ => evalShifts_head (evalShifts henter e)
  | .tail e _ => evalShifts_tail (evalShifts henter e)
  | .length e _ => evalShifts_length (evalShifts henter e)
  | .cond c a b _ =>
    evalShifts_cond (evalShifts henter c) (evalShifts henter a) (evalShifts henter b)
  | .lambda _ _ _ => evalShifts_lambda
  | .apply f a _ => evalShifts_apply henter (evalShifts henter f) (evalShifts henter a)
  | .letIn _ v body _ => evalShifts_letIn (evalShifts henter v) (evalShifts henter body)
  | .val _ e _ => evalShifts_val (evalShifts henter e)
  | .map f xs _ => evalShifts_map henter (evalShifts henter f) (evalShifts henter xs)
  | .fold _ f i xs _ =>
    evalShifts_fold henter (evalShifts henter f) (evalShifts henter i) (evalShifts henter xs)
  | .block ss _ => evalShifts_block (evalShifts_all henter ss)

theorem evalShifts_all (henter : EnterShifts g enter) :
    ∀ es : List Expr, ∀ e ∈ es, EvalShifts g enter e
  | [] => fun _ he => absurd he List.not_mem_nil
  | e :: es => List.forall_mem_cons.mpr ⟨evalShifts henter e, evalShifts_all henter es⟩

end

end Terms

theorem enterShifts_within (depth : Nat) : EnterShifts g (Term.enterWithin depth) := by
  induction depth with
  | zero => exact fun _ _ _ _ => .error .outOfDepth
  | succ depth ih =>
    -- A body is evaluated with one call less, also where it calls itself.
    intro p body s v
    have h := (evalShifts ih body s).within [(p, v)]
    simpa [Term.enterWithin] using h

theorem evalStatement_relocate (depth : Nat) (e : Expr) :
    Shifts g (Placed g) (e.evalStatement depth) ((e.relocate g).evalStatement depth) := by
  have h := (evalShifts (enterShifts_within (g := g) depth) e .empty).statement e.loc
  rw [Scope.relocate] at h
  unfold Term.evalStatement Term.eval
  rwa [Term.loc_relocate]

end Minifun
