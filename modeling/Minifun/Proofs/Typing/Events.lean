import Minifun.Proofs.Typing.Renaming

/-! # What inference draws and notes

Inference draws variables from the supply and notes findings in the trace, one after the other.
Which acts these are, and in which order, can be read off a term: the rule of each construct has its
own, in between those of the parts. A run that succeeds does all acts of the term, and one that
fails does some first ones of them. The supply goes up by one with each variable. The trace is never
looked at, so a run under another trace differs in the trace alone.
-/

namespace Minifun

def Trace.addAll (t : Trace) (steps : List Step) : Trace :=
  steps.foldl Trace.add t

namespace Infer

/-- An act of inference, as it can be read off a term. -/
inductive Act where
  | draw (constraint : Option Constraint)
  | note (description : String) (loc : Option Loc)
deriving DecidableEq

inductive Event where
  | drawn (number : Nat) (constraint : Option Constraint)
  | noted (step : Step)
deriving DecidableEq

def Event.act : Event → Act
  | drawn _ c => .draw c
  | noted step => .note step.description step.loc

def Event.number? : Event → Option Nat
  | drawn n _ => some n
  | noted _ => none

def Event.step? : Event → Option Step
  | drawn _ _ => none
  | noted step => some step

def drawn (es : List Event) : List Nat :=
  es.filterMap Event.number?

def noted (es : List Event) : List Step :=
  es.filterMap Event.step?

@[simp] theorem drawn_append (es es' : List Event) : drawn (es ++ es') = drawn es ++ drawn es' :=
  List.filterMap_append

@[simp] theorem noted_append (es es' : List Event) : noted (es ++ es') = noted es ++ noted es' :=
  List.filterMap_append

/-- The events of a computation that is run from a state. -/
inductive Performs : {α : Type} → Infer α → InferState → List Event → Prop where
  | fresh (c : Option Constraint) (s : InferState) : Performs (fresh c) s [.drawn s.next c]
  | note (description : String) (loc : Option Loc) (t : Ty) (s : InferState) :
    Performs (note description loc t) s
      [.noted ⟨description, loc, some (s.subst.externalize t).text⟩]
  | pure {α : Type} (a : α) (s : InferState) : Performs (pure a) s []
  | fail {α : Type} (cause : TypeCause) (loc : Option Loc) (s : InferState) :
    Performs (fail cause loc : Infer α) s []
  | resolve (t : Ty) (s : InferState) : Performs (resolve t) s []
  | unify (label : String) (loc : Option Loc) (a b : Ty) (s : InferState) :
    Performs (unify label loc a b) s []
  | define (x : String) (t : Ty) (s : InferState) : Performs (define x t) s []
  | look {α : Type} {k : InferState → Infer α} {s : InferState} {es : List Event} :
    (∀ s s', s.frame = s'.frame → k s = k s') → Performs (k s) s es → Performs (get >>= k) s es
  | within {α : Type} {m : Infer α} {f : Frame Ty} {s : InferState} {es : List Event} :
    Performs m { s with frame := f } es → Performs (within f m) s es
  | next {α β : Type} {m : Infer α} {k : α → Infer β} {s s' : InferState} {a : α}
    {es es' : List Event} : m s = .ok a s' → Performs m s es → Performs (k a) s' es' →
    Performs (m >>= k) s (es ++ es')
  | stop {α β : Type} {m : Infer α} {k : α → Infer β} {s s' : InferState} {e : TypeError}
    {es : List Event} : m s = .error e s' → Performs m s es → Performs (m >>= k) s es

section Runs

variable {α : Type} {m : Infer α} {s : InferState} {es es' : List Event}

theorem Performs.drawn_eq (h : Performs m s es) :
    drawn es = List.range' s.next (drawn es).length ∧
      (final (m s)).next = s.next + (drawn es).length := by
  induction h with
  | fresh | note | pure | fail | resolve | define => exact ⟨rfl, rfl⟩
  | unify label loc a b s =>
    refine ⟨rfl, ?_⟩
    unfold Infer.unify
    cases s.subst.unify a b <;> rfl
  | look _ _ ih => exact ih
  | @within α m f s es _ ih =>
    refine ⟨ih.1, ?_⟩
    rw [← ih.2]
    unfold Infer.within
    cases m { s with frame := f } <;> rfl
  | @next α β m k s s' a es es' hm _ _ ih ih' =>
    rw [hm] at ih
    have hnext : s'.next = s.next + (drawn es).length := ih.2
    rw [bind_of_ok hm, drawn_append, List.length_append, ih'.2, hnext]
    refine ⟨?_, Nat.add_assoc _ _ _⟩
    rw [← List.range'_append_1, ← hnext, ← ih.1, ← ih'.1]
  | stop hm _ ih =>
    rw [hm] at ih
    rw [bind_of_error hm]
    exact ih

def traced (t : Trace) :
    EStateM.Result TypeError InferState α → EStateM.Result TypeError InferState α
  | .ok a s => .ok a { s with trace := t }
  | .error e s => .error e { s with trace := t }

/-- A run under another trace has the same result, and its findings are added to that trace. -/
theorem Performs.run_traced (h : Performs m s es) (t : Trace) :
    m { s with trace := t } = traced (t.addAll (noted es)) (m s) := by
  induction h generalizing t with
  | fresh | note | pure | fail | resolve | define => rfl
  | unify label loc a b s =>
    unfold Infer.unify
    dsimp only
    cases s.subst.unify a b <;> rfl
  | @look α k s es hk _ ih =>
    -- Only the frame is looked at, so the run goes on with the same computation.
    have hlook : k { s with trace := t } = k s := hk _ _ rfl
    change k { s with trace := t } { s with trace := t } = _
    rw [hlook]
    exact ih t
  | @within α m f s es _ ih =>
    have hm := ih t
    unfold Infer.within
    dsimp only at hm ⊢
    rw [hm]
    cases m { s with frame := f } <;> rfl
  | @next α β m k s s' a es es' hm _ _ ih ih' =>
    have hm' := ih t
    rw [hm] at hm'
    rw [bind_of_ok hm', bind_of_ok hm, ih', Trace.addAll, Trace.addAll, Trace.addAll, noted_append,
      List.foldl_append]
  | stop hm _ ih =>
    have hm' := ih t
    rw [hm] at hm'
    rw [bind_of_error hm', bind_of_error hm]
    rfl

end Runs

/-- The acts done are all that were due, or, in a failure, some first ones of them. -/
def Fulfils {α : Type} (done due : List Act) : EStateM.Result TypeError InferState α → Prop
  | .ok _ _ => done = due
  | .error _ _ => done <+: due

def Does {α : Type} (due : List Act) (m : Infer α) : Prop :=
  ∀ s, ∃ es, Performs m s es ∧ Fulfils (es.map Event.act) due (m s)

end Infer

def UnOp.draws : UnOp → List (Option Constraint)
  | .neg => [some .numeric]
  | .not | .other _ => []

def BinOp.draws : BinOp → List (Option Constraint)
  | .arith _ | .rel _ => [some .numeric]
  | .concat => [none]
  | .logic _ | .other _ => []

namespace Term

open Infer (Act)

mutual

@[simp] def acts : Expr → List Act
  | .literal _ _ | .ident _ _ => []
  | .unary op e _ => e.acts ++ op.draws.map .draw
  | .binary op a b _ => a.acts ++ (b.acts ++ op.draws.map .draw)
  | .list [] _ => [.draw none]
  | .list (e :: es) _ => e.acts ++ actsAll es
  | .head e _ | .tail e _ => .draw none :: e.acts
  | .length e _ => e.acts ++ [.draw none]
  | .cond c a b _ => c.acts ++ (a.acts ++ b.acts)
  | .lambda x body loc => .draw none :: (body.acts ++ [.note ("fn " ++ x ++ " -> ...") loc])
  | .apply f a _ => f.acts ++ (a.acts ++ [.draw none])
  | .letIn _ v body _ => v.acts ++ body.acts
  | .val x e loc =>
    (if e.isLambda then [.draw none, .draw none] else []) ++ (e.acts ++ [.note ("val " ++ x) loc])
  | .map f xs _ => f.acts ++ (xs.acts ++ [.draw none, .draw none])
  | .fold _ f i xs _ => f.acts ++ (i.acts ++ (xs.acts ++ [.draw none, .draw none]))
  | .block ss _ => actsAll ss

@[simp] def actsAll : List Expr → List Act
  | [] => []
  | e :: es => e.acts ++ actsAll es

end

end Term

namespace Infer

section Calculus

variable {α β : Type} {m : Infer α} {k : α → Infer β} {due rest : List Act}

theorem does_pure (a : α) : Does [] (pure a : Infer α) :=
  fun s => ⟨[], .pure a s, rfl⟩

theorem does_fail (cause : TypeCause) (loc : Option Loc) : Does due (fail cause loc : Infer α) :=
  fun s => ⟨[], .fail cause loc s, List.nil_prefix⟩

theorem does_resolve (t : Ty) : Does [] (resolve t) :=
  fun s => ⟨[], .resolve t s, rfl⟩

theorem does_define (x : String) (t : Ty) : Does [] (define x t) :=
  fun s => ⟨[], .define x t s, rfl⟩

theorem does_unify (label : String) (loc : Option Loc) (a b : Ty) :
    Does [] (unify label loc a b) := by
  refine fun s => ⟨[], .unify label loc a b s, ?_⟩
  unfold Infer.unify
  cases s.subst.unify a b with
  | ok => rfl
  | error => exact List.nil_prefix

theorem does_fresh (c : Option Constraint) : Does [.draw c] (fresh c) :=
  fun s => ⟨[.drawn s.next c], .fresh c s, rfl⟩

theorem does_note (description : String) (loc : Option Loc) (t : Ty) :
    Does [.note description loc] (note description loc t) :=
  fun s => ⟨_, .note description loc t s, rfl⟩

/-- Computations one after the other. A failure of the first leaves the acts of the second undone.
-/
theorem Does.bind (h : Does due m) (hk : ∀ a, Does rest (k a)) : Does (due ++ rest) (m >>= k) := by
  intro s
  obtain ⟨es, hes, hdone⟩ := h s
  cases hm : m s with
  | ok a s' =>
    rw [hm] at hdone
    obtain rfl : es.map Event.act = due := hdone
    obtain ⟨es', hes', hdone'⟩ := hk a s'
    refine ⟨es ++ es', .next hm hes hes', ?_⟩
    rw [bind_of_ok hm, List.map_append]
    cases hk : k a s' with
    | ok b s'' =>
      rw [hk] at hdone'
      exact congrArg _ hdone'
    | error e s'' =>
      rw [hk] at hdone'
      exact (List.prefix_append_right_inj _).mpr hdone'
  | error e s' =>
    rw [hm] at hdone
    refine ⟨es, .stop hm hes, ?_⟩
    rw [bind_of_error hm]
    exact List.IsPrefix.trans hdone (List.prefix_append due rest)

theorem Does.step (h : Does [] m) (hk : ∀ a, Does due (k a)) : Does due (m >>= k) :=
  h.bind hk

theorem Does.fresh {c : Option Constraint} {k : Ty → Infer β} (hk : ∀ t, Does due (k t)) :
    Does (.draw c :: due) (Infer.fresh c >>= k) :=
  (does_fresh c).bind hk

theorem Does.look {k : InferState → Infer β} (hk : ∀ s s', s.frame = s'.frame → k s = k s')
    (h : ∀ s, Does due (k s)) : Does due (get >>= k) := by
  intro s
  obtain ⟨es, hes, hdone⟩ := h s s
  exact ⟨es, .look hk hes, hdone⟩

theorem Does.within (h : Does due m) (f : Frame Ty) : Does due (within f m) := by
  intro s
  obtain ⟨es, hes, hdone⟩ := h { s with frame := f }
  refine ⟨es, .within hes, ?_⟩
  unfold Infer.within
  cases hm : m { s with frame := f } <;> rwa [hm] at hdone

end Calculus

def Acts (e : Expr) : Prop :=
  ∀ outer, Does e.acts (e.infer outer)

section Constructs

variable {a b c e f i xs v body : Expr} {es : List Expr} {loc : Option Loc} {x : String}

theorem acts_literal {v : Value} : Acts (.literal v loc) := by
  intro outer
  rw [Term.acts, Term.infer]
  cases v with
  | int | real | bool => exact does_pure _
  | list | closure | name | nothing => exact does_fail _ loc

theorem acts_ident : Acts (.ident x loc) := by
  intro outer
  rw [Term.acts, Term.infer, nameType]
  refine .look (fun s s' h => by rw [h]) fun s => ?_
  dsimp only
  cases (lookup x (s.frame :: outer)).filter fun t => !t.isNothing with
  | none => exact does_fail _ loc
  | some t => exact does_resolve t

theorem acts_unary {op : UnOp} (he : Acts e) : Acts (.unary op e loc) := by
  intro outer
  rw [Term.acts, Term.infer]
  refine (he outer).bind fun t => ?_
  cases op with
  | neg => exact .fresh fun w => (does_unify _ _ t w).step fun _ => does_resolve w
  | not | other => exact (does_unify _ _ t .bool).step fun _ => does_pure _

theorem does_unify_both (label : String) (l l' : Option Loc) (s t u : Ty) {m : Infer Ty}
    (hm : Does [] m) : Does [] (do unify label l s u; unify label l' t u; m) :=
  (does_unify _ _ s u).step fun _ => (does_unify _ _ t u).step fun _ => hm

theorem acts_binary {op : BinOp} (ha : Acts a) (hb : Acts b) : Acts (.binary op a b loc) := by
  intro outer
  rw [Term.acts, Term.infer]
  refine (ha outer).bind fun s => (hb outer).bind fun t => ?_
  cases op with
  | arith op => exact .fresh fun w => does_unify_both _ _ _ s t w (does_resolve w)
  | rel op => exact .fresh fun w => does_unify_both _ _ _ s t w (does_pure _)
  | logic op => exact does_unify_both _ _ _ s t .bool (does_pure _)
  | concat => exact .fresh fun w => does_unify_both _ _ _ s t (.list w) (does_resolve _)
  | other symbol => exact does_fail _ loc

theorem does_elements (hes : ∀ e ∈ es, Acts e) (outer : List (Frame Ty)) (t : Ty) :
    Does (Term.actsAll es) (Term.inferElements outer t es) := by
  induction es with
  | nil =>
    rw [Term.actsAll, Term.inferElements]
    exact does_pure _
  | cons e es ih =>
    obtain ⟨he, hes⟩ := List.forall_mem_cons.mp hes
    rw [Term.actsAll, Term.inferElements]
    exact (he outer).bind fun u => (does_unify _ _ t u).step fun _ => ih hes

theorem acts_list (hes : ∀ e ∈ es, Acts e) : Acts (.list es loc) := by
  intro outer
  cases es with
  | nil =>
    rw [Term.acts, Term.infer]
    exact .fresh fun w => does_pure _
  | cons e es =>
    obtain ⟨he, hes⟩ := List.forall_mem_cons.mp hes
    rw [Term.acts, Term.infer]
    refine (he outer).bind fun t => ?_
    rw [← List.append_nil (Term.actsAll es)]
    exact (does_elements hes outer t).bind fun _ => (does_resolve t).step fun u => does_pure _

theorem acts_head (he : Acts e) : Acts (.head e loc) := by
  intro outer
  rw [Term.acts, Term.infer, ← List.append_nil e.acts]
  exact .fresh fun w => (he outer).bind fun t =>
    (does_unify _ _ t (.list w)).step fun _ => does_resolve w

theorem acts_tail (he : Acts e) : Acts (.tail e loc) := by
  intro outer
  rw [Term.acts, Term.infer, ← List.append_nil e.acts]
  exact .fresh fun w => (he outer).bind fun t =>
    (does_unify _ _ t (.list w)).step fun _ => does_resolve _

theorem acts_length (he : Acts e) : Acts (.length e loc) := by
  intro outer
  rw [Term.acts, Term.infer]
  exact (he outer).bind fun t => .fresh fun w =>
    (does_unify _ _ t (.list w)).step fun _ => does_pure _

theorem acts_cond (hc : Acts c) (ha : Acts a) (hb : Acts b) : Acts (.cond c a b loc) := by
  intro outer
  rw [Term.acts, Term.infer, ← List.append_nil b.acts]
  refine (hc outer).bind fun t => (does_unify _ _ t .bool).step fun _ => ?_
  exact (ha outer).bind fun yes => (hb outer).bind fun no =>
    (does_unify _ _ yes no).step fun _ => does_resolve yes

theorem acts_lambda (hb : Acts body) : Acts (.lambda x body loc) := by
  intro outer
  rw [Term.acts, Term.infer]
  refine .fresh fun param => .look (fun s s' h => by rw [h]) fun s => ?_
  refine ((hb (s.frame :: outer)).within [(x, param)]).bind fun result => ?_
  refine (does_resolve param).step fun p => (does_resolve result).step fun r => ?_
  exact (does_note _ loc (.fn p r)).bind fun _ => does_pure _

theorem acts_apply (hf : Acts f) (ha : Acts a) : Acts (.apply f a loc) := by
  intro outer
  rw [Term.acts, Term.infer]
  exact (hf outer).bind fun t => (ha outer).bind fun u => .fresh fun w =>
    (does_unify _ _ t (.fn u w)).step fun _ => does_resolve w

theorem acts_letIn (hv : Acts v) (hb : Acts body) : Acts (.letIn x v body loc) := by
  intro outer
  rw [Term.acts, Term.infer]
  exact (hv outer).bind fun t => .look (fun s s' h => by rw [h]) fun s =>
    (hb (s.frame :: outer)).within [(x, t)]

theorem does_settle (x : String) (loc : Option Loc) (t : Ty) :
    Does [.note ("val " ++ x) loc] (settle x loc t) :=
  (does_resolve t).step fun u => (does_define x u).step fun _ =>
    (does_note ("val " ++ x) loc u).bind fun _ => does_pure u

theorem acts_val (he : Acts e) : Acts (.val x e loc) := by
  intro outer
  rw [Term.acts]
  cases h : e.isLambda with
  | true =>
    have htype (p r : Ty) : Does e.acts (do
        let type ← e.infer outer
        unify ("recursive use of '" ++ x ++ "' does not match its definition.") loc (.fn p r) type
        return type) := by
      rw [← List.append_nil e.acts]
      exact (he outer).bind fun t => (does_unify _ _ (.fn p r) t).step fun _ => does_pure t
    rw [Term.infer_val_function _ _ _ _ h]
    exact .fresh fun p => .fresh fun r => (does_define x (.fn p r)).step fun _ =>
      (htype p r).bind (does_settle x loc)
  | false =>
    rw [Term.infer_val_value _ _ _ _ h]
    exact (he outer).bind (does_settle x loc)

theorem acts_map (hf : Acts f) (hx : Acts xs) : Acts (.map f xs loc) := by
  intro outer
  rw [Term.acts, Term.infer]
  refine (hf outer).bind fun t => (hx outer).bind fun l => .fresh fun a => .fresh fun b => ?_
  exact (does_unify _ _ t (.fn a b)).step fun _ => (does_unify _ _ l (.list a)).step fun _ =>
    does_resolve (.list b)

theorem acts_fold {side : Side} (hf : Acts f) (hi : Acts i) (hx : Acts xs) :
    Acts (.fold side f i xs loc) := by
  intro outer
  rw [Term.acts]
  cases side with
  | left =>
    rw [Term.infer]
    refine (hf outer).bind fun t => (hi outer).bind fun u => (hx outer).bind fun l => ?_
    refine .fresh fun a => .fresh fun b => (does_unify _ _ u a).step fun _ => ?_
    exact (does_unify _ _ l (.list b)).step fun _ =>
      (does_unify _ _ t (.fn a (.fn b a))).step fun _ => does_resolve a
  | right =>
    rw [Term.infer]
    refine (hf outer).bind fun t => (hi outer).bind fun u => (hx outer).bind fun l => ?_
    refine .fresh fun a => .fresh fun b => (does_unify _ _ l (.list a)).step fun _ => ?_
    exact (does_unify _ _ u b).step fun _ =>
      (does_unify _ _ t (.fn a (.fn b b))).step fun _ => does_resolve b

theorem does_statements (hes : ∀ e ∈ es, Acts e) (outer : List (Frame Ty)) (last : Ty) :
    Does (Term.actsAll es) (Term.inferStatements outer last es) := by
  induction es generalizing last with
  | nil =>
    rw [Term.actsAll, Term.inferStatements]
    exact does_pure _
  | cons e es ih =>
    obtain ⟨he, hes⟩ := List.forall_mem_cons.mp hes
    rw [Term.actsAll, Term.inferStatements]
    exact (he outer).bind fun t => ih hes t

theorem acts_block (hes : ∀ e ∈ es, Acts e) : Acts (.block es loc) := by
  intro outer
  rw [Term.acts, Term.infer]
  exact does_statements hes outer .nothing

end Constructs

mutual

/-- Inference on any term does the acts of the term. -/
theorem acts : ∀ e : Expr, Acts e
  | .literal _ _ => acts_literal
  | .ident _ _ => acts_ident
  | .unary _ e _ => acts_unary (acts e)
  | .binary _ a b _ => acts_binary (acts a) (acts b)
  | .list es _ => acts_list (acts_all es)
  | .head e _ => acts_head (acts e)
  | .tail e _ => acts_tail (acts e)
  | .length e _ => acts_length (acts e)
  | .cond c a b _ => acts_cond (acts c) (acts a) (acts b)
  | .lambda _ body _ => acts_lambda (acts body)
  | .apply f a _ => acts_apply (acts f) (acts a)
  | .letIn _ v body _ => acts_letIn (acts v) (acts body)
  | .val _ e _ => acts_val (acts e)
  | .map f xs _ => acts_map (acts f) (acts xs)
  | .fold _ f i xs _ => acts_fold (acts f) (acts i) (acts xs)
  | .block ss _ => acts_block (acts_all ss)

theorem acts_all : ∀ es : List Expr, ∀ e ∈ es, Acts e
  | [] => fun _ he => absurd he List.not_mem_nil
  | e :: es => List.forall_mem_cons.mpr ⟨acts e, acts_all es⟩

end

end Infer

end Minifun
