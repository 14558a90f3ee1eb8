import Minifun.Proofs.Program.Plain

/-! # What an evaluation leaves in its frame

A definition inside another term binds its name before the term around it refuses it, and what is
bound stays when the evaluation fails. Here is exactly what is left: an evaluation starts parts of
its term in turn, each in the frame that the parts before have left, and adds to the frame the names
of those definitions that it completes. Names that were bound before keep their meaning.
-/

namespace Minifun

namespace Frame

variable {α : Type}

theorem names_append (f g : Frame α) : Frame.names (f ++ g) = f.names ++ g.names :=
  List.map_append

theorem define_append {x : String} {f : Frame α} (h : x ∉ f.names) (a : α) (g : Frame α) :
    define x a (f ++ g) = f ++ define x a g := by
  induction f with
  | nil => rfl
  | cons b f ih =>
    simp only [names, List.map_cons, List.mem_cons, not_or] at h
    have hb : b.1 ≠ x := fun e => h.1 e.symm
    simp [define, hb, ih h.2]

theorem mem_names_define_iff {x y : String} {f : Frame α} {a : α} :
    y ∈ (define x a f).names ↔ y = x ∨ y ∈ f.names := by
  by_cases hx : x ∈ f.names
  · rw [names_define_of_mem a hx]
    constructor
    · exact .inr
    · rintro (rfl | hy)
      · exact hx
      · exact hy
  · rw [names_define_of_not_mem a hx, List.mem_append, List.mem_singleton, or_comm]

end Frame

namespace Eval

variable {α β : Type} {m : Eval α} {k : α → Eval β} {C D : Frame Value → String → Prop}
  {K : α → Frame Value → String → Prop}

/-- The frame that an evaluation leaves, also when it fails. -/
def frameAfter (m : Eval α) (f : Frame Value) : Frame Value :=
  match m f with
  | .ok _ f' | .error _ f' => f'

/-- An evaluation adds bindings of the given names to every frame, and of names that the frame does
not have. -/
def Enlarges (C : Frame Value → String → Prop) (m : Eval α) : Prop :=
  ∀ f, ∃ added : Frame Value, m.frameAfter f = f ++ added ∧
    ∀ x, (x ∈ added.names ↔ C f x) ∧ (C f x → x ∉ f.names)

def Still (m : Eval α) : Prop :=
  ∀ f, m.frameAfter f = f

theorem still_pure (a : α) : Still (pure a) := fun _ => rfl

theorem still_fail (cause : EvalCause) (loc : Option Loc) : Still (fail cause loc : Eval α) :=
  fun _ => rfl

theorem still_lift (r : Except Stop α) : Still (lift r) := by
  intro f
  cases r <;> rfl

theorem Enlarges.congr (h : Enlarges C m) (hC : ∀ f x, C f x ↔ D f x) : Enlarges D m := by
  intro f
  obtain ⟨added, hf, hadded⟩ := h f
  refine ⟨added, hf, fun x => ?_⟩
  rw [← hC]
  exact hadded x

theorem Still.enlarges (h : Still m) : Enlarges (fun _ _ => False) m :=
  fun f => ⟨[], by simpa using h f, by simp [Frame.names]⟩

theorem frameAfter_of_ok {a : α} {f f' : Frame Value} (h : m f = .ok a f') :
    m.frameAfter f = f' := by
  rw [frameAfter, h]

theorem frameAfter_of_error {stop : Stop} {f f' : Frame Value} (h : m f = .error stop f') :
    m.frameAfter f = f' := by
  rw [frameAfter, h]

/-- Of two evaluations the second one adds its names to the frame that the first one has left. -/
theorem Enlarges.bind (h : Enlarges C m) (hk : ∀ a, Enlarges (K a) (k a)) :
    Enlarges (fun f x => C f x ∨ ∃ a f', m f = .ok a f' ∧ K a f' x) (m >>= k) := by
  intro f
  obtain ⟨added, hf, hadded⟩ := h f
  cases hm : m f with
  | error stop f' =>
    rw [frameAfter_of_error hm] at hf
    refine ⟨added, by rw [frameAfter_of_error (bind_of_error hm), hf], fun x => ?_⟩
    simpa [hm] using hadded x
  | ok a f' =>
    rw [frameAfter_of_ok hm] at hf
    subst hf
    obtain ⟨more, hf, hmore⟩ := hk a (f ++ added)
    refine ⟨added ++ more, ?_, fun x => ?_⟩
    · rw [← List.append_assoc, ← hf, frameAfter, bind_of_ok hm, frameAfter]
    · have hnext : (∃ a' f', m f = .ok a' f' ∧ K a' f' x) ↔ K a (f ++ added) x := by
        constructor
        · rintro ⟨a', f', he, hx⟩
          obtain ⟨rfl, rfl⟩ := EStateM.Result.ok.inj (hm.symm.trans he)
          exact hx
        · exact fun hx => ⟨a, f ++ added, hm, hx⟩
      dsimp only
      rw [hnext, Frame.names_append, List.mem_append, (hadded x).1, (hmore x).1]
      refine ⟨Iff.rfl, ?_⟩
      rintro (hx | hx)
      · exact (hadded x).2 hx
      · have hnew := (hmore x).2 hx
        rw [Frame.names_append, List.mem_append, not_or] at hnew
        exact hnew.1

theorem Enlarges.last (h : Enlarges C m) (hk : ∀ a, Still (k a)) : Enlarges C (m >>= k) :=
  (h.bind fun a => (hk a).enlarges).congr (by simp)

theorem Enlarges.demand {act : Eval Value} (h : Enlarges C act) (loc : Option Loc) :
    Enlarges C (Eval.demand loc act) := by
  refine h.last fun v => ?_
  split
  · exact still_pure v
  · exact still_fail _ _

theorem Enlarges.callee {k : (Value → Except Stop Value) → Eval β}
    (hk : ∀ call, Enlarges C (k call))
    (enter : Enter) (what : String) (loc : Option Loc) (v : Value) :
    Enlarges (fun f x => v.cls = .function ∧ C f x) (Eval.callee enter what loc v >>= k) := by
  cases v with
  | closure p body scope => exact (hk (enter p body scope)).congr (by simp [Value.cls])
  | int | real | bool | list | name | nothing =>
    refine (Still.enlarges ?_).congr (by simp [Value.cls])
    exact fun _ => rfl

theorem still_elements (what : String) (loc : Option Loc) (v : Value) :
    Still (elements what loc v) := by
  cases v with
  | list vs => exact still_pure vs
  | int | real | bool | closure | name | nothing => exact still_fail _ _

theorem Still.bind (h : Still m) (hk : ∀ a, Still (k a)) : Still (m >>= k) := by
  intro f
  cases hm : m f with
  | error stop f' =>
    rw [frameAfter_of_error (bind_of_error hm), ← frameAfter_of_error hm, h f]
  | ok a f' =>
    obtain rfl : f = f' := by rw [← h f, frameAfter_of_ok hm]
    rw [frameAfter, bind_of_ok hm]
    exact hk a f

theorem frameAfter_statement (loc : Option Loc) (act : Eval Value) (f : Frame Value) :
    (statement loc act).frameAfter f = act.frameAfter f := by
  cases hm : act f with
  | ok v f' => rw [frameAfter, statement, hm, frameAfter, hm]
  | error stop f' => cases stop <;> rw [frameAfter, statement, hm, frameAfter, hm]

end Eval

/-- Whether an operator needs its right operand, given the value of the left one. -/
def BinOp.NeedsRight : BinOp → Value → Prop
  | logic op, v => ∃ b, v = .bool b ∧ op.decides b = false
  | arith _, _ | rel _, _ | concat, _ | other _, _ => True

namespace Term

open Eval

def Settles (enter : Enter) (outer : Scope Value) (e : Expr) (f : Frame Value) (v : Value)
    (f' : Frame Value) : Prop :=
  demand e.loc (e.evalWith enter outer) f = .ok v f'

/-- The evaluation of a term in a frame comes to the evaluation of a part of it in a frame: what
stands before the part has the value that it takes to get there. The bodies of functions and of
`let` are not among these parts, since they have frames of their own. -/
inductive Starts (enter : Enter) (outer : Scope Value) :
    Expr → Frame Value → Expr → Frame Value → Prop where
  | operand {op e loc f} : Starts enter outer (.unary op e loc) f e f
  | left {op a b loc f} : Starts enter outer (.binary op a b loc) f a f
  | right {op a b loc f v f'} : Settles enter outer a f v f' → op.NeedsRight v →
      Starts enter outer (.binary op a b loc) f b f'
  | element {es e es' loc f vs f'} : evalElements enter outer none es f = .ok vs f' →
      Starts enter outer (.list (es ++ e :: es') loc) f e f'
  | head {e loc f} : Starts enter outer (.head e loc) f e f
  | tail {e loc f} : Starts enter outer (.tail e loc) f e f
  | length {e loc f} : Starts enter outer (.length e loc) f e f
  | test {c a b loc f} : Starts enter outer (.cond c a b loc) f c f
  | yes {c a b loc f f'} : Settles enter outer c f (.bool true) f' →
      Starts enter outer (.cond c a b loc) f a f'
  | no {c a b loc f f'} : Settles enter outer c f (.bool false) f' →
      Starts enter outer (.cond c a b loc) f b f'
  | applied {g a loc f} : Starts enter outer (.apply g a loc) f g f
  | argument {g a loc f v f'} : Settles enter outer g f v f' → v.cls = .function →
      Starts enter outer (.apply g a loc) f a f'
  | bound {x v body loc f} : Starts enter outer (.letIn x v body loc) f v f
  | defined {x e loc f} : f.defines x = false → Starts enter outer (.val x e loc) f e f
  | mapped {g xs loc f} : Starts enter outer (.map g xs loc) f g f
  | mapList {g xs loc f v f'} : Settles enter outer g f v f' → v.cls = .function →
      Starts enter outer (.map g xs loc) f xs f'
  | folded {side g i xs loc f} : Starts enter outer (.fold side g i xs loc) f g f
  | initial {side g i xs loc f v f'} : Settles enter outer g f v f' → v.cls = .function →
      Starts enter outer (.fold side g i xs loc) f i f'
  | foldList {side g i xs loc f v f' w f''} : Settles enter outer g f v f' → v.cls = .function →
      Settles enter outer i f' w f'' → Starts enter outer (.fold side g i xs loc) f xs f''
  | statement {ss s ss' loc f v f'} : evalStatements enter outer .nothing ss f = .ok v f' →
      Starts enter outer (.block (ss ++ s :: ss') loc) f s f'

/-- The evaluation of a term in a frame completes a definition of a name in that frame: it comes to
a definition whose name is not bound yet and whose right side has a value. -/
inductive Defines (enter : Enter) (outer : Scope Value) : Expr → Frame Value → String → Prop where
  | here {x e loc f v f'} : f.defines x = false → Settles enter outer e f v f' →
      Defines enter outer (.val x e loc) f x
  | inside {e f e' f' x} : Starts enter outer e f e' f' → Defines enter outer e' f' x →
      Defines enter outer e f x

variable {enter : Enter} {outer : Scope Value} {e a b c g i xs body : Expr} {es ss : List Expr}
  {loc : Option Loc} {x y : String} {op : BinOp} {f : Frame Value}

def Accounts (enter : Enter) (outer : Scope Value) (e : Expr) : Prop :=
  Enlarges (Defines enter outer e) (e.evalWith enter outer)

theorem Accounts.demand (h : Accounts enter outer e) :
    Enlarges (Defines enter outer e) (Eval.demand e.loc (e.evalWith enter outer)) :=
  Enlarges.demand h e.loc

theorem defines_binary_iff :
    Defines enter outer (.binary op a b loc) f x ↔
      Defines enter outer a f x ∨ ∃ v f', Settles enter outer a f v f' ∧
        op.NeedsRight v ∧ Defines enter outer b f' x := by
  constructor
  · rintro (_ | ⟨hs, hd⟩)
    cases hs with
    | left => exact .inl hd
    | right hv hop => exact .inr ⟨_, _, hv, hop, hd⟩
  · rintro (hd | ⟨v, f', hv, hop, hd⟩)
    · exact .inside .left hd
    · exact .inside (.right hv hop) hd

theorem accounts_logic (ha : Accounts enter outer a) (hb : Accounts enter outer b) (op : LogicOp)
    (loc : Option Loc) : Accounts enter outer (.binary (.logic op) a b loc) := by
  unfold Accounts
  rw [evalWith]
  refine (ha.demand.bind (K := fun v f' x => BinOp.NeedsRight (.logic op) v ∧
    Defines enter outer b f' x) fun v => ?_).congr fun f x => defines_binary_iff.symm
  cases v with
  | bool t =>
    simp only [BinOp.NeedsRight, Value.bool.injEq, exists_eq_left']
    split
    · rename_i ht
      exact (still_pure _).enlarges.congr (by simp [ht])
    · rename_i ht
      refine (hb.demand.last fun w => ?_).congr (by simp [ht])
      cases w with
      | bool => exact still_pure _
      | int | real | list | closure | name | nothing => exact still_fail _ _
  | int | real | list | closure | name | nothing =>
    exact (still_fail _ _).enlarges.congr (by simp [BinOp.NeedsRight])

theorem accounts_binary (ha : Accounts enter outer a) (hb : Accounts enter outer b) (op : BinOp)
    (loc : Option Loc) : Accounts enter outer (.binary op a b loc) := by
  cases op with
  | logic op => exact accounts_logic ha hb op loc
  | arith | rel | concat | other =>
    unfold Accounts
    rw [evalWith]
    · refine (ha.demand.bind fun v => hb.demand.last fun w => still_lift _).congr fun f x => ?_
      rw [defines_binary_iff]
      simp [BinOp.NeedsRight, Settles]
    · simp

def Admits (first : Option Value) (v : Value) : Prop :=
  v.isList = false ∧ ∀ u ∈ first, u.sameClass v = true

theorem map_cons_eq_ok_iff {m : Eval (List Value)} {v : Value} {vs : List Value}
    {f' : Frame Value} :
    (m >>= fun ws => pure (v :: ws)) f = .ok vs f' ↔ ∃ ws, m f = .ok ws f' ∧ v :: ws = vs := by
  rw [bind_eq_ok_iff]
  constructor
  · rintro ⟨ws, f₁, hm, h⟩
    obtain ⟨rfl, rfl⟩ := EStateM.Result.ok.inj h
    exact ⟨ws, hm, rfl⟩
  · rintro ⟨ws, hm, rfl⟩
    exact ⟨ws, f', hm, rfl⟩

theorem evalElements_cons_eq_ok_iff {first : Option Value} {vs : List Value} {f' : Frame Value} :
    evalElements enter outer first (e :: es) f = .ok vs f' ↔
      ∃ v f₁, Settles enter outer e f v f₁ ∧ Admits first v ∧
        ∃ ws, evalElements enter outer (some (first.getD v)) es f₁ = .ok ws f' ∧ v :: ws = vs := by
  have hfail : ∀ {cause loc} {f₁ : Frame Value},
      (fail cause loc : Eval (List Value)) f₁ ≠ .ok vs f' :=
    fun h => by cases h
  rw [evalElements, bind_eq_ok_iff]
  refine exists_congr fun v => exists_congr fun f₁ => and_congr_right fun _ => ?_
  by_cases hlist : v.isList = true
  · rw [if_pos hlist]
    simp [Admits, hlist, hfail]
  · rw [if_neg hlist]
    cases first with
    | none => simpa [Admits, hlist] using map_cons_eq_ok_iff
    | some u =>
      dsimp only
      split
      · rename_i hclass
        simpa [Admits, hlist, hclass] using map_cons_eq_ok_iff
      · rename_i hclass
        simp [Admits, hclass, hfail]

theorem enlarges_elements (hes : ∀ e ∈ es, Accounts enter outer e) (first : Option Value) :
    Enlarges (fun f x => ∃ before e after vs f', es = before ++ e :: after ∧
        evalElements enter outer first before f = .ok vs f' ∧ Defines enter outer e f' x)
      (evalElements enter outer first es) := by
  induction es generalizing first with
  | nil =>
    rw [evalElements]
    exact (still_pure _).enlarges.congr (by simp)
  | cons e es ih =>
    obtain ⟨he, hes⟩ := List.forall_mem_cons.mp hes
    rw [evalElements]
    refine (he.demand.bind (K := fun v f₁ x => Admits first v ∧ ∃ before e after vs f',
      es = before ++ e :: after ∧
        evalElements enter outer (some (first.getD v)) before f₁ = .ok vs f' ∧
        Defines enter outer e f' x) fun v => ?_).congr fun f x => ?_
    · have hrest := ih hes (some (first.getD v))
      by_cases hlist : v.isList = true
      · rw [if_pos hlist]
        exact (still_fail _ _).enlarges.congr (by simp [Admits, hlist])
      · rw [if_neg hlist]
        cases first with
        | none => exact (hrest.last fun ws => still_pure _).congr (by simp [Admits, hlist])
        | some u =>
          dsimp only
          split
          · rename_i hclass
            exact (hrest.last fun ws => still_pure _).congr (by simp [Admits, hlist, hclass])
          · rename_i hclass
            exact (still_fail _ _).enlarges.congr (by simp [Admits, hclass])
    · constructor
      · rintro (hd | ⟨v, f₁, hv, hadm, before, e', after, vs, f', rfl, hb, hd⟩)
        · exact ⟨[], e, es, [], f, rfl, rfl, hd⟩
        · refine ⟨e :: before, e', after, v :: vs, f', rfl, ?_, hd⟩
          exact evalElements_cons_eq_ok_iff.mpr ⟨v, f₁, hv, hadm, vs, hb, rfl⟩
      · rintro ⟨before, e', after, vs, f', hes, hb, hd⟩
        cases before with
        | nil =>
          obtain ⟨rfl, rfl⟩ := List.cons.inj hes
          rw [evalElements] at hb
          obtain ⟨-, rfl⟩ := EStateM.Result.ok.inj hb
          exact .inl hd
        | cons e₀ before =>
          obtain ⟨rfl, rfl⟩ := List.cons.inj hes
          obtain ⟨v, f₁, hv, hadm, ws, hb, -⟩ := evalElements_cons_eq_ok_iff.mp hb
          exact .inr ⟨v, f₁, hv, hadm, before, e', after, ws, f', rfl, hb, hd⟩

theorem enlarges_statements (hss : ∀ s ∈ ss, Accounts enter outer s) (last : Value) :
    Enlarges (fun f x => ∃ before s after v f', ss = before ++ s :: after ∧
        evalStatements enter outer last before f = .ok v f' ∧ Defines enter outer s f' x)
      (evalStatements enter outer last ss) := by
  induction ss generalizing last with
  | nil =>
    rw [evalStatements]
    exact (still_pure _).enlarges.congr (by simp)
  | cons s ss ih =>
    obtain ⟨hs, hss⟩ := List.forall_mem_cons.mp hss
    have hstatement : Enlarges (Defines enter outer s)
        (Eval.statement s.loc (s.evalWith enter outer)) := by
      intro f
      rw [frameAfter_statement]
      exact hs f
    rw [evalStatements]
    refine (hstatement.bind fun v => ih hss v).congr fun f x => ?_
    constructor
    · rintro (hd | ⟨v, f₁, hv, before, s', after, w, f', rfl, hb, hd⟩)
      · exact ⟨[], s, ss, last, f, rfl, rfl, hd⟩
      · refine ⟨s :: before, s', after, w, f', rfl, ?_, hd⟩
        rw [evalStatements, bind_of_ok hv, hb]
    · rintro ⟨before, s', after, w, f', hss, hb, hd⟩
      cases before with
      | nil =>
        obtain ⟨rfl, rfl⟩ := List.cons.inj hss
        rw [evalStatements] at hb
        obtain ⟨-, rfl⟩ := EStateM.Result.ok.inj hb
        exact .inl hd
      | cons s₀ before =>
        obtain ⟨rfl, rfl⟩ := List.cons.inj hss
        rw [evalStatements, bind_eq_ok_iff] at hb
        obtain ⟨v, f₁, hv, hb⟩ := hb
        exact .inr ⟨v, f₁, hv, before, s', after, w, f', rfl, hb, hd⟩

theorem defines_val_iff :
    Defines enter outer (.val x e loc) f y ↔ f.defines x = false ∧
      ((y = x ∧ ∃ v f', Settles enter outer e f v f') ∨ Defines enter outer e f y) := by
  constructor
  · rintro (⟨hx, hv⟩ | ⟨hs, hd⟩)
    · exact ⟨hx, .inl ⟨rfl, _, _, hv⟩⟩
    · cases hs with
      | defined hx => exact ⟨hx, .inr hd⟩
  · rintro ⟨hx, ⟨rfl, v, f', hv⟩ | hd⟩
    · exact .here hx hv
    · exact .inside (.defined hx) hd

theorem accounts_val (he : Accounts enter outer e) (x : String) (loc : Option Loc) :
    Accounts enter outer (.val x e loc) := by
  intro f
  by_cases hx : f.defines x = true
  · refine ⟨[], ?_, fun y => ?_⟩
    · rw [frameAfter, evalWith_val, if_pos hx, List.append_nil]
    · simp [defines_val_iff, hx, Frame.names]
  · have hnew : x ∉ f.names := mt (Frame.defines_iff f x).mpr hx
    obtain ⟨added, hf, hadded⟩ := he.demand f
    cases hv : Eval.demand e.loc (e.evalWith enter outer) f with
    | error stop f' =>
      have hnone : ¬ ∃ v f', Settles enter outer e f v f' := by
        rintro ⟨v, f₁, h⟩
        cases hv.symm.trans h
      refine ⟨added, ?_, fun y => ?_⟩
      · rw [frameAfter, evalWith_val, if_neg hx, hv, ← hf, frameAfter_of_error hv]
      · simpa [defines_val_iff, hx, hnone] using hadded y
    | ok v f' =>
      have hsome : ∃ v f', Settles enter outer e f v f' := ⟨v, f', hv⟩
      rw [frameAfter_of_ok hv] at hf
      refine ⟨added.define x (v.tied x), ?_, fun y => ?_⟩
      · rw [frameAfter, evalWith_val, if_neg hx, hv]
        exact (congrArg _ hf).trans (Frame.define_append hnew _ _)
      · rw [Frame.mem_names_define_iff, (hadded y).1, defines_val_iff]
        simp only [hx, hsome, and_true, true_and]
        rintro (rfl | hd)
        · exact hnew
        · exact (hadded y).2 hd

theorem defines_cond_iff :
    Defines enter outer (.cond c a b loc) f x ↔
      Defines enter outer c f x ∨ ∃ v f', Settles enter outer c f v f' ∧
        (v = .bool true ∧ Defines enter outer a f' x ∨
          v = .bool false ∧ Defines enter outer b f' x) := by
  constructor
  · rintro (_ | ⟨hs, hd⟩)
    cases hs with
    | test => exact .inl hd
    | yes hv => exact .inr ⟨_, _, hv, .inl ⟨rfl, hd⟩⟩
    | no hv => exact .inr ⟨_, _, hv, .inr ⟨rfl, hd⟩⟩
  · rintro (hd | ⟨v, f', hv, ⟨rfl, hd⟩ | ⟨rfl, hd⟩⟩)
    · exact .inside .test hd
    · exact .inside (.yes hv) hd
    · exact .inside (.no hv) hd

theorem accounts_cond (hc : Accounts enter outer c) (ha : Accounts enter outer a)
    (hb : Accounts enter outer b) (loc : Option Loc) :
    Accounts enter outer (.cond c a b loc) := by
  unfold Accounts
  rw [evalWith]
  refine (hc.demand.bind (K := fun v f' x => v = .bool true ∧ Defines enter outer a f' x ∨
    v = .bool false ∧ Defines enter outer b f' x) fun v => ?_).congr
    fun f x => defines_cond_iff.symm
  cases v with
  | bool t =>
    cases t with
    | true => exact ha.demand.congr (by simp)
    | false => exact hb.demand.congr (by simp)
  | int | real | list | closure | name | nothing =>
    exact (still_fail _ _).enlarges.congr (by simp)

theorem accounts_apply (hg : Accounts enter outer g) (ha : Accounts enter outer a)
    (loc : Option Loc) : Accounts enter outer (.apply g a loc) := by
  unfold Accounts
  rw [evalWith]
  refine (hg.demand.bind fun v => Enlarges.callee (fun call => ha.demand.last fun w =>
    still_lift _) enter _ _ v).congr fun f x => ?_
  constructor
  · rintro (hd | ⟨v, f', hv, hfn, hd⟩)
    · exact .inside .applied hd
    · exact .inside (.argument hv hfn) hd
  · rintro (_ | ⟨hs, hd⟩)
    cases hs with
    | applied => exact .inl hd
    | argument hv hfn => exact .inr ⟨_, _, hv, hfn, hd⟩

theorem accounts_map (hg : Accounts enter outer g) (hx : Accounts enter outer xs)
    (loc : Option Loc) : Accounts enter outer (.map g xs loc) := by
  unfold Accounts
  rw [evalWith]
  refine (hg.demand.bind fun v => Enlarges.callee (fun call => hx.demand.last fun w =>
    (still_elements _ _ _).bind fun vs => (still_lift _).bind fun ws => still_pure _)
    enter _ _ v).congr fun f x => ?_
  constructor
  · rintro (hd | ⟨v, f', hv, hfn, hd⟩)
    · exact .inside .mapped hd
    · exact .inside (.mapList hv hfn) hd
  · rintro (_ | ⟨hs, hd⟩)
    cases hs with
    | mapped => exact .inl hd
    | mapList hv hfn => exact .inr ⟨_, _, hv, hfn, hd⟩

theorem accounts_fold (hg : Accounts enter outer g) (hi : Accounts enter outer i)
    (hx : Accounts enter outer xs) (side : Side) (loc : Option Loc) :
    Accounts enter outer (.fold side g i xs loc) := by
  unfold Accounts
  rw [evalWith]
  refine (hg.demand.bind fun v => Enlarges.callee (fun call => hi.demand.bind fun u =>
    hx.demand.last fun w => (still_elements _ _ _).bind fun vs => still_lift _)
    enter _ _ v).congr fun f x => ?_
  constructor
  · rintro (hd | ⟨v, f', hv, hfn, hd | ⟨u, f'', hu, hd⟩⟩)
    · exact .inside .folded hd
    · exact .inside (.initial hv hfn) hd
    · exact .inside (.foldList hv hfn hu) hd
  · rintro (_ | ⟨hs, hd⟩)
    cases hs with
    | folded => exact .inl hd
    | initial hv hfn => exact .inr ⟨_, _, hv, hfn, .inl hd⟩
    | foldList hv hfn hu => exact .inr ⟨_, _, hv, hfn, .inr ⟨_, _, hu, hd⟩⟩

theorem accounts_list (hes : ∀ e ∈ es, Accounts enter outer e) (loc : Option Loc) :
    Accounts enter outer (.list es loc) := by
  unfold Accounts
  rw [evalWith]
  refine ((enlarges_elements hes none).last fun vs => still_pure _).congr fun f x => ?_
  constructor
  · rintro ⟨before, e, after, vs, f', rfl, hb, hd⟩
    exact .inside (.element hb) hd
  · rintro (_ | ⟨hs, hd⟩)
    cases hs with
    | element hb => exact ⟨_, _, _, _, _, rfl, hb, hd⟩

theorem accounts_block (hss : ∀ s ∈ ss, Accounts enter outer s) (loc : Option Loc) :
    Accounts enter outer (.block ss loc) := by
  unfold Accounts
  rw [evalWith]
  refine (enlarges_statements hss .nothing).congr fun f x => ?_
  constructor
  · rintro ⟨before, s, after, v, f', rfl, hb, hd⟩
    exact .inside (.statement hb) hd
  · rintro (_ | ⟨hs, hd⟩)
    cases hs with
    | statement hb => exact ⟨_, _, _, _, _, rfl, hb, hd⟩

theorem accounts_leaf (hstill : Still (e.evalWith enter outer))
    (hnone : ∀ f x, ¬ Defines enter outer e f x) : Accounts enter outer e :=
  hstill.enlarges.congr (by simp [hnone])

theorem accounts_single {k : Value → Eval Value} (ha : Accounts enter outer a)
    (hstarts : ∀ f, Starts enter outer e f a f)
    (honly : ∀ f x, Defines enter outer e f x → Defines enter outer a f x)
    (heval : e.evalWith enter outer = Eval.demand a.loc (a.evalWith enter outer) >>= k)
    (hk : ∀ v, Still (k v)) : Accounts enter outer e := by
  unfold Accounts
  rw [heval]
  exact (ha.demand.last hk).congr fun f x => ⟨.inside (hstarts f), honly f x⟩

theorem still_scope (outer : Scope Value) : Still (Eval.scope outer) := fun _ => rfl

theorem still_nameValue (outer : Scope Value) (x : String) (loc : Option Loc) :
    Still (nameValue outer x loc) := by
  refine (still_scope outer).bind fun s => ?_
  split
  · exact still_fail _ _
  · exact still_fail _ _
  · exact still_pure _

mutual

/-- The evaluation of every term adds the names whose definitions it completes, and nothing else,
whether it fails or not. -/
theorem accounts (enter : Enter) (outer : Scope Value) : ∀ e : Expr, Accounts enter outer e
  | .literal v loc =>
    accounts_leaf (by rw [evalWith]; exact still_pure v) (by rintro f x (_ | ⟨⟨⟩, _⟩))
  | .ident x loc =>
    accounts_leaf (by rw [evalWith]; exact still_nameValue outer x loc)
      (by rintro f y (_ | ⟨⟨⟩, _⟩))
  | .unary op e loc =>
    accounts_single (accounts enter outer e) (fun _ => .operand)
      (by rintro f x (_ | ⟨⟨⟩, hd⟩); exact hd) (by rw [evalWith]) fun v => still_lift _
  | .binary op a b loc => accounts_binary (accounts enter outer a) (accounts enter outer b) op loc
  | .list es loc => accounts_list (accountsAll enter outer es) loc
  | .head e loc =>
    accounts_single (accounts enter outer e) (fun _ => .head)
      (by rintro f x (_ | ⟨⟨⟩, hd⟩); exact hd) (by rw [evalWith])
      fun v => (still_elements _ _ v).bind fun vs => by
        cases vs with
        | nil => exact still_fail _ _
        | cons => exact still_pure _
  | .tail e loc =>
    accounts_single (accounts enter outer e) (fun _ => .tail)
      (by rintro f x (_ | ⟨⟨⟩, hd⟩); exact hd) (by rw [evalWith])
      fun v => (still_elements _ _ v).bind fun vs => by
        cases vs with
        | nil => exact still_fail _ _
        | cons => exact still_pure _
  | .length e loc =>
    accounts_single (accounts enter outer e) (fun _ => .length)
      (by rintro f x (_ | ⟨⟨⟩, hd⟩); exact hd) (by rw [evalWith])
      fun v => (still_elements _ _ v).bind fun vs => still_pure _
  | .cond c a b loc =>
    accounts_cond (accounts enter outer c) (accounts enter outer a) (accounts enter outer b) loc
  | .lambda x body loc =>
    accounts_leaf (by rw [evalWith]; exact (still_scope outer).bind fun s => still_pure _)
      (by rintro f y (_ | ⟨⟨⟩, _⟩))
  | .apply g a loc => accounts_apply (accounts enter outer g) (accounts enter outer a) loc
  | .letIn x v body loc =>
    accounts_single (accounts enter outer v) (fun _ => .bound)
      (by rintro f y (_ | ⟨⟨⟩, hd⟩); exact hd) (by rw [evalWith])
      fun w => (still_scope outer).bind fun s => still_lift _
  | .val x e loc => accounts_val (accounts enter outer e) x loc
  | .map g xs loc => accounts_map (accounts enter outer g) (accounts enter outer xs) loc
  | .fold side g i xs loc =>
    accounts_fold (accounts enter outer g) (accounts enter outer i)
      (accounts enter outer xs) side loc
  | .block ss loc => accounts_block (accountsAll enter outer ss) loc

theorem accountsAll (enter : Enter) (outer : Scope Value) :
    ∀ es : List Expr, ∀ e ∈ es, Accounts enter outer e
  | [] => by simp
  | e :: es => List.forall_mem_cons.mpr ⟨accounts enter outer e, accountsAll enter outer es⟩

end

/-- An evaluation that fails does not complete the definition that its term is. -/
theorem not_settles_of_error {stop : Stop} {f' : Frame Value}
    (h : (Term.val x e loc).evalWith enter outer f = .error stop f') (hx : f.defines x = false)
    (v : Value) (f₁ : Frame Value) : ¬ Settles enter outer e f v f₁ := by
  intro hv
  unfold Settles at hv
  rw [evalWith_val, if_neg (by simp [hx]), hv] at h
  cases h

end Term

section Plain

variable {enter : Enter} {outer : Scope Value} {e e' : Expr} {f f' : Frame Value} {x : String}

theorem Plain.starts (h : Plain e) (hs : Term.Starts enter outer e f e' f') : Plain e' := by
  cases hs with
  | element => cases h with | list hes => exact hes _ (by simp)
  | _ => cases h <;> assumption

theorem Plain.not_defines (h : Plain e) : ¬ Term.Defines enter outer e f x := by
  intro hd
  induction hd with
  | here => cases h
  | inside hs _ ih => exact ih (h.starts hs)

end Plain

/-- Within a scope, two frames bind the same names themselves, show the same names in the same
order, and give them the same meaning. -/
structure Frame.Unchanged (outer : Scope Value) (f f' : Frame Value) : Prop where
  defines : ∀ x, f'.defines x = f.defines x
  lookup : ∀ x, (Scope.frame f' outer).lookup x = (Scope.frame f outer).lookup x
  names : (Scope.frame f' outer).names = (Scope.frame f outer).names

namespace Term

/-- What a failed evaluation leaves: the names that were bound, and behind them the names whose
definitions inside the term were completed. So nothing has changed just if there are no such
definitions, and there are none in the statements of parsed programs. -/
theorem evalWith_error_defines {depth : Nat} {outer : Scope Value} {e : Expr}
    {f f' : Frame Value} {stop : Stop}
    (h : e.evalWith (enterWithin depth) outer f = .error stop f') :
    (∃ added : Frame Value, f' = f ++ added ∧
      ∀ x, x ∈ added.names ↔ Defines (enterWithin depth) outer e f x) ∧
    (Frame.Unchanged outer f f' ↔ ∀ x, ¬ Defines (enterWithin depth) outer e f x) ∧
    (PlainStatement e → Frame.Unchanged outer f f') := by
  obtain ⟨added, hf, hadded⟩ := accounts (enterWithin depth) outer e f
  rw [Eval.frameAfter_of_error h] at hf
  have hiff : Frame.Unchanged outer f f' ↔ ∀ x, ¬ Defines (enterWithin depth) outer e f x := by
    constructor
    · intro hsame x hd
      have hold : f.defines x = true := by
        rw [← hsame.defines, hf, Frame.defines_iff, Frame.names_append, List.mem_append]
        exact .inr ((hadded x).1.mpr hd)
      exact (hadded x).2 hd ((Frame.defines_iff f x).mp hold)
    · intro hnone
      have hnil : added = [] := by
        cases added with
        | nil => rfl
        | cons b added => exact absurd ((hadded b.1).1.mp (by simp [Frame.names])) (hnone b.1)
      obtain rfl : f' = f := by rw [hf, hnil, List.append_nil]
      exact ⟨fun _ => rfl, fun _ => rfl, rfl⟩
  refine ⟨⟨added, hf, fun x => (hadded x).1⟩, hiff, fun hplain => hiff.mpr fun x hd => ?_⟩
  cases hplain with
  | expression he => exact he.not_defines hd
  | val he =>
    obtain ⟨hx, ⟨-, v, f₁, hv⟩ | hd⟩ := defines_val_iff.mp hd
    · exact not_settles_of_error h hx v f₁ hv
    · exact he.not_defines hd

/-- Statements inside an operand stay bound when the operator fails. -/
theorem evalWith_error_defines_block :
    let e : Expr := .binary (.arith .add)
      (.block [.val "a" (.literal (.int 1) none) none, .ident "a" none] none)
      (.literal (.bool true) none) none
    e.evalWith (enterWithin 0) .empty [] =
        .error (.error ⟨.badOperands "+" .int .bool, none⟩) [("a", .int 1)] ∧
      Defines (enterWithin 0) .empty e [] "a" ∧
      ¬ Frame.Unchanged .empty [] [("a", .int 1)] := by
  intro e
  have h : e.evalWith (enterWithin 0) .empty [] =
      .error (.error ⟨.badOperands "+" .int .bool, none⟩) [("a", .int 1)] := by
    cbv
  have hval : Settles (enterWithin 0) .empty (.literal (.int 1) none) [] (.int 1) [] := by
    cbv
  have hstart : Starts (enterWithin 0) .empty
      (.block ([] ++ .val "a" (.literal (.int 1) none) none :: [.ident "a" none]) none) []
      (.val "a" (.literal (.int 1) none) none) [] := .statement rfl
  have hd : Defines (enterWithin 0) .empty e [] "a" :=
    .inside .left (.inside hstart (.here rfl hval))
  exact ⟨h, hd, fun hsame => (evalWith_error_defines h).2.1.mp hsame "a" hd⟩

/-- A definition in the place of an operand is refused, and its name stays bound. -/
theorem refused_val_stays :
    let e : Expr := .binary (.arith .add) (.val "x" (.literal (.int 1) none) none)
      (.literal (.int 2) none) none
    e.evalWith (enterWithin 0) .empty [] = .error (.error ⟨.notAValue, none⟩) [("x", .int 1)] ∧
      (Scope.frame [] .empty).lookup "x" = none ∧
      (∃ v, (Scope.frame [("x", .int 1)] .empty).lookup "x" = some v) ∧
      (Scope.frame [] .empty).names = [] ∧
      (Scope.frame [("x", .int 1)] .empty).names = ["x"] := by
  refine ⟨?_, rfl, ⟨.int 1, rfl⟩, rfl, rfl⟩
  cbv

end Term

end Minifun
