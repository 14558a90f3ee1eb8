import Minifun.Proofs.Eval.Programs

/-! # Evaluation of plain expressions

A plain expression leaves the frame as it was, whether it has a type or not. Where there is no
answer, the reason is an error of the language, calls that nest too deeply, or the remainder of an
infinite real. The answer is a whole value: there is neither a name nor a missing value in it, and
the bodies of its closures are plain again. A statement of a program adds one name to the frame or
none.
-/

namespace Minifun

/-- The reasons that a plain expression can have to end without an answer. -/
def Stop.Plain : Stop → Prop
  | .error _ | .outOfDepth => True
  | .broken b => b = .infiniteRemainder

def Gives {α : Type} (r : Except Stop α) (Q : α → Prop) : Prop :=
  match r with
  | .ok a => Q a
  | .error stop => stop.Plain

/-- An evaluation leaves the frame as it is, and its answer has a property or is missing for one of
the reasons of plain expressions. -/
def Stays {α : Type} (frame : Frame Value) (m : Eval α) (Q : α → Prop) : Prop :=
  match m frame with
  | .ok a frame' => frame' = frame ∧ Q a
  | .error stop frame' => frame' = frame ∧ stop.Plain

mutual

inductive Value.Whole : Value → Prop where
  | int {n} : Value.Whole (.int n)
  | real {x} : Value.Whole (.real x)
  | bool {b} : Value.Whole (.bool b)
  | list {vs} : (∀ v ∈ vs, Value.Whole v) → Value.Whole (.list vs)
  | closure {p body scope} : Plain body → Scope.Whole scope →
      Value.Whole (.closure p body scope)

inductive Scope.Whole : Scope Value → Prop where
  | empty : Scope.Whole .empty
  | frame {bs parent} : (∀ b ∈ bs, Value.Whole b.2) → Scope.Whole parent →
      Scope.Whole (.frame bs parent)
  | knot {x p body parent} : Plain body → Scope.Whole parent →
      Scope.Whole (.knot x p body parent)

end

/-- Closures with plain bodies give whole values for whole values. -/
def EnterWhole (enter : Enter) : Prop :=
  ∀ p body scope v, Plain body → Scope.Whole scope → v.Whole →
    Gives (enter p body scope v) Value.Whole

section Calculus

variable {α β : Type} {frame : Frame Value} {P Q : α → Prop} {S : β → Prop}

theorem Gives.bind {r : Except Stop α} {f : α → Except Stop β} (h : Gives r P)
    (hf : ∀ a, P a → Gives (f a) S) : Gives (r >>= f) S := by
  cases r with
  | ok a => exact hf a h
  | error stop => exact h

theorem gives_mapM {f : α → Except Stop β} {as : List α} (h : ∀ a ∈ as, Gives (f a) S) :
    Gives (as.mapM f) fun bs => ∀ b ∈ bs, S b := by
  induction as with
  | nil => exact fun b hb => nomatch hb
  | cons a as ih =>
    rw [List.mapM_cons]
    refine (h a List.mem_cons_self).bind fun b hb => ?_
    refine (ih fun a ha => h a (List.mem_cons_of_mem _ ha)).bind fun bs hbs => ?_
    exact List.forall_mem_cons.mpr ⟨hb, hbs⟩

theorem gives_foldlM {f : β → α → Except Stop β} {as : List α} {b : β} (hb : S b)
    (h : ∀ a ∈ as, ∀ b, S b → Gives (f b a) S) : Gives (as.foldlM f b) S := by
  induction as generalizing b with
  | nil => exact hb
  | cons a as ih =>
    rw [List.foldlM_cons]
    refine (h a List.mem_cons_self b hb).bind fun c hc => ?_
    exact ih hc fun a ha => h a (List.mem_cons_of_mem _ ha)

theorem stays_pure {a : α} (h : Q a) : Stays frame (pure a) Q :=
  ⟨rfl, h⟩

theorem stays_fail (cause : EvalCause) (loc : Option Loc) : Stays frame (Eval.fail cause loc) Q :=
  ⟨rfl, trivial⟩

theorem Gives.lift {r : Except Stop α} (h : Gives r Q) : Stays frame (Eval.lift r) Q := by
  cases r with
  | ok a => exact ⟨rfl, h⟩
  | error stop => exact ⟨rfl, h⟩

theorem Stays.bind {m : Eval α} {f : α → Eval β} (h : Stays frame m Q)
    (hf : ∀ a, Q a → Stays frame (f a) S) : Stays frame (m >>= f) S := by
  unfold Stays at h
  split at h
  · rename_i a frame' hm
    obtain ⟨rfl, ha⟩ := h
    have h := hf a ha
    unfold Stays at h ⊢
    rw [bind_of_ok hm]
    exact h
  · rename_i stop frame' hm
    unfold Stays
    rw [bind_of_error hm]
    exact h

theorem Stays.within {m : Eval Value} {Q : Value → Prop} (h : Stays frame m Q) :
    Gives (Eval.within frame m) Q := by
  unfold Stays at h
  unfold Eval.within
  split at h
  · rename_i a frame' hm
    rw [hm]
    exact h.2
  · rename_i stop frame' hm
    rw [hm]
    exact h.2

end Calculus

section Building

variable {s outer : Scope Value} {v w : Value}
  {x : String} {frame : Frame Value} {enter : Enter} {loc : Option Loc}

theorem Value.Whole.isValue (h : v.Whole) : v.isValue = true := by
  cases h <;> rfl

theorem Value.Whole.tied (h : v.Whole) (x : String) : (v.tied x).Whole := by
  cases h with
  | closure hb hs => exact .closure hb (.knot hb hs)
  | int => exact .int
  | real => exact .real
  | bool => exact .bool
  | list hvs => exact .list hvs

theorem Scope.Whole.bindings (h : s.Whole) : ∀ b ∈ s.bindings, b.2.Whole := by
  induction s with
  | empty => simp [Scope.bindings]
  | frame bs parent ih =>
    cases h with
    | frame hbs hp => exact List.forall_mem_append.mpr ⟨hbs, ih hp⟩
  | knot x p body parent ih =>
    cases h with
    | knot hb hp => exact List.forall_mem_cons.mpr ⟨.closure hb (.knot hb hp), ih hp⟩

theorem Scope.Whole.lookup (h : s.Whole) (hx : s.lookup x = some v) :
    v.Whole := by
  rw [Scope.lookup_eq_find?] at hx
  exact h.bindings (x, v) (Frame.mem_of_find?_eq_some hx)

theorem Scope.Whole.snapshot (h : s.Whole) : s.snapshot.Whole :=
  .frame (fun b hb => h.bindings b (Frame.mem_of_mem_distinct hb)) .empty

theorem Scope.Whole.bind (h : s.Whole) (hv : v.Whole) (x : String) :
    (Scope.frame [(x, v)] s).Whole :=
  .frame (by simpa using hv) h

theorem Stays.demand {m : Eval Value} (h : Stays frame m Value.Whole)
    (loc : Option Loc) : Stays frame (Eval.demand loc m) Value.Whole := by
  refine h.bind fun v hv => ?_
  rw [if_pos hv.isValue]
  exact stays_pure hv

theorem stays_elements (hv : v.Whole) (what : String) (loc : Option Loc) :
    Stays frame (Eval.elements what loc v) fun vs => ∀ v ∈ vs, v.Whole := by
  cases hv with
  | list hvs => exact stays_pure hvs
  | int | real | bool | closure => exact stays_fail _ _

theorem stays_callee (henter : EnterWhole enter) (hv : v.Whole)
    (what : String) (loc : Option Loc) :
    Stays frame (Eval.callee enter what loc v) fun call =>
      ∀ w, w.Whole → Gives (call w) Value.Whole := by
  cases hv with
  | closure hb hs => exact stays_pure fun w hw => henter _ _ _ w hb hs hw
  | int | real | bool | list => exact stays_fail _ _

theorem gives_callTwice {call : Value → Except Stop Value} (henter : EnterWhole enter)
    (hcall : ∀ v, v.Whole → Gives (call v) Value.Whole)
    (hv : v.Whole) (hw : w.Whole) (keyword : String) (loc : Option Loc) :
    Gives (Eval.callTwice enter keyword loc call v w) Value.Whole := by
  refine (hcall v hv).bind fun g hg => ?_
  cases hg with
  | closure hb hs => exact henter _ _ _ w hb hs hw
  | int | real | bool | list => exact trivial

theorem gives_negate (hv : v.Whole) (op : UnOp) :
    Gives (v.negate op loc) Value.Whole := by
  cases hv with
  | int => cases op <;> first | exact .int | exact trivial
  | real => cases op <;> first | exact .real | exact trivial
  | bool => cases op <;> first | exact .bool | exact trivial
  | list => cases op <;> exact trivial
  | closure => cases op <;> exact trivial

theorem gives_onReals (op : ArithOp) (x y : Float) :
    Gives (op.onReals x y loc) Value.Whole := by
  cases op with
  | add | sub | mul => exact .real
  | div =>
    simp only [ArithOp.onReals]
    split
    · exact trivial
    · exact .real
  | mod =>
    simp only [ArithOp.onReals]
    split
    · exact trivial
    · split
      · exact .real
      · exact rfl

theorem gives_arithmetic (op : ArithOp) (v w : Value) :
    Gives (v.arithmetic op w loc) Value.Whole := by
  unfold Value.arithmetic
  split
  · split
    · exact .int
    · exact trivial
  · exact gives_onReals op _ _
  · exact trivial

theorem gives_compare (op : RelOp) (v w : Value) :
    Gives (v.compare op w loc) Value.Whole := by
  unfold Value.compare
  split
  · exact .bool
  · exact .bool
  · exact trivial

/-- Lists of different classes cannot be put together, and the elements have a class to report. -/
theorem gives_append (hv : v.Whole) (hw : w.Whole) : Gives (v.append w loc) Value.Whole := by
  cases hv with
  | @list vs hvs =>
    cases hw with
    | @list ws hws =>
      have hall : (Value.list (vs ++ ws)).Whole := .list (List.forall_mem_append.mpr ⟨hvs, hws⟩)
      unfold Value.append
      cases vs with
      | nil => exact hall
      | cons x xs =>
        cases ws with
        | nil => exact hall
        | cons y ys =>
          have hx := (hvs x List.mem_cons_self).isValue
          have hy := (hws y List.mem_cons_self).isValue
          simp only [Value.classOf, hx, hy, if_true]
          split
          · exact hall
          · exact trivial
    | int | real | bool | closure => exact trivial
  | int | real | bool | closure => exact trivial

theorem gives_operate (op : BinOp) (hv : v.Whole) (hw : w.Whole) :
    Gives (v.operate op w loc) Value.Whole := by
  cases op with
  | arith op => exact gives_arithmetic op v w
  | rel op => exact gives_compare op v w
  | concat => exact gives_append hv hw
  | logic | other => exact trivial

end Building

section Constructs

variable {enter : Enter} {frame : Frame Value} {outer : Scope Value} {es : List Expr}
  {a b c e f i v body xs : Expr} {x : String}

theorem stays_elementsOf (hes : ∀ e ∈ es, Stays frame (e.evalWith enter outer) Value.Whole)
    (first : Option Value) :
    Stays frame (Term.evalElements enter outer first es) fun vs => ∀ v ∈ vs, v.Whole := by
  induction es generalizing first with
  | nil =>
    rw [Term.evalElements]
    exact stays_pure (by simp)
  | cons e es ih =>
    obtain ⟨he, hes⟩ := List.forall_mem_cons.mp hes
    rw [Term.evalElements]
    refine (he.demand e.loc).bind fun v hv => ?_
    have hrest (first : Option Value) : Stays frame
        (Term.evalElements enter outer first es >>= fun vs => pure (v :: vs))
        fun vs => ∀ v ∈ vs, v.Whole :=
      (ih hes first).bind fun vs hvs => stays_pure (List.forall_mem_cons.mpr ⟨hv, hvs⟩)
    split
    · exact stays_fail _ _
    · cases first with
      | none => exact hrest (some v)
      | some u =>
        simp only
        split
        · exact hrest (some u)
        · exact stays_fail _ _

theorem stays_ident (hs : (Scope.frame frame outer).Whole) (x : String)
    (loc : Option Loc) : Stays frame (Eval.nameValue outer x loc) Value.Whole := by
  refine Stays.bind (Q := fun s => s = .frame frame outer) (stays_pure rfl) ?_
  rintro _ rfl
  cases hx : (Scope.frame frame outer).lookup x with
  | none => exact stays_fail _ _
  | some v =>
    have hv := hs.lookup hx
    cases hv <;> exact stays_pure (hs.lookup hx)

theorem stays_logic (ha : Stays frame (a.evalWith enter outer) Value.Whole)
    (hb : Stays frame (b.evalWith enter outer) Value.Whole) (op : LogicOp)
    (loc : Option Loc) :
    Stays frame ((Term.binary (.logic op) a b loc).evalWith enter outer)
      Value.Whole := by
  rw [Term.evalWith]
  refine (ha.demand a.loc).bind fun v hv => ?_
  cases hv with
  | bool =>
    simp only
    split
    · exact stays_pure .bool
    · refine (hb.demand b.loc).bind fun w hw => ?_
      cases hw with
      | bool => exact stays_pure .bool
      | int | real | list | closure => exact stays_fail _ _
  | int | real | list | closure => exact stays_fail _ _

theorem stays_binary (ha : Stays frame (a.evalWith enter outer) Value.Whole)
    (hb : Stays frame (b.evalWith enter outer) Value.Whole) (op : BinOp)
    (loc : Option Loc) :
    Stays frame ((Term.binary op a b loc).evalWith enter outer) Value.Whole := by
  cases op with
  | logic op => exact stays_logic ha hb op loc
  | arith | rel | concat | other =>
    rw [Term.evalWith]
    · refine (ha.demand a.loc).bind fun v hv => (hb.demand b.loc).bind fun w hw => ?_
      exact (gives_operate _ hv hw).lift
    · simp

theorem stays_head (he : Stays frame (e.evalWith enter outer) Value.Whole)
    (loc : Option Loc) :
    Stays frame ((Term.head e loc).evalWith enter outer) Value.Whole := by
  rw [Term.evalWith]
  refine (he.demand _).bind fun v hv => (stays_elements hv _ _).bind fun vs hvs => ?_
  cases vs with
  | nil => exact stays_fail _ _
  | cons v vs => exact stays_pure (hvs v List.mem_cons_self)

theorem stays_tail (he : Stays frame (e.evalWith enter outer) Value.Whole) (loc : Option Loc) :
    Stays frame ((Term.tail e loc).evalWith enter outer) Value.Whole := by
  rw [Term.evalWith]
  refine (he.demand _).bind fun v hv => (stays_elements hv _ _).bind fun vs hvs => ?_
  cases vs with
  | nil => exact stays_fail _ _
  | cons v vs =>
    exact stays_pure (.list fun w hw => hvs w (List.mem_cons_of_mem _ hw))

theorem stays_cond (hc : Stays frame (c.evalWith enter outer) Value.Whole)
    (ha : Stays frame (a.evalWith enter outer) Value.Whole)
    (hb : Stays frame (b.evalWith enter outer) Value.Whole) (loc : Option Loc) :
    Stays frame ((Term.cond c a b loc).evalWith enter outer) Value.Whole := by
  rw [Term.evalWith]
  refine (hc.demand _).bind fun v hv => ?_
  cases hv with
  | @bool t =>
    cases t with
    | true => exact ha.demand _
    | false => exact hb.demand _
  | int | real | list | closure => exact stays_fail _ _

theorem stays_apply (henter : EnterWhole enter)
    (hf : Stays frame (f.evalWith enter outer) Value.Whole)
    (ha : Stays frame (a.evalWith enter outer) Value.Whole) (loc : Option Loc) :
    Stays frame ((Term.apply f a loc).evalWith enter outer) Value.Whole := by
  rw [Term.evalWith]
  refine (hf.demand _).bind fun v hv => (stays_callee henter hv _ _).bind fun call hcall => ?_
  exact (ha.demand _).bind fun w hw => (hcall w hw).lift

theorem stays_letIn (hv : Stays frame (v.evalWith enter outer) Value.Whole)
    (hb : ∀ w, w.Whole →
      Stays [(x, w)] (body.evalWith enter (.frame frame outer)) Value.Whole)
    (loc : Option Loc) :
    Stays frame ((Term.letIn x v body loc).evalWith enter outer) Value.Whole := by
  rw [Term.evalWith]
  refine (hv.demand _).bind fun w hw => ?_
  refine Stays.bind (Q := fun s => s = .frame frame outer) (stays_pure rfl) ?_
  rintro _ rfl
  exact ((hb w hw).demand _).within.lift

theorem stays_map (henter : EnterWhole enter)
    (hf : Stays frame (f.evalWith enter outer) Value.Whole)
    (hx : Stays frame (xs.evalWith enter outer) Value.Whole) (loc : Option Loc) :
    Stays frame ((Term.map f xs loc).evalWith enter outer) Value.Whole := by
  rw [Term.evalWith]
  refine (hf.demand f.loc).bind fun v hv => (stays_callee henter hv _ _).bind fun call hcall => ?_
  refine (hx.demand xs.loc).bind fun w hw => (stays_elements hw _ _).bind fun vs hvs => ?_
  have hall := gives_mapM fun v hv => hcall v (hvs v hv)
  exact hall.lift.bind fun ws hws => stays_pure (.list hws)

theorem stays_fold (henter : EnterWhole enter)
    (hf : Stays frame (f.evalWith enter outer) Value.Whole)
    (hi : Stays frame (i.evalWith enter outer) Value.Whole)
    (hx : Stays frame (xs.evalWith enter outer) Value.Whole) (side : Side)
    (loc : Option Loc) :
    Stays frame ((Term.fold side f i xs loc).evalWith enter outer) Value.Whole := by
  rw [Term.evalWith]
  refine (hf.demand f.loc).bind fun v hv => (stays_callee henter hv _ _).bind fun call hcall => ?_
  refine (hi.demand i.loc).bind fun u hu => (hx.demand xs.loc).bind fun w hw => ?_
  refine (stays_elements hw _ _).bind fun vs hvs => Gives.lift ?_
  cases side with
  | left =>
    refine gives_foldlM hu fun v hv acc hacc => ?_
    exact gives_callTwice henter hcall hacc (hvs v hv) _ _
  | right =>
    refine gives_foldlM hu fun v hv acc hacc => ?_
    exact gives_callTwice henter hcall (hvs v (List.mem_reverse.mp hv)) hacc _ _

end Constructs

section Plain

variable {enter : Enter} {frame : Frame Value} {outer : Scope Value} {e : Expr}

/-- A plain expression leaves the frame as it is and gives a whole value, unless it ends for one of
the reasons of plain expressions. -/
theorem Plain.stays (henter : EnterWhole enter) (h : Plain e)
    (hs : (Scope.frame frame outer).Whole) :
    Stays frame (e.evalWith enter outer) Value.Whole := by
  induction h generalizing frame outer with
  | int => exact stays_pure .int
  | real => exact stays_pure .real
  | bool => exact stays_pure .bool
  | ident => exact stays_ident hs _ _
  | neg _ ih | not _ ih =>
    rw [Term.evalWith]
    exact ((ih hs).demand _).bind fun v hv => (gives_negate hv _).lift
  | binary _ _ _ iha ihb => exact stays_binary (iha hs) (ihb hs) _ _
  | list _ ih =>
    have hall := stays_elementsOf (fun e' he' => ih e' he' hs) none
    rw [Term.evalWith]
    exact hall.bind fun vs hvs => stays_pure (.list hvs)
  | head _ ih => exact stays_head (ih hs) _
  | tail _ ih => exact stays_tail (ih hs) _
  | length _ ih =>
    rw [Term.evalWith]
    exact ((ih hs).demand _).bind fun v hv => (stays_elements hv _ _).bind fun vs _ =>
      stays_pure .int
  | cond _ _ _ ihc iha ihb => exact stays_cond (ihc hs) (iha hs) (ihb hs) _
  | lambda hb =>
    unfold Stays
    rw [Term.evalWith_lambda]
    exact ⟨rfl, .closure hb hs.snapshot⟩
  | apply _ _ ihf iha => exact stays_apply henter (ihf hs) (iha hs) _
  | letIn _ _ ihv ihb => exact stays_letIn (ihv hs) (fun w hw => ihb (hs.bind hw _)) _
  | map _ _ ihf ihx => exact stays_map henter (ihf hs) (ihx hs) _
  | fold _ _ _ ihf ihi ihx => exact stays_fold henter (ihf hs) (ihi hs) (ihx hs) _ _

/-- Entering a closure keeps to whole values under every bound on the calls that may be open. -/
theorem enterWhole_enterWithin (depth : Nat) : EnterWhole (Term.enterWithin depth) := by
  induction depth with
  | zero =>
    intro p body scope v _ _ _
    exact trivial
  | succ depth ih =>
    intro p body scope v hb hs hv
    exact (hb.stays ih (hs.bind hv p)).within

end Plain

/-- What a statement makes of a frame: a definition adds a whole value under a new name, and an
expression adds nothing. -/
def Adds (s : Expr) (frame frame' : Frame Value) : Prop :=
  match s.defined? with
  | none => frame' = frame
  | some x => x ∉ frame.names ∧ ∃ v : Value, v.Whole ∧ frame' = frame ++ [(x, v)]

section Statements

variable {s : Expr} {ss : List Expr} {frame frame' : Frame Value} {v : Value} {stop : Stop}
  {depth : Nat}

theorem Plain.defined? {e : Expr} (h : Plain e) : e.defined? = none := by
  cases h <;> rfl

theorem Adds.whole (h : Adds s frame frame') (hf : ∀ b ∈ frame, b.2.Whole) :
    ∀ b ∈ frame', b.2.Whole := by
  unfold Adds at h
  split at h
  · exact h ▸ hf
  · obtain ⟨-, w, hw, rfl⟩ := h
    exact List.forall_mem_append.mpr ⟨hf, by simpa using hw⟩

theorem stays_val {x : String} {e : Expr} {loc : Option Loc} (he : Plain e)
    (hf : ∀ b ∈ frame, b.2.Whole) :
    match (Term.val x e loc).eval depth frame with
    | .ok _ frame' => Adds (.val x e loc) frame frame'
    | .error stop _ => stop.Plain := by
  have hval := Term.evalWith_val (Term.enterWithin depth) .empty x e loc frame
  rw [Term.eval, hval]
  by_cases hx : frame.defines x
  · rw [if_pos hx]
    exact trivial
  · rw [if_neg hx]
    have hstays := he.stays (enterWhole_enterWithin depth) (.frame hf .empty)
    have hd := hstays.demand e.loc
    unfold Stays at hd
    split at hd
    · rename_i v frame' hm
      obtain ⟨rfl, hv⟩ := hd
      have hx := mt (Frame.defines_iff frame' x).mpr hx
      rw [hm]
      exact ⟨hx, v.tied x, hv.tied x, Frame.define_of_not_mem _ hx⟩
    · rename_i stop frame' hm
      rw [hm]
      exact hd.2

/-- A statement adds a name to the frame or none. If it fails, then with an error of the language or
with the remainder of an infinite real. -/
theorem PlainStatement.adds (h : PlainStatement s) (hf : ∀ b ∈ frame, b.2.Whole) (depth : Nat) :
    match s.evalStatement depth frame with
    | .ok _ frame' => Adds s frame frame'
    | .error stop _ => stop.Plain ∧ stop ≠ .outOfDepth := by
  have heval : match s.eval depth frame with
      | .ok _ frame' => Adds s frame frame'
      | .error stop _ => stop.Plain := by
    cases h with
    | val he => exact stays_val he hf
    | expression he =>
      have hs := he.stays (enterWhole_enterWithin depth) (.frame hf .empty)
      unfold Stays at hs
      unfold Term.eval Adds
      split at hs
      · rename_i v frame' hm
        rw [hm, he.defined?]
        exact hs.1
      · rename_i stop frame' hm
        rw [hm]
        exact hs.2
  unfold Term.evalStatement Eval.statement
  cases hm : s.eval depth frame with
  | ok v frame' =>
    rw [hm] at heval
    exact heval
  | error stop frame' =>
    rw [hm] at heval
    cases stop with
    | error | broken => exact ⟨heval, by simp⟩
    | outOfDepth => exact ⟨trivial, by simp⟩

theorem Program.stop_evalAll (hs : ∀ s ∈ ss, PlainStatement s) (hf : ∀ b ∈ frame, b.2.Whole)
    (h : (evalAll depth ss frame).stop = some stop) : stop.Plain ∧ stop ≠ .outOfDepth := by
  induction ss generalizing frame with
  | nil => simp at h
  | cons s ss ih =>
    obtain ⟨hs, hss⟩ := List.forall_mem_cons.mp hs
    have hadds := hs.adds hf depth
    cases hm : s.evalStatement depth frame with
    | error stop' frame' =>
      rw [evalAll_cons_of_error hm] at h
      rw [hm] at hadds
      exact Option.some.inj h ▸ hadds
    | ok v frame' =>
      rw [evalAll_cons_of_ok hm] at h
      rw [hm] at hadds
      exact ih hss (hadds.whole hf) h

/-- Statements that all succeed add the names they define, each of them once. -/
theorem Program.frame_evalAll (hs : ∀ s ∈ ss, PlainStatement s) (hf : ∀ b ∈ frame, b.2.Whole)
    (hn : frame.names.Nodup) (h : (evalAll depth ss frame).stop = none) :
    ∃ new : Frame Value, (evalAll depth ss frame).frame = frame ++ new ∧
      new.names = ss.filterMap Term.defined? ∧ (frame ++ new).names.Nodup ∧
      ∀ b ∈ frame ++ new, b.2.Whole := by
  induction ss generalizing frame with
  | nil => exact ⟨[], by simp, rfl, by simpa using hn, by simpa using hf⟩
  | cons s ss ih =>
    obtain ⟨hs, hss⟩ := List.forall_mem_cons.mp hs
    have hadds := hs.adds hf depth
    cases hm : s.evalStatement depth frame with
    | error stop frame' =>
      rw [evalAll_cons_of_error hm] at h
      cases h
    | ok v frame' =>
      rw [evalAll_cons_of_ok hm] at h ⊢
      rw [hm] at hadds
      have hf' := hadds.whole hf
      unfold Adds at hadds
      cases hd : s.defined? with
      | none =>
        rw [hd] at hadds
        subst hadds
        rw [List.filterMap_cons_none hd]
        exact ih hss hf hn h
      | some x =>
        rw [hd] at hadds
        obtain ⟨hx, w, -, rfl⟩ := hadds
        have hn' : (frame ++ [(x, w)]).names.Nodup := by
          rw [← Frame.define_of_not_mem w hx, Frame.names_define_of_not_mem w hx]
          exact List.concat_eq_append ▸ hn.concat hx
        obtain ⟨new, hframe, hnames, hnodup, hwhole⟩ := ih hss hf' hn' h
        rw [List.append_assoc] at hframe hnodup hwhole
        refine ⟨(x, w) :: new, hframe, ?_, hnodup, hwhole⟩
        rw [List.filterMap_cons_some hd, ← hnames]
        rfl

end Statements

end Minifun
