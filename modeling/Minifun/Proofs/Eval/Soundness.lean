import Minifun.Proofs.Eval.Inhabitants
import Minifun.Proofs.Sequence

/-! # Evaluation of typed expressions

An expression of a closed type is evaluated to an inhabitant of the type, or it fails for one of the
reasons that types do not exclude: a zero divisor, an empty list, a list in a list, calls that nest
too deeply, and the remainder of an infinite real. It leaves the frame as it was. This is shown
construct by construct, for any way to enter closures that keeps to it, and then for the bounded
ones by induction on the bound.
-/

namespace Minifun

/-- Why an evaluation may end without an answer whatever types say. -/
def Stop.Benign : Stop → Prop
  | .error e => e.cause.kind ∈ [some .divisionByZero, some .emptyList, some .nestedList]
  | .outOfDepth => True
  | .broken b => b = .infiniteRemainder

/-- A result has a property, or is missing for a benign reason. -/
def Answers {α : Type} (r : Except Stop α) (Q : α → Prop) : Prop :=
  match r with
  | .ok a => Q a
  | .error stop => stop.Benign

/-- An evaluation in a frame leaves the frame as it is, and its answer has a property or is missing
for a benign reason. -/
def Safe {α : Type} (frame : Frame Value) (m : Eval α) (Q : α → Prop) : Prop :=
  match m frame with
  | .ok a frame' => frame' = frame ∧ Q a
  | .error stop frame' => frame' = frame ∧ stop.Benign

def EnterSafe (D : String → Prop) (enter : Enter) : Prop :=
  ∀ p body scope σ τ v, (Value.closure p body scope).InhabitsIn D (.fn σ τ) → v.InhabitsIn D σ →
    Answers (enter p body scope v) (·.InhabitsIn D τ)

/-- An expression is evaluated to an inhabitant of a type, up to benign failures. -/
def Runs (D : String → Prop) (enter : Enter) (frame : Frame Value) (outer : Scope Value) (e : Expr)
    (τ : Ground) : Prop :=
  Safe frame (e.evalWith enter outer) (·.InhabitsIn D τ)

section Calculus

variable {α β : Type} {frame : Frame Value} {P Q : α → Prop} {S : β → Prop}

theorem Answers.bind {r : Except Stop α} {f : α → Except Stop β} (h : Answers r P)
    (hf : ∀ a, P a → Answers (f a) S) : Answers (r >>= f) S := by
  cases r with
  | ok a => exact hf a h
  | error stop => exact h

theorem answers_mapM {f : α → Except Stop β} {as : List α} (h : ∀ a ∈ as, Answers (f a) S) :
    Answers (as.mapM f) fun bs => ∀ b ∈ bs, S b := by
  induction as with
  | nil => exact fun b hb => nomatch hb
  | cons a as ih =>
    rw [List.mapM_cons]
    refine (h a List.mem_cons_self).bind fun b hb => ?_
    refine (ih fun a ha => h a (List.mem_cons_of_mem _ ha)).bind fun bs hbs => ?_
    exact List.forall_mem_cons.mpr ⟨hb, hbs⟩

theorem answers_foldlM {f : β → α → Except Stop β} {as : List α} {b : β} (hb : S b)
    (h : ∀ a ∈ as, ∀ b, S b → Answers (f b a) S) : Answers (as.foldlM f b) S := by
  induction as generalizing b with
  | nil => exact hb
  | cons a as ih =>
    rw [List.foldlM_cons]
    refine (h a List.mem_cons_self b hb).bind fun c hc => ?_
    exact ih hc fun a ha => h a (List.mem_cons_of_mem _ ha)

theorem safe_pure {a : α} (h : Q a) : Safe frame (pure a) Q :=
  ⟨rfl, h⟩

theorem safe_fail {cause : EvalCause} {loc : Option Loc}
    (h : (Stop.error ⟨cause, loc⟩).Benign) : Safe frame (Eval.fail cause loc) Q :=
  ⟨rfl, h⟩

theorem Answers.lift {r : Except Stop α} (h : Answers r Q) : Safe frame (Eval.lift r) Q := by
  cases r with
  | ok a => exact ⟨rfl, h⟩
  | error stop => exact ⟨rfl, h⟩

theorem Safe.imp {m : Eval α} (h : Safe frame m P) (hPQ : ∀ a, P a → Q a) : Safe frame m Q := by
  unfold Safe at h ⊢
  split at h
  · exact ⟨h.1, hPQ _ h.2⟩
  · exact h

theorem Safe.bind {m : Eval α} {f : α → Eval β} (h : Safe frame m Q)
    (hf : ∀ a, Q a → Safe frame (f a) S) : Safe frame (m >>= f) S := by
  unfold Safe at h
  split at h
  · rename_i a frame' hm
    obtain ⟨rfl, ha⟩ := h
    have h := hf a ha
    unfold Safe at h ⊢
    rw [bind_of_ok hm]
    exact h
  · rename_i stop frame' hm
    unfold Safe
    rw [bind_of_error hm]
    exact h

theorem Safe.within {m : Eval Value} {Q : Value → Prop} (h : Safe frame m Q) :
    Answers (Eval.within frame m) Q := by
  unfold Safe at h
  unfold Eval.within
  split at h
  · rename_i a frame' hm
    rw [hm]
    exact h.2
  · rename_i stop frame' hm
    rw [hm]
    exact h.2

end Calculus

section Constructs

variable {D : String → Prop} {enter : Enter} {frame : Frame Value} {outer : Scope Value}
  {a b c e f i xs v body : Expr} {es : List Expr} {σ τ : Ground} {loc : Option Loc}

theorem Runs.demand (h : Runs D enter frame outer e τ) :
    Safe frame (Eval.demand loc (e.evalWith enter outer)) (·.InhabitsIn D τ) := by
  refine Safe.bind h fun v hv => ?_
  rw [if_pos hv.isValue]
  exact safe_pure hv

theorem answers_negate {w : Value} (hτ : τ.isNumeric = true) (hw : w.InhabitsIn D τ) :
    Answers (w.negate .neg loc) (·.InhabitsIn D τ) := by
  cases hw.looks with
  | int => exact Value.inhabitsIn_int _
  | real => exact Value.inhabitsIn_real _
  | bool | list | closure => exact nomatch hτ

theorem answers_not {w : Value} (hw : w.InhabitsIn D .bool) :
    Answers (w.negate .not loc) (·.InhabitsIn D .bool) := by
  obtain ⟨b, rfl⟩ := hw.exists_bool
  exact Value.inhabitsIn_bool _

theorem answers_onReals {op : ArithOp} {x y : Float} :
    Answers (op.onReals x y loc) (·.InhabitsIn D .real) := by
  have hzero : (Stop.error ⟨.divisionByZero, loc⟩).Benign := by
    simp [Stop.Benign, EvalCause.kind]
  cases op with
  | add | sub | mul => exact Value.inhabitsIn_real _
  | div =>
    unfold ArithOp.onReals
    simp only
    split
    · exact hzero
    · exact Value.inhabitsIn_real _
  | mod =>
    unfold ArithOp.onReals
    simp only
    split
    · exact hzero
    · split
      · exact Value.inhabitsIn_real _
      · exact rfl

theorem answers_arithmetic {op : ArithOp} {v w : Value} (hτ : τ.isNumeric = true)
    (hv : v.InhabitsIn D τ) (hw : w.InhabitsIn D τ) :
    Answers (v.arithmetic op w loc) (·.InhabitsIn D τ) := by
  cases hv.looks with
  | int =>
    cases hw.looks with
    | int =>
      unfold Value.arithmetic
      simp only
      split
      · exact Value.inhabitsIn_int _
      · simp [Answers, Stop.Benign, EvalCause.kind]
  | real =>
    cases hw.looks with
    | real => exact answers_onReals
  | bool | list | closure => exact nomatch hτ

theorem answers_compare {op : RelOp} {v w : Value} (hτ : τ.isNumeric = true)
    (hv : v.InhabitsIn D τ) (hw : w.InhabitsIn D τ) :
    Answers (v.compare op w loc) (·.InhabitsIn D .bool) := by
  cases hv.looks with
  | int =>
    cases hw.looks with
    | int => exact Value.inhabitsIn_bool _
  | real =>
    cases hw.looks with
    | real => exact Value.inhabitsIn_bool _
  | bool | list | closure => exact nomatch hτ

theorem answers_append {v w : Value} (hv : v.InhabitsIn D (.list τ))
    (hw : w.InhabitsIn D (.list τ)) : Answers (v.append w loc) (·.InhabitsIn D (.list τ)) := by
  obtain ⟨vs, rfl, hvs⟩ := hv.exists_list
  obtain ⟨ws, rfl, hws⟩ := hw.exists_list
  have hall : (Value.list (vs ++ ws)).InhabitsIn D (.list τ) := by
    refine Value.inhabitsIn_list fun u hu => ?_
    rcases List.mem_append.mp hu with h | h
    · exact hvs u h
    · exact hws u h
  unfold Value.append
  cases vs with
  | nil => exact hall
  | cons v vs =>
    cases ws with
    | nil => exact hall
    | cons w ws =>
      have hc := (hvs v List.mem_cons_self).sameClass (hws w List.mem_cons_self)
      simp only [hc, if_true]
      exact hall

theorem runs_ident {x : String} {Γ : Context} (hs : (Scope.frame frame outer).Serves D Γ)
    (hx : Γ x = some τ) : Runs D enter frame outer (.ident x loc) τ := by
  obtain ⟨-, w, hw, hi⟩ := hs x τ hx
  unfold Runs
  rw [Term.evalWith]
  refine Safe.bind (Q := fun s => s = .frame frame outer) (safe_pure rfl) ?_
  rintro _ rfl
  rw [hw]
  cases hi.looks <;> exact safe_pure hi

theorem runs_neg (hτ : τ.isNumeric = true) (he : Runs D enter frame outer e τ) :
    Runs D enter frame outer (.unary .neg e loc) τ := by
  unfold Runs
  rw [Term.evalWith]
  exact he.demand.bind fun v hv => (answers_negate hτ hv).lift

theorem runs_not (he : Runs D enter frame outer e .bool) :
    Runs D enter frame outer (.unary .not e loc) .bool := by
  unfold Runs
  rw [Term.evalWith]
  exact he.demand.bind fun v hv => (answers_not hv).lift

theorem runs_operate {op : BinOp} {υ : Ground} (hop : ∀ op', op ≠ .logic op')
    (ha : Runs D enter frame outer a σ) (hb : Runs D enter frame outer b σ)
    (h : ∀ v w : Value, v.InhabitsIn D σ → w.InhabitsIn D σ →
      Answers (v.operate op w loc) (·.InhabitsIn D υ)) :
    Runs D enter frame outer (.binary op a b loc) υ := by
  unfold Runs
  rw [Term.evalWith]
  · refine ha.demand.bind fun v hv => hb.demand.bind fun w hw => ?_
    exact (h v w hv hw).lift
  · exact hop

theorem runs_logic {op : LogicOp} (ha : Runs D enter frame outer a .bool)
    (hb : Runs D enter frame outer b .bool) :
    Runs D enter frame outer (.binary (.logic op) a b loc) .bool := by
  unfold Runs
  rw [Term.evalWith]
  refine ha.demand.bind fun v hv => ?_
  obtain ⟨l, rfl⟩ := hv.exists_bool
  simp only
  split
  · exact safe_pure hv
  · refine hb.demand.bind fun w hw => ?_
    obtain ⟨r, rfl⟩ := hw.exists_bool
    exact safe_pure hw

theorem safe_elements (first : Option Value) (hf : ∀ u, first = some u → u.InhabitsIn D τ)
    (hes : ∀ e ∈ es, Runs D enter frame outer e τ) :
    Safe frame (Term.evalElements enter outer first es) fun vs => ∀ v ∈ vs, v.InhabitsIn D τ := by
  induction es generalizing first with
  | nil =>
    rw [Term.evalElements]
    exact safe_pure fun v hv => nomatch hv
  | cons e es ih =>
    have hrest := fun e he => hes e (List.mem_cons_of_mem _ he)
    rw [Term.evalElements]
    refine (hes e List.mem_cons_self).demand.bind fun v hv => ?_
    split
    · exact safe_fail (by simp [Stop.Benign, EvalCause.kind])
    · cases first with
      | none =>
        refine (ih (some v) (fun u hu => ?_) hrest).bind fun vs hvs => ?_
        · exact Option.some.inj hu ▸ hv
        · exact safe_pure (List.forall_mem_cons.mpr ⟨hv, hvs⟩)
      | some u =>
        simp only [(hf u rfl).sameClass hv, if_true]
        refine (ih (some u) hf hrest).bind fun vs hvs => ?_
        exact safe_pure (List.forall_mem_cons.mpr ⟨hv, hvs⟩)

theorem runs_list (hes : ∀ e ∈ es, Runs D enter frame outer e τ) :
    Runs D enter frame outer (.list es loc) (.list τ) := by
  unfold Runs
  rw [Term.evalWith]
  refine (safe_elements none nofun hes).bind fun vs hvs => ?_
  exact safe_pure (Value.inhabitsIn_list hvs)

theorem Runs.elements (h : Runs D enter frame outer e (.list τ)) (what : String) {β : Type}
    {g : List Value → Eval β} {Q : β → Prop}
    (hg : ∀ vs, (∀ v ∈ vs, v.InhabitsIn D τ) → Safe frame (g vs) Q) :
    Safe frame (do
      let v ← Eval.demand e.loc (e.evalWith enter outer)
      let vs ← Eval.elements what e.loc v
      g vs) Q := by
  refine h.demand.bind fun v hv => ?_
  obtain ⟨vs, rfl, hvs⟩ := hv.exists_list
  exact hg vs hvs

theorem runs_head (he : Runs D enter frame outer e (.list τ)) :
    Runs D enter frame outer (.head e loc) τ := by
  unfold Runs
  rw [Term.evalWith]
  refine he.elements _ fun vs hvs => ?_
  cases vs with
  | nil => exact safe_fail (by simp [Stop.Benign, EvalCause.kind])
  | cons v vs => exact safe_pure (hvs v List.mem_cons_self)

theorem runs_tail (he : Runs D enter frame outer e (.list τ)) :
    Runs D enter frame outer (.tail e loc) (.list τ) := by
  unfold Runs
  rw [Term.evalWith]
  refine he.elements _ fun vs hvs => ?_
  cases vs with
  | nil => exact safe_fail (by simp [Stop.Benign, EvalCause.kind])
  | cons v vs =>
    exact safe_pure (Value.inhabitsIn_list fun w hw => hvs w (List.mem_cons_of_mem _ hw))

theorem runs_length (he : Runs D enter frame outer e (.list τ)) :
    Runs D enter frame outer (.length e loc) .int := by
  unfold Runs
  rw [Term.evalWith]
  refine he.elements _ fun vs hvs => ?_
  exact safe_pure (Value.inhabitsIn_int _)

theorem runs_cond (hc : Runs D enter frame outer c .bool) (ha : Runs D enter frame outer a τ)
    (hb : Runs D enter frame outer b τ) : Runs D enter frame outer (.cond c a b loc) τ := by
  unfold Runs
  rw [Term.evalWith]
  refine hc.demand.bind fun v hv => ?_
  obtain ⟨t, rfl⟩ := hv.exists_bool
  cases t with
  | true => exact ha.demand
  | false => exact hb.demand

theorem runs_lambda {x : String} {Γ : Context} (hs : (Scope.frame frame outer).Serves D Γ)
    (hb : ∀ y ∈ x :: body.binders, D y) (ht : HasType (Γ.bind x σ) body τ) :
    Runs D enter frame outer (.lambda x body loc) (.fn σ τ) := by
  unfold Runs Safe
  rw [Term.evalWith_lambda]
  exact ⟨rfl, Value.inhabitsIn_closure hs.snapshot hb ht⟩

theorem Runs.callee (henter : EnterSafe D enter) (h : Runs D enter frame outer e (.fn σ τ))
    (what : String) {β : Type} {g : (Value → Except Stop Value) → Eval β} {Q : β → Prop}
    (hg : ∀ call, (∀ v, v.InhabitsIn D σ → Answers (call v) (·.InhabitsIn D τ)) →
      Safe frame (g call) Q) :
    Safe frame (do
      let v ← Eval.demand e.loc (e.evalWith enter outer)
      let call ← Eval.callee enter what e.loc v
      g call) Q := by
  refine h.demand.bind fun v hv => ?_
  obtain ⟨p, body, scope, rfl, -⟩ := hv.exists_closure
  exact hg _ fun w hw => henter p body scope σ τ w hv hw

theorem runs_apply (henter : EnterSafe D enter) (hf : Runs D enter frame outer f (.fn σ τ))
    (ha : Runs D enter frame outer a σ) : Runs D enter frame outer (.apply f a loc) τ := by
  unfold Runs
  rw [Term.evalWith]
  refine hf.callee henter _ fun call hcall => ?_
  exact ha.demand.bind fun v hv => (hcall v hv).lift

theorem runs_letIn {x : String} (hv : Runs D enter frame outer v σ)
    (hb : ∀ w, w.InhabitsIn D σ → Runs D enter [(x, w)] (.frame frame outer) body τ) :
    Runs D enter frame outer (.letIn x v body loc) τ := by
  unfold Runs
  rw [Term.evalWith]
  refine hv.demand.bind fun w hw => ?_
  refine Safe.bind (Q := fun s => s = .frame frame outer) (safe_pure rfl) ?_
  rintro _ rfl
  exact (hb w hw).demand.within.lift

theorem runs_map (henter : EnterSafe D enter) (hf : Runs D enter frame outer f (.fn σ τ))
    (hx : Runs D enter frame outer xs (.list σ)) :
    Runs D enter frame outer (.map f xs loc) (.list τ) := by
  unfold Runs
  rw [Term.evalWith]
  refine hf.callee henter _ fun call hcall => hx.elements _ fun vs hvs => ?_
  have hall := answers_mapM fun v hv => hcall v (hvs v hv)
  exact hall.lift.bind fun ws hws => safe_pure (Value.inhabitsIn_list hws)

theorem answers_callTwice {keyword : String} {call : Value → Except Stop Value} {ρ : Ground}
    {v w : Value} (henter : EnterSafe D enter)
    (hcall : ∀ v, v.InhabitsIn D σ → Answers (call v) (·.InhabitsIn D (.fn ρ τ)))
    (hv : v.InhabitsIn D σ) (hw : w.InhabitsIn D ρ) :
    Answers (Eval.callTwice enter keyword loc call v w) (·.InhabitsIn D τ) := by
  refine (hcall v hv).bind fun g hg => ?_
  obtain ⟨p, body, scope, rfl, -⟩ := hg.exists_closure
  exact henter p body scope ρ τ w hg hw

theorem runs_foldl (henter : EnterSafe D enter)
    (hf : Runs D enter frame outer f (.fn τ (.fn σ τ))) (hi : Runs D enter frame outer i τ)
    (hx : Runs D enter frame outer xs (.list σ)) :
    Runs D enter frame outer (.fold .left f i xs loc) τ := by
  unfold Runs
  rw [Term.evalWith]
  refine hf.callee henter _ fun call hcall => hi.demand.bind fun u hu => ?_
  refine hx.elements _ fun vs hvs => Answers.lift ?_
  exact answers_foldlM hu fun v hv w hw => answers_callTwice henter hcall hw (hvs v hv)

theorem runs_foldr (henter : EnterSafe D enter)
    (hf : Runs D enter frame outer f (.fn σ (.fn τ τ))) (hi : Runs D enter frame outer i τ)
    (hx : Runs D enter frame outer xs (.list σ)) :
    Runs D enter frame outer (.fold .right f i xs loc) τ := by
  unfold Runs
  rw [Term.evalWith]
  refine hf.callee henter _ fun call hcall => hi.demand.bind fun u hu => ?_
  refine hx.elements _ fun vs hvs => Answers.lift ?_
  refine answers_foldlM hu fun v hv w hw => answers_callTwice henter hcall (hvs v ?_) hw
  exact List.mem_reverse.mp hv

end Constructs

/-- A typed expression is evaluated to an inhabitant of its type. -/
theorem HasType.runs {D : String → Prop} {enter : Enter} (henter : EnterSafe D enter)
    {Γ : Context} {e : Expr} {τ : Ground} (h : HasType Γ e τ) {frame : Frame Value}
    {outer : Scope Value} (hs : (Scope.frame frame outer).Serves D Γ)
    (hb : ∀ x ∈ e.binders, D x) : Runs D enter frame outer e τ := by
  induction h generalizing frame outer with
  | int => exact safe_pure (Value.inhabitsIn_int _)
  | real => exact safe_pure (Value.inhabitsIn_real _)
  | bool => exact safe_pure (Value.inhabitsIn_bool _)
  | ident hx => exact runs_ident hs hx
  | neg hτ _ ih => exact runs_neg hτ (ih hs hb)
  | not _ ih => exact runs_not (ih hs hb)
  | arith hτ _ _ iha ihb =>
    rw [Term.binders, List.forall_mem_append] at hb
    exact runs_operate (by simp) (iha hs hb.1) (ihb hs hb.2) fun v w => answers_arithmetic hτ
  | rel hτ _ _ iha ihb =>
    rw [Term.binders, List.forall_mem_append] at hb
    exact runs_operate (by simp) (iha hs hb.1) (ihb hs hb.2) fun v w => answers_compare hτ
  | logic _ _ iha ihb =>
    rw [Term.binders, List.forall_mem_append] at hb
    exact runs_logic (iha hs hb.1) (ihb hs hb.2)
  | concat _ _ iha ihb =>
    rw [Term.binders, List.forall_mem_append] at hb
    exact runs_operate (by simp) (iha hs hb.1) (ihb hs hb.2) fun v w => answers_append
  | list _ ih =>
    rw [Term.binders] at hb
    exact runs_list fun e he => ih e he hs fun x hx => hb x (Term.mem_bindersOf.mpr ⟨e, he, hx⟩)
  | head _ ih => exact runs_head (ih hs hb)
  | tail _ ih => exact runs_tail (ih hs hb)
  | length _ ih => exact runs_length (ih hs hb)
  | cond _ _ _ ihc iha ihb =>
    rw [Term.binders, List.forall_mem_append, List.forall_mem_append] at hb
    exact runs_cond (ihc hs hb.1.1) (iha hs hb.1.2) (ihb hs hb.2)
  | lambda ht _ => exact runs_lambda hs hb ht
  | apply _ _ ihf iha =>
    rw [Term.binders, List.forall_mem_append] at hb
    exact runs_apply henter (ihf hs hb.1) (iha hs hb.2)
  | letIn _ _ ihv ihb =>
    rw [Term.binders, List.forall_mem_cons, List.forall_mem_append] at hb
    exact runs_letIn (ihv hs hb.2.1) fun w hw => ihb (hs.bind hb.1 hw) hb.2.2
  | map _ _ ihf ihx =>
    rw [Term.binders, List.forall_mem_append] at hb
    exact runs_map henter (ihf hs hb.1) (ihx hs hb.2)
  | foldl _ _ _ ihf ihi ihx =>
    rw [Term.binders, List.forall_mem_append, List.forall_mem_append] at hb
    exact runs_foldl henter (ihf hs hb.1.1) (ihi hs hb.1.2) (ihx hs hb.2)
  | foldr _ _ _ ihf ihi ihx =>
    rw [Term.binders, List.forall_mem_append, List.forall_mem_append] at hb
    exact runs_foldr henter (ihf hs hb.1.1) (ihi hs hb.1.2) (ihx hs hb.2)

/-- Entering a closure is safe under every bound on the calls that may be open. -/
theorem enterSafe_enterWithin (D : String → Prop) (depth : Nat) :
    EnterSafe D (Term.enterWithin depth) := by
  induction depth with
  | zero =>
    intro p body scope σ τ v _ _
    exact trivial
  | succ depth ih =>
    intro p body scope σ τ v hc hv
    obtain ⟨_, _, _, he, hb, Γ, hs, ht⟩ := hc.exists_closure
    obtain ⟨rfl, rfl, rfl⟩ := Value.closure.inj he
    obtain ⟨hp, hb⟩ := List.forall_mem_cons.mp hb
    exact (ht.runs ih (hs.bind hp hv) hb).within

end Minifun
