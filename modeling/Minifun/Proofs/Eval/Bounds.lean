import Minifun.Eval.Run
import Minifun.Proofs.Sequence

/-! # The bound on calls

A larger bound on the calls that may be open changes no result but those that the bound cuts off.
Nor does it matter in which frames a scope keeps its names: evaluation sees of a scope what a
snapshot shows, the names in their order and what they stand for. Both are shown at once, for one
construct after the other, and then for all bounds by induction.
-/

namespace Minifun

namespace Frame

variable {α : Type} {bs cs : List (String × α)}

theorem distinctFrom_distinctFrom {seen seen' : List String} (h : seen' ⊆ seen)
    (bs : List (String × α)) :
    distinctFrom seen (distinctFrom seen' bs) = distinctFrom seen bs := by
  induction bs generalizing seen seen' with
  | nil => rfl
  | cons b bs ih =>
    by_cases hb' : b.1 ∈ seen'
    · simp [distinctFrom, hb', h hb', ih h]
    · by_cases hb : b.1 ∈ seen
      · simp [distinctFrom, hb', hb, ih (List.cons_subset.mpr ⟨hb, h⟩)]
      · simp [distinctFrom, hb', hb, ih (List.cons_subset_cons b.1 h)]

@[simp] theorem distinct_distinct (bs : List (String × α)) : distinct (distinct bs) = distinct bs :=
  distinctFrom_distinctFrom (List.Subset.refl _) bs

/-- What counts of bindings behind others depends on what counts of them alone. -/
theorem distinct_append_congr (front : List (String × α)) (h : distinct bs = distinct cs) :
    distinct (front ++ bs) = distinct (front ++ cs) := by
  have hfrom : ∀ seen : List String,
      distinctFrom seen (front ++ bs) = distinctFrom seen (front ++ cs) := by
    induction front with
    | nil =>
      intro seen
      rw [List.nil_append, List.nil_append, ← distinctFrom_distinctFrom (List.nil_subset seen) bs,
        ← distinctFrom_distinctFrom (List.nil_subset seen) cs]
      exact congrArg _ h
    | cons b front ih =>
      intro seen
      simp only [List.cons_append, distinctFrom, ih]
  exact hfrom []

end Frame

/-- Two scopes have the same names in the same order, and these stand for the same. -/
def Scope.Same (s t : Scope Value) : Prop :=
  Frame.distinct s.bindings = Frame.distinct t.bindings

namespace Scope.Same

variable {s t : Scope Value}

theorem refl (s : Scope Value) : Same s s := rfl

theorem snapshot (s : Scope Value) : Same s.snapshot s := by
  simp [Same, Scope.snapshot, Scope.bindings]

theorem frame (h : Same s t) (f : Frame Value) : Same (.frame f s) (.frame f t) :=
  Frame.distinct_append_congr f h

theorem lookup_eq (h : Same s t) (x : String) : s.lookup x = t.lookup x := by
  rw [lookup_eq_find?, lookup_eq_find?, ← Frame.find?_distinct, h, Frame.find?_distinct]

theorem names_eq (h : Same s t) : s.names = t.names :=
  congrArg Frame.names h

theorem snapshot_eq (h : Same s t) : s.snapshot = t.snapshot :=
  congrArg (Scope.frame · .empty) h

end Scope.Same

/-- The bound on calls was reached. A statement reports this as an error. -/
def Stop.Exhausted : Stop → Prop
  | .outOfDepth => True
  | .error e => e.cause = .tooDeep
  | .broken _ => False

/-- The first result is the second one, unless a bound on calls has cut it off. -/
def Cut {α : Type} (r r' : Except Stop α) : Prop :=
  (∃ stop, r = .error stop ∧ stop.Exhausted) ∨ r = r'

/-- From every frame, the first evaluation goes as the second one, unless a bound on calls cuts it
off. -/
def CutRun {α : Type} (m m' : Eval α) : Prop :=
  ∀ f, (∃ stop f', m f = .error stop f' ∧ stop.Exhausted) ∨ m f = m' f

def EnterCut (enter enter' : Enter) : Prop :=
  ∀ p body s v, Cut (enter p body s v) (enter' p body s v)

section Calculus

variable {α β : Type} {r r' : Except Stop α} {m m' : Eval α} {k k' : α → Eval β}

theorem Cut.refl (r : Except Stop α) : Cut r r :=
  .inr rfl

theorem Cut.bind {c c' : α → Except Stop β} (h : Cut r r') (hc : ∀ a, Cut (c a) (c' a)) :
    Cut (r >>= c) (r' >>= c') := by
  rcases h with ⟨stop, rfl, hstop⟩ | rfl
  · exact .inl ⟨stop, rfl, hstop⟩
  · cases r with
    | error stop => exact .refl _
    | ok a => exact hc a

theorem Cut.eq_ok {a : α} (h : Cut r r') (hr : r = .ok a) : r' = .ok a := by
  rcases h with ⟨stop, rfl, -⟩ | rfl
  · cases hr
  · exact hr

theorem Cut.eq (h : Cut r r') (hr : ∀ stop, r = .error stop → ¬ stop.Exhausted) : r = r' := by
  rcases h with ⟨stop, hstop, hex⟩ | heq
  · exact absurd hex (hr stop hstop)
  · exact heq

theorem cut_mapM {c c' : α → Except Stop β} (h : ∀ a, Cut (c a) (c' a)) (as : List α) :
    Cut (as.mapM c) (as.mapM c') := by
  induction as with
  | nil => exact .refl _
  | cons a as ih =>
    rw [List.mapM_cons, List.mapM_cons]
    exact (h a).bind fun b => ih.bind fun bs => .refl _

theorem cut_foldlM {c c' : β → α → Except Stop β} (h : ∀ b a, Cut (c b a) (c' b a)) (as : List α)
    (b : β) : Cut (as.foldlM c b) (as.foldlM c' b) := by
  induction as generalizing b with
  | nil => exact .refl _
  | cons a as ih =>
    rw [List.foldlM_cons, List.foldlM_cons]
    exact (h b a).bind ih

theorem CutRun.refl (m : Eval α) : CutRun m m :=
  fun _ => .inr rfl

theorem CutRun.bind (h : CutRun m m') (hk : ∀ a, CutRun (k a) (k' a)) :
    CutRun (m >>= k) (m' >>= k') := by
  intro f
  rcases h f with ⟨stop, f', hm, hstop⟩ | heq
  · exact .inl ⟨stop, f', bind_of_error hm, hstop⟩
  · cases hm : m f with
    | error stop f' =>
      right
      rw [bind_of_error hm, bind_of_error (heq ▸ hm)]
    | ok a f' =>
      rw [bind_of_ok hm, bind_of_ok (heq ▸ hm)]
      exact hk a f'

theorem Cut.lift (h : Cut r r') : CutRun (Eval.lift r) (Eval.lift r') := by
  rcases h with ⟨stop, rfl, hstop⟩ | rfl
  · exact fun f => .inl ⟨stop, f, rfl, hstop⟩
  · exact .refl _

theorem CutRun.within {m m' : Eval Value} (h : CutRun m m') (f : Frame Value) :
    Cut (Eval.within f m) (Eval.within f m') := by
  unfold Eval.within
  rcases h f with ⟨stop, f', hm, hstop⟩ | heq
  · exact .inl ⟨stop, by rw [hm], hstop⟩
  · exact .inr (by rw [heq])

theorem CutRun.demand {m m' : Eval Value} (h : CutRun m m') (loc : Option Loc) :
    CutRun (Eval.demand loc m) (Eval.demand loc m') :=
  h.bind fun _ => .refl _

theorem CutRun.statement {m m' : Eval Value} (h : CutRun m m') (loc : Option Loc) :
    CutRun (Eval.statement loc m) (Eval.statement loc m') := by
  intro f
  unfold Eval.statement
  rcases h f with ⟨stop, f', hm, hstop⟩ | heq
  · rw [hm]
    cases stop with
    | outOfDepth => exact .inl ⟨_, _, rfl, rfl⟩
    | error e => exact .inl ⟨_, _, rfl, hstop⟩
    | broken b => exact hstop.elim
  · exact .inr (by rw [heq])

theorem cutRun_scope {outer outer' : Scope Value} {k k' : Scope Value → Eval β}
    (hk : ∀ f, CutRun (k (.frame f outer)) (k' (.frame f outer'))) :
    CutRun (Eval.scope outer >>= k) (Eval.scope outer' >>= k') :=
  fun f => hk f f

end Calculus

section Constructs

variable {enter enter' : Enter} {outer outer' : Scope Value} {a b c e i xs v body : Expr}
  {es : List Expr} {loc : Option Loc} {x : String}

/-- A term is evaluated alike under a smaller bound, in scopes that are the same. -/
def Bounded (enter enter' : Enter) (e : Expr) : Prop :=
  ∀ outer outer', outer.Same outer' → CutRun (e.evalWith enter outer) (e.evalWith enter' outer')

theorem cutRun_callee {f : Value} {what : String} {β : Type}
    {k k' : (Value → Except Stop Value) → Eval β} (henter : EnterCut enter enter')
    (hk : ∀ call call', (∀ v, Cut (call v) (call' v)) → CutRun (k call) (k' call')) :
    CutRun (Eval.callee enter what loc f >>= k) (Eval.callee enter' what loc f >>= k') := by
  cases f with
  | closure p body s => exact hk _ _ (henter p body s)
  | int | real | bool | list | name | nothing => exact fun f => .inr rfl

theorem bounded_ident : Bounded enter enter' (.ident x loc) := by
  intro outer outer' h
  rw [Term.evalWith, Term.evalWith]
  refine cutRun_scope fun f => ?_
  rw [(h.frame f).lookup_eq, (h.frame f).names_eq]
  exact .refl _

theorem bounded_logic {op : LogicOp} (ha : Bounded enter enter' a) (hb : Bounded enter enter' b) :
    Bounded enter enter' (.binary (.logic op) a b loc) := by
  intro outer outer' h
  rw [Term.evalWith, Term.evalWith]
  refine ((ha _ _ h).demand _).bind fun u => ?_
  cases u with
  | bool left =>
    simp only
    split
    · exact .refl _
    · exact ((hb _ _ h).demand _).bind fun _ => .refl _
  | int | real | list | closure | name | nothing => exact .refl _

theorem bounded_operate {op : BinOp} (hop : ∀ op', op ≠ .logic op') (ha : Bounded enter enter' a)
    (hb : Bounded enter enter' b) : Bounded enter enter' (.binary op a b loc) := by
  intro outer outer' h
  rw [Term.evalWith, Term.evalWith]
  · exact ((ha _ _ h).demand _).bind fun _ => ((hb _ _ h).demand _).bind fun _ => .refl _
  · exact hop
  · exact hop

theorem bounded_elements (hes : ∀ e ∈ es, Bounded enter enter' e) (h : outer.Same outer')
    (first : Option Value) :
    CutRun (Term.evalElements enter outer first es) (Term.evalElements enter' outer' first es) := by
  induction es generalizing first with
  | nil =>
    rw [Term.evalElements, Term.evalElements]
    exact .refl _
  | cons e es ih =>
    obtain ⟨he, hes⟩ := List.forall_mem_cons.mp hes
    rw [Term.evalElements, Term.evalElements]
    refine ((he _ _ h).demand _).bind fun u => ?_
    split
    · exact .refl _
    · cases first with
      | none => exact (ih hes _).bind fun _ => .refl _
      | some w =>
        simp only
        split
        · exact (ih hes _).bind fun _ => .refl _
        · exact .refl _

theorem bounded_lambda : Bounded enter enter' (.lambda x body loc) := by
  intro outer outer' h
  rw [Term.evalWith, Term.evalWith]
  refine cutRun_scope fun f => ?_
  rw [(h.frame f).snapshot_eq]
  exact .refl _

theorem bounded_cond (hc : Bounded enter enter' c) (ha : Bounded enter enter' a)
    (hb : Bounded enter enter' b) : Bounded enter enter' (.cond c a b loc) := by
  intro outer outer' h
  rw [Term.evalWith, Term.evalWith]
  refine ((hc _ _ h).demand _).bind fun u => ?_
  cases u with
  | bool yes =>
    cases yes with
    | true => exact (ha _ _ h).demand _
    | false => exact (hb _ _ h).demand _
  | int | real | list | closure | name | nothing => exact .refl _

theorem bounded_apply {f : Expr} (henter : EnterCut enter enter') (hf : Bounded enter enter' f)
    (ha : Bounded enter enter' a) : Bounded enter enter' (.apply f a loc) := by
  intro outer outer' h
  rw [Term.evalWith, Term.evalWith]
  refine ((hf _ _ h).demand _).bind fun u => cutRun_callee henter fun call call' hcall => ?_
  exact ((ha _ _ h).demand _).bind fun w => (hcall w).lift

theorem bounded_letIn (hv : Bounded enter enter' v) (hbody : Bounded enter enter' body) :
    Bounded enter enter' (.letIn x v body loc) := by
  intro outer outer' h
  rw [Term.evalWith, Term.evalWith]
  refine ((hv _ _ h).demand _).bind fun u => cutRun_scope fun f => ?_
  exact (((hbody _ _ (h.frame f)).demand _).within _).lift

theorem bounded_val (he : Bounded enter enter' e) : Bounded enter enter' (.val x e loc) := by
  intro outer outer' h
  rw [Term.evalWith, Term.evalWith]
  refine (CutRun.refl _).bind fun f => ?_
  split
  · exact .refl _
  · exact ((he _ _ h).demand _).bind fun _ => .refl _

theorem bounded_map {f : Expr} (henter : EnterCut enter enter') (hf : Bounded enter enter' f)
    (hxs : Bounded enter enter' xs) : Bounded enter enter' (.map f xs loc) := by
  intro outer outer' h
  rw [Term.evalWith, Term.evalWith]
  refine ((hf _ _ h).demand _).bind fun u => cutRun_callee henter fun call call' hcall => ?_
  refine ((hxs _ _ h).demand _).bind fun w => (CutRun.refl _).bind fun vs => ?_
  exact (cut_mapM hcall vs).lift.bind fun _ => .refl _

theorem cut_callTwice (henter : EnterCut enter enter') {keyword : String}
    {call call' : Value → Except Stop Value} (hcall : ∀ v, Cut (call v) (call' v)) (u w : Value) :
    Cut (Eval.callTwice enter keyword loc call u w)
      (Eval.callTwice enter' keyword loc call' u w) := by
  refine (hcall u).bind fun g => ?_
  cases g with
  | closure p body s => exact henter p body s w
  | int | real | bool | list | name | nothing => exact .refl _

theorem cut_foldValues {side : Side} {step step' : Value → Value → Except Stop Value}
    (h : ∀ u w, Cut (step u w) (step' u w)) (u : Value) (vs : List Value) :
    Cut (Eval.foldValues side step u vs) (Eval.foldValues side step' u vs) := by
  cases side with
  | left => exact cut_foldlM h vs u
  | right => exact cut_foldlM (fun u w => h w u) vs.reverse u

theorem bounded_fold {f : Expr} {side : Side} (henter : EnterCut enter enter')
    (hf : Bounded enter enter' f) (hi : Bounded enter enter' i) (hxs : Bounded enter enter' xs) :
    Bounded enter enter' (.fold side f i xs loc) := by
  intro outer outer' h
  rw [Term.evalWith, Term.evalWith]
  refine ((hf _ _ h).demand _).bind fun u => cutRun_callee henter fun call call' hcall => ?_
  refine ((hi _ _ h).demand _).bind fun w => ((hxs _ _ h).demand _).bind fun l => ?_
  refine (CutRun.refl _).bind fun vs => ?_
  exact (cut_foldValues (cut_callTwice henter hcall) w vs).lift

theorem bounded_statements (hes : ∀ e ∈ es, Bounded enter enter' e) (h : outer.Same outer')
    (last : Value) :
    CutRun (Term.evalStatements enter outer last es)
      (Term.evalStatements enter' outer' last es) := by
  induction es generalizing last with
  | nil =>
    rw [Term.evalStatements, Term.evalStatements]
    exact .refl _
  | cons e es ih =>
    obtain ⟨he, hes⟩ := List.forall_mem_cons.mp hes
    rw [Term.evalStatements, Term.evalStatements]
    exact ((he _ _ h).statement _).bind (ih hes)

end Constructs

mutual

/-- Every term is evaluated alike under a smaller bound, in scopes that are the same. -/
theorem bounded {enter enter' : Enter} (henter : EnterCut enter enter') :
    ∀ e : Expr, Bounded enter enter' e
  | .literal _ _ => fun _ _ _ => by rw [Term.evalWith, Term.evalWith]; exact .refl _
  | .ident _ _ => bounded_ident
  | .unary _ e _ | .head e _ | .tail e _ | .length e _ => fun _ _ h => by
    rw [Term.evalWith, Term.evalWith]
    exact ((bounded henter e _ _ h).demand _).bind fun _ => .refl _
  | .binary (.logic _) a b _ => bounded_logic (bounded henter a) (bounded henter b)
  | .binary (.arith _) a b _ => bounded_operate (by simp) (bounded henter a) (bounded henter b)
  | .binary (.rel _) a b _ => bounded_operate (by simp) (bounded henter a) (bounded henter b)
  | .binary .concat a b _ => bounded_operate (by simp) (bounded henter a) (bounded henter b)
  | .binary (.other _) a b _ => bounded_operate (by simp) (bounded henter a) (bounded henter b)
  | .list es _ => fun _ _ h => by
    rw [Term.evalWith, Term.evalWith]
    exact (bounded_elements (bounded_all henter es) h none).bind fun _ => .refl _
  | .cond c a b _ => bounded_cond (bounded henter c) (bounded henter a) (bounded henter b)
  | .lambda _ _ _ => bounded_lambda
  | .apply f a _ => bounded_apply henter (bounded henter f) (bounded henter a)
  | .letIn _ v body _ => bounded_letIn (bounded henter v) (bounded henter body)
  | .val _ e _ => bounded_val (bounded henter e)
  | .map f xs _ => bounded_map henter (bounded henter f) (bounded henter xs)
  | .fold _ f i xs _ =>
    bounded_fold henter (bounded henter f) (bounded henter i) (bounded henter xs)
  | .block ss _ => fun _ _ h => by
    rw [Term.evalWith, Term.evalWith]
    exact bounded_statements (bounded_all henter ss) h .nothing

theorem bounded_all {enter enter' : Enter} (henter : EnterCut enter enter') :
    ∀ es : List Expr, ∀ e ∈ es, Bounded enter enter' e
  | [] => fun _ he => absurd he List.not_mem_nil
  | e :: es => List.forall_mem_cons.mpr ⟨bounded henter e, bounded_all henter es⟩

end

/-- Under a smaller bound closures are entered alike, unless the bound is reached. -/
theorem enterCut_enterWithin {depth depth' : Nat} (h : depth ≤ depth') :
    EnterCut (Term.enterWithin depth) (Term.enterWithin depth') := by
  induction depth generalizing depth' with
  | zero => exact fun _ _ _ _ => .inl ⟨.outOfDepth, rfl, trivial⟩
  | succ depth ih =>
    cases depth' with
    | zero => omega
    | succ depth' =>
      intro p body s v
      exact (bounded (ih (by omega)) body s s (.refl s)).within _

theorem cut_evalWith {depth depth' : Nat} (h : depth ≤ depth') (e : Expr)
    {outer outer' : Scope Value} (hs : outer.Same outer') (f : Frame Value) :
    Cut (Eval.within f (e.evalWith (Term.enterWithin depth) outer))
      (Eval.within f (e.evalWith (Term.enterWithin depth') outer')) :=
  (bounded (enterCut_enterWithin h) e outer outer' hs).within f

end Minifun
