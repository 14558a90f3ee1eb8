import Minifun.Proofs.Eval.Visits

/-! # Flat lists

The elements of a list should be of one class and no lists themselves. A list that is written out is
checked for this, and `tl` and `++` make such lists of such lists. The list that `map` makes is not
checked: it holds whatever the function answers. If a run leaves a list that is not flat, although
all lists were so in the beginning, it visits a `map` that is to blame, and nothing else can be.
-/

namespace Minifun

open Term

/-- The elements of one list: no lists, and all of one class. -/
structure Uniform (vs : List Value) : Prop where
  noLists : ∀ v ∈ vs, v.isList = false
  oneClass : ∀ v ∈ vs, ∀ w ∈ vs, v.cls = w.cls

instance : DecidablePred Uniform := fun vs =>
  decidable_of_iff ((∀ v ∈ vs, v.isList = false) ∧ ∀ v ∈ vs, ∀ w ∈ vs, v.cls = w.cls)
    ⟨fun h => ⟨h.1, h.2⟩, fun h => ⟨h.noLists, h.oneClass⟩⟩

namespace Term

variable {α : Type}

mutual

@[simp] def constants : Term α → List α
  | literal v _ => [v]
  | ident _ _ => []
  | unary _ e _ | head e _ | tail e _ | length e _ | lambda _ e _ | val _ e _ => e.constants
  | binary _ a b _ | apply a b _ | letIn _ a b _ | map a b _ => a.constants ++ b.constants
  | cond a b c _ | fold _ a b c _ => a.constants ++ b.constants ++ c.constants
  | list es _ | block es _ => constantsAll es

@[simp] def constantsAll : List (Term α) → List α
  | [] => []
  | e :: es => e.constants ++ constantsAll es

end

theorem mem_constantsAll {a : α} {es : List (Term α)} :
    a ∈ constantsAll es ↔ ∃ e ∈ es, a ∈ e.constants := by
  induction es with
  | nil => simp
  | cons e es ih => simp [ih]

end Term

mutual

/-- An answer all of whose lists are uniform, with those in the code and the scopes of closures. -/
inductive Value.Flat : Value → Prop where
  | int {n} : Value.Flat (.int n)
  | real {x} : Value.Flat (.real x)
  | bool {b} : Value.Flat (.bool b)
  | name {x} : Value.Flat (.name x)
  | nothing : Value.Flat .nothing
  | list {vs} : Uniform vs → (∀ v ∈ vs, Value.Flat v) → Value.Flat (.list vs)
  | closure {p body scope} : (∀ v ∈ body.constants, Value.Flat v) → Scope.Flat scope →
      Value.Flat (.closure p body scope)

inductive Scope.Flat : Scope Value → Prop where
  | empty : Scope.Flat .empty
  | frame {bs parent} : (∀ b ∈ bs, Value.Flat b.2) → Scope.Flat parent →
      Scope.Flat (.frame bs parent)
  | knot {x p body parent} : (∀ v ∈ body.constants, Value.Flat v) → Scope.Flat parent →
      Scope.Flat (.knot x p body parent)

end

def Frame.Flat (frame : Frame Value) : Prop :=
  ∀ b ∈ frame, b.2.Flat

def Term.Flat (e : Expr) : Prop :=
  ∀ v ∈ e.constants, v.Flat

def Value.elements : Value → List Value
  | list vs => vs
  | _ => []

section Uniformity

variable {v w : Value} {vs ws : List Value}

theorem Value.isList_eq (v : Value) : v.isList = decide (v.cls = .list) := by
  cases v <;> rfl

theorem uniform_cons_iff :
    Uniform (v :: vs) ↔ v.isList = false ∧ ∀ w ∈ vs, w.cls = v.cls := by
  constructor
  · intro h
    exact ⟨h.noLists v List.mem_cons_self, fun w hw =>
      h.oneClass w (List.mem_cons_of_mem _ hw) v List.mem_cons_self⟩
  · rintro ⟨hv, hvs⟩
    have hall : ∀ w ∈ v :: vs, w.cls = v.cls := List.forall_mem_cons.mpr ⟨rfl, hvs⟩
    constructor
    · intro w hw
      rw [w.isList_eq, hall w hw, ← v.isList_eq, hv]
    · exact fun u hu w hw => (hall u hu).trans (hall w hw).symm

theorem Uniform.tail (h : Uniform (v :: vs)) : Uniform vs where
  noLists u hu := h.noLists u (List.mem_cons_of_mem _ hu)
  oneClass u hu w hw := h.oneClass u (List.mem_cons_of_mem _ hu) w (List.mem_cons_of_mem _ hw)

theorem Uniform.append (hv : Uniform (v :: vs)) (hw : Uniform (w :: ws)) (h : v.cls = w.cls) :
    Uniform (v :: vs ++ w :: ws) := by
  obtain ⟨hlist, hvs⟩ := uniform_cons_iff.mp hv
  obtain ⟨-, hws⟩ := uniform_cons_iff.mp hw
  rw [List.cons_append, uniform_cons_iff]
  refine ⟨hlist, List.forall_mem_append.mpr ⟨hvs, List.forall_mem_cons.mpr ⟨h.symm, ?_⟩⟩⟩
  exact fun u hu => (hws u hu).trans h.symm

theorem Uniform.of_flat (h : v.Flat) : Uniform v.elements := by
  cases h with
  | list hvs => exact hvs
  | _ => constructor <;> simp [Value.elements]

end Uniformity

section Values

variable {s : Scope Value} {v w u : Value} {x : String} {frame : Frame Value} {loc : Option Loc}

theorem Value.Flat.tied (h : v.Flat) (x : String) : (v.tied x).Flat := by
  cases h with
  | closure hb hs => exact .closure hb (.knot hb hs)
  | int => exact .int
  | real => exact .real
  | bool => exact .bool
  | name => exact .name
  | nothing => exact .nothing
  | list hl hvs => exact .list hl hvs

theorem Scope.Flat.bindings (h : s.Flat) : ∀ b ∈ s.bindings, b.2.Flat := by
  induction s with
  | empty => simp [Scope.bindings]
  | frame bs parent ih =>
    cases h with
    | frame hbs hp => exact List.forall_mem_append.mpr ⟨hbs, ih hp⟩
  | knot x p body parent ih =>
    cases h with
    | knot hb hp => exact List.forall_mem_cons.mpr ⟨.closure hb (.knot hb hp), ih hp⟩

theorem Scope.Flat.lookup (h : s.Flat) (hx : s.lookup x = some v) : v.Flat := by
  rw [Scope.lookup_eq_find?] at hx
  exact h.bindings (x, v) (Frame.mem_of_find?_eq_some hx)

theorem Scope.Flat.snapshot (h : s.Flat) : s.snapshot.Flat :=
  .frame (fun b hb => h.bindings b (Frame.mem_of_mem_distinct hb)) .empty

theorem Frame.Flat.define (hf : frame.Flat) (hv : v.Flat) (x : String) :
    Frame.Flat (Frame.define x v frame) := by
  induction frame with
  | nil => simpa [Frame.Flat, Frame.define] using hv
  | cons b bs ih =>
    obtain ⟨hb, hbs⟩ := List.forall_mem_cons.mp hf
    unfold Frame.define
    split
    · exact List.forall_mem_cons.mpr ⟨hv, hbs⟩
    · exact List.forall_mem_cons.mpr ⟨hb, ih hbs⟩

theorem flat_negate {op : UnOp} (h : v.negate op loc = .ok w) : w.Flat := by
  unfold Value.negate at h
  split at h
  · exact Except.ok.inj h ▸ .int
  · exact Except.ok.inj h ▸ .real
  · cases h
  · exact Except.ok.inj h ▸ .bool
  · cases h

theorem flat_arithmetic {op : ArithOp} (h : v.arithmetic op w loc = .ok u) : u.Flat := by
  unfold Value.arithmetic at h
  split at h
  · split at h
    · exact Except.ok.inj h ▸ .int
    · cases h
  · cases op with
    | add | sub | mul => exact Except.ok.inj h ▸ .real
    | div =>
      simp only [ArithOp.onReals] at h
      split at h
      · cases h
      · exact Except.ok.inj h ▸ .real
    | mod =>
      simp only [ArithOp.onReals] at h
      split at h
      · cases h
      · split at h
        · exact Except.ok.inj h ▸ .real
        · cases h
  · cases h

theorem flat_compare {op : RelOp} (h : v.compare op w loc = .ok u) : u.Flat := by
  unfold Value.compare at h
  split at h
  · exact Except.ok.inj h ▸ .bool
  · exact Except.ok.inj h ▸ .bool
  · cases h

theorem flat_append (hv : v.Flat) (hw : w.Flat) (h : v.append w loc = .ok u) : u.Flat := by
  unfold Value.append at h
  split at h
  · rename_i xs ys
    cases hv with
    | list hxs hxs' =>
    cases hw with
    | list hys hys' =>
    have hall : ∀ v ∈ xs ++ ys, v.Flat := List.forall_mem_append.mpr ⟨hxs', hys'⟩
    cases xs with
    | nil => exact Except.ok.inj h ▸ .list hys hall
    | cons x xs =>
      cases ys with
      | nil => exact Except.ok.inj h ▸ .list (by simpa using hxs) hall
      | cons y ys =>
        simp only at h
        split at h
        · rename_i hclass
          have hsame : x.cls = y.cls := by simpa [Value.sameClass] using hclass
          exact Except.ok.inj h ▸ .list (hxs.append hys hsame) hall
        · obtain ⟨_, _, h⟩ := bind_eq_ok_iff_exists.mp h
          obtain ⟨_, _, h⟩ := bind_eq_ok_iff_exists.mp h
          cases h
  · cases h

theorem flat_operate {op : BinOp} (hv : v.Flat) (hw : w.Flat) (h : v.operate op w loc = .ok u) :
    u.Flat := by
  cases op with
  | arith op => exact flat_arithmetic h
  | rel op => exact flat_compare h
  | concat => exact flat_append hv hw h
  | logic | other => cases h

end Values

section Calculus

variable {α β : Type} {m : Eval α} {k : α → Eval β} {f : Frame Value} {Q : α → Prop}
  {S : β → Prop}

/-- An evaluation leaves a flat frame, and an answer, if it has one, with a property. -/
def FlatAfter (Q : α → Prop) : EStateM.Result Stop (Frame Value) α → Prop
  | .ok a f => Q a ∧ Frame.Flat f
  | .error _ f => Frame.Flat f

theorem FlatAfter.bind (h : FlatAfter Q (m f))
    (hk : ∀ a f', m f = .ok a f' → Q a → Frame.Flat f' → FlatAfter S (k a f')) :
    FlatAfter S ((m >>= k) f) := by
  cases hm : m f with
  | ok a f' =>
    rw [hm] at h
    rw [bind_of_ok hm]
    exact hk a f' hm h.1 h.2
  | error stop f' =>
    rw [hm] at h
    rw [bind_of_error hm]
    exact h

theorem flatAfter_lift {r : Except Stop α} (hf : Frame.Flat f) (h : ∀ a, r = .ok a → Q a) :
    FlatAfter Q (Eval.lift r f) := by
  cases r with
  | ok a => exact ⟨h a rfl, hf⟩
  | error stop => exact hf

theorem FlatAfter.demand {act : Eval Value} {Q : Value → Prop} (h : FlatAfter Q (act f))
    (loc : Option Loc) : FlatAfter Q (Eval.demand loc act f) := by
  refine h.bind fun v f' _ hv hf' => ?_
  split
  · exact ⟨hv, hf'⟩
  · exact hf'

theorem FlatAfter.statement {act : Eval Value} {Q : Value → Prop} (h : FlatAfter Q (act f))
    (loc : Option Loc) : FlatAfter Q (Eval.statement loc act f) := by
  unfold Eval.statement
  cases hm : act f with
  | ok v f' =>
    rw [hm] at h
    exact h
  | error stop f' =>
    rw [hm] at h
    cases stop <;> exact h

theorem FlatAfter.within {act : Eval Value} {Q : Value → Prop} {r : Value} (h : FlatAfter Q (act f))
    (hr : Eval.within f act = .ok r) : Q r := by
  unfold Eval.within at hr
  cases hm : act f with
  | ok v f' =>
    rw [hm] at h hr
    exact Except.ok.inj hr ▸ h.1
  | error stop f' =>
    rw [hm] at hr
    cases hr

theorem flatAfter_callee {k : (Value → Except Stop Value) → Eval β} (hf : Frame.Flat f) (v : Value)
    (hk : ∀ p body s, v = .closure p body s → FlatAfter S (k (enter p body s) f)) (what : String)
    (loc : Option Loc) : FlatAfter S ((Eval.callee enter what loc v >>= k) f) := by
  cases v with
  | closure p body s => exact hk p body s rfl
  | int | real | bool | list | name | nothing => exact hf

theorem flatAfter_elements {k : List Value → Eval β} (hf : Frame.Flat f) (v : Value)
    (hk : ∀ vs, v = .list vs → FlatAfter S (k vs f)) (what : String) (loc : Option Loc) :
    FlatAfter S ((Eval.elements what loc v >>= k) f) := by
  cases v with
  | list vs => exact hk vs rfl
  | int | real | bool | closure | name | nothing => exact hf

end Calculus

section Parts

variable {enter : Enter} {outer : Scope Value} {e e' : Expr} {es ss : List Expr}
  {f f' : Frame Value} {v : Value}

theorem Term.Starts.flat (h : Starts enter outer e f e' f') (he : e.Flat) : e'.Flat := by
  intro v hv
  refine he v ?_
  cases h with
  | element | statement => exact mem_constantsAll.mpr ⟨e', by simp, hv⟩
  | _ => simp [hv]

theorem FlatAfter.settles (h : FlatAfter Value.Flat (e.evalWith enter outer f))
    (hv : Settles enter outer e f v f') : v.Flat ∧ Frame.Flat f' := by
  have hd := h.demand e.loc
  unfold Settles at hv
  rwa [hv] at hd

theorem starts_element {before after : List Expr} {loc : Option Loc} {vs : List Value}
    (h : es = before ++ e :: after) (hb : evalElements enter outer none before f = .ok vs f') :
    Starts enter outer (.list es loc) f e f' :=
  h ▸ .element hb

theorem starts_statement {before after : List Expr} {loc : Option Loc}
    (h : ss = before ++ e :: after) (hb : evalStatements enter outer .nothing before f = .ok v f') :
    Starts enter outer (.block ss loc) f e f' :=
  h ▸ .statement hb

theorem flatAfter_evalElements (first : Option Value)
    (hes : ∀ before e after vs f', es = before ++ e :: after →
      evalElements enter outer first before f = .ok vs f' → Frame.Flat f' →
      FlatAfter Value.Flat (e.evalWith enter outer f'))
    (hf : Frame.Flat f) (hfirst : Uniform first.toList) :
    FlatAfter (fun vs => Uniform (first.toList ++ vs) ∧ ∀ v ∈ vs, v.Flat)
      (evalElements enter outer first es f) := by
  induction es generalizing first f with
  | nil =>
    rw [evalElements]
    exact ⟨⟨by simpa using hfirst, by simp⟩, hf⟩
  | cons e es ih =>
    have he := hes [] e es [] f rfl rfl hf
    rw [evalElements]
    refine (he.demand e.loc).bind fun v f₁ hv hflat hf₁ => ?_
    split
    · exact hf₁
    · rename_i hlist
      have hrest (hadmits : Admits first v) : ∀ before e' after vs f', es = before ++ e' :: after →
          evalElements enter outer (some (first.getD v)) before f₁ = .ok vs f' → Frame.Flat f' →
          FlatAfter Value.Flat (e'.evalWith enter outer f') := by
        rintro before e' after vs f' rfl hb hf'
        exact hes (e :: before) e' after (v :: vs) f' rfl
          (evalElements_cons_eq_ok_iff.mpr ⟨v, f₁, hv, hadmits, vs, hb, rfl⟩) hf'
      cases first with
      | none =>
        have hstart : Uniform [v] := uniform_cons_iff.mpr ⟨by simpa using hlist, by simp⟩
        refine (ih (some v) (hrest ⟨by simpa using hlist, by simp⟩) hf₁ hstart).bind
          fun vs f₂ _ hvs hf₂ => ⟨⟨hvs.1, ?_⟩, hf₂⟩
        exact List.forall_mem_cons.mpr ⟨hflat, hvs.2⟩
      | some u =>
        dsimp only
        split
        · rename_i hclass
          refine (ih (some u) (hrest ⟨by simpa using hlist, by simpa using hclass⟩) hf₁ hfirst).bind
            fun vs f₂ _ hvs hf₂ => ⟨⟨?_, List.forall_mem_cons.mpr ⟨hflat, hvs.2⟩⟩, hf₂⟩
          obtain ⟨hu, hclasses⟩ := uniform_cons_iff.mp hvs.1
          have hsame : u.cls = v.cls := by simpa [Value.sameClass] using hclass
          exact uniform_cons_iff.mpr ⟨hu, List.forall_mem_cons.mpr ⟨hsame.symm, hclasses⟩⟩
        · exact hf₁

theorem flatAfter_evalStatements (last : Value)
    (hss : ∀ before s after v f', ss = before ++ s :: after →
      evalStatements enter outer last before f = .ok v f' → Frame.Flat f' →
      FlatAfter Value.Flat (s.evalWith enter outer f'))
    (hf : Frame.Flat f) (hlast : last.Flat) :
    FlatAfter Value.Flat (evalStatements enter outer last ss f) := by
  induction ss generalizing last f with
  | nil =>
    rw [evalStatements]
    exact ⟨hlast, hf⟩
  | cons s ss ih =>
    have hs := hss [] s ss last f rfl rfl hf
    rw [evalStatements]
    refine (hs.statement s.loc).bind fun v f₁ hv hflat hf₁ => ih v ?_ hf₁ hflat
    rintro before s' after w f' rfl hb hf'
    refine hss (s :: before) s' after w f' rfl ?_ hf'
    rw [evalStatements, bind_of_ok hv, hb]

theorem flatAfter_ident (hs : (Scope.frame f outer).Flat) (hf : Frame.Flat f) (x : String)
    (loc : Option Loc) : FlatAfter Value.Flat (Eval.nameValue outer x loc f) := by
  refine FlatAfter.bind (Q := fun s => s = .frame f outer) (m := Eval.scope outer) ⟨rfl, hf⟩ ?_
  rintro _ f' hscope rfl -
  obtain ⟨-, rfl⟩ := EStateM.Result.ok.inj hscope
  cases hx : (Scope.frame f outer).lookup x with
  | none => exact hf
  | some v =>
    have hv := hs.lookup hx
    cases v with
    | nothing => exact hf
    | int | real | bool | list | closure | name => exact ⟨hv, hf⟩

end Parts

section Repetition

variable {ε α β : Type}

/-- The answers of a row of calls are those of the single ones, each of which comes after others. -/
theorem exists_of_mapM_eq_ok {call : α → Except ε β} {as : List α} {bs : List β} {b : β}
    (h : as.mapM call = .ok bs) (hb : b ∈ bs) :
    ∃ before a after cs, as = before ++ a :: after ∧ before.mapM call = .ok cs ∧
      call a = .ok b := by
  induction as generalizing bs with
  | nil =>
    obtain rfl := Except.ok.inj h
    cases hb
  | cons a as ih =>
    rw [List.mapM_cons, bind_eq_ok_iff_exists] at h
    obtain ⟨c, hc, h⟩ := h
    obtain ⟨cs, hcs, h⟩ := bind_eq_ok_iff_exists.mp h
    obtain rfl := Except.ok.inj h
    rcases List.mem_cons.mp hb with rfl | hb
    · exact ⟨[], a, as, [], rfl, rfl, hc⟩
    · obtain ⟨before, a', after, ds, rfl, hds, ha'⟩ := ih hcs hb
      refine ⟨a :: before, a', after, c :: ds, rfl, ?_, ha'⟩
      rw [List.mapM_cons, bind_eq_ok_iff_exists]
      exact ⟨c, hc, bind_eq_ok_iff_exists.mpr ⟨ds, hds, rfl⟩⟩

/-- What every step of a loop keeps, the steps before it having been made. -/
theorem foldlM_invariant {step : β → α → Except ε β} {P : β → Prop} {as : List α} {b c : β}
    (hb : P b) (hstep : ∀ before a after b' c, as = before ++ a :: after →
      before.foldlM step b = .ok b' → P b' → step b' a = .ok c → P c)
    (h : as.foldlM step b = .ok c) : P c := by
  induction as generalizing b with
  | nil => exact Except.ok.inj h ▸ hb
  | cons a as ih =>
    rw [List.foldlM_cons, bind_eq_ok_iff_exists] at h
    obtain ⟨b₁, hb₁, h⟩ := h
    refine ih (hstep [] a as b b₁ rfl rfl hb hb₁) ?_ h
    rintro before a' after b' c rfl hb' hP hc
    refine hstep (a :: before) a' after b' c rfl ?_ hP hc
    rw [List.foldlM_cons, bind_eq_ok_iff_exists]
    exact ⟨b₁, hb₁, hb'⟩

end Repetition

namespace Evaluation

structure Flat (e : Evaluation) : Prop where
  term : e.term.Flat
  frame : Frame.Flat e.frame
  outer : e.outer.Flat

/-- The answer of an evaluation, if it has one, and the frame that it leaves are flat. -/
def LeavesFlat (e : Evaluation) : Prop :=
  FlatAfter Value.Flat e.result

/-- An evaluation that is flat, and all that it begins keeps to what is flat. -/
structure Supported (e : Evaluation) : Prop extends Flat e where
  begins : ∀ e', Begins e e' → e'.Flat → e'.LeavesFlat

namespace Supported

variable {d : Nat} {outer s : Scope Value} {e e' a b g i xs body : Expr} {es : List Expr}
  {f f' f₁ f₂ f₃ : Frame Value} {v w u r : Value} {vs : List Value} {p x : String}
  {loc : Option Loc} {side : Side}

theorem part (h : Supported ⟨d, outer, e, f⟩) (hs : Starts (enterWithin d) outer e f e' f')
    (hf' : Frame.Flat f') : FlatAfter Value.Flat (e'.evalWith (enterWithin d) outer f') :=
  h.begins _ (.part hs) ⟨hs.flat h.term, hf', h.outer⟩

theorem call (h : Supported ⟨d, outer, e, f⟩) (hc : Calls (enterWithin d) outer e f p body s v)
    (hclosure : (Value.closure p body s).Flat) (hv : v.Flat)
    (hr : enterWithin d p body s v = .ok r) : r.Flat := by
  cases d with
  | zero => cases hr
  | succ d =>
    cases hclosure with
    | closure hbody hs =>
      have hleaves := h.begins _ (.call hc) ⟨hbody, by simpa [Frame.Flat] using hv, hs⟩
      exact FlatAfter.within hleaves hr

theorem settles (h : Supported ⟨d, outer, e, f⟩) (hs : Starts (enterWithin d) outer e f e' f₁)
    (hf : Frame.Flat f₁) (hv : Settles (enterWithin d) outer e' f₁ v f₂) :
    v.Flat ∧ Frame.Flat f₂ :=
  (h.part hs hf).settles hv

section Folds

variable (h : Supported ⟨d, outer, .fold side g i xs loc, f⟩)
  (hg : Settles (enterWithin d) outer g f (.closure p body s) f₁)
  (hi : Settles (enterWithin d) outer i f₁ u f₂)

include h hg hi

theorem flat_initial : u.Flat ∧ Frame.Flat f₂ :=
  h.settles (.initial hg rfl) (h.settles .folded h.frame hg).2 hi

theorem flat_folded (hx : Settles (enterWithin d) outer xs f₂ (.list vs) f₃) :
    ∀ v ∈ vs, v.Flat := by
  cases (h.settles (.foldList hg rfl hi) (h.flat_initial hg hi).2 hx).1 with
  | list _ hvs => exact hvs

theorem flat_foldStep (hx : Settles (enterWithin d) outer xs f₂ (.list vs) f₃)
    (hto : FoldsTo (Eval.callTwice (enterWithin d) side.keyword g.loc (enterWithin d p body s)) u
      side vs v w) (hv : v.Flat) (hw : w.Flat)
    (hr : Eval.callTwice (enterWithin d) side.keyword g.loc (enterWithin d p body s) v w = .ok r) :
    r.Flat := by
  obtain ⟨q, body', s', hq, hr⟩ := callTwice_eq_ok_iff.mp hr
  have hclosure := (h.settles .folded h.frame hg).1
  have hnext := h.call (.foldFirst hg hi hx hto) hclosure hv hq
  exact h.call (.foldSecond hg hi hx hto hq) hnext hw hr

end Folds

theorem flat_foldLeft (before after : List Value)
    (h : Supported ⟨d, outer, .fold .left g i xs loc, f⟩)
    (hg : Settles (enterWithin d) outer g f (.closure p body s) f₁)
    (hi : Settles (enterWithin d) outer i f₁ u f₂)
    (hx : Settles (enterWithin d) outer xs f₂ (.list (before ++ after)) f₃)
    (hr : before.foldlM (Eval.callTwice (enterWithin d) Side.left.keyword g.loc
      (enterWithin d p body s)) u = .ok r) : r.Flat := by
  have hvs := h.flat_folded hg hi hx
  refine foldlM_invariant (h.flat_initial hg hi).1 ?_ hr
  rintro first v rest acc c rfl hacc hflat hc
  have hv := hvs v (by simp)
  rw [List.append_assoc, List.cons_append] at hx
  exact h.flat_foldStep hg hi hx (.left hacc) hflat hv hc

theorem flat_foldRight (before after : List Value)
    (h : Supported ⟨d, outer, .fold .right g i xs loc, f⟩)
    (hg : Settles (enterWithin d) outer g f (.closure p body s) f₁)
    (hi : Settles (enterWithin d) outer i f₁ u f₂)
    (hx : Settles (enterWithin d) outer xs f₂ (.list (before ++ after).reverse) f₃)
    (hr : before.foldlM (fun acc v => Eval.callTwice (enterWithin d) Side.right.keyword g.loc
      (enterWithin d p body s) v acc) u = .ok r) : r.Flat := by
  have hvs := h.flat_folded hg hi hx
  refine foldlM_invariant (h.flat_initial hg hi).1 ?_ hr
  rintro first v rest acc c rfl hacc hflat hc
  have hv := hvs v (by simp)
  rw [List.append_assoc, List.cons_append] at hx
  exact h.flat_foldStep hg hi hx (.right hacc) hv hflat hc

/-- The frame in which a part begins is the one that the parts before it have left. -/
theorem flat_frame (h : Supported ⟨d, outer, e, f⟩)
    (hs : Starts (enterWithin d) outer e f e' f') : Frame.Flat f' := by
  cases hs with
  | right hv => exact (h.settles .left h.frame hv).2
  | yes hv | no hv => exact (h.settles .test h.frame hv).2
  | argument hv => exact (h.settles .applied h.frame hv).2
  | mapList hv => exact (h.settles .mapped h.frame hv).2
  | initial hv => exact (h.settles .folded h.frame hv).2
  | foldList hv hfn hw =>
    exact (h.settles (.initial hv hfn) (h.settles .folded h.frame hv).2 hw).2
  | @element es _ es' _ _ vs _ hb =>
    have hleaves := flatAfter_evalElements none (f := f)
      (fun before e after vs f' (hes : es = before ++ e :: after) hb hf' => by
        have hall : es ++ e' :: es' = before ++ e :: (after ++ e' :: es') := by
          rw [hes, List.append_assoc, List.cons_append]
        exact h.part (starts_element hall hb) hf')
      h.frame ⟨by simp, by simp⟩
    rw [hb] at hleaves
    exact hleaves.2
  | @statement ss _ ss' _ _ v _ hb =>
    have hleaves := flatAfter_evalStatements .nothing
      (fun before s after v f' (hss : ss = before ++ s :: after) hb hf' => by
        have hall : ss ++ e' :: ss' = before ++ s :: (after ++ e' :: ss') := by
          rw [hss, List.append_assoc, List.cons_append]
        exact h.part (starts_statement hall hb) hf')
      h.frame .nothing
    rw [hb] at hleaves
    exact hleaves.2
  | _ => exact h.frame

theorem flat_calls (h : Supported ⟨d, outer, e, f⟩)
    (hc : Calls (enterWithin d) outer e f p body s v) : (Value.closure p body s).Flat ∧ v.Flat := by
  cases hc with
  | apply hg ha =>
    obtain ⟨hclosure, hf₁⟩ := h.settles .applied h.frame hg
    exact ⟨hclosure, (h.settles (.argument hg rfl) hf₁ ha).1⟩
  | map hg hx _ =>
    obtain ⟨hclosure, hf₁⟩ := h.settles .mapped h.frame hg
    cases (h.settles (.mapList hg rfl) hf₁ hx).1 with
    | list _ hvs => exact ⟨hclosure, hvs v (by simp)⟩
  | foldFirst hg hi hx hto =>
    refine ⟨(h.settles .folded h.frame hg).1, ?_⟩
    cases hto with
    | left hacc => exact flat_foldLeft _ _ h hg hi hx hacc
    | right _ => exact h.flat_folded hg hi hx v (by simp)
  | foldSecond hg hi hx hto hq =>
    have hclosure := (h.settles .folded h.frame hg).1
    cases hto with
    | left hacc =>
      have hflat := flat_foldLeft _ _ h hg hi hx hacc
      exact ⟨h.call (.foldFirst hg hi hx (.left hacc)) hclosure hflat hq,
        h.flat_folded hg hi hx v (by simp)⟩
    | right hacc =>
      have hw := h.flat_folded hg hi hx _
        (List.mem_reverse.mpr (List.mem_append_right _ List.mem_cons_self))
      exact ⟨h.call (.foldFirst hg hi hx (.right hacc)) hclosure hw hq,
        flat_foldRight _ _ h hg hi hx hacc⟩

theorem flatAfter_logic {op : LogicOp} (h : Supported ⟨d, outer, .binary (.logic op) a b loc, f⟩) :
    FlatAfter Value.Flat ((Term.binary (.logic op) a b loc).evalWith (enterWithin d) outer f) := by
  rw [evalWith]
  refine ((h.part .left h.frame).demand a.loc).bind fun v f₁ hv _ hf₁ => ?_
  cases v with
  | bool t =>
    dsimp only
    split
    · exact ⟨.bool, hf₁⟩
    · rename_i ht
      have hneeds : (BinOp.logic op).NeedsRight (.bool t) := ⟨t, rfl, by simpa using ht⟩
      refine ((h.part (.right hv hneeds) hf₁).demand b.loc).bind fun w f₂ _ _ hf₂ => ?_
      cases w with
      | bool => exact ⟨.bool, hf₂⟩
      | int | real | list | closure | name | nothing => exact hf₂
  | int | real | list | closure | name | nothing => exact hf₁

theorem flatAfter_binary {op : BinOp} (h : Supported ⟨d, outer, .binary op a b loc, f⟩) :
    FlatAfter Value.Flat ((Term.binary op a b loc).evalWith (enterWithin d) outer f) := by
  cases op with
  | logic op => exact h.flatAfter_logic
  | arith | rel | concat | other =>
    rw [evalWith]
    · refine ((h.part .left h.frame).demand a.loc).bind fun v f₁ hv hflat hf₁ => ?_
      refine ((h.part (.right hv trivial) hf₁).demand b.loc).bind fun w f₂ _ hflat' hf₂ => ?_
      exact flatAfter_lift hf₂ fun u => flat_operate hflat hflat'
    · simp

theorem flatAfter_list (h : Supported ⟨d, outer, .list es loc, f⟩) :
    FlatAfter Value.Flat ((Term.list es loc).evalWith (enterWithin d) outer f) := by
  have hleaves := flatAfter_evalElements none
    (fun _ _ _ _ _ hes hb hf' => h.part (starts_element hes hb) hf') h.frame ⟨by simp, by simp⟩
  rw [evalWith]
  exact hleaves.bind fun vs f' _ hvs hf' => ⟨.list hvs.1 hvs.2, hf'⟩

theorem flatAfter_head (h : Supported ⟨d, outer, .head e loc, f⟩) :
    FlatAfter Value.Flat ((Term.head e loc).evalWith (enterWithin d) outer f) := by
  rw [evalWith]
  refine ((h.part .head h.frame).demand e.loc).bind fun v f' _ hv hf' => ?_
  refine flatAfter_elements hf' v (fun vs hvs => ?_) _ _
  subst hvs
  cases vs with
  | nil => exact hf'
  | cons v vs =>
    cases hv with
    | list _ hvs => exact ⟨hvs v List.mem_cons_self, hf'⟩

theorem flatAfter_tail (h : Supported ⟨d, outer, .tail e loc, f⟩) :
    FlatAfter Value.Flat ((Term.tail e loc).evalWith (enterWithin d) outer f) := by
  rw [evalWith]
  refine ((h.part .tail h.frame).demand e.loc).bind fun v f' _ hv hf' => ?_
  refine flatAfter_elements hf' v (fun vs hvs => ?_) _ _
  subst hvs
  cases vs with
  | nil => exact hf'
  | cons v vs =>
    cases hv with
    | list hl hvs => exact ⟨.list hl.tail fun w hw => hvs w (List.mem_cons_of_mem _ hw), hf'⟩

theorem flatAfter_cond {c : Expr} (h : Supported ⟨d, outer, .cond c a b loc, f⟩) :
    FlatAfter Value.Flat ((Term.cond c a b loc).evalWith (enterWithin d) outer f) := by
  rw [evalWith]
  refine ((h.part .test h.frame).demand c.loc).bind fun v f' hv _ hf' => ?_
  cases v with
  | bool t =>
    cases t with
    | true => exact (h.part (.yes hv) hf').demand a.loc
    | false => exact (h.part (.no hv) hf').demand b.loc
  | int | real | list | closure | name | nothing => exact hf'

theorem flatAfter_apply (h : Supported ⟨d, outer, .apply g a loc, f⟩) :
    FlatAfter Value.Flat ((Term.apply g a loc).evalWith (enterWithin d) outer f) := by
  rw [evalWith]
  refine ((h.part .applied h.frame).demand g.loc).bind fun v f₁ hg hflat hf₁ => ?_
  refine flatAfter_callee hf₁ v (fun p body s hv => ?_) _ _
  subst hv
  refine ((h.part (.argument hg rfl) hf₁).demand a.loc).bind fun w f₂ ha hw hf₂ => ?_
  exact flatAfter_lift hf₂ fun r => h.call (.apply hg ha) hflat hw

theorem flatAfter_letIn {e : Expr} (h : Supported ⟨d, outer, .letIn x e body loc, f⟩) :
    FlatAfter Value.Flat ((Term.letIn x e body loc).evalWith (enterWithin d) outer f) := by
  rw [evalWith]
  refine ((h.part .bound h.frame).demand e.loc).bind fun w f' hw hflat hf' => ?_
  refine FlatAfter.bind (Q := fun s => s = .frame f' outer) (m := Eval.scope outer) ⟨rfl, hf'⟩ ?_
  rintro _ f'' hscope rfl -
  obtain ⟨-, rfl⟩ := EStateM.Result.ok.inj hscope
  refine flatAfter_lift hf' fun r hr => ?_
  have hbody : body.Flat := fun v hv => h.term v (by simp [hv])
  have hleaves := (h.begins _ (.body hw) ⟨hbody, by simpa [Frame.Flat] using hflat,
    .frame hf' h.outer⟩ : FlatAfter Value.Flat _).demand body.loc
  exact hleaves.within hr

theorem flatAfter_val {e : Expr} (h : Supported ⟨d, outer, .val x e loc, f⟩) :
    FlatAfter Value.Flat ((Term.val x e loc).evalWith (enterWithin d) outer f) := by
  rw [evalWith_val]
  split
  · exact h.frame
  · rename_i hx
    have hd := (h.part (.defined (by simpa using hx)) h.frame).demand e.loc
    split
    · rename_i v f' hm
      rw [hm] at hd
      exact ⟨.name, hd.2.define (hd.1.tied x) x⟩
    · rename_i stop f' hm
      rw [hm] at hd
      exact hd

theorem flatAfter_map (h : Supported ⟨d, outer, .map g xs loc, f⟩) :
    FlatAfter (fun v => ∃ ws, v = .list ws ∧ ∀ w ∈ ws, w.Flat)
      ((Term.map g xs loc).evalWith (enterWithin d) outer f) := by
  rw [evalWith]
  refine ((h.part .mapped h.frame).demand g.loc).bind fun v f₁ hg hflat hf₁ => ?_
  refine flatAfter_callee hf₁ v (fun p body s hv => ?_) _ _
  subst hv
  refine ((h.part (.mapList hg rfl) hf₁).demand xs.loc).bind fun l f₂ hx hl hf₂ => ?_
  refine flatAfter_elements hf₂ l (fun vs hvs => ?_) _ _
  subst hvs
  have hmade : FlatAfter (fun ws => ∀ w ∈ ws, w.Flat)
      (Eval.lift (vs.mapM (enterWithin d p body s)) f₂) := by
    refine flatAfter_lift hf₂ fun ws hws w hw => ?_
    obtain ⟨before, v, after, us, rfl, hus, hv⟩ := exists_of_mapM_eq_ok hws hw
    cases hl with
    | list _ hvs => exact h.call (.map hg hx hus) hflat (hvs v (by simp)) hv
  exact hmade.bind fun ws f₃ _ hws hf₃ => ⟨⟨ws, rfl, hws⟩, hf₃⟩

theorem flatAfter_fold (h : Supported ⟨d, outer, .fold side g i xs loc, f⟩) :
    FlatAfter Value.Flat ((Term.fold side g i xs loc).evalWith (enterWithin d) outer f) := by
  rw [evalWith]
  refine ((h.part .folded h.frame).demand g.loc).bind fun v f₁ hg hflat hf₁ => ?_
  refine flatAfter_callee hf₁ v (fun p body s hv => ?_) _ _
  subst hv
  refine ((h.part (.initial hg rfl) hf₁).demand i.loc).bind fun u f₂ hi _ hf₂ => ?_
  refine ((h.part (.foldList hg rfl hi) hf₂).demand xs.loc).bind fun l f₃ hx _ hf₃ => ?_
  refine flatAfter_elements hf₃ l (fun vs hvs => flatAfter_lift hf₃ fun r hr => ?_) _ _
  subst hvs
  cases side with
  | left => exact flat_foldLeft vs [] h hg hi (by rwa [List.append_nil]) hr
  | right =>
    exact flat_foldRight vs.reverse [] h hg hi (by rwa [List.append_nil, List.reverse_reverse]) hr

theorem flatAfter_block {ss : List Expr} (h : Supported ⟨d, outer, .block ss loc, f⟩) :
    FlatAfter Value.Flat ((Term.block ss loc).evalWith (enterWithin d) outer f) := by
  rw [evalWith]
  exact flatAfter_evalStatements .nothing
    (fun _ _ _ _ _ hss hb hf' => h.part (starts_statement hss hb) hf')
    h.frame .nothing

end Supported

/-- A flat evaluation of `map` that makes a list of flat elements which is not flat itself. -/
structure Blamed (e : Evaluation) : Prop extends Flat e where
  makes : ∃ g xs loc ws f, e.term = .map g xs loc ∧ e.result = .ok (.list ws) f ∧
    (∀ w ∈ ws, w.Flat) ∧ ¬ Uniform ws

variable {e e' : Evaluation}

theorem Blamed.not_leavesFlat (h : e.Blamed) : ¬ e.LeavesFlat := by
  obtain ⟨g, xs, loc, ws, f, -, hresult, -, hnot⟩ := h.makes
  intro hleaves
  unfold LeavesFlat at hleaves
  rw [hresult] at hleaves
  exact hnot (.of_flat hleaves.1)

/-- An evaluation keeps to what is flat if all that it begins does, unless it is to blame itself. -/
theorem Supported.leavesFlat (h : e.Supported) (hblame : ¬ e.Blamed) : e.LeavesFlat := by
  obtain ⟨d, outer, t, f⟩ := e
  unfold LeavesFlat result
  cases t with
  | literal v loc =>
    rw [evalWith]
    exact ⟨h.term v (by simp), h.frame⟩
  | ident x loc =>
    rw [evalWith]
    exact flatAfter_ident (.frame h.frame h.outer) h.frame x loc
  | unary op a loc =>
    rw [evalWith]
    exact ((h.part .operand h.frame).demand a.loc).bind fun v f' _ _ hf' =>
      flatAfter_lift hf' fun w => flat_negate
  | binary op a b loc => exact h.flatAfter_binary
  | list es loc => exact h.flatAfter_list
  | head a loc => exact h.flatAfter_head
  | tail a loc => exact h.flatAfter_tail
  | length a loc =>
    rw [evalWith]
    refine ((h.part .length h.frame).demand a.loc).bind fun v f' _ _ hf' => ?_
    refine flatAfter_elements hf' v (fun vs _ => ?_) _ _
    exact ⟨.int, hf'⟩
  | cond c a b loc => exact h.flatAfter_cond
  | lambda x body loc =>
    rw [evalWith_lambda]
    have hscope := (Scope.Flat.frame h.frame h.outer).snapshot
    exact ⟨.closure (fun v hv => h.term v (by simpa using hv)) hscope, h.frame⟩
  | apply g a loc => exact h.flatAfter_apply
  | letIn x v body loc => exact h.flatAfter_letIn
  | val x v loc => exact h.flatAfter_val
  | map g xs loc =>
    have hmade := h.flatAfter_map
    cases hm : (Term.map g xs loc).evalWith (enterWithin d) outer f with
    | error stop f' =>
      rw [hm] at hmade
      exact hmade
    | ok v f' =>
      rw [hm] at hmade
      obtain ⟨⟨ws, rfl, hws⟩, hf'⟩ := hmade
      refine ⟨.list ?_ hws, hf'⟩
      by_contra hnot
      exact hblame ⟨h.toFlat, g, xs, loc, ws, f', rfl, hm, hws, hnot⟩
  | fold side g i xs loc => exact h.flatAfter_fold
  | block ss loc => exact h.flatAfter_block

theorem Supported.flat_begins (h : e.Supported) (hb : Begins e e') : e'.Flat := by
  cases hb with
  | part hs => exact ⟨hs.flat h.term, h.flat_frame hs, h.outer⟩
  | body hw =>
    obtain ⟨hflat, hf'⟩ := h.settles .bound h.frame hw
    exact ⟨fun v hv => h.term v (by simp [hv]), by simpa [Frame.Flat] using hflat,
      .frame hf' h.outer⟩
  | call hc =>
    obtain ⟨hclosure, hv⟩ := h.flat_calls hc
    cases hclosure with
    | closure hbody hs => exact ⟨hbody, by simpa [Frame.Flat] using hv, hs⟩

/-- Where no evaluation is to blame, all of them keep to what is flat. -/
theorem Flat.visits (h : e.Flat) (hblame : ∀ e', e.Visits e' → ¬ e'.Blamed) :
    e.LeavesFlat ∧ ∀ e', e.Visits e' → e'.LeavesFlat := by
  induction e using wellFounded_begins.induction with
  | _ e ih =>
    have hsupported : e.Supported := ⟨h, fun e' hb he' =>
      (ih e' hb he' fun e'' hv => hblame e'' (.head hb hv)).1⟩
    have hleaves := hsupported.leavesFlat (hblame e .refl)
    refine ⟨hleaves, fun e'' hv => ?_⟩
    rcases Relation.ReflTransGen.cases_head hv with rfl | ⟨e', hb, hv⟩
    · exact hleaves
    · exact (ih e' hb (hsupported.flat_begins hb) fun e'' hv => hblame e'' (.head hb hv)).2 e'' hv

end Evaluation

section Programs

variable {depth : Nat} {e : Expr} {s : Expr} {ss : List Expr} {frame : Frame Value}

theorem Plain.flat (h : Plain e) : e.Flat := by
  intro v hv
  induction h with
  | int => exact List.mem_singleton.mp hv ▸ .int
  | real => exact List.mem_singleton.mp hv ▸ .real
  | bool => exact List.mem_singleton.mp hv ▸ .bool
  | ident => simp at hv
  | list _ ih =>
    obtain ⟨e, he, hv⟩ := mem_constantsAll.mp hv
    exact ih e he hv
  | neg _ ih | not _ ih | head _ ih | tail _ ih | length _ ih | lambda _ ih => exact ih hv
  | binary _ _ _ iha ihb | apply _ _ iha ihb | letIn _ _ iha ihb | map _ _ iha ihb =>
    exact (List.mem_append.mp hv).elim iha ihb
  | cond _ _ _ iha ihb ihc | fold _ _ _ iha ihb ihc =>
    rcases List.mem_append.mp hv with hv | hv
    · exact (List.mem_append.mp hv).elim iha ihb
    · exact ihc hv

theorem PlainStatement.flat (h : PlainStatement s) : s.Flat := by
  cases h with
  | val he => exact he.flat
  | expression he => exact he.flat

namespace Program

theorem flatAfter_evalAll (hss : ∀ s ∈ ss, s.Flat) (hframe : frame.Flat)
    (hblame : ∀ e, Visits depth ss frame e → ¬ e.Blamed) :
    ((∀ v ∈ (evalAll depth ss frame).answers, v.Flat) ∧ (evalAll depth ss frame).frame.Flat) ∧
      ∀ e, Visits depth ss frame e → e.LeavesFlat := by
  induction ss generalizing frame with
  | nil =>
    exact ⟨⟨by simp, hframe⟩, fun e he => (not_visits_nil he).elim⟩
  | cons s ss ih =>
    obtain ⟨hs, hss⟩ := List.forall_mem_cons.mp hss
    have hflat : Evaluation.Flat ⟨depth, .empty, s, frame⟩ := ⟨hs, hframe, .empty⟩
    obtain ⟨hleaves, hvisits⟩ := hflat.visits fun e he => hblame e (visits_cons_iff.mpr (.inl he))
    have heval : FlatAfter Value.Flat (s.eval depth frame) := hleaves
    have hstatement : FlatAfter Value.Flat (s.evalStatement depth frame) := heval.statement s.loc
    cases hm : s.evalStatement depth frame with
    | error stop frame' =>
      rw [hm] at hstatement
      rw [evalAll_cons_of_error hm]
      refine ⟨⟨by simp, hstatement⟩, fun e he => ?_⟩
      rcases visits_cons_iff.mp he with he | ⟨v, frame'', hs', -⟩
      · exact hvisits e he
      · cases hm.symm.trans hs'
    | ok v frame' =>
      rw [hm] at hstatement
      obtain ⟨⟨hanswers, hframe'⟩, hrest⟩ := ih hss hstatement.2 fun e he =>
        hblame e (visits_cons_iff.mpr (.inr ⟨v, frame', hm, he⟩))
      rw [evalAll_cons_of_ok hm]
      refine ⟨⟨List.forall_mem_cons.mpr ⟨hstatement.1, hanswers⟩, hframe'⟩, fun e he => ?_⟩
      rcases visits_cons_iff.mp he with he | ⟨v', frame'', hs', he⟩
      · exact hvisits e he
      · obtain ⟨rfl, rfl⟩ := EStateM.Result.ok.inj (hm.symm.trans hs')
        exact hrest e he

variable {source : String} {file : Option String} {p : Program}

/-- A program that is evaluated in a frame with flat lists only leaves such lists, in its answers
and in the frame, or it visits a `map` that makes a list of another kind from flat ones. It visits
such a `map` just if it visits any evaluation that leaves a list which is not flat. -/
theorem evalAll_flat (hp : parse source file = .ok p) (hframe : frame.Flat) (depth : Nat) :
    let result := evalAll depth p.statements frame
    (((∀ v ∈ result.answers, v.Flat) ∧ result.frame.Flat) ∨
      ∃ e, Visits depth p.statements frame e ∧ e.Blamed) ∧
    ((∃ e, Visits depth p.statements frame e ∧ ¬ e.LeavesFlat) ↔
      ∃ e, Visits depth p.statements frame e ∧ e.Blamed) := by
  intro result
  have hss : ∀ s ∈ p.statements, s.Flat := fun s hs => (plain_of_parse hp s hs).flat
  by_cases hblame : ∃ e, Visits depth p.statements frame e ∧ e.Blamed
  · obtain ⟨e, he, hmap⟩ := hblame
    exact ⟨.inr ⟨e, he, hmap⟩, fun _ => ⟨e, he, hmap⟩, fun _ => ⟨e, he, hmap.not_leavesFlat⟩⟩
  · obtain ⟨hresult, hvisits⟩ :=
      flatAfter_evalAll hss hframe fun e he hmap => hblame ⟨e, he, hmap⟩
    exact ⟨.inl hresult, fun ⟨e, he, hnot⟩ => (hnot (hvisits e he)).elim,
      fun h => (hblame h).elim⟩

/-- A definition by a `map` that puts every element into a list of its own. -/
theorem evalAll_flat_singletons :
    ∃ p, parse "val ys := map((fn x -> [x]) xs);" none = .ok p ∧
      Frame.Flat [("xs", .list [.int 1, .int 2])] ∧
      ∃ e, Visits 2 p.statements [("xs", .list [.int 1, .int 2])] e ∧ e.Blamed := by
  have hframe : Frame.Flat [("xs", .list [.int 1, .int 2])] := by
    have huniform : Uniform [.int 1, .int 2] := by decide
    simpa [Frame.Flat] using Value.Flat.list huniform (by simp [Value.Flat.int])
  obtain ⟨p, hp, ht⟩ := exists_of_parse "val ys := map((fn x -> [x]) xs);" none
    (fun p => decide (∃ b ∈ (evalAll 2 p.statements [("xs", .list [.int 1, .int 2])]).frame,
      ¬ Uniform b.2.elements))
    (by decide +kernel)
  obtain ⟨b, hb, hnot⟩ := of_decide_eq_true ht
  refine ⟨p, hp, hframe, ?_⟩
  rcases (evalAll_flat hp hframe 2).1 with ⟨-, hflat⟩ | hblame
  · exact absurd (Uniform.of_flat (hflat b hb)) hnot
  · exact hblame

end Program

end Programs

/-- A program with a type makes a list of lists from a flat one, and one without a type a list of
two classes. -/
theorem map_makes_lists :
    (∃ r, run standardDepth "map((fn x -> [x]) [1]);" none = .ok r ∧ r.answer.text = "[[1]]" ∧
      ¬ r.answer.Flat) ∧
    ∃ p v, Program.parse "map((fn x -> if x = 1 then 1 else true) [1, 2]);" none = .ok p ∧
      p.eval standardDepth = .ok v ∧ v.text = "[1, true]" ∧ ¬ v.Flat := by
  constructor
  · have hr : ((run standardDepth "map((fn x -> [x]) [1]);" none).toOption.map fun r =>
        decide (r.answer.text = "[[1]]" ∧ ¬ Uniform r.answer.elements)) = some true := by
      decide +kernel
    obtain ⟨r, hr, hanswer⟩ := eq_ok_of_map_eq_some hr
    obtain ⟨htext, hnot⟩ := of_decide_eq_true hanswer
    exact ⟨r, hr, htext, fun hflat => hnot (.of_flat hflat)⟩
  · obtain ⟨p, hp, ht⟩ := Program.exists_of_parse
      "map((fn x -> if x = 1 then 1 else true) [1, 2]);" none
      (fun p => decide (((p.eval standardDepth).toOption.map fun v =>
        decide (v.text = "[1, true]" ∧ ¬ Uniform v.elements)) = some true)) (by decide +kernel)
    obtain ⟨v, hv, hanswer⟩ := eq_ok_of_map_eq_some (of_decide_eq_true ht)
    obtain ⟨htext, hnot⟩ := of_decide_eq_true hanswer
    exact ⟨p, v, hp, hv, htext, fun hflat => hnot (.of_flat hflat)⟩

end Minifun
