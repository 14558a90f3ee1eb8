import Minifun.Proofs.Eval.Bounds
import Minifun.Proofs.Eval.Visits
import Minifun.Proofs.Eval.Whole

/-! # Calls written out

In a scope of whole values, a name for a value within an expression is a function called with it,
and `map` and the folds call their function as the applications do that are written out with names
for the elements. What is written out may need more calls to be open at once, so that the bound on
them is left open.
-/

namespace Minifun

/-- What a term gives in a frame within a scope when at most so many calls may be open at once. -/
def Term.answer (frame : Frame Value) (outer : Scope Value) (depth : Nat) (e : Expr) :
    Except Stop Value :=
  Eval.within frame (e.evalWith (Term.enterWithin depth) outer)

/-- Under some bound on calls, a term gives a value. -/
def Term.Evaluates (frame : Frame Value) (outer : Scope Value) (e : Expr) (w : Value) : Prop :=
  ∃ depth, e.answer frame outer depth = .ok w

/-- The application of a name to the elements from the left, which begins with another name. -/
inductive LeftNest (f i : String) : List String → Expr → Prop where
  | nil {l} : LeftNest f i [] (.ident i l)
  | snoc {names x e l l₁ l₂ l₃} : LeftNest f i names e →
      LeftNest f i (names ++ [x]) (.apply (.apply (.ident f l) e l₁) (.ident x l₂) l₃)

inductive RightNest (f i : String) : List String → Expr → Prop where
  | nil {l} : RightNest f i [] (.ident i l)
  | cons {names x e l l₁ l₂ l₃} : RightNest f i names e →
      RightNest f i (x :: names) (.apply (.apply (.ident f l) (.ident x l₁) l₂) e l₃)

section Steps

variable {α : Type} {frame : Frame Value} {r : Except Stop α} {m : Eval α}

@[simp] theorem Eval.within_lift (r : Except Stop Value) : Eval.within frame (Eval.lift r) = r := by
  cases r <;> rfl

theorem Eval.within_bind {k : α → Eval Value} (h : m frame = Eval.lift r frame) :
    Eval.within frame (m >>= k) = r >>= fun a => Eval.within frame (k a) := by
  cases r with
  | ok a =>
    have hm : m frame = .ok a frame := h
    unfold Eval.within
    rw [bind_of_ok hm]
    rfl
  | error stop =>
    have hm : m frame = .error stop frame := h
    unfold Eval.within
    rw [bind_of_error hm]
    rfl

theorem mapM_eq_ok_iff {β : Type} {c : α → Except Stop β} {as : List α} {bs : List β} :
    as.mapM c = .ok bs ↔ List.Forall₂ (fun a b => c a = .ok b) as bs := by
  induction as generalizing bs with
  | nil =>
    rw [List.mapM_nil, List.forall₂_nil_left_iff]
    exact ⟨fun h => (Except.ok.inj h).symm, fun h => h ▸ rfl⟩
  | cons a as ih =>
    rw [List.mapM_cons, bind_eq_ok_iff_exists, List.forall₂_cons_left_iff]
    simp only [bind_eq_ok_iff_exists, ih]
    constructor
    · rintro ⟨b, hb, cs, hcs, h⟩
      exact ⟨b, cs, hb, hcs, (Except.ok.inj h).symm⟩
    · rintro ⟨b, cs, hb, hcs, rfl⟩
      exact ⟨b, hb, cs, hcs, rfl⟩

end Steps

section Plain

variable {frame : Frame Value} {outer : Scope Value} {depth : Nat} {e a g : Expr} {v w : Value}
  {x : String} {loc : Option Loc}

theorem Plain.gives (h : Plain e) (hs : (Scope.frame frame outer).Whole) (depth : Nat) :
    Gives (e.answer frame outer depth) Value.Whole :=
  (h.stays (enterWhole_enterWithin depth) hs).within

theorem Plain.whole (h : Plain e) (hs : (Scope.frame frame outer).Whole)
    (hv : e.answer frame outer depth = .ok v) : v.Whole := by
  have hgives := h.gives hs depth
  rwa [hv] at hgives

/-- A plain expression can be used as a value wherever it gives one, and leaves the frame alone. -/
theorem Plain.demand_eq (h : Plain e) (hs : (Scope.frame frame outer).Whole) (loc : Option Loc) :
    Eval.demand loc (e.evalWith (Term.enterWithin depth) outer) frame =
      Eval.lift (e.answer frame outer depth) frame := by
  have hstays := h.stays (enterWhole_enterWithin depth) hs
  unfold Stays at hstays
  unfold Eval.demand Term.answer Eval.within
  cases hm : e.evalWith (Term.enterWithin depth) outer frame with
  | ok v frame' =>
    rw [hm] at hstays
    obtain ⟨rfl, hv⟩ := hstays
    rw [bind_of_ok hm, if_pos hv.isValue]
    rfl
  | error stop frame' =>
    rw [hm] at hstays
    obtain ⟨rfl, -⟩ := hstays
    rw [bind_of_error hm]
    rfl

theorem Plain.within_demand (h : Plain e) (hs : (Scope.frame frame outer).Whole)
    (loc : Option Loc) :
    Eval.within frame (Eval.demand loc (e.evalWith (Term.enterWithin depth) outer)) =
      e.answer frame outer depth := by
  unfold Eval.within
  rw [h.demand_eq hs]
  cases e.answer frame outer depth <;> rfl

theorem answer_ident (hs : (Scope.frame frame outer).Whole)
    (hx : (Scope.frame frame outer).lookup x = some v) :
    (Term.ident x loc).answer frame outer depth = .ok v := by
  have hv := hs.lookup hx
  have hscope : Eval.scope outer frame = .ok (.frame frame outer) frame := rfl
  have hname : Eval.nameValue outer x loc frame = .ok v frame := by
    refine (bind_of_ok hscope).trans ?_
    rw [hx]
    cases hv <;> rfl
  unfold Term.answer Eval.within
  rw [Term.evalWith, hname]

theorem answer_apply_eq_ok_iff (hs : (Scope.frame frame outer).Whole) (hg : Plain g)
    (ha : Plain a) :
    (Term.apply g a loc).answer frame outer depth = .ok w ↔
      ∃ p body s v, g.answer frame outer depth = .ok (.closure p body s) ∧
        a.answer frame outer depth = .ok v ∧ Term.enterWithin depth p body s v = .ok w := by
  have hcall : ∀ p body s, Eval.within frame
      (Eval.callee (Term.enterWithin depth) "Applied expression" g.loc (.closure p body s) >>=
        fun call => Eval.demand a.loc (a.evalWith (Term.enterWithin depth) outer) >>=
          fun v => Eval.lift (call v)) =
      a.answer frame outer depth >>= Term.enterWithin depth p body s := by
    intro p body s
    refine (Eval.within_bind (ha.demand_eq hs a.loc)).trans ?_
    simp only [Eval.within_lift]
  rw [Term.answer, Term.evalWith, Eval.within_bind (hg.demand_eq hs g.loc), bind_eq_ok_iff_exists]
  constructor
  · rintro ⟨u, hu, h⟩
    cases u with
    | closure p body s =>
      rw [hcall, bind_eq_ok_iff_exists] at h
      obtain ⟨v, hv, h⟩ := h
      exact ⟨p, body, s, v, hu, hv, h⟩
    | int | real | bool | list | name | nothing => cases h
  · rintro ⟨p, body, s, v, hu, hv, h⟩
    refine ⟨_, hu, ?_⟩
    rw [hcall, hv]
    exact h

theorem answer_letIn {e' : Expr} (hs : (Scope.frame frame outer).Whole) (he : Plain e)
    (he' : Plain e') :
    (Term.letIn x e e' loc).answer frame outer depth =
      e.answer frame outer depth >>= fun v => e'.answer [(x, v)] (.frame frame outer) depth := by
  rw [Term.answer, Term.evalWith, Eval.within_bind (he.demand_eq hs e.loc)]
  cases hv : e.answer frame outer depth with
  | error stop => rfl
  | ok v =>
    have hbody : (Scope.frame [(x, v)] (.frame frame outer)).Whole :=
      .frame (by simpa using he.whole hs hv) hs
    have hscope : Eval.scope outer frame = .ok (.frame frame outer) frame := rfl
    refine (Eval.within_bind (r := .ok (.frame frame outer)) hscope).trans ?_
    exact (Eval.within_lift _).trans (he'.within_demand hbody e'.loc)

theorem answer_apply_lambda {body : Expr} {l : Option Loc} (hs : (Scope.frame frame outer).Whole)
    (ha : Plain a) :
    (Term.apply (.lambda x body l) a loc).answer frame outer depth =
      a.answer frame outer depth >>=
        Term.enterWithin depth x body (Scope.frame frame outer).snapshot := by
  have hfunction : Eval.demand (Term.lambda x body l).loc
      ((Term.lambda x body l).evalWith (Term.enterWithin depth) outer) frame =
      Eval.lift (.ok (.closure x body (Scope.frame frame outer).snapshot)) frame :=
    (bind_of_ok (Term.evalWith_lambda (Term.enterWithin depth) outer x body l frame)).trans rfl
  rw [Term.answer, Term.evalWith, Eval.within_bind hfunction]
  refine (Eval.within_bind (ha.demand_eq hs a.loc)).trans ?_
  simp only [Eval.within_lift]

/-- A name for a value within an expression is a function called with it. Entering the function
counts as a call, so that the bound may have to be larger by one; apart from that they give the
same. -/
theorem answer_letIn_apply {e' : Expr} (hs : (Scope.frame frame outer).Whole) (he : Plain e)
    (he' : Plain e') (x : String) (depth : Nat) (loc l l' : Option Loc) :
    Cut ((Term.apply (.lambda x e' l) e l').answer frame outer depth)
        ((Term.letIn x e e' loc).answer frame outer depth) ∧
      Cut ((Term.letIn x e e' loc).answer frame outer depth)
        ((Term.apply (.lambda x e' l) e l').answer frame outer (depth + 1)) := by
  have hsnapshot := Scope.Same.snapshot (Scope.frame frame outer)
  rw [answer_letIn hs he he', answer_apply_lambda hs he, answer_apply_lambda hs he]
  constructor
  · refine Cut.bind (.refl _) fun v => ?_
    cases depth with
    | zero => exact .inl ⟨.outOfDepth, rfl, trivial⟩
    | succ depth => exact cut_evalWith (Nat.le_succ depth) e' hsnapshot [(x, v)]
  · refine Cut.bind (cut_evalWith (Nat.le_succ depth) e (.refl outer) frame) fun v => ?_
    exact cut_evalWith (Nat.le_refl depth) e' hsnapshot.symm [(x, v)]

end Plain

section Nests

variable {frame : Frame Value} {outer : Scope Value} {depth : Nat} {e : Expr} {u v w : Value}
  {vs ws : List Value} {f i xs x p : String} {names : List String} {body : Expr} {s : Scope Value}
  {l₁ l₂ l₃ l₄ : Option Loc}

theorem LeftNest.plain (h : LeftNest f i names e) : Plain e := by
  induction h with
  | nil => exact .ident
  | snoc _ ih => exact .apply (.apply .ident ih) .ident

theorem RightNest.plain (h : RightNest f i names e) : Plain e := by
  induction h with
  | nil => exact .ident
  | cons _ ih => exact .apply (.apply .ident .ident) ih

section Bound

variable (hs : (Scope.frame frame outer).Whole)
  (hf : (Scope.frame frame outer).lookup f = some (.closure p body s))

include hs hf

theorem answer_apply_name_eq_ok_iff {a : Expr} (ha : Plain a) :
    (Term.apply (.ident f l₁) a l₂).answer frame outer depth = .ok w ↔
      ∃ v, a.answer frame outer depth = .ok v ∧ Term.enterWithin depth p body s v = .ok w := by
  rw [answer_apply_eq_ok_iff hs .ident ha, answer_ident hs hf]
  constructor
  · rintro ⟨p', body', s', v, hclosure, hv, h⟩
    obtain ⟨rfl, rfl, rfl⟩ := Value.closure.inj (Except.ok.inj hclosure)
    exact ⟨v, hv, h⟩
  · rintro ⟨v, hv, h⟩
    exact ⟨p, body, s, v, rfl, hv, h⟩

theorem answer_apply_twice_eq_ok_iff {a b : Expr} {keyword : String} {loc : Option Loc}
    (ha : Plain a) (hb : Plain b) :
    (Term.apply (.apply (.ident f l₁) a l₂) b l₃).answer frame outer depth = .ok w ↔
      ∃ u v, a.answer frame outer depth = .ok u ∧ b.answer frame outer depth = .ok v ∧
        Eval.callTwice (Term.enterWithin depth) keyword loc (Term.enterWithin depth p body s) u v =
          .ok w := by
  rw [answer_apply_eq_ok_iff hs (.apply .ident ha) hb]
  simp only [answer_apply_name_eq_ok_iff hs hf ha, callTwice_eq_ok_iff]
  constructor
  · rintro ⟨p', body', s', v, ⟨u, hu, hclosure⟩, hv, h⟩
    exact ⟨u, v, hu, hv, p', body', s', hclosure, h⟩
  · rintro ⟨u, v, hu, hv, p', body', s', hclosure, h⟩
    exact ⟨p', body', s', v, ⟨u, hu, hclosure⟩, hv, h⟩

theorem answer_fold {side : Side} (hi : (Scope.frame frame outer).lookup i = some u)
    (hxs : (Scope.frame frame outer).lookup xs = some (.list vs)) :
    (Term.fold side (.ident f l₁) (.ident i l₂) (.ident xs l₃) l₄).answer frame outer depth =
      Eval.foldValues side (Eval.callTwice (Term.enterWithin depth) side.keyword l₁
        (Term.enterWithin depth p body s)) u vs := by
  rw [Term.answer, Term.evalWith, Eval.within_bind (Plain.demand_eq .ident hs _),
    answer_ident hs hf]
  refine (Eval.within_bind (Plain.demand_eq .ident hs _)).trans ?_
  rw [answer_ident hs hi]
  refine (Eval.within_bind (Plain.demand_eq .ident hs _)).trans ?_
  rw [answer_ident hs hxs]
  exact Eval.within_lift _

theorem answer_map (hxs : (Scope.frame frame outer).lookup xs = some (.list vs)) :
    (Term.map (.ident f l₁) (.ident xs l₂) l₃).answer frame outer depth =
      vs.mapM (Term.enterWithin depth p body s) >>= fun ws => .ok (.list ws) := by
  rw [Term.answer, Term.evalWith, Eval.within_bind (Plain.demand_eq .ident hs _),
    answer_ident hs hf]
  refine (Eval.within_bind (Plain.demand_eq .ident hs _)).trans ?_
  rw [answer_ident hs hxs]
  exact Eval.within_bind rfl

variable (hi : (Scope.frame frame outer).lookup i = some u)

include hi

theorem LeftNest.answer_eq_ok_iff {keyword : String} {loc : Option Loc} (h : LeftNest f i names e)
    (hvs : List.Forall₂ (fun v x => (Scope.frame frame outer).lookup x = some v) vs names) :
    e.answer frame outer depth = .ok w ↔
      vs.foldlM (Eval.callTwice (Term.enterWithin depth) keyword loc
        (Term.enterWithin depth p body s)) u = .ok w := by
  induction h generalizing vs w with
  | nil =>
    obtain rfl := List.forall₂_nil_right_iff.mp hvs
    rw [answer_ident hs hi]
    rfl
  | @snoc names x e _ _ _ _ hnest ih =>
    have htake := List.forall₂_take_append vs names [x] hvs
    have hdrop := List.forall₂_drop_append vs names [x] hvs
    obtain ⟨v, rest, hx, hrest, hdrop⟩ := List.forall₂_cons_right_iff.mp hdrop
    obtain rfl := List.forall₂_nil_right_iff.mp hrest
    rw [answer_apply_twice_eq_ok_iff hs hf hnest.plain .ident,
      ← List.take_append_drop names.length vs, hdrop, List.foldlM_append, bind_eq_ok_iff_exists]
    simp only [ih htake, answer_ident hs hx, List.foldlM_cons, List.foldlM_nil, bind_pure]
    constructor
    · rintro ⟨u, v', hu, hv, h⟩
      obtain rfl := Except.ok.inj hv
      exact ⟨u, hu, h⟩
    · rintro ⟨u, hu, h⟩
      exact ⟨u, v, hu, rfl, h⟩

theorem RightNest.answer_eq_ok_iff {keyword : String} {loc : Option Loc}
    (h : RightNest f i names e)
    (hvs : List.Forall₂ (fun v x => (Scope.frame frame outer).lookup x = some v) vs names) :
    e.answer frame outer depth = .ok w ↔
      vs.reverse.foldlM (fun acc v => Eval.callTwice (Term.enterWithin depth) keyword loc
        (Term.enterWithin depth p body s) v acc) u = .ok w := by
  induction h generalizing vs w with
  | nil =>
    obtain rfl := List.forall₂_nil_right_iff.mp hvs
    rw [answer_ident hs hi]
    rfl
  | @cons names x e _ _ _ _ hnest ih =>
    obtain ⟨v, vs, hx, hrest, rfl⟩ := List.forall₂_cons_right_iff.mp hvs
    rw [answer_apply_twice_eq_ok_iff hs hf .ident hnest.plain, List.reverse_cons,
      List.foldlM_append, bind_eq_ok_iff_exists]
    simp only [ih hrest, answer_ident hs hx, List.foldlM_cons, List.foldlM_nil, bind_pure]
    constructor
    · rintro ⟨v', acc, hv, hacc, h⟩
      obtain rfl := Except.ok.inj hv
      exact ⟨acc, hacc, h⟩
    · rintro ⟨acc, hacc, h⟩
      exact ⟨v, acc, rfl, hacc, h⟩

end Bound

/-- Calls that all give values under some bounds do so under one bound. -/
theorem exists_forall₂_enterWithin :
    (∃ depth, List.Forall₂ (fun v w => Term.enterWithin depth p body s v = .ok w) vs ws) ↔
      List.Forall₂ (fun v w => ∃ depth, Term.enterWithin depth p body s v = .ok w) vs ws := by
  constructor
  · rintro ⟨depth, h⟩
    exact h.imp fun v w hw => ⟨depth, hw⟩
  · intro h
    have hmono : ∀ {depth depth' v w}, depth ≤ depth' →
        Term.enterWithin depth p body s v = .ok w → Term.enterWithin depth' p body s v = .ok w :=
      fun hle hw => (enterCut_enterWithin hle p body s _).eq_ok hw
    induction h with
    | nil => exact ⟨0, .nil⟩
    | cons hw _ ih =>
      obtain ⟨depth, hw⟩ := hw
      obtain ⟨depth', hws⟩ := ih
      refine ⟨max depth depth', .cons (hmono (Nat.le_max_left ..) hw) (hws.imp fun v w hw => ?_)⟩
      exact hmono (Nat.le_max_right ..) hw

theorem exists_forall₂_iff {α β : Type} {R : α → β → Prop} {as : List α} :
    (∃ bs, List.Forall₂ R as bs) ↔ ∀ a ∈ as, ∃ b, R a b := by
  induction as with
  | nil => simp
  | cons a as ih =>
    rw [List.forall_mem_cons, ← ih]
    constructor
    · rintro ⟨_, h⟩
      obtain ⟨b, bs, hb, hbs, -⟩ := List.forall₂_cons_left_iff.mp h
      exact ⟨⟨b, hb⟩, bs, hbs⟩
    · rintro ⟨⟨b, hb⟩, bs, hbs⟩
      exact ⟨b :: bs, .cons hb hbs⟩

theorem forall₂_congr_left {α β γ : Type} {R : α → β → Prop} {S : α → γ → Prop}
    {T : β → γ → Prop} {as : List α} {bs : List β} {cs : List γ} (h : List.Forall₂ R as bs)
    (hST : ∀ a b c, R a b → (S a c ↔ T b c)) : List.Forall₂ S as cs ↔ List.Forall₂ T bs cs := by
  induction h generalizing cs with
  | nil => simp
  | cons hab _ ih =>
    simp only [List.forall₂_cons_left_iff, ih, hST _ _ _ hab]

theorem evaluates_apply_iff (hs : (Scope.frame frame outer).Whole)
    (hf : (Scope.frame frame outer).lookup f = some (.closure p body s))
    (hx : (Scope.frame frame outer).lookup x = some v) :
    (Term.apply (.ident f l₁) (.ident x l₂) l₃).Evaluates frame outer w ↔
      ∃ depth, Term.enterWithin depth p body s v = .ok w := by
  refine exists_congr fun depth => ?_
  rw [answer_apply_name_eq_ok_iff hs hf .ident, answer_ident hs hx]
  simp

theorem evaluates_map_iff (hs : (Scope.frame frame outer).Whole)
    (hf : (Scope.frame frame outer).lookup f = some (.closure p body s))
    (hxs : (Scope.frame frame outer).lookup xs = some (.list vs))
    (hvs : List.Forall₂ (fun v x => (Scope.frame frame outer).lookup x = some v) vs names) :
    (Term.map (.ident f l₁) (.ident xs l₂) l₃).Evaluates frame outer w ↔
      ∃ ws, w = .list ws ∧ List.Forall₂ (fun x w =>
        (Term.apply (.ident f l₁) (.ident x l₂) l₃).Evaluates frame outer w) names ws := by
  calc (Term.map (.ident f l₁) (.ident xs l₂) l₃).Evaluates frame outer w
      ↔ ∃ depth ws, vs.mapM (Term.enterWithin depth p body s) = .ok ws ∧ w = .list ws := by
        refine exists_congr fun depth => ?_
        rw [answer_map hs hf hxs, bind_eq_ok_iff_exists]
        simp [eq_comm]
    _ ↔ ∃ ws, w = .list ws ∧
          ∃ depth, List.Forall₂ (fun v w => Term.enterWithin depth p body s v = .ok w) vs ws := by
        simp only [mapM_eq_ok_iff]
        constructor
        · rintro ⟨depth, ws, hws, rfl⟩
          exact ⟨ws, rfl, depth, hws⟩
        · rintro ⟨ws, rfl, depth, hws⟩
          exact ⟨depth, ws, hws, rfl⟩
    _ ↔ _ := by
        have hcall : ∀ v x w, (Scope.frame frame outer).lookup x = some v →
            ((∃ depth, Term.enterWithin depth p body s v = .ok w) ↔
              (Term.apply (.ident f l₁) (.ident x l₂) l₃).Evaluates frame outer w) :=
          fun v x w hx => (evaluates_apply_iff hs hf hx).symm
        simp only [exists_forall₂_enterWithin, forall₂_congr_left hvs hcall]

/-- In a scope of whole values, let a name stand for a closure, one for a value, one for a list, and
some for the elements of the list. A fold evaluates to a value if and only if the applications do
that are written out from its side. A `map` evaluates to a list if and only if each application does
to a value, and this is the list of these values. -/
theorem evaluates_nested (hs : (Scope.frame frame outer).Whole)
    (hf : (Scope.frame frame outer).lookup f = some (.closure p body s))
    (hi : (Scope.frame frame outer).lookup i = some u)
    (hxs : (Scope.frame frame outer).lookup xs = some (.list vs))
    (hvs : List.Forall₂ (fun v x => (Scope.frame frame outer).lookup x = some v) vs names) :
    (∀ e, LeftNest f i names e → ∀ w,
      (Term.fold .left (.ident f l₁) (.ident i l₂) (.ident xs l₃) l₄).Evaluates frame outer w ↔
        e.Evaluates frame outer w) ∧
    (∀ e, RightNest f i names e → ∀ w,
      (Term.fold .right (.ident f l₁) (.ident i l₂) (.ident xs l₃) l₄).Evaluates frame outer w ↔
        e.Evaluates frame outer w) ∧
    ((∃ ws, (Term.map (.ident f l₁) (.ident xs l₂) l₃).Evaluates frame outer (.list ws)) ↔
      ∀ x ∈ names, ∃ w, (Term.apply (.ident f l₁) (.ident x l₂) l₃).Evaluates frame outer w) ∧
    ∀ w, (Term.map (.ident f l₁) (.ident xs l₂) l₃).Evaluates frame outer w ↔
      ∃ ws, w = .list ws ∧ List.Forall₂ (fun x w =>
        (Term.apply (.ident f l₁) (.ident x l₂) l₃).Evaluates frame outer w) names ws := by
  have hmap : ∀ w, (Term.map (.ident f l₁) (.ident xs l₂) l₃).Evaluates frame outer w ↔ _ :=
    fun w => evaluates_map_iff hs hf hxs hvs
  refine ⟨fun e he w => exists_congr fun depth => ?_, fun e he w => exists_congr fun depth => ?_,
    ?_, hmap⟩
  · rw [answer_fold hs hf hi hxs, he.answer_eq_ok_iff hs hf hi hvs]
    rfl
  · rw [answer_fold hs hf hi hxs, he.answer_eq_ok_iff hs hf hi hvs]
    rfl
  · rw [← exists_forall₂_iff]
    simp [hmap]

/-- Subtraction as a function of two numbers, a number to begin with, and a list of two numbers with
names for them. -/
def differences : Frame Value :=
  [("f", .closure "a" (.lambda "b" (.binary (.arith .sub) (.ident "a" none) (.ident "b" none) none)
      none) .empty), ("i", .int 10), ("xs", .list [.int 1, .int 2]), ("x", .int 1), ("y", .int 2)]

/-- From the left `1` and `2` are taken from `10`, and from the right `2 - 10` is taken from `1`. -/
theorem evaluates_nested_differences :
    (Scope.frame differences .empty).Whole ∧
      (Term.apply (.apply (.ident "f" none)
        (.apply (.apply (.ident "f" none) (.ident "i" none) none) (.ident "x" none) none) none)
        (.ident "y" none) none).Evaluates differences .empty (.int 7) ∧
      (Term.apply (.apply (.ident "f" none) (.ident "x" none) none)
        (.apply (.apply (.ident "f" none) (.ident "y" none) none) (.ident "i" none) none)
        none).Evaluates differences .empty (.int 9) ∧
      ∃ ws, (Term.map (.ident "f" none) (.ident "xs" none) none).Evaluates differences .empty
        (.list ws) := by
  have hs : (Scope.frame differences .empty).Whole := by
    refine .frame ?_ .empty
    simp only [differences, List.forall_mem_cons]
    exact ⟨.closure (.lambda (.binary (by decide) .ident .ident)) .empty, .int,
      .list (by simp [Value.Whole.int]), .int, .int, by simp⟩
  have hvs : List.Forall₂ (fun v x => (Scope.frame differences .empty).lookup x = some v)
      [.int 1, .int 2] ["x", "y"] :=
    .cons rfl (.cons rfl .nil)
  obtain ⟨hleft, hright, hmap, -⟩ := @evaluates_nested differences .empty (.int 10) _ "f" "i" "xs"
    _ _ _ _ none none none none hs rfl rfl rfl hvs
  refine ⟨hs, (hleft _ ?_ _).mp ⟨2, rfl⟩, (hright _ (.cons (.cons .nil)) _).mp ⟨2, rfl⟩,
    hmap.mpr ?_⟩
  · change LeftNest "f" "i" ([] ++ ["x"] ++ ["y"]) _
    exact .snoc (.snoc .nil)
  · intro x hx
    simp only [List.mem_cons, List.not_mem_nil, or_false] at hx
    rcases hx with rfl | rfl <;> exact ⟨_, 1, rfl⟩

/-- A function that calls its second argument, and a list of two functions with names for them. The
first one answers with a name. -/
def callbacks : Frame Value :=
  let naming := .closure "p" (.val "z" (.literal (.int 1) none) none) .empty
  let five := .closure "p" (.literal (.int 5) none) .empty
  [("f", .closure "a" (.lambda "b" (.apply (.ident "b" none) (.literal (.int 0) none) none) none)
      .empty), ("i", .int 0), ("xs", .list [naming, five]), ("x", naming), ("y", five)]

/-- A fold hands on a name as the result of a step, which an application does not take for an
argument. -/
theorem fold_ne_nested_callbacks :
    let nested : Expr := .apply (.apply (.ident "f" none)
      (.apply (.apply (.ident "f" none) (.ident "i" none) none) (.ident "x" none) none) none)
      (.ident "y" none) none
    LeftNest "f" "i" ["x", "y"] nested ∧ (∀ b ∈ callbacks, b.2.isValue = true) ∧
      (Term.fold .left (.ident "f" none) (.ident "i" none) (.ident "xs" none) none).Evaluates
        callbacks .empty (.int 5) ∧
      ¬ nested.Evaluates callbacks .empty (.int 5) := by
  intro nested
  refine ⟨?_, by simp [callbacks, Value.isValue], ⟨2, rfl⟩, ?_⟩
  · change LeftNest "f" "i" ([] ++ ["x"] ++ ["y"]) _
    exact .snoc (.snoc .nil)
  · rintro ⟨depth, h⟩
    have hvalue := (cut_evalWith (Nat.le_max_left depth 2) nested (.refl .empty) callbacks).eq_ok h
    have hrefused : nested.answer callbacks .empty 2 = .error (.error ⟨.notAValue, none⟩) := rfl
    have hsame := (cut_evalWith (Nat.le_max_right depth 2) nested (.refl .empty) callbacks).eq (by
      rintro stop hstop
      obtain rfl := Except.error.inj (hrefused.symm.trans hstop)
      simp [Stop.Exhausted])
    cases hrefused.symm.trans (hsame.trans hvalue)

end Nests

end Minifun
