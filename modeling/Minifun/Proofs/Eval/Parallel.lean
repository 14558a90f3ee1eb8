import Minifun.Proofs.Eval.Alike
import Minifun.Proofs.Sequence

/-! # Evaluation side by side

A term is evaluated in two scopes that serve its free names alike. Either both evaluations fail, or
both answer, the answers are alike, and so are the frames that they leave. Which error a failure is
may differ, as it may list the names in sight. As with types, the constructs are looked at one by
one, for any way to enter closures that treats them alike, and the bounded ways by induction on the
bound.
-/

namespace Minifun

inductive Matches {α : Type} (Q : α → α → Prop) : Except Stop α → Except Stop α → Prop where
  | ok {a b} : Q a b → Matches Q (.ok a) (.ok b)
  | error {s t} : Matches Q (.error s) (.error t)

/-- Two evaluations end with related answers, in alike frames that have some names, or both fail. -/
inductive Ends {α : Type} (Q : α → α → Prop) (names : List String) :
    EStateM.Result Stop (Frame Value) α → EStateM.Result Stop (Frame Value) α → Prop where
  | ok {a b f g} : Q a b → AlikeFrames f g → names ⊆ f.names → Ends Q names (.ok a f) (.ok b g)
  | error {s t f g} : Ends Q names (.error s f) (.error t g)

/-- Two evaluations that begin in two frames end together, and keep the names of the frames. -/
def Together {α : Type} (f g : Frame Value) (m n : Eval α) (Q : α → α → Prop) : Prop :=
  Ends Q f.names (m f) (n g)

def EnterAlike (enter : Enter) : Prop :=
  ∀ p body s t v w, Alike (.closure p body s) (.closure p body t) → Alike v w →
    Matches Alike (enter p body s v) (enter p body t w)

/-- Evaluation of a term depends on what its free names stand for only, up to likeness. -/
def Parallel (enter : Enter) (e : Expr) : Prop :=
  ∀ outer outer' f g, Beside e.free outer outer' f g →
    Together f g (e.evalWith enter outer) (e.evalWith enter outer') Alike

section Calculus

variable {α β : Type} {Q : α → α → Prop} {S : β → β → Prop} {f g : Frame Value}

theorem matches_refl {r : Except Stop α} (h : ∀ a, Q a a) : Matches Q r r := by
  cases r with
  | ok a => exact .ok (h a)
  | error s => exact .error

theorem Matches.bind {r r' : Except Stop α} {k k' : α → Except Stop β} (h : Matches Q r r')
    (hk : ∀ a b, Q a b → Matches S (k a) (k' b)) : Matches S (r >>= k) (r' >>= k') := by
  cases h with
  | ok hq => exact hk _ _ hq
  | error => exact .error

theorem matches_mapM {k k' : α → Except Stop β} {as bs : List α} (h : List.Forall₂ Q as bs)
    (hk : ∀ a b, Q a b → Matches S (k a) (k' b)) :
    Matches (List.Forall₂ S) (as.mapM k) (bs.mapM k') := by
  induction h with
  | nil => exact .ok .nil
  | cons hq _ ih =>
    rw [List.mapM_cons, List.mapM_cons]
    refine (hk _ _ hq).bind fun c d hcd => ih.bind fun cs ds hs => ?_
    exact .ok (.cons hcd hs)

theorem matches_foldlM {k k' : β → α → Except Stop β} {as bs : List α} {c d : β}
    (h : List.Forall₂ Q as bs) (hcd : S c d)
    (hk : ∀ c d a b, S c d → Q a b → Matches S (k c a) (k' d b)) :
    Matches S (as.foldlM k c) (bs.foldlM k' d) := by
  induction h generalizing c d with
  | nil => exact .ok hcd
  | cons hq _ ih =>
    rw [List.foldlM_cons, List.foldlM_cons]
    exact (hk _ _ _ _ hcd hq).bind fun c d hcd => ih hcd

theorem Ends.mono {names names' : List String} {r r' : EStateM.Result Stop (Frame Value) α}
    (h : Ends Q names r r') (hn : names' ⊆ names) : Ends Q names' r r' := by
  cases h with
  | ok hq hf hnames => exact .ok hq hf (List.Subset.trans hn hnames)
  | error => exact .error

theorem together_pure {a b : α} (hf : AlikeFrames f g) (h : Q a b) :
    Together f g (pure a) (pure b) Q :=
  .ok h hf (List.Subset.refl _)

theorem together_fail {c d : EvalCause} {l l' : Option Loc} :
    Together f g (Eval.fail c l) (Eval.fail d l') Q :=
  .error

theorem Matches.lift {r r' : Except Stop α} (h : Matches Q r r') (hf : AlikeFrames f g) :
    Together f g (Eval.lift r) (Eval.lift r') Q := by
  cases h with
  | ok hq => exact together_pure hf hq
  | error => exact .error

theorem Together.bind {m n : Eval α} {k k' : α → Eval β} (h : Together f g m n Q)
    (hk : ∀ a b f' g', Q a b → AlikeFrames f' g' → f.names ⊆ f'.names →
      Together f' g' (k a) (k' b) S) : Together f g (m >>= k) (n >>= k') S := by
  unfold Together at h ⊢
  cases hm : m f with
  | ok a f' =>
    cases hn : n g with
    | ok b g' =>
      rw [hm, hn] at h
      rw [bind_of_ok hm, bind_of_ok hn]
      cases h with
      | ok hq hf hnames => exact Ends.mono (hk a b f' g' hq hf hnames) hnames
    | error t g' =>
      rw [hm, hn] at h
      exact nomatch h
  | error s f' =>
    cases hn : n g with
    | ok b g' =>
      rw [hm, hn] at h
      exact nomatch h
    | error t g' =>
      rw [bind_of_error hm, bind_of_error hn]
      exact .error

theorem Together.within {m n : Eval Value} {Q : Value → Value → Prop} (h : Together f g m n Q) :
    Matches Q (Eval.within f m) (Eval.within g n) := by
  unfold Together at h
  unfold Eval.within
  generalize m f = r, n g = r' at h
  cases h with
  | ok hq => exact .ok hq
  | error => exact .error

end Calculus

section Operations

variable {v v' w w' : Value} {loc : Option Loc}

theorem matches_negate (h : Alike v w) (op : UnOp) :
    Matches Alike (v.negate op loc) (w.negate op loc) := by
  cases h.resembles with
  | list | closure => cases op <;> exact .error
  | int | real | bool | name | nothing => exact matches_refl Alike.refl

theorem matches_arithmetic (h : Alike v w) (h' : Alike v' w') (op : ArithOp) :
    Matches Alike (v.arithmetic op v' loc) (w.arithmetic op w' loc) := by
  cases h.resembles with
  | list | closure => exact .error
  | int | real | bool | name | nothing =>
    cases h'.resembles with
    | list | closure => exact .error
    | int | real | bool | name | nothing => exact matches_refl Alike.refl

theorem matches_compare (h : Alike v w) (h' : Alike v' w') (op : RelOp) :
    Matches Alike (v.compare op v' loc) (w.compare op w' loc) := by
  cases h.resembles with
  | list | closure => exact .error
  | int | real | bool | name | nothing =>
    cases h'.resembles with
    | list | closure => exact .error
    | int | real | bool | name | nothing => exact matches_refl Alike.refl

theorem matches_append (h : Alike v w) (h' : Alike v' w') :
    Matches Alike (v.append v' loc) (w.append w' loc) := by
  cases h.resembles with
  | list hs =>
    cases h'.resembles with
    | list hs' =>
      have hall := Alike.list (List.rel_append hs hs')
      cases hs with
      | nil => exact .ok hall
      | cons hv hs =>
        cases hs' with
        | nil => exact .ok hall
        | cons hv' hs' =>
          unfold Value.append
          simp only [hv.sameClass_eq hv']
          split
          · exact .ok hall
          · rw [hv.classOf_eq, hv'.classOf_eq]
            exact matches_refl Alike.refl
    | int | real | bool | closure | name | nothing => exact .error
  | int | real | bool | closure | name | nothing => exact .error

theorem matches_operate (h : Alike v w) (h' : Alike v' w') (op : BinOp) :
    Matches Alike (v.operate op v' loc) (w.operate op w' loc) := by
  cases op with
  | arith op => exact matches_arithmetic h h' op
  | rel op => exact matches_compare h h' op
  | concat => exact matches_append h h'
  | logic op => exact .error
  | other symbol => exact .error

end Operations

section Constructs

variable {enter : Enter} {a b c e i xs v body : Expr} {es : List Expr} {loc : Option Loc}
  {outer outer' : Scope Value} {f g : Frame Value} {names : List String}

theorem Parallel.demand (he : Parallel enter e) (h : Beside names outer outer' f g)
    (hn : e.free ⊆ names) : Together f g (Eval.demand loc (e.evalWith enter outer))
      (Eval.demand loc (e.evalWith enter outer')) Alike := by
  refine (he _ _ _ _ (h.mono hn)).bind fun v w f' g' hv hf _ => ?_
  rw [hv.isValue_eq]
  split
  · exact together_pure hf hv
  · exact together_fail

theorem parallel_literal {u : Value} : Parallel enter (.literal u loc) := by
  intro outer outer' f g h
  rw [Term.evalWith, Term.evalWith]
  exact together_pure h.frames (.refl u)

theorem parallel_ident {x : String} : Parallel enter (.ident x loc) := by
  intro outer outer' f g h
  have hl := h.lookup (y := x) List.mem_cons_self
  rw [Term.evalWith, Term.evalWith]
  have hs : Together f g (Eval.scope outer) (Eval.scope outer')
      fun s t => s = .frame f outer ∧ t = .frame g outer' :=
    .ok ⟨rfl, rfl⟩ h.frames (List.Subset.refl _)
  refine hs.bind ?_
  rintro _ _ f' g' ⟨rfl, rfl⟩ hf _
  generalize (Scope.frame f outer).lookup x = r, (Scope.frame g outer').lookup x = r' at hl ⊢
  cases hl with
  | none => exact together_fail
  | some hv =>
    cases hv.resembles with
    | nothing => exact together_fail
    | int | real | bool | list | closure | name => exact together_pure hf hv

theorem parallel_unary {op : UnOp} (he : Parallel enter e) : Parallel enter (.unary op e loc) := by
  intro outer outer' f g h
  rw [Term.evalWith, Term.evalWith]
  refine (he.demand h (List.Subset.refl _)).bind fun v w f' g' hv hf _ => ?_
  exact (matches_negate hv op).lift hf

theorem parallel_logic {op : LogicOp} (ha : Parallel enter a) (hb : Parallel enter b) :
    Parallel enter (.binary (.logic op) a b loc) := by
  intro outer outer' f g h
  rw [Term.free] at h
  rw [Term.evalWith, Term.evalWith]
  refine (ha.demand h (List.subset_append_left _ _)).bind fun v w f₁ g₁ hv hf hn => ?_
  cases hv.resembles with
  | bool =>
    simp only
    split
    · exact together_pure hf hv
    · refine (hb.demand (h.grow hf hn) (List.subset_append_right _ _)).bind
        fun v w f₂ g₂ hv hf _ => ?_
      cases hv.resembles with
      | bool => exact together_pure hf hv
      | int | real | list | closure | name | nothing => exact together_fail
  | int | real | list | closure | name | nothing => exact together_fail

theorem parallel_operate {op : BinOp} (hop : ∀ op', op ≠ .logic op') (ha : Parallel enter a)
    (hb : Parallel enter b) : Parallel enter (.binary op a b loc) := by
  intro outer outer' f g h
  rw [Term.free] at h
  rw [Term.evalWith, Term.evalWith]
  · refine (ha.demand h (List.subset_append_left _ _)).bind fun v w f₁ g₁ hv hf hn => ?_
    refine (hb.demand (h.grow hf hn) (List.subset_append_right _ _)).bind
      fun v' w' f₂ g₂ hv' hf _ => ?_
    exact (matches_operate hv hv' op).lift hf
  · exact hop
  · exact hop

theorem together_elements (hes : ∀ e ∈ es, Parallel enter e) {first first' : Option Value}
    (hfirst : Option.Rel Alike first first') (h : Beside (Term.freeOf es) outer outer' f g) :
    Together f g (Term.evalElements enter outer first es)
      (Term.evalElements enter outer' first' es) (List.Forall₂ Alike) := by
  induction es generalizing f g first first' with
  | nil =>
    rw [Term.evalElements, Term.evalElements]
    exact together_pure h.frames .nil
  | cons e es ih =>
    have hrest := fun e he => hes e (List.mem_cons_of_mem _ he)
    rw [Term.freeOf] at h
    rw [Term.evalElements, Term.evalElements]
    refine ((hes e List.mem_cons_self).demand h (List.subset_append_left _ _)).bind
      fun v w f₁ g₁ hv hf hn => ?_
    have h₁ := (h.grow hf hn).mono (List.subset_append_right e.free (Term.freeOf es))
    rw [hv.isList_eq]
    split
    · exact together_fail
    · cases hfirst with
      | none =>
        refine (ih hrest (.some hv) h₁).bind fun vs ws f₂ g₂ hvs hf _ => ?_
        exact together_pure hf (.cons hv hvs)
      | some hu =>
        simp only [hu.sameClass_eq hv]
        split
        · refine (ih hrest (.some hu) h₁).bind fun vs ws f₂ g₂ hvs hf _ => ?_
          exact together_pure hf (.cons hv hvs)
        · exact together_fail

theorem parallel_list (hes : ∀ e ∈ es, Parallel enter e) : Parallel enter (.list es loc) := by
  intro outer outer' f g h
  rw [Term.free] at h
  rw [Term.evalWith, Term.evalWith]
  refine (together_elements hes .none h).bind fun vs ws f₁ g₁ hvs hf _ => ?_
  exact together_pure hf (.list hvs)

theorem Parallel.elements (he : Parallel enter e) (h : Beside names outer outer' f g)
    (hn : e.free ⊆ names) (what : String) {β : Type} {k k' : List Value → Eval β}
    {S : β → β → Prop} (hk : ∀ vs ws f' g', List.Forall₂ Alike vs ws → AlikeFrames f' g' →
      f.names ⊆ f'.names → Together f' g' (k vs) (k' ws) S) :
    Together f g (do
      let v ← Eval.demand e.loc (e.evalWith enter outer)
      let vs ← Eval.elements what e.loc v
      k vs) (do
      let v ← Eval.demand e.loc (e.evalWith enter outer')
      let vs ← Eval.elements what e.loc v
      k' vs) S := by
  refine (he.demand h hn).bind fun v w f' g' hv hf hnames => ?_
  cases hv.resembles with
  | list hvs => exact hk _ _ f' g' hvs hf hnames
  | int | real | bool | closure | name | nothing => exact .error

theorem parallel_head (he : Parallel enter e) : Parallel enter (.head e loc) := by
  intro outer outer' f g h
  rw [Term.evalWith, Term.evalWith]
  refine he.elements h (List.Subset.refl _) _ fun vs ws f' g' hvs hf _ => ?_
  cases hvs with
  | nil => exact together_fail
  | cons hv _ => exact together_pure hf hv

theorem parallel_tail (he : Parallel enter e) : Parallel enter (.tail e loc) := by
  intro outer outer' f g h
  rw [Term.evalWith, Term.evalWith]
  refine he.elements h (List.Subset.refl _) _ fun vs ws f' g' hvs hf _ => ?_
  cases hvs with
  | nil => exact together_fail
  | cons _ hvs => exact together_pure hf (.list hvs)

theorem parallel_length (he : Parallel enter e) : Parallel enter (.length e loc) := by
  intro outer outer' f g h
  rw [Term.evalWith, Term.evalWith]
  refine he.elements h (List.Subset.refl _) _ fun vs ws f' g' hvs hf _ => ?_
  rw [hvs.length_eq]
  exact together_pure hf (.refl _)

theorem parallel_cond (hc : Parallel enter c) (ha : Parallel enter a) (hb : Parallel enter b) :
    Parallel enter (.cond c a b loc) := by
  intro outer outer' f g h
  rw [Term.free, List.append_assoc] at h
  rw [Term.evalWith, Term.evalWith]
  refine (hc.demand h (List.subset_append_left _ _)).bind fun v w f₁ g₁ hv hf hn => ?_
  have h₁ := (h.grow hf hn).mono (List.subset_append_right c.free (a.free ++ b.free))
  cases hv.resembles with
  | @bool t =>
    cases t with
    | true => exact ha.demand h₁ (List.subset_append_left _ _)
    | false => exact hb.demand h₁ (List.subset_append_right _ _)
  | int | real | list | closure | name | nothing => exact together_fail

theorem parallel_lambda {x : String} : Parallel enter (.lambda x body loc) := by
  intro outer outer' f g h
  rw [Term.free] at h
  unfold Together
  rw [Term.evalWith_lambda, Term.evalWith_lambda]
  refine .ok (.closure fun y hy hne => ?_) h.frames (List.Subset.refl _)
  rw [Scope.lookup_snapshot, Scope.lookup_snapshot]
  exact h.lookup (List.mem_filter.mpr ⟨hy, by simpa using hne⟩)

theorem Parallel.callee (henter : EnterAlike enter) (he : Parallel enter e)
    (h : Beside names outer outer' f g) (hn : e.free ⊆ names) (what : String) {β : Type}
    {k k' : (Value → Except Stop Value) → Eval β} {S : β → β → Prop}
    (hk : ∀ call call' f' g', (∀ v w, Alike v w → Matches Alike (call v) (call' w)) →
      AlikeFrames f' g' → f.names ⊆ f'.names → Together f' g' (k call) (k' call') S) :
    Together f g (do
      let v ← Eval.demand e.loc (e.evalWith enter outer)
      let call ← Eval.callee enter what e.loc v
      k call) (do
      let v ← Eval.demand e.loc (e.evalWith enter outer')
      let call ← Eval.callee enter what e.loc v
      k' call) S := by
  refine (he.demand h hn).bind fun v w f' g' hv hf hnames => ?_
  cases hv.resembles with
  | closure => exact hk _ _ f' g' (fun _ _ h => henter _ _ _ _ _ _ hv h) hf hnames
  | int | real | bool | list | name | nothing => exact .error

theorem parallel_apply {h : Expr} (henter : EnterAlike enter) (hh : Parallel enter h)
    (ha : Parallel enter a) : Parallel enter (.apply h a loc) := by
  intro outer outer' f g hb
  rw [Term.free] at hb
  rw [Term.evalWith, Term.evalWith]
  refine hh.callee henter hb (List.subset_append_left _ _) _ fun call call' f₁ g₁ hcall hf hn => ?_
  refine (ha.demand (hb.grow hf hn) (List.subset_append_right _ _)).bind
    fun v w f₂ g₂ hv hf _ => ?_
  exact (hcall v w hv).lift hf

theorem parallel_letIn {x : String} (hv : Parallel enter v) (hb : Parallel enter body) :
    Parallel enter (.letIn x v body loc) := by
  intro outer outer' f g h
  rw [Term.free] at h
  rw [Term.evalWith, Term.evalWith]
  refine (hv.demand h (List.subset_append_left _ _)).bind fun u w f₁ g₁ hu hf hn => ?_
  have h₁ := h.grow hf hn
  have hin : Beside body.free (.frame f₁ outer) (.frame g₁ outer') [(x, u)] [(x, w)] := by
    refine .single hu fun y hy hne => h₁.lookup (List.mem_append_right _ ?_)
    exact List.mem_filter.mpr ⟨hy, by simpa using hne⟩
  exact (hb.demand hin (List.Subset.refl _)).within.lift hf

theorem parallel_val {x : String} (he : Parallel enter e) : Parallel enter (.val x e loc) := by
  intro outer outer' f g h
  unfold Together
  rw [Term.evalWith_val, Term.evalWith_val, h.frames.defines_eq]
  split
  · exact .error
  · have hd : Together f g (Eval.demand e.loc (e.evalWith enter outer))
        (Eval.demand e.loc (e.evalWith enter outer')) Alike := he.demand h (List.Subset.refl _)
    unfold Together at hd
    generalize Eval.demand e.loc (e.evalWith enter outer) f = r,
      Eval.demand e.loc (e.evalWith enter outer') g = r' at hd ⊢
    cases hd with
    | ok hv hf hn =>
      refine .ok (.refl _) (hf.define (hv.tied x) x) fun y hy => ?_
      exact Frame.mem_names_define (hn hy) x _
    | error => exact .error

theorem parallel_map {h : Expr} (henter : EnterAlike enter) (hh : Parallel enter h)
    (hx : Parallel enter xs) : Parallel enter (.map h xs loc) := by
  intro outer outer' f g hb
  rw [Term.free] at hb
  rw [Term.evalWith, Term.evalWith]
  refine hh.callee henter hb (List.subset_append_left _ _) _ fun call call' f₁ g₁ hcall hf hn => ?_
  refine hx.elements (hb.grow hf hn) (List.subset_append_right _ _) _
    fun vs ws f₂ g₂ hvs hf _ => ?_
  refine ((matches_mapM hvs hcall).lift hf).bind fun us us' f₃ g₃ hus hf _ => ?_
  exact together_pure hf (.list hus)

theorem matches_callTwice (henter : EnterAlike enter) {keyword : String}
    {call call' : Value → Except Stop Value}
    (hcall : ∀ v w, Alike v w → Matches Alike (call v) (call' w)) {u u' w w' : Value}
    (hu : Alike u u') (hw : Alike w w') :
    Matches Alike (Eval.callTwice enter keyword loc call u w)
      (Eval.callTwice enter keyword loc call' u' w') := by
  refine (hcall u u' hu).bind fun k k' hk => ?_
  cases hk.resembles with
  | closure => exact henter _ _ _ _ _ _ hk hw
  | int | real | bool | list | name | nothing => exact .error

theorem matches_foldValues {side : Side} {step step' : Value → Value → Except Stop Value}
    (hstep : ∀ u u' w w', Alike u u' → Alike w w' → Matches Alike (step u w) (step' u' w'))
    {u u' : Value} (hu : Alike u u') {vs ws : List Value} (hvs : List.Forall₂ Alike vs ws) :
    Matches Alike (Eval.foldValues side step u vs) (Eval.foldValues side step' u' ws) := by
  cases side with
  | left => exact matches_foldlM hvs hu hstep
  | right =>
    exact matches_foldlM (List.rel_reverse hvs) hu fun c d a b hc ha => hstep a b c d ha hc

theorem parallel_fold {h : Expr} {side : Side} (henter : EnterAlike enter)
    (hh : Parallel enter h) (hi : Parallel enter i) (hx : Parallel enter xs) :
    Parallel enter (.fold side h i xs loc) := by
  intro outer outer' f g hb
  rw [Term.free, List.append_assoc] at hb
  rw [Term.evalWith, Term.evalWith]
  refine hh.callee henter hb (List.subset_append_left _ _) _ fun call call' f₁ g₁ hcall hf hn => ?_
  have hb₁ := (hb.grow hf hn).mono (List.subset_append_right h.free (i.free ++ xs.free))
  refine (hi.demand hb₁ (List.subset_append_left _ _)).bind fun u u' f₂ g₂ hu hf hn => ?_
  refine hx.elements (hb₁.grow hf hn) (List.subset_append_right _ _) _
    fun vs ws f₃ g₃ hvs hf _ => ?_
  refine (matches_foldValues (fun u u' w w' hu hw => ?_) hu hvs).lift hf
  exact matches_callTwice henter hcall hu hw

theorem Together.statement {m n : Eval Value} {Q : Value → Value → Prop}
    (h : Together f g m n Q) : Together f g (Eval.statement loc m) (Eval.statement loc n) Q := by
  unfold Together Eval.statement at *
  generalize m f = r, n g = r' at h ⊢
  cases h with
  | ok hq hf hn => exact .ok hq hf hn
  | @error s t => cases s <;> cases t <;> exact .error

theorem together_statements (hes : ∀ e ∈ es, Parallel enter e) {last last' : Value}
    (hl : Alike last last') (h : Beside (Term.freeOf es) outer outer' f g) :
    Together f g (Term.evalStatements enter outer last es)
      (Term.evalStatements enter outer' last' es) Alike := by
  induction es generalizing f g last last' with
  | nil =>
    rw [Term.evalStatements, Term.evalStatements]
    exact together_pure h.frames hl
  | cons e es ih =>
    rw [Term.freeOf] at h
    rw [Term.evalStatements, Term.evalStatements]
    have he := hes e List.mem_cons_self outer outer' f g (h.mono (List.subset_append_left _ _))
    refine he.statement.bind fun v w f₁ g₁ hv hf hn => ?_
    exact ih (fun e he => hes e (List.mem_cons_of_mem _ he)) hv
      ((h.grow hf hn).mono (List.subset_append_right _ _))

theorem parallel_block (hes : ∀ e ∈ es, Parallel enter e) : Parallel enter (.block es loc) := by
  intro outer outer' f g h
  rw [Term.free] at h
  rw [Term.evalWith, Term.evalWith]
  exact together_statements hes (.refl _) h

end Constructs

mutual

/-- Evaluation of every term depends on what its free names stand for only. -/
theorem parallel {enter : Enter} (henter : EnterAlike enter) : ∀ e : Expr, Parallel enter e
  | .literal _ _ => parallel_literal
  | .ident _ _ => parallel_ident
  | .unary _ e _ => parallel_unary (parallel henter e)
  | .binary (.logic _) a b _ => parallel_logic (parallel henter a) (parallel henter b)
  | .binary (.arith _) a b _ => parallel_operate (by simp) (parallel henter a) (parallel henter b)
  | .binary (.rel _) a b _ => parallel_operate (by simp) (parallel henter a) (parallel henter b)
  | .binary .concat a b _ => parallel_operate (by simp) (parallel henter a) (parallel henter b)
  | .binary (.other _) a b _ => parallel_operate (by simp) (parallel henter a) (parallel henter b)
  | .list es _ => parallel_list (parallel_all henter es)
  | .head e _ => parallel_head (parallel henter e)
  | .tail e _ => parallel_tail (parallel henter e)
  | .length e _ => parallel_length (parallel henter e)
  | .cond c a b _ => parallel_cond (parallel henter c) (parallel henter a) (parallel henter b)
  | .lambda _ _ _ => parallel_lambda
  | .apply h a _ => parallel_apply henter (parallel henter h) (parallel henter a)
  | .letIn _ v body _ => parallel_letIn (parallel henter v) (parallel henter body)
  | .val _ e _ => parallel_val (parallel henter e)
  | .map h xs _ => parallel_map henter (parallel henter h) (parallel henter xs)
  | .fold _ h i xs _ =>
    parallel_fold henter (parallel henter h) (parallel henter i) (parallel henter xs)
  | .block ss _ => parallel_block (parallel_all henter ss)

theorem parallel_all {enter : Enter} (henter : EnterAlike enter) :
    ∀ es : List Expr, ∀ e ∈ es, Parallel enter e
  | [] => fun _ he => nomatch he
  | e :: es => List.forall_mem_cons.mpr ⟨parallel henter e, parallel_all henter es⟩

end

/-- Under every bound on the calls that may be open, alike closures answer alike. -/
theorem enterAlike_enterWithin (depth : Nat) : EnterAlike (Term.enterWithin depth) := by
  induction depth with
  | zero =>
    intro p body s t v w _ _
    exact .error
  | succ depth ih =>
    intro p body s t v w hc hv
    cases hc.resembles with
    | closure hs =>
      exact (parallel ih body s t _ _ (.single hv hs)).within

end Minifun
