import Minifun.Proofs.Sequence
import Minifun.Proofs.Term.Places
import Minifun.Proofs.Ty.Renaming
import Minifun.Typing.Infer

/-! # Inference up to numbers and places

Two runs of inference go along with each other when the variables of one are those of the other
under other numbers, and the places in the terms have been moved. They find the same types up to the
numbers, or fail for the same reason at the moved place: fresh variables are drawn in step, and what
a failure shows has its variables numbered anew. What the trace holds does not matter.
-/

namespace Minifun

def Frame.rename (π : Int → Int) (f : Frame Ty) : Frame Ty :=
  f.map fun b => (b.1, b.2.rename π)

namespace Frame

variable {π : Int → Int}

@[simp] theorem names_rename (f : Frame Ty) : Frame.names (rename π f) = f.names := by
  simp [rename, names, Function.comp_def]

theorem find?_rename (f : Frame Ty) (x : String) :
    Frame.find? (rename π f) x = (Frame.find? f x).map (Ty.rename π) := by
  induction f with
  | nil => rfl
  | cons b f ih =>
    simp only [rename, List.map_cons, find?_cons] at ih ⊢
    by_cases h : x = b.1 <;> simp [h, ih]

theorem define_rename (x : String) (t : Ty) (f : Frame Ty) :
    rename π (define x t f) = define x (t.rename π) (rename π f) := by
  induction f with
  | nil => rfl
  | cons b f ih =>
    simp only [rename, List.map_cons, define] at ih ⊢
    by_cases h : b.1 = x <;> simp [h, ih]

theorem names_distinctFrom_rename (seen : List String) (f : Frame Ty) :
    Frame.names (distinctFrom seen (rename π f)) = Frame.names (distinctFrom seen f) := by
  induction f generalizing seen with
  | nil => rfl
  | cons b f ih =>
    simp only [rename, List.map_cons, distinctFrom, names] at ih ⊢
    by_cases h : b.1 ∈ seen <;> simp [h, ih]

theorem rename_flatten (frames : List (Frame Ty)) :
    (frames.map (rename π)).flatten = rename π frames.flatten := by
  induction frames with
  | nil => rfl
  | cons f fs ih => simp_all [rename]

end Frame

namespace Infer

/-- Other numbers for variables and other places for terms. The fresh variables below a limit are
all moved by the same distance. -/
structure Relabelling where
  number : Int → Int
  injective : Function.Injective number
  distance : Nat := 0
  limit : Nat
  place : Option Loc → Option Loc := id

def final {α : Type} : EStateM.Result TypeError InferState α → InferState
  | .ok _ st => st
  | .error _ st => st

structure Renamed (χ : Relabelling) (st st' : InferState) : Prop where
  fresh : ∀ i : Int, st.next ≤ i → i < χ.limit → χ.number i = i + χ.distance
  frame : st'.frame = Frame.rename χ.number st.frame
  subst : st'.subst = st.subst.rename χ.number
  next : st'.next = st.next + χ.distance

/-- Two runs end in states that differ in numbers only, both with related results or both with the
same failure, at another place. -/
inductive Alongside (χ : Relabelling) {α : Type} (Q : α → α → Prop) :
    EStateM.Result TypeError InferState α → EStateM.Result TypeError InferState α → Prop where
  | ok {a a' st st'} : Q a a' → Renamed χ st st' → Alongside χ Q (.ok a st) (.ok a' st')
  | error {e st st'} : Renamed χ st st' →
      Alongside χ Q (.error e st) (.error ⟨e.cause, χ.place e.loc⟩ st')

/-- Two computations go along with each other from states that differ in numbers only, as long as
fresh variables stay below the limit. They never give back a variable. -/
structure InStep (χ : Relabelling) {α : Type} (Q : α → α → Prop) (m m' : Infer α) : Prop where
  next_le : ∀ st, st.next ≤ (final (m st)).next
  along : ∀ st st', Renamed χ st st' → (final (m st)).next ≤ χ.limit →
    Alongside χ Q (m st) (m' st')

abbrev Named (χ : Relabelling) (t t' : Ty) : Prop :=
  t' = t.rename χ.number

def Follows (χ : Relabelling) (e : Expr) : Prop :=
  ∀ outer, InStep χ (Named χ) (e.infer outer)
    ((e.relocate χ.place).infer (outer.map (Frame.rename χ.number)))

variable {χ : Relabelling}

section Calculus

variable {α β : Type} {Q : α → α → Prop} {S : β → β → Prop} {m m' : Infer α}
  {k k' : α → Infer β} {st st' : InferState}

theorem instep_pure {x y : α} (h : Q x y) : InStep χ Q (pure x) (pure y) :=
  ⟨fun _ => Nat.le_refl _, fun _ _ hr _ => .ok h hr⟩

theorem instep_fail (cause : TypeCause) (loc : Option Loc) :
    InStep χ Q (fail cause loc) (fail cause (χ.place loc)) :=
  ⟨fun _ => Nat.le_refl _, fun _ _ hr _ => .error hr⟩

theorem InStep.bind (h : InStep χ Q m m') (hQ : ∀ x, ∃ y, Q x y)
    (hk : ∀ x y, Q x y → InStep χ S (k x) (k' y)) : InStep χ S (m >>= k) (m' >>= k') := by
  -- The limit is for the end of the whole, and by this also for the end of the first part.
  have hle : ∀ x st, st.next ≤ (final (k x st)).next := by
    intro x st
    obtain ⟨y, hxy⟩ := hQ x
    exact (hk x y hxy).next_le st
  constructor
  · intro st
    have hm := h.next_le st
    cases hx : m st with
    | ok x st₁ =>
      rw [hx] at hm
      rw [bind_of_ok hx]
      exact Nat.le_trans hm (hle x st₁)
    | error e st₁ =>
      rw [hx] at hm
      rwa [bind_of_error hx]
  · intro st st' hr hlim
    have hm := h.along st st' hr
    generalize hx : m st = x, hy : m' st' = y at hm
    cases x with
    | ok x st₁ =>
      rw [bind_of_ok hx] at hlim ⊢
      cases hm (Nat.le_trans (hle x st₁) hlim) with
      | ok hq hr₁ =>
        rw [bind_of_ok hy]
        exact (hk _ _ hq).along _ _ hr₁ hlim
    | error e st₁ =>
      rw [bind_of_error hx] at hlim ⊢
      cases hm hlim with
      | error hr₁ =>
        rw [bind_of_error hy]
        exact .error hr₁

theorem InStep.type {m m' : Infer Ty} {k k' : Ty → Infer β} (h : InStep χ (Named χ) m m')
    (hk : ∀ t, InStep χ S (k t) (k' (t.rename χ.number))) : InStep χ S (m >>= k) (m' >>= k') :=
  h.bind (fun _ => ⟨_, rfl⟩) fun t _ ht => ht ▸ hk t

theorem InStep.step {m m' : Infer Unit} {k k' : Infer β} (h : InStep χ (fun _ _ => True) m m')
    (hk : InStep χ S k k') : InStep χ S (m >>= fun _ => k) (m' >>= fun _ => k') :=
  h.bind (fun _ => ⟨(), trivial⟩) fun _ _ _ => hk

theorem instep_fresh (c : Option Constraint) : InStep χ (Named χ) (fresh c) (fresh c) := by
  refine ⟨fun st => Nat.le_succ _, fun st st' hr hlim => ?_⟩
  have hlt : st.next < χ.limit := hlim
  have hnum : χ.number st.next = st.next + χ.distance :=
    hr.fresh st.next (Int.le_refl _) (by omega)
  refine .ok ?_ ⟨fun i hi => hr.fresh i ?_, hr.frame, hr.subst, ?_⟩
  · simp only [Named, Ty.rename_var, hnum, hr.next]
    push_cast
    rfl
  · push_cast at hi
    omega
  · simp only [hr.next]
    omega

theorem instep_resolve (t : Ty) :
    InStep χ (Named χ) (resolve t) (resolve (t.rename χ.number)) := by
  refine ⟨fun _ => Nat.le_refl _, fun st st' hr _ => .ok ?_ hr⟩
  rw [hr.subst]
  exact Subst.apply_rename χ.injective st.subst t

theorem Renamed.bindings (hr : Renamed χ st st') (s : Subst) :
    Renamed χ { st with subst := s } { st' with subst := s.rename χ.number } :=
  ⟨hr.fresh, hr.frame, rfl, hr.next⟩

theorem instep_unify (label : String) (loc : Option Loc) (a b : Ty) :
    InStep χ (fun _ _ => True) (unify label loc a b)
      (unify label (χ.place loc) (a.rename χ.number) (b.rename χ.number)) := by
  constructor
  · intro st
    unfold unify
    cases st.subst.unify a b <;> exact Nat.le_refl _
  · intro st st' hr _
    unfold unify
    rw [hr.subst, Subst.unify_rename χ.injective]
    cases st.subst.unify a b with
    | ok s => exact .ok trivial (hr.bindings s)
    | error e =>
      obtain ⟨s, clash⟩ := e
      exact .error (hr.bindings s)

theorem instep_note (description : String) (loc loc' : Option Loc) (t t' : Ty) :
    InStep χ (fun _ _ => True) (note description loc t) (note description loc' t') :=
  ⟨fun _ => Nat.le_refl _, fun _ _ hr _ => .ok trivial ⟨hr.fresh, hr.frame, hr.subst, hr.next⟩⟩

theorem instep_define (x : String) (t : Ty) :
    InStep χ (fun _ _ => True) (define x t) (define x (t.rename χ.number)) := by
  refine ⟨fun _ => Nat.le_refl _, fun st st' hr _ => .ok trivial ⟨hr.fresh, ?_, hr.subst, hr.next⟩⟩
  rw [Frame.define_rename, ← hr.frame]

theorem instep_settle (x : String) (loc : Option Loc) (t : Ty) :
    InStep χ (Named χ) (settle x loc t) (settle x (χ.place loc) (t.rename χ.number)) :=
  (instep_resolve t).type fun u => (instep_define x u).step <|
    (instep_note _ _ _ _ _).step (instep_pure rfl)

theorem InStep.get {k k' : InferState → Infer β}
    (hk : ∀ st st', st'.frame = Frame.rename χ.number st.frame → InStep χ S (k st) (k' st')) :
    InStep χ S (get >>= k) (get >>= k') := by
  constructor
  · intro st
    exact (hk st { st with frame := Frame.rename χ.number st.frame } rfl).next_le st
  · exact fun st st' hr hlim => (hk st st' hr.frame).along st st' hr hlim

theorem InStep.within {m m' : Infer α} (f : Frame Ty) (h : InStep χ Q m m') :
    InStep χ Q (within f m) (within (Frame.rename χ.number f) m') := by
  constructor
  · intro st
    have hm := h.next_le { st with frame := f }
    unfold Infer.within
    cases hx : m { st with frame := f } <;> rwa [hx] at hm
  · intro st st' hr
    have hin : Renamed χ { st with frame := f } { st' with frame := Frame.rename χ.number f } :=
      ⟨hr.fresh, rfl, hr.subst, hr.next⟩
    have hm := h.along _ _ hin
    unfold Infer.within
    generalize m { st with frame := f } = x, m' { st' with frame := Frame.rename χ.number f } = y
      at hm
    intro hlim
    cases x with
    | ok a st₁ =>
      cases hm hlim with
      | ok hq hr₁ => exact .ok hq ⟨hr₁.fresh, hr.frame, hr₁.subst, hr₁.next⟩
    | error e st₁ =>
      cases hm hlim with
      | error hr₁ => exact .error ⟨hr₁.fresh, hr.frame, hr₁.subst, hr₁.next⟩

end Calculus

section Constructs

variable {a b c e f i xs v body : Expr} {es : List Expr} {loc : Option Loc} {x : String}

theorem lookup_rename (π : Int → Int) (x : String) (frames : List (Frame Ty)) :
    lookup x (frames.map (Frame.rename π)) = (lookup x frames).map (Ty.rename π) := by
  induction frames with
  | nil => rfl
  | cons f fs ih =>
    simp only [List.map_cons, lookup, Frame.find?_rename, ih]
    cases Frame.find? f x <;> rfl

theorem follows_literal {v : Value} : Follows χ (.literal v loc) := by
  intro outer
  simp only [Term.relocate, Term.infer]
  cases v with
  | int | real | bool => exact instep_pure rfl
  | list vs =>
    have h := Value.text_relocate (g := χ.place) (.list vs)
    simp only [Value.relocate] at h ⊢
    simp only [literalType, h]
    exact instep_fail _ loc
  | closure | name | nothing => exact instep_fail _ loc

theorem follows_ident : Follows χ (.ident x loc) := by
  intro outer
  simp only [Term.relocate, Term.infer, nameType]
  refine .get fun st st' hf => ?_
  have hframes : st'.frame :: outer.map (Frame.rename χ.number) =
      (st.frame :: outer).map (Frame.rename χ.number) := by rw [hf, List.map_cons]
  have hnames :
      Frame.names (Frame.distinct ((st.frame :: outer).map (Frame.rename χ.number)).flatten) =
      Frame.names (Frame.distinct (st.frame :: outer).flatten) := by
    rw [Frame.rename_flatten]
    exact Frame.names_distinctFrom_rename [] _
  rw [hframes, hnames, lookup_rename]
  cases lookup x (st.frame :: outer) with
  | none => exact instep_fail _ loc
  | some t =>
    simp only [Option.map_some, Option.filter_some, Ty.isNothing_rename]
    cases t.isNothing with
    | true => exact instep_fail _ loc
    | false => exact instep_resolve t

theorem follows_unary {op : UnOp} (he : Follows χ e) : Follows χ (.unary op e loc) := by
  intro outer
  simp only [Term.relocate, Term.infer]
  refine (he outer).type fun t => ?_
  cases op with
  | neg =>
    exact (instep_fresh _).type fun w => (instep_unify _ _ t w).step (instep_resolve w)
  | not | other => exact (instep_unify _ _ t .bool).step (instep_pure rfl)

theorem follows_binary {op : BinOp} (ha : Follows χ a) (hb : Follows χ b) :
    Follows χ (.binary op a b loc) := by
  intro outer
  simp only [Term.relocate, Term.infer, Term.loc_relocate]
  refine (ha outer).type fun t => (hb outer).type fun u => ?_
  cases op with
  | arith op =>
    exact (instep_fresh _).type fun w => (instep_unify _ _ t w).step <|
      (instep_unify _ _ u w).step (instep_resolve w)
  | rel op =>
    exact (instep_fresh _).type fun w => (instep_unify _ _ t w).step <|
      (instep_unify _ _ u w).step (instep_pure rfl)
  | logic op =>
    exact (instep_unify _ _ t .bool).step <| (instep_unify _ _ u .bool).step (instep_pure rfl)
  | concat =>
    exact (instep_fresh _).type fun w => (instep_unify _ _ t (.list w)).step <|
      (instep_unify _ _ u (.list w)).step (instep_resolve (.list w))
  | other symbol => exact instep_fail _ loc

theorem instep_elements (hes : ∀ e ∈ es, Follows χ e) (outer : List (Frame Ty)) (t : Ty) :
    InStep χ (fun _ _ => True) (Term.inferElements outer t es)
      (Term.inferElements (outer.map (Frame.rename χ.number)) (t.rename χ.number)
        (Term.relocateAll χ.place es)) := by
  induction es with
  | nil =>
    simp only [Term.relocateAll, Term.inferElements]
    exact instep_pure trivial
  | cons e es ih =>
    simp only [Term.relocateAll, Term.inferElements, Term.loc_relocate]
    exact (hes e List.mem_cons_self outer).type fun u => (instep_unify _ _ t u).step <|
      ih fun e he => hes e (List.mem_cons_of_mem _ he)

theorem follows_list (hes : ∀ e ∈ es, Follows χ e) : Follows χ (.list es loc) := by
  intro outer
  cases es with
  | nil =>
    simp only [Term.relocate, Term.relocateAll, Term.infer]
    exact (instep_fresh _).type fun w => instep_pure rfl
  | cons e es =>
    simp only [Term.relocate, Term.relocateAll, Term.infer]
    exact (hes e List.mem_cons_self outer).type fun t =>
      (instep_elements (fun e he => hes e (List.mem_cons_of_mem _ he)) outer t).step <|
        (instep_resolve t).type fun u => instep_pure rfl

theorem follows_head (he : Follows χ e) : Follows χ (.head e loc) := by
  intro outer
  simp only [Term.relocate, Term.infer]
  exact (instep_fresh _).type fun w => (he outer).type fun t =>
    (instep_unify _ _ t (.list w)).step (instep_resolve w)

theorem follows_tail (he : Follows χ e) : Follows χ (.tail e loc) := by
  intro outer
  simp only [Term.relocate, Term.infer]
  exact (instep_fresh _).type fun w => (he outer).type fun t =>
    (instep_unify _ _ t (.list w)).step (instep_resolve (.list w))

theorem follows_length (he : Follows χ e) : Follows χ (.length e loc) := by
  intro outer
  simp only [Term.relocate, Term.infer]
  exact (he outer).type fun t => (instep_fresh _).type fun w =>
    (instep_unify _ _ t (.list w)).step (instep_pure rfl)

theorem follows_cond (hc : Follows χ c) (ha : Follows χ a) (hb : Follows χ b) :
    Follows χ (.cond c a b loc) := by
  intro outer
  simp only [Term.relocate, Term.infer, Term.loc_relocate]
  exact (hc outer).type fun t => (instep_unify _ _ t .bool).step <|
    (ha outer).type fun yes => (hb outer).type fun no =>
      (instep_unify _ _ yes no).step (instep_resolve yes)

theorem Follows.within (hb : Follows χ body) (outer : List (Frame Ty)) (x : String) (t : Ty)
    {st st' : InferState} (hf : st'.frame = Frame.rename χ.number st.frame) :
    InStep χ (Named χ) (within [(x, t)] (body.infer (st.frame :: outer)))
      (within [(x, t.rename χ.number)]
        ((body.relocate χ.place).infer (st'.frame :: outer.map (Frame.rename χ.number)))) := by
  rw [hf]
  exact (hb (st.frame :: outer)).within [(x, t)]

theorem follows_lambda (hb : Follows χ body) : Follows χ (.lambda x body loc) := by
  intro outer
  simp only [Term.relocate, Term.infer]
  refine (instep_fresh _).type fun param => .get fun st st' hf => ?_
  refine (hb.within outer x param hf).type fun result => ?_
  refine (instep_resolve param).type fun p => (instep_resolve result).type fun r => ?_
  exact (instep_note _ _ _ _ _).step (instep_pure rfl)

theorem follows_apply (hf : Follows χ f) (ha : Follows χ a) :
    Follows χ (.apply f a loc) := by
  intro outer
  simp only [Term.relocate, Term.infer]
  exact (hf outer).type fun t => (ha outer).type fun u => (instep_fresh _).type fun w =>
    (instep_unify _ _ t (.fn u w)).step (instep_resolve w)

theorem follows_letIn (hv : Follows χ v) (hb : Follows χ body) :
    Follows χ (.letIn x v body loc) := by
  intro outer
  simp only [Term.relocate, Term.infer]
  exact (hv outer).type fun t => .get fun st st' hf => hb.within outer x t hf

theorem follows_val (he : Follows χ e) : Follows χ (.val x e loc) := by
  intro outer
  simp only [Term.relocate]
  cases h : e.isLambda with
  | true =>
    rw [Term.infer_val_function _ _ _ _ h, Term.infer_val_function _ _ _ _ (by simpa using h)]
    refine (instep_fresh _).type fun p => (instep_fresh _).type fun r => ?_
    refine (instep_define x (.fn p r)).step (InStep.type ?_ (instep_settle x loc))
    exact (he outer).type fun t => (instep_unify _ _ (.fn p r) t).step (instep_pure rfl)
  | false =>
    rw [Term.infer_val_value _ _ _ _ h, Term.infer_val_value _ _ _ _ (by simpa using h)]
    exact (he outer).type (instep_settle x loc)

theorem follows_map (hf : Follows χ f) (hx : Follows χ xs) : Follows χ (.map f xs loc) := by
  intro outer
  simp only [Term.relocate, Term.infer, Term.loc_relocate]
  refine (hf outer).type fun t => (hx outer).type fun u => ?_
  exact (instep_fresh _).type fun p => (instep_fresh _).type fun r =>
    (instep_unify _ _ t (.fn p r)).step <| (instep_unify _ _ u (.list p)).step <|
      instep_resolve (.list r)

theorem follows_fold {side : Side} (hf : Follows χ f) (hi : Follows χ i)
    (hx : Follows χ xs) : Follows χ (.fold side f i xs loc) := by
  intro outer
  cases side with
  | left =>
    simp only [Term.relocate, Term.infer, Term.loc_relocate]
    refine (hf outer).type fun t => (hi outer).type fun u => (hx outer).type fun l => ?_
    exact (instep_fresh _).type fun p => (instep_fresh _).type fun q =>
      (instep_unify _ _ u p).step <| (instep_unify _ _ l (.list q)).step <|
        (instep_unify _ _ t (.fn p (.fn q p))).step (instep_resolve p)
  | right =>
    simp only [Term.relocate, Term.infer, Term.loc_relocate]
    refine (hf outer).type fun t => (hi outer).type fun u => (hx outer).type fun l => ?_
    exact (instep_fresh _).type fun p => (instep_fresh _).type fun q =>
      (instep_unify _ _ l (.list p)).step <| (instep_unify _ _ u q).step <|
        (instep_unify _ _ t (.fn p (.fn q q))).step (instep_resolve q)

theorem instep_statements (hes : ∀ e ∈ es, Follows χ e) (outer : List (Frame Ty)) (t : Ty) :
    InStep χ (Named χ) (Term.inferStatements outer t es)
      (Term.inferStatements (outer.map (Frame.rename χ.number)) (t.rename χ.number)
        (Term.relocateAll χ.place es)) := by
  induction es generalizing t with
  | nil =>
    simp only [Term.relocateAll, Term.inferStatements]
    exact instep_pure rfl
  | cons e es ih =>
    simp only [Term.relocateAll, Term.inferStatements]
    exact (hes e List.mem_cons_self outer).type fun u =>
      ih (fun e he => hes e (List.mem_cons_of_mem _ he)) u

theorem follows_block (hes : ∀ e ∈ es, Follows χ e) : Follows χ (.block es loc) := by
  intro outer
  simp only [Term.relocate, Term.infer]
  exact instep_statements hes outer .nothing

end Constructs

mutual

/-- Inference goes along with itself under other numbers and at other places. -/
theorem follows : ∀ e : Expr, Follows χ e
  | .literal _ _ => follows_literal
  | .ident _ _ => follows_ident
  | .unary _ e _ => follows_unary (follows e)
  | .binary _ a b _ => follows_binary (follows a) (follows b)
  | .list es _ => follows_list (follows_all es)
  | .head e _ => follows_head (follows e)
  | .tail e _ => follows_tail (follows e)
  | .length e _ => follows_length (follows e)
  | .cond c a b _ => follows_cond (follows c) (follows a) (follows b)
  | .lambda _ body _ => follows_lambda (follows body)
  | .apply f a _ => follows_apply (follows f) (follows a)
  | .letIn _ v body _ => follows_letIn (follows v) (follows body)
  | .val _ e _ => follows_val (follows e)
  | .map f xs _ => follows_map (follows f) (follows xs)
  | .fold _ f i xs _ => follows_fold (follows f) (follows i) (follows xs)
  | .block ss _ => follows_block (follows_all ss)

theorem follows_all : ∀ es : List Expr, ∀ e ∈ es, Follows χ e
  | [] => fun _ he => absurd he List.not_mem_nil
  | e :: es => List.forall_mem_cons.mpr ⟨follows e, follows_all es⟩

end

end Infer

end Minifun
