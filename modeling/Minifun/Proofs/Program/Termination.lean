import Mathlib.Logic.Relation
import Minifun.Proofs.Program.Plans
import Minifun.Proofs.Program.Promptness

/-! # Reading comes to an end

No reading function goes over the end of the text, and before it has gone over a token it calls only
functions below it. So a token is read between a call and any call of the same function within it,
and in each round of a loop, which is a function that calls itself. Calls therefore nest only so
deep, and the fuel that is given is never used up.
-/

namespace Minifun

namespace TokenStream

variable {s s₁ s₂ : TokenStream}

/-- A stream is what is left of another one after some tokens before the end of the text. -/
def GoesTo (s s' : TokenStream) : Prop :=
  ∃ front, s.toList = front ++ s'.toList ∧ ∀ t ∈ front, t.kind ≠ .eof

theorem GoesTo.refl (s : TokenStream) : s.GoesTo s :=
  ⟨[], rfl, by simp⟩

theorem GoesTo.trans (h : s.GoesTo s₁) (h' : s₁.GoesTo s₂) : s.GoesTo s₂ := by
  obtain ⟨front, hs, hfront⟩ := h
  obtain ⟨front', hs', hfront'⟩ := h'
  refine ⟨front ++ front', by rw [hs, hs', List.append_assoc], fun t ht => ?_⟩
  exact (List.mem_append.mp ht).elim (hfront t) (hfront' t)

theorem GoesTo.ends (h : s.GoesTo s₁) (hs : s.Ends) : s₁.Ends :=
  hs.of_toList h.choose_spec.1

theorem GoesTo.length_le (h : s.GoesTo s₁) : s₁.rest.length ≤ s.rest.length := by
  have hlength := congrArg List.length h.choose_spec.1
  simp only [toList, List.length_append, List.length_cons] at hlength
  omega

theorem Ends.goesTo_advance (hs : s.Ends) (hk : s.current.kind ≠ .eof) : s.GoesTo s.advance :=
  ⟨[s.current], hs.toList_advance hk, by simpa using hk⟩

theorem Ends.length_rest (hs : s.Ends) (hk : s.current.kind ≠ .eof) :
    s.rest.length = s.advance.rest.length + 1 := by
  have hlength := congrArg List.length (hs.toList_advance hk)
  simpa [toList] using hlength

end TokenStream

namespace Parse

open TokenStream

def stop {α : Type} (m : Parse α) (s : TokenStream) : TokenStream :=
  match m s with
  | .ok _ s' => s'
  | .error _ s' => s'

namespace Call

/-- Whether a reading function is called at the word that it reads first. -/
@[simp] def atWord : Call → Bool
  | argument => true
  | folded _ _ => true
  | _ => false

def Fits (c : Call) (s : TokenStream) : Prop :=
  s.Ends ∧ (c.atWord = true → s.current.kind ≠ .eof)

/-- How much a call has before it: the tokens that are left, and then its rank. -/
def size (c : Call) (s : TokenStream) : Nat :=
  10 * s.rest.length + c.rank

theorem rank_pos (c : Call) : 0 < c.rank := by
  rw [rank]
  cases c.procedure <;> decide

theorem rank_lt (c : Call) : c.rank < 10 := by
  rw [rank]
  cases c.procedure <;> decide

end Call

namespace Plan

variable {α β : Type} {file : Option String} {answer answer' : ∀ c : Call, Parse c.Result}
  {p : Plan α} {s : TokenStream} {below : Nat} {seen : Option Token}

/-- What happens while a plan is carried out: a call at a stream, or a step to the next token. -/
inductive Event where
  | call (c : Call) (s : TokenStream)
  | advance (s : TokenStream)

@[simp] def events (answer : ∀ c : Call, Parse c.Result) : Plan α → TokenStream → List Event
  | done _, _ => []
  | fail _, _ => []
  | look next, s => (next s.current).events answer s
  | advance next, s => .advance s :: next.events answer s.advance
  | call c next, s => .call c s ::
      match answer c s with
      | .ok a s' => (next a).events answer s'
      | .error _ _ => []

theorem run_congr (h : ∀ c s', .call c s' ∈ p.events answer s → answer c s' = answer' c s') :
    p.run file answer s = p.run file answer' s := by
  induction p generalizing s with
  | done a => rfl
  | fail cause => rfl
  | look next ih => exact ih _ h
  | advance next ih => exact ih fun c s' hc => h c s' (List.mem_cons_of_mem _ hc)
  | call c next ih =>
    have hc := h c s (by simp)
    cases ha : answer c s with
    | error e s' => exact (bind_of_error ha).trans (bind_of_error (hc ▸ ha)).symm
    | ok a s' =>
      refine (bind_of_ok ha).trans (.trans ?_ (bind_of_ok (hc ▸ ha)).symm)
      exact ih a fun c' s'' hc' => h c' s'' (by simp [ha, hc'])

/-- A plan goes only over tokens of which it has seen that they are not the end of the text, calls
only functions of ranks below a number before it goes over a token, and never gives up for lack of
fuel by itself. -/
@[simp] def Careful : Plan α → Nat → Option Token → Prop
  | done _, _, _ => True
  | fail cause, _, _ => cause ≠ .broken .endless
  | look next, below, seen => ∀ t, (∀ u ∈ seen, u = t) → (next t).Careful below (some t)
  | advance next, _, seen => (∃ t ∈ seen, t.kind ≠ .eof) ∧ next.Careful 10 none
  | call c next, below, seen => c.rank < below ∧
      (c.atWord = true → ∃ t ∈ seen, t.kind ≠ .eof) ∧ ∀ a, (next a).Careful below none

/-- An event at a stream that another one goes to: a call with less than so much before it, or a
step over a token that is not the end of the text. -/
def Event.Within (s : TokenStream) (limit : Nat) : Event → Prop
  | call c s' => s.GoesTo s' ∧ c.Fits s' ∧ c.size s' < limit
  | advance s' => s.GoesTo s' ∧ s'.Ends ∧ s'.current.kind ≠ .eof

theorem Event.Within.after {s' : TokenStream} {limit : Nat} {e : Event} (h : e.Within s' limit)
    (hs : s.GoesTo s') : e.Within s limit := by
  cases e <;> exact ⟨hs.trans h.1, h.2⟩

/-- If calls go forward, then a careful plan goes forward, and so does all that happens in it. -/
theorem Careful.within {limit : Nat}
    (hanswer : ∀ (c : Call) s, c.Fits s → c.size s < limit → s.GoesTo (stop (answer c) s))
    (h : p.Careful below seen) (hs : s.Ends) (hseen : ∀ t ∈ seen, t = s.current)
    (hlimit : 10 * s.rest.length + below ≤ limit) :
    (∀ e ∈ p.events answer s, e.Within s limit) ∧ s.GoesTo (stop (p.run file answer) s) := by
  induction p generalizing s below seen with
  | done a => exact ⟨by simp, .refl s⟩
  | fail cause => exact ⟨by simp, .refl s⟩
  | look next ih => exact ih s.current (h s.current hseen) hs (by simp) hlimit
  | advance next ih =>
    obtain ⟨⟨t, ht, hk⟩, hnext⟩ := h
    rw [hseen t ht] at hk
    have hforward := hs.goesTo_advance hk
    have hlength := hs.length_rest hk
    obtain ⟨hevents, hstop⟩ := ih hnext (hforward.ends hs) (by simp) (by omega)
    refine ⟨?_, hforward.trans hstop⟩
    rintro e (_ | ⟨_, he⟩)
    · exact ⟨.refl s, hs, hk⟩
    · exact (hevents e he).after hforward
  | call c next ih =>
    obtain ⟨hrank, hword, hnext⟩ := h
    have hfits : c.Fits s := by
      refine ⟨hs, fun hc => ?_⟩
      obtain ⟨t, ht, hk⟩ := hword hc
      rwa [hseen t ht] at hk
    have hsize : c.size s < limit := by
      rw [Call.size]
      omega
    have hforward := hanswer c s hfits hsize
    have hcall : Event.Within s limit (.call c s) := ⟨.refl s, hfits, hsize⟩
    cases ha : answer c s with
    | error e s' =>
      simp only [stop, ha] at hforward
      have hrun : (call c next).run file answer s = .error e s' := bind_of_error ha
      refine ⟨by simpa [ha] using hcall, ?_⟩
      rwa [stop, hrun]
    | ok a s' =>
      simp only [stop, ha] at hforward
      have hrun : (call c next).run file answer s = (next a).run file answer s' := bind_of_ok ha
      have hlength := hforward.length_le
      obtain ⟨hevents, hstop⟩ := ih a (hnext a) (hforward.ends hs) (by simp) (by omega)
      refine ⟨?_, ?_⟩
      · simp only [events, ha, List.forall_mem_cons]
        exact ⟨hcall, fun e he => (hevents e he).after hforward⟩
      · rw [stop, hrun]
        exact hforward.trans hstop

theorem Careful.endless (h : p.Careful below seen) (hseen : ∀ t ∈ seen, t = s.current)
    (hend : Endless (p.run file answer) s) :
    ∃ c s', .call c s' ∈ p.events answer s ∧ Endless (answer c) s' := by
  induction p generalizing s below seen with
  | done a =>
    obtain ⟨e, s', hrun, -⟩ := hend
    cases hrun
  | fail cause =>
    obtain ⟨e, s', hrun, he⟩ := hend
    cases hrun
    exact absurd he h
  | look next ih => exact ih s.current (h s.current hseen) (by simp) hend
  | advance next ih =>
    obtain ⟨c, s', hc, hend'⟩ := ih h.2 (by simp) hend
    exact ⟨c, s', List.mem_cons_of_mem _ hc, hend'⟩
  | call c next ih =>
    cases ha : answer c s with
    | error e s' =>
      obtain ⟨e', s'', hrun, he⟩ := hend
      obtain ⟨rfl, rfl⟩ := EStateM.Result.error.inj ((bind_of_error ha).symm.trans hrun)
      exact ⟨c, s, by simp, _, _, ha, he⟩
    | ok a s' =>
      obtain ⟨e, s'', hrun, he⟩ := hend
      obtain ⟨c', s₁, hc', hend'⟩ :=
        ih a (h.2.2 a) (by simp) ⟨e, s'', (bind_of_ok ha).symm.trans hrun, he⟩
      exact ⟨c', s₁, by simp [ha, hc'], hend'⟩

section Rules

variable {k : TokenKind}

@[simp] theorem careful_pure (a : α) : (pure a : Plan α).Careful below seen := trivial

@[simp] theorem careful_here {f : Loc → Plan β} : (here file >>= f).Careful below seen ↔
    ∀ t, (∀ u ∈ seen, u = t) → (f (t.loc file)).Careful below (some t) := Iff.rfl

@[simp] theorem careful_kind {f : TokenKind → Plan β} : (kind >>= f).Careful below seen ↔
    ∀ t, (∀ u ∈ seen, u = t) → (f t.kind).Careful below (some t) := Iff.rfl

@[simp] theorem careful_current {f : Token → Plan β} : (current >>= f).Careful below seen ↔
    ∀ t, (∀ u ∈ seen, u = t) → (f t).Careful below (some t) := Iff.rfl

section Seen

variable {t : Token}

@[simp] theorem careful_here_some {f : Loc → Plan β} :
    (here file >>= f).Careful below (some t) ↔ (f (t.loc file)).Careful below (some t) := by
  simp [careful_here]

@[simp] theorem careful_kind_some {f : TokenKind → Plan β} :
    (kind >>= f).Careful below (some t) ↔ (f t.kind).Careful below (some t) := by
  simp [careful_kind]

@[simp] theorem careful_current_some {f : Token → Plan β} :
    (current >>= f).Careful below (some t) ↔ (f t).Careful below (some t) := by
  simp [careful_current]

end Seen

@[simp] theorem careful_next {f : Unit → Plan β} : (next >>= f).Careful below seen ↔
    (∃ t ∈ seen, t.kind ≠ .eof) ∧ (f ()).Careful 10 none := Iff.rfl

@[simp] theorem careful_call {c : Call} {f : c.Result → Plan β} :
    (@Bind.bind Plan _ (no_index c.Result) β (request c) f).Careful below seen ↔
      c.rank < below ∧ (c.atWord = true → ∃ t ∈ seen, t.kind ≠ .eof) ∧
        ∀ a, (f a).Careful below none := Iff.rfl

@[simp] theorem careful_request {c : Call} :
    @Careful (no_index c.Result) (request c) below seen ↔
      c.rank < below ∧ (c.atWord = true → ∃ t ∈ seen, t.kind ≠ .eof) := by
  simp [request]

@[simp] theorem careful_expect (hk : k ≠ .eof) {f : Token → Plan β} :
    (expect k >>= f).Careful below seen ↔
      ∀ t, (∀ u ∈ seen, u = t) → t.kind = k → (f t).Careful 10 none := by
  refine forall₂_congr fun t _ => ?_
  change ((if t.kind = k then next >>= fun _ => pure t else fail _) >>= f).Careful _ _ ↔ _
  by_cases h : t.kind = k
  · have ht : t.kind ≠ .eof := h ▸ hk
    simp only [if_pos h]
    exact ⟨fun hf _ => hf.2, fun hf => ⟨⟨t, rfl, ht⟩, hf h⟩⟩
  · simp only [if_neg h]
    exact ⟨fun _ h' => absurd h' h, fun _ hcause => by cases hcause⟩

@[simp] theorem careful_consume (hk : k ≠ .eof) {f : Bool → Plan β} :
    (consume k >>= f).Careful below seen ↔
      ∀ t, (∀ u ∈ seen, u = t) →
        if t.kind = k then (f true).Careful 10 none else (f false).Careful below (some t) := by
  refine forall₂_congr fun t _ => ?_
  change ((if t.kind = k then next >>= fun _ => pure true else pure false) >>= f).Careful _ _ ↔ _
  by_cases h : t.kind = k
  · have ht : t.kind ≠ .eof := h ▸ hk
    simp only [if_pos h]
    exact ⟨fun hf => hf.2, fun hf => ⟨⟨t, rfl, ht⟩, hf⟩⟩
  · simp only [if_neg h]
    exact Iff.rfl

end Rules

theorem careful_further (op? : TokenKind → Option BinOp) (hop : op? .eof = none) (left : Expr)
    {operand : Plan Expr} {more : Expr → Plan Expr}
    (hoperand : ∀ k : Expr → Plan Expr,
      (∀ e, (k e).Careful 10 none) → (operand >>= k).Careful 10 none)
    (hmore : ∀ e, (more e).Careful 10 none) :
    (further file op? operand more left).Careful below seen := by
  rw [further, careful_kind]
  intro t _
  cases h : op? t.kind with
  | none => exact careful_pure left
  | some op =>
    have ht : t.kind ≠ .eof := fun hk => by simp [hk, hop] at h
    rw [careful_here_some]
    exact careful_next.mpr ⟨⟨t, rfl, ht⟩, hoperand _ fun e => hmore _⟩

section Plans

variable (file) {t : Token}

theorem careful_statement (t : Token) : (statement file).Careful Call.statement.rank (some t) := by
  rw [statement, careful_kind_some]
  cases hk : t.kind with
  | valWord =>
    rw [careful_here_some]
    refine careful_next.mpr ⟨⟨t, rfl, by simp [hk]⟩, ?_⟩
    refine (careful_expect (by decide)).mpr fun name _ _ => ?_
    refine careful_current.mpr fun param _ => ?_
    cases hp : param.kind <;> simp [hp]
  | _ => simp

theorem careful_expression (t : Token) :
    (expression file).Careful Call.expression.rank (some t) := by
  rw [expression, careful_here_some, careful_kind_some]
  cases hk : t.kind <;> simp [hk]

theorem careful_factor (t : Token) : (factor file).Careful Call.factor.rank (some t) := by
  rw [factor, careful_current_some]
  cases hk : t.kind with
  | int =>
    cases Text.readInt t.text with
    | ok i => simp [hk]
    | error fault => cases fault <;> simp
  | real => cases Text.readReal? t.text <;> simp [hk]
  | _ => simp [hk]

theorem careful_plan (c : Call) (ht : c.atWord = true → t.kind ≠ .eof) :
    (c.plan file).Careful c.rank (some t) := by
  cases c with
  | statements =>
    rw [Call.plan, statements, careful_kind_some]
    cases t.kind <;> simp
  | statement => exact careful_statement file t
  | expression => exact careful_expression file t
  | logical => simp [Call.plan, joined]
  | logicalRest left =>
    rw [Call.plan]
    exact careful_further logicOp? rfl left (by simp) (by simp)
  | relational =>
    refine careful_call.mpr ⟨by decide, by simp, fun left => ?_⟩
    exact careful_further relOp? rfl left (by simp) (by simp)
  | additive => simp [Call.plan, joined]
  | additiveRest left =>
    rw [Call.plan]
    exact careful_further sumOp? rfl left (by simp) (by simp)
  | product =>
    rw [Call.plan, product, careful_kind_some]
    cases hk : t.kind <;> simp [joined, hk]
  | productRest left =>
    rw [Call.plan]
    exact careful_further productOp? rfl left (by simp) (by simp)
  | factor => exact careful_factor file t
  | argument => simp [Call.plan, argument, ht rfl]
  | folded side loc => simp [Call.plan, folded, ht rfl]
  | elements => simp [Call.plan, elements]
  | applications function =>
    rw [Call.plan, applications, careful_kind_some]
    cases hk : t.kind <;> simp [hk]

end Plans

end Plan

section Calls

open Call

variable {file : Option String} {c : Call} {s s' : TokenStream} {fuel fuel' bound bound' : Nat}

/-- Fuel for a call, and for statements a bound on their number, in proportion to the tokens that
are left. -/
def Call.Fueled (c : Call) (fuel bound : Nat) (s : TokenStream) : Prop :=
  8 * s.rest.length + min c.rank 7 ≤ fuel ∧ s.rest.length + (c.rank - 8) ≤ bound

/-- With enough fuel a reading function does what its plan says, and leaves enough fuel for all
calls with less before them. -/
theorem Call.Fueled.exists_run (h : c.Fueled fuel bound s) (file : Option String) :
    ∃ fuel' bound', c.read file fuel bound = (c.plan file).run file (Call.read file fuel' bound') ∧
      ∀ (c' : Call) s', c'.size s' < c.size s → c'.Fueled fuel' bound' s' := by
  obtain ⟨hfuel, hbound⟩ := h
  have hpos := c.rank_pos
  by_cases hlow : c.rank ≤ 7
  · obtain ⟨n, rfl⟩ : ∃ n, fuel = n + 1 := ⟨fuel - 1, by omega⟩
    refine ⟨n, bound, read_succ file n bound hlow, fun c' s' hsize => ?_⟩
    have hpos' := c'.rank_pos
    have hlt' := c'.rank_lt
    simp only [Call.size] at hsize
    constructor <;> omega
  · cases c with
    | statement =>
      have hrank : Call.statement.rank = 8 := rfl
      refine ⟨fuel, bound, read_statement file fuel bound, fun c' s' hsize => ?_⟩
      have hlt' := c'.rank_lt
      simp only [Call.size, hrank] at hsize
      constructor <;> omega
    | statements =>
      have hrank : Call.statements.rank = 9 := rfl
      obtain ⟨k, rfl⟩ : ∃ k, bound = k + 1 := ⟨bound - 1, by omega⟩
      refine ⟨fuel, k, read_statements file fuel k, fun c' s' hsize => ?_⟩
      have hlt' := c'.rank_lt
      simp only [Call.size, hrank] at hsize
      constructor <;> omega
    | _ => simp at hlow

/-- With enough fuel a call goes forward, does not run out of fuel, and comes to the same as with
any other fuel that is enough. -/
structure Call.Settled (file : Option String) (c : Call) (s : TokenStream) : Prop where
  forward : ∀ {fuel bound}, c.Fueled fuel bound s → s.GoesTo (stop (c.read file fuel bound) s)
  not_endless : ∀ {fuel bound}, c.Fueled fuel bound s → ¬ Endless (c.read file fuel bound) s
  stable : ∀ {fuel bound fuel' bound'}, c.Fueled fuel bound s → c.Fueled fuel' bound' s →
    c.read file fuel bound s = c.read file fuel' bound' s

theorem Call.Fits.within {answer : ∀ c : Call, Parse c.Result} (h : c.Fits s)
    (hanswer : ∀ (c' : Call) s', c'.Fits s' → c'.size s' < c.size s →
      s'.GoesTo (stop (answer c') s')) :
    (∀ e ∈ (c.plan file).events answer s, e.Within s (c.size s)) ∧
      s.GoesTo (stop ((c.plan file).run file answer) s) :=
  (Plan.careful_plan file c h.2).within hanswer h.1 (by simp) le_rfl

theorem Call.Fits.settled (h : c.Fits s) : c.Settled file s := by
  induction hsize : c.size s using Nat.strong_induction_on generalizing c s with
  | _ n ih =>
    subst hsize
    -- Since the plan is careful, all calls in it have less before them than this one.
    have hwithin : ∀ {f b}, (∀ (c' : Call) s', c'.size s' < c.size s → c'.Fueled f b s') →
        (∀ e ∈ (c.plan file).events (Call.read file f b) s, e.Within s (c.size s)) ∧
          s.GoesTo (stop ((c.plan file).run file (Call.read file f b)) s) :=
      fun hleft => h.within fun c' s' hfits hlt => (ih _ hlt hfits rfl).forward (hleft c' s' hlt)
    constructor
    · intro fuel bound hfuel
      obtain ⟨f, b, hrun, hleft⟩ := hfuel.exists_run file
      rw [hrun]
      exact (hwithin hleft).2
    · intro fuel bound hfuel hend
      obtain ⟨f, b, hrun, hleft⟩ := hfuel.exists_run file
      rw [hrun] at hend
      obtain ⟨c', s', hc, hend'⟩ := (Plan.careful_plan file c h.2).endless (by simp) hend
      obtain ⟨-, hfits, hlt⟩ := (hwithin hleft).1 _ hc
      exact (ih _ hlt hfits rfl).not_endless (hleft c' s' hlt) hend'
    · intro fuel bound fuel' bound' hfuel hfuel'
      obtain ⟨f, b, hrun, hleft⟩ := hfuel.exists_run file
      obtain ⟨f', b', hrun', hleft'⟩ := hfuel'.exists_run file
      rw [hrun, hrun']
      refine Plan.run_congr fun c' s' hc => ?_
      obtain ⟨-, hfits, hlt⟩ := (hwithin hleft).1 _ hc
      exact (ih _ hlt hfits rfl).stable (hleft c' s' hlt) (hleft' c' s' hlt)

def Call.answer (file : Option String) (c : Call) : Parse c.Result := fun s =>
  c.read file (Program.fuelFor s.toList) (Program.fuelFor s.toList) s

theorem Call.fueled {n : Nat} (c : Call) (h : Program.fuelFor s.toList ≤ n) : c.Fueled n n s := by
  have hlt := c.rank_lt
  simp only [Program.fuelFor, toList, List.length_cons] at h
  constructor <;> omega

theorem Call.answer_eq_read (file : Option String) (c : Call) (s : TokenStream) :
    c.answer file s = c.read file (Program.fuelFor s.toList) (Program.fuelFor s.toList) s := rfl

theorem Call.Fits.goesTo (h : c.Fits s) : s.GoesTo (stop (c.answer file) s) := by
  rw [stop, answer_eq_read]
  exact h.settled.forward (c.fueled le_rfl)

theorem Call.Fits.answer_eq (h : c.Fits s) :
    c.answer file s = (c.plan file).run file (Call.answer file) s := by
  obtain ⟨f, b, hrun, hleft⟩ := (c.fueled (s := s) le_rfl).exists_run file
  rw [answer_eq_read, hrun]
  refine Plan.run_congr fun c' s' hc => ?_
  obtain ⟨-, hfits, hlt⟩ :=
    (h.within fun c' s' hfits hlt => hfits.settled.forward (hleft c' s' hlt)).1 _ hc
  rw [answer_eq_read]
  exact hfits.settled.stable (hleft c' s' hlt) (c'.fueled le_rfl)

end Calls

section Nesting

open Relation

variable {file : Option String} {x y : Call × TokenStream}

/-- The reading function of a call at a stream makes another call, at a stream it has gone to. -/
def Enters (file : Option String) (x y : Call × TokenStream) : Prop :=
  .call y.1 y.2 ∈ (x.1.plan file).events (Call.answer file) x.2

theorem Call.Fits.events (h : x.1.Fits x.2) :
    ∀ e ∈ (x.1.plan file).events (Call.answer file) x.2, e.Within x.2 (x.1.size x.2) :=
  (h.within fun _ _ hfits _ => hfits.goesTo).1

theorem Call.Fits.enters (h : x.1.Fits x.2) (hxy : Enters file x y) :
    x.2.GoesTo y.2 ∧ y.1.Fits y.2 ∧ y.1.size y.2 < x.1.size x.2 :=
  h.events _ hxy

theorem Call.Fits.nested (h : x.1.Fits x.2) (hxy : TransGen (Enters file) x y) :
    x.2.GoesTo y.2 ∧ y.1.Fits y.2 ∧ y.1.size y.2 < x.1.size x.2 := by
  induction hxy with
  | single hxy => exact h.enters hxy
  | tail _ hyz ih =>
    obtain ⟨hto, hfits, hlt⟩ := ih
    obtain ⟨hto', hfits', hlt'⟩ := hfits.enters hyz
    exact ⟨hto.trans hto', hfits', hlt'.trans hlt⟩

theorem Call.Fits.reached (h : x.1.Fits x.2) (hxy : ReflTransGen (Enters file) x y) :
    x.2.GoesTo y.2 ∧ y.1.Fits y.2 := by
  rcases reflTransGen_iff_eq_or_transGen.mp hxy with rfl | hxy
  · exact ⟨.refl _, h⟩
  · exact ⟨(h.nested hxy).1, (h.nested hxy).2.1⟩

/-- A reading function that is called within itself has read a token in between. -/
theorem Call.Fits.length_lt (h : x.1.Fits x.2) (hxy : TransGen (Enters file) x y)
    (hsame : y.1.procedure = x.1.procedure) : y.2.rest.length < x.2.rest.length := by
  obtain ⟨-, -, hlt⟩ := h.nested hxy
  simp only [Call.size, Call.rank, hsame] at hlt
  omega

theorem Call.Fits.acc (h : x.1.Fits x.2) : Acc (fun y x => Enters file x y) x := by
  induction hsize : x.1.size x.2 using Nat.strong_induction_on generalizing x with
  | _ n ih =>
    subst hsize
    refine ⟨x, fun y hxy => ?_⟩
    obtain ⟨-, hfits, hlt⟩ := h.enters hxy
    exact ih _ hlt hfits rfl

end Nesting

end Parse

namespace Program

open Parse Relation

variable {tokens : List Token} {file : Option String} {s : TokenStream}

def start (tokens : List Token) : Call × TokenStream :=
  (.statements, .ofList tokens)

def firstEnd (tokens : List Token) : Nat :=
  tokens.findIdx fun t => t.kind = .eof

/-- The streams that the reader stands at: where it makes calls, behind the tokens that it goes
over, and at the end. -/
inductive StandsAt (tokens : List Token) (file : Option String) : TokenStream → Prop where
  | call {x} : ReflTransGen (Enters file) (start tokens) x → StandsAt tokens file x.2
  | step {x s} : ReflTransGen (Enters file) (start tokens) x →
      .advance s ∈ (x.1.plan file).events (Call.answer file) x.2 → StandsAt tokens file s.advance
  | stop : StandsAt tokens file (stop (program file (fuelFor tokens)) (.ofList tokens))

structure Halts (tokens : List Token) (file : Option String) : Prop where
  /-- There is a program or an error, and the error is not that the fuel was used up. -/
  result : (∃ p, ofTokens tokens file = .ok p) ∨
    ∃ e, ofTokens tokens file = .error e ∧ e.cause ≠ .broken .endless
  /-- More fuel makes no difference. -/
  stable : ∀ fuel, fuelFor tokens ≤ fuel →
    program file fuel (.ofList tokens) = program file (fuelFor tokens) (.ofList tokens)
  /-- All calls do what their plans say, which need no fuel. -/
  plan : ∀ c s, ReflTransGen (Enters file) (start tokens) (c, s) →
    c.answer file s = (c.plan file).run file (Call.answer file) s
  /-- Calls do not go on to make calls without end. -/
  nesting : Acc (fun y x => Enters file x y) (start tokens)
  /-- Between a call and a call of the same function within it a token is read. -/
  again : ∀ c s c' s', ReflTransGen (Enters file) (start tokens) (c, s) →
    TransGen (Enters file) (c, s) (c', s') → c'.procedure = c.procedure →
      s'.rest.length < s.rest.length
  /-- The reader never goes past the first end of the text. -/
  position : ∀ s, StandsAt tokens file s → ∃ k ≤ firstEnd tokens, s.toList = tokens.drop k
  /-- A program has been read when the reader stands at the first end of the text. -/
  complete : ∀ p s, program file (fuelFor tokens) (.ofList tokens) = .ok p s →
    s.toList = tokens.drop (firstEnd tokens)

theorem fits_start (h : Terminated tokens) : (start tokens).1.Fits (start tokens).2 :=
  ⟨h.ends, by simp [start]⟩

theorem firstEnd_append {front rest : List Token} (h : ∀ t ∈ front, t.kind ≠ .eof) :
    firstEnd (front ++ rest) = front.length + firstEnd rest := by
  induction front with
  | nil => simp
  | cons t front ih =>
    obtain ⟨ht, hfront⟩ := List.forall_mem_cons.mp h
    rw [List.cons_append, firstEnd, List.findIdx_cons, ← firstEnd, ih hfront, List.length_cons]
    simp [ht]
    omega

theorem exists_drop_of_goesTo (h : Terminated tokens) (hs : (TokenStream.ofList tokens).GoesTo s) :
    ∃ k, firstEnd tokens = k + firstEnd s.toList ∧ s.toList = tokens.drop k := by
  obtain ⟨front, htokens, hfront⟩ := hs
  rw [h.toList] at htokens
  subst htokens
  exact ⟨front.length, firstEnd_append hfront, List.drop_left.symm⟩

theorem program_eq_match (file : Option String) (fuel : Nat) (s : TokenStream) :
    program file fuel s =
      match Parse.statements file fuel fuel s with
      | .ok es s' => .ok ⟨es, s.current.loc file⟩ s'
      | .error e s' => .error e s' := by
  rw [program, bind_of_ok (here_eq file s)]
  cases hread : Parse.statements file fuel fuel s with
  | ok es s' => exact bind_of_ok hread
  | error e s' => exact bind_of_error hread

theorem stop_program (file : Option String) (fuel : Nat) (s : TokenStream) :
    stop (program file fuel) s = stop (Parse.statements file fuel fuel) s := by
  rw [stop, stop, program_eq_match]
  cases Parse.statements file fuel fuel s <;> rfl

theorem goesTo_of_standsAt (h : Terminated tokens) (hs : StandsAt tokens file s) :
    (TokenStream.ofList tokens).GoesTo s := by
  have hfits := fits_start h
  cases hs with
  | call hx => exact (hfits.reached hx).1
  | step hx he =>
    obtain ⟨hto, hfits'⟩ := hfits.reached hx
    obtain ⟨hto', hends, hk⟩ := hfits'.events _ he
    exact (hto.trans hto').trans (hends.goesTo_advance hk)
  | stop =>
    rw [stop_program]
    exact hfits.settled.forward (Call.statements.fueled (by rw [start, h.toList]))

/-- Tokens that end with the end of the text are read as a program or with an error, in the course
of ever fewer calls. -/
theorem ofTokens_halts (h : Terminated tokens) (file : Option String) : Halts tokens file where
  result := by
    cases hread : ofTokens tokens file with
    | ok p => exact .inl ⟨p, rfl⟩
    | error e =>
      refine .inr ⟨e, rfl, fun he => ?_⟩
      obtain ⟨s, hprogram⟩ := ofTokens_eq_error_iff.mp hread
      exact not_endless h ⟨e, s, program_eq_error_iff.mp hprogram, he⟩
  stable fuel hfuel := by
    have hfueled : ∀ n, fuelFor tokens ≤ n → Call.statements.Fueled n n (.ofList tokens) :=
      fun n hn => Call.statements.fueled (by rwa [h.toList])
    have hstatements : Parse.statements file fuel fuel (.ofList tokens) =
        Parse.statements file (fuelFor tokens) (fuelFor tokens) (.ofList tokens) :=
      (fits_start h).settled.stable (hfueled fuel hfuel) (hfueled _ le_rfl)
    rw [program_eq_match, program_eq_match, hstatements]
  plan c s hx := ((fits_start h).reached hx).2.answer_eq
  nesting := (fits_start h).acc
  again c s c' s' hx hxy hsame := ((fits_start h).reached hx).2.length_lt hxy hsame
  position s hs := by
    obtain ⟨k, hk, hdrop⟩ := exists_drop_of_goesTo h (goesTo_of_standsAt h hs)
    exact ⟨k, by omega, hdrop⟩
  complete p s hread := by
    have hstop : stop (program file (fuelFor tokens)) (.ofList tokens) = s := by rw [stop, hread]
    have hstands : StandsAt tokens file s := by
      rw [← hstop]
      exact .stop
    obtain ⟨k, hk, hdrop⟩ := exists_drop_of_goesTo h (goesTo_of_standsAt h hstands)
    have heof : s.current.kind = .eof := eof_of_statements (program_eq_ok_iff.mp hread).2
    have hfirst : firstEnd s.toList = 0 := by
      simp [firstEnd, TokenStream.toList, List.findIdx_cons, heof]
    rw [hdrop, hk, hfirst, Nat.add_zero]

/-- A statement with brackets, and an end of the text that comes before the last token. -/
theorem ofTokens_halts_early :
    let tokens : List Token :=
      [⟨.minus, "-", 1, 1⟩, ⟨.lparen, "(", 1, 2⟩, ⟨.ident, "x", 1, 3⟩, ⟨.rparen, ")", 1, 4⟩,
        ⟨.semicolon, ";", 1, 5⟩, ⟨.eof, "", 1, 6⟩, ⟨.rparen, ")", 1, 6⟩, ⟨.eof, "", 1, 7⟩]
    Terminated tokens ∧ Halts tokens none := by
  intro tokens
  have hends : Terminated tokens := ⟨tokens.dropLast, ⟨.eof, "", 1, 7⟩, rfl, rfl⟩
  exact ⟨hends, ofTokens_halts hends none⟩

end Program

end Minifun
