import Minifun.Proofs.Program.Texts

/-! # Where programs stand

Every place in a program is the place of one of its tokens, and so is the place of an error of the
reader. In other words: when places are moved and those of the tokens stay where they are, the
program does not change.
-/

namespace Minifun

namespace Parse

/-- A reader on tokens of some kind gives something with a property and leaves such tokens, or it
fails at the place of one. -/
def Anchored {α : Type} (T : Token → Prop) (file : Option String) (P : α → Prop) (m : Parse α) :
    Prop :=
  ∀ s : TokenStream, (∀ t ∈ s.toList, T t) →
    match m s with
    | .ok a s' => P a ∧ ∀ t ∈ s'.toList, T t
    | .error e _ => ∃ t, T t ∧ e.loc = t.loc file

variable {α β : Type} {T : Token → Prop} {file : Option String} {P : α → Prop} {Q : β → Prop}
  {m : Parse α}

section Calculus

theorem anchored_pure {a : α} (h : P a) : Anchored T file P (pure a) :=
  fun _ hs => ⟨h, hs⟩

theorem anchored_fail (cause : ParseCause) : Anchored T file P (fail file cause) :=
  fun s hs => ⟨s.current, hs _ List.mem_cons_self, rfl⟩

theorem Anchored.bind {f : α → Parse β} (hm : Anchored T file P m)
    (hf : ∀ a, P a → Anchored T file Q (f a)) : Anchored T file Q (m >>= f) := by
  intro s hs
  have h := hm s hs
  cases hms : m s with
  | ok a s' =>
    rw [hms] at h
    rw [bind_of_ok hms]
    exact hf a h.1 s' h.2
  | error e s' =>
    rw [hms] at h
    rw [bind_of_error hms]
    exact h

theorem Anchored.step {k : Parse β} (hm : Anchored T file P m) (hk : Anchored T file Q k) :
    Anchored T file Q (m >>= fun _ => k) :=
  hm.bind fun _ _ => hk

theorem anchored_current : Anchored T file T current :=
  fun _ hs => ⟨hs _ List.mem_cons_self, hs⟩

theorem anchored_kind : Anchored T file (fun _ => True) kind :=
  fun _ hs => ⟨trivial, hs⟩

theorem anchored_here : Anchored T file (fun loc => ∃ t, T t ∧ loc = t.loc file) (here file) :=
  fun s hs => ⟨⟨s.current, hs _ List.mem_cons_self, rfl⟩, hs⟩

theorem anchored_advance : Anchored T file (fun _ => True) advance := by
  rintro ⟨t, ts⟩ hs
  cases ts with
  | nil => exact ⟨trivial, hs⟩
  | cons u us => exact ⟨trivial, fun v hv => hs v (List.mem_cons_of_mem _ hv)⟩

theorem anchored_expect (k : TokenKind) : Anchored T file T (expect file k) := by
  refine anchored_current.bind fun t ht => ?_
  split
  · exact anchored_advance.step (anchored_pure ht)
  · exact anchored_fail _

theorem anchored_consume (k : TokenKind) : Anchored T file (fun _ => True) (consume k) := by
  refine anchored_kind.bind fun found _ => ?_
  split
  · exact anchored_advance.step (anchored_pure trivial)
  · exact anchored_pure trivial

end Calculus

/-- Places are moved, but not those of tokens of some kind. -/
def Pins (T : Token → Prop) (file : Option String) (g : Option Loc → Option Loc) : Prop :=
  ∀ t, T t → g (some (t.loc file)) = some (t.loc file)

abbrev Pinned (T : Token → Prop) (file : Option String) (g : Option Loc → Option Loc)
    (m : Parse Expr) : Prop :=
  Anchored T file (fun e => e.relocate g = e) m

structure AllPinned (T : Token → Prop) (file : Option String) (g : Option Loc → Option Loc)
    (n : Nat) : Prop where
  expression : Pinned T file g (expression file n)
  logical : Pinned T file g (logical file n)
  logicalRest : ∀ e, e.relocate g = e → Pinned T file g (logicalRest file n e)
  relational : Pinned T file g (relational file n)
  additive : Pinned T file g (additive file n)
  additiveRest : ∀ e, e.relocate g = e → Pinned T file g (additiveRest file n e)
  product : Pinned T file g (product file n)
  productRest : ∀ e, e.relocate g = e → Pinned T file g (productRest file n e)
  factor : Pinned T file g (factor file n)
  argument : Pinned T file g (argument file n)
  folded : ∀ side t, T t → Pinned T file g (folded file n side (t.loc file))
  elements : Anchored T file (fun es => Term.relocateAll g es = es) (elements file n)
  applications : ∀ e, e.relocate g = e → Pinned T file g (applications file n e)

section Step

variable {g : Option Loc → Option Loc} {n : Nat} (hg : Pins T file g) (h : AllPinned T file g n)

include hg h

theorem AllPinned.expression_succ : Pinned T file g (Parse.expression file (n + 1)) := by
  rw [Parse.expression]
  refine anchored_here.bind ?_
  rintro _ ⟨t, ht, rfl⟩
  refine anchored_kind.bind fun k _ => ?_
  split
  · refine anchored_advance.step <| (anchored_expect _).bind fun x _ => (anchored_expect _).step ?_
    refine h.expression.bind fun v hv => (anchored_expect _).step ?_
    exact h.expression.bind fun b hb => anchored_pure (by simp [hg t ht, hv, hb])
  · refine anchored_advance.step <| h.expression.bind fun c hc => (anchored_expect _).step ?_
    refine h.expression.bind fun a ha => (anchored_expect _).step ?_
    exact h.expression.bind fun b hb => anchored_pure (by simp [hg t ht, hc, ha, hb])
  · refine anchored_advance.step <| (anchored_expect _).bind fun x _ => (anchored_expect _).step ?_
    exact h.expression.bind fun b hb => anchored_pure (by simp [hg t ht, hb])
  · exact h.logical

theorem AllPinned.logicalRest_succ {e : Expr} (he : e.relocate g = e) :
    Pinned T file g (Parse.logicalRest file (n + 1) e) := by
  rw [Parse.logicalRest]
  refine anchored_kind.bind fun k _ => ?_
  split
  · exact anchored_pure he
  · refine anchored_here.bind ?_
    rintro _ ⟨t, ht, rfl⟩
    refine anchored_advance.step <| h.relational.bind fun b hb => ?_
    exact h.logicalRest _ (by simp [hg t ht, he, hb])

theorem AllPinned.relational_succ : Pinned T file g (Parse.relational file (n + 1)) := by
  rw [Parse.relational]
  refine h.additive.bind fun a ha => anchored_kind.bind fun k _ => ?_
  split
  · exact anchored_pure ha
  · refine anchored_here.bind ?_
    rintro _ ⟨t, ht, rfl⟩
    refine anchored_advance.step <| h.additive.bind fun b hb => ?_
    exact anchored_pure (by simp [hg t ht, ha, hb])

theorem AllPinned.additiveRest_succ {e : Expr} (he : e.relocate g = e) :
    Pinned T file g (Parse.additiveRest file (n + 1) e) := by
  rw [Parse.additiveRest]
  refine anchored_kind.bind fun k _ => ?_
  split
  · exact anchored_pure he
  · refine anchored_here.bind ?_
    rintro _ ⟨t, ht, rfl⟩
    refine anchored_advance.step <| h.product.bind fun b hb => ?_
    exact h.additiveRest _ (by simp [hg t ht, he, hb])

theorem AllPinned.product_succ : Pinned T file g (Parse.product file (n + 1)) := by
  rw [Parse.product]
  refine anchored_kind.bind fun k _ => ?_
  split
  · refine anchored_here.bind ?_
    rintro _ ⟨t, ht, rfl⟩
    refine anchored_advance.step <| h.relational.bind fun e he => ?_
    exact anchored_pure (by simp [hg t ht, he])
  · exact h.factor.bind h.productRest

theorem AllPinned.productRest_succ {e : Expr} (he : e.relocate g = e) :
    Pinned T file g (Parse.productRest file (n + 1) e) := by
  rw [Parse.productRest]
  refine anchored_kind.bind fun k _ => ?_
  split
  · exact anchored_pure he
  · refine anchored_here.bind ?_
    rintro _ ⟨t, ht, rfl⟩
    refine anchored_advance.step <| h.factor.bind fun b hb => ?_
    exact h.productRest _ (by simp [hg t ht, he, hb])

theorem AllPinned.factor_succ : Pinned T file g (Parse.factor file (n + 1)) := by
  rw [Parse.factor]
  refine anchored_current.bind fun t ht => ?_
  have hloc := hg t ht
  dsimp only
  split
  · refine anchored_advance.step <| h.factor.bind fun e he => anchored_pure ?_
    simp [hloc, he]
  · exact h.argument.bind fun e he => anchored_pure (by simp [hloc, he])
  · exact h.argument.bind fun e he => anchored_pure (by simp [hloc, he])
  · exact h.argument.bind fun e he => anchored_pure (by simp [hloc, he])
  · refine anchored_advance.step <| (anchored_expect _).step <| h.expression.bind fun f hf => ?_
    refine h.expression.bind fun xs hxs => (anchored_expect _).step (anchored_pure ?_)
    simp [hloc, hf, hxs]
  · exact h.folded _ t ht
  · exact h.folded _ t ht
  · refine anchored_advance.step <| (anchored_consume _).bind fun closed _ => ?_
    split
    · exact anchored_pure (by simp [hloc])
    · refine h.expression.bind fun e he => h.elements.bind fun es hes => ?_
      exact (anchored_expect _).step (anchored_pure (by simp [hloc, he, hes]))
  · refine anchored_advance.step <| h.expression.bind fun e he => ?_
    exact (anchored_expect _).step (h.applications e he)
  · split
    · exact anchored_advance.step (anchored_pure (by simp [hloc]))
    · exact anchored_fail _
    · exact anchored_fail _
  · split
    · exact anchored_advance.step (anchored_pure (by simp [hloc]))
    · exact anchored_fail _
  · exact anchored_advance.step (anchored_pure (by simp [hloc]))
  · exact anchored_advance.step (h.applications _ (by simp [hloc]))
  · exact anchored_fail _

theorem AllPinned.applications_succ {e : Expr} (he : e.relocate g = e) :
    Pinned T file g (Parse.applications file (n + 1) e) := by
  rw [Parse.applications]
  refine anchored_kind.bind fun k _ => ?_
  split
  · refine anchored_here.bind ?_
    rintro _ ⟨t, ht, rfl⟩
    refine anchored_advance.step <| h.expression.bind fun a ha => (anchored_expect _).step ?_
    exact h.applications _ (by simp [hg t ht, he, ha])
  · exact anchored_pure he

theorem AllPinned.succ : AllPinned T file g (n + 1) where
  expression := h.expression_succ hg
  logical := by
    rw [Parse.logical]
    exact h.relational.bind h.logicalRest
  logicalRest _ := h.logicalRest_succ hg
  relational := h.relational_succ hg
  additive := by
    rw [Parse.additive]
    exact h.product.bind h.additiveRest
  additiveRest _ := h.additiveRest_succ hg
  product := h.product_succ hg
  productRest _ := h.productRest_succ hg
  factor := h.factor_succ hg
  argument := by
    rw [Parse.argument]
    refine anchored_advance.step <| (anchored_expect _).step <| h.expression.bind fun e he => ?_
    exact (anchored_expect _).step (anchored_pure he)
  folded side t ht := by
    rw [Parse.folded]
    refine anchored_advance.step <| (anchored_expect _).step <| h.expression.bind fun f hf => ?_
    refine h.expression.bind fun i hi => h.expression.bind fun xs hxs => ?_
    exact (anchored_expect _).step (anchored_pure (by simp [hg t ht, hf, hi, hxs]))
  elements := by
    rw [Parse.elements]
    refine (anchored_consume _).bind fun more _ => ?_
    split
    · refine h.expression.bind fun e he => h.elements.bind fun es hes => anchored_pure ?_
      simp [he, hes]
    · exact anchored_pure rfl
  applications _ := h.applications_succ hg

end Step

variable {g : Option Loc → Option Loc}

theorem allPinned (hg : Pins T file g) (n : Nat) : AllPinned T file g n := by
  induction n with
  | succ n ih => exact ih.succ hg
  | zero =>
    -- Without fuel every reading function fails where it stands.
    constructor <;> intros <;>
      simp only [Pinned, Parse.expression, Parse.logical, Parse.logicalRest, Parse.relational,
        Parse.additive, Parse.additiveRest, Parse.product, Parse.productRest, Parse.factor,
        Parse.argument, Parse.folded, Parse.elements, Parse.applications] <;>
      exact anchored_fail _

theorem statement_pinned (hg : Pins T file g) (fuel : Nat) :
    Pinned T file g (statement file fuel) := by
  have hexpr := (allPinned hg fuel).expression
  unfold statement
  refine anchored_kind.bind fun k _ => ?_
  split
  · refine anchored_here.bind ?_
    rintro _ ⟨t, ht, rfl⟩
    refine anchored_advance.step <| (anchored_expect _).bind fun x _ => ?_
    refine anchored_current.bind fun next hnext => ?_
    split
    · refine anchored_advance.step <| (anchored_expect _).step <| hexpr.bind fun e he => ?_
      exact anchored_pure (by simp [hg t ht, hg next hnext, he])
    · refine (anchored_expect _).step <| hexpr.bind fun e he => ?_
      exact anchored_pure (by simp [hg t ht, he])
  · exact hexpr

theorem statements_pinned (hg : Pins T file g) (fuel n : Nat) :
    Anchored T file (fun ss => Term.relocateAll g ss = ss) (statements file fuel n) := by
  induction n with
  | zero =>
    rw [statements]
    exact anchored_fail _
  | succ n ih =>
    rw [statements]
    refine anchored_kind.bind fun k _ => ?_
    split
    · exact anchored_pure rfl
    · refine (statement_pinned hg fuel).bind fun e he => (anchored_expect _).step ?_
      exact ih.bind fun es hes => anchored_pure (by simp [he, hes])

end Parse

namespace Program

open Parse

variable {T : Token → Prop} {file : Option String} {g : Option Loc → Option Loc} {ts : List Token}

/-- Tokens are a program that does not change when places other than theirs are moved, or there is
an error at the place of one of them. -/
theorem ofTokens_pinned (hg : Pins T file g) (hne : ts ≠ []) (hts : ∀ t ∈ ts, T t) :
    match ofTokens ts file with
    | .ok p => Term.relocateAll g p.statements = p.statements
    | .error e => ∃ t, T t ∧ e.loc = t.loc file := by
  have hprogram : Anchored T file (fun p : Program => Term.relocateAll g p.statements =
      p.statements) (program file (fuelFor ts)) :=
    anchored_here.bind fun _ _ => (statements_pinned hg _ _).bind fun es hes => anchored_pure hes
  have h := hprogram (.ofList ts) (by rwa [toList_ofList hne])
  unfold ofTokens
  cases hp : program file (fuelFor ts) (.ofList ts) with
  | ok p s =>
    rw [hp] at h
    exact h.1
  | error e s =>
    rw [hp] at h
    exact h

end Program

end Minifun
