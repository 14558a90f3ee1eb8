import Mathlib.Data.List.Infix
import Minifun.Proofs.Sequence
import Minifun.Proofs.Term.Places
import Minifun.Proofs.Token.Words
import Minifun.Run

/-! # Reading the front of a stream

A reader that stops before the last token of a stream has not looked at that token, nor at places.
On a stream with the same words up to there it therefore gives the same tree but for places,
whatever comes next.
-/

namespace Minifun

abbrev Term.bare (e : Expr) : Expr :=
  e.relocate fun _ => none

def TokenStream.toList (s : TokenStream) : List Token :=
  s.current :: s.rest

namespace Parse

/-- Two lists have the same words up to the last token of the first one, where the second one goes
on in its own way. -/
inductive Abreast (tail : List Token) : List Token → List Token → Prop where
  | last {t} : Abreast tail [t] tail
  | cons {t t' ts ts'} : t'.bare = t.bare → Abreast tail ts ts' →
      Abreast tail (t :: ts) (t' :: ts')

/-- Where a reader stops before the last token, another one gives a result that looks the same on
any stream with the same words up to there. -/
structure Local (tail : List Token) {α β : Type} (look : α → β) (m m' : Parse α) : Prop where
  suffix : ∀ {s a s₁}, m s = .ok a s₁ → s₁.toList <:+ s.toList
  follows : ∀ {s s' a s₁}, m s = .ok a s₁ → s₁.rest ≠ [] → Abreast tail s.toList s'.toList →
    ∃ a' s₁', m' s' = .ok a' s₁' ∧ look a' = look a ∧ Abreast tail s₁.toList s₁'.toList

variable {tail : List Token} {α β γ δ : Type} {look : α → β} {look' : γ → δ} {m m' : Parse α}
  {k k' : α → Parse γ} {file file' : Option String} {s s' : TokenStream}

section Calculus

theorem Abreast.ne_nil {ts ts' : List Token} (h : Abreast tail ts ts') (htail : tail ≠ []) :
    ts' ≠ [] := by
  cases h with
  | last => exact htail
  | cons => simp

theorem Abreast.step (h : Abreast tail s.toList s'.toList) (hs : s.rest ≠ []) :
    s'.current.bare = s.current.bare ∧ Abreast tail s.rest s'.rest := by
  obtain ⟨t, ts⟩ := s
  obtain ⟨t', ts'⟩ := s'
  simp only [TokenStream.toList] at h
  generalize hl : t :: ts = l, hl' : t' :: ts' = l' at h
  cases h with
  | last =>
    obtain ⟨rfl, rfl⟩ := List.cons.inj hl
    exact absurd rfl hs
  | cons hb hrest =>
    obtain ⟨rfl, rfl⟩ := List.cons.inj hl
    obtain ⟨rfl, rfl⟩ := List.cons.inj hl'
    exact ⟨hb, hrest⟩

theorem advance_toList (hs : s.rest ≠ []) : s.advance.toList = s.rest := by
  obtain ⟨t, ts⟩ := s
  cases ts with
  | nil => exact absurd rfl hs
  | cons => rfl

theorem rest_ne_nil_of_suffix (h : s'.toList <:+ s.toList) (hs : s'.rest ≠ []) : s.rest ≠ [] := by
  intro hnil
  have hle := h.length_le
  have hpos := List.length_pos_iff.mpr hs
  simp only [TokenStream.toList, List.length_cons, hnil, List.length_nil] at hle
  omega

theorem local_pure {a a' : α} (h : look a' = look a) : Local tail look (pure a) (pure a') := by
  constructor
  · intro s b s₁ hb
    obtain ⟨-, rfl⟩ := EStateM.Result.ok.inj hb
    exact List.suffix_refl _
  · intro s s' b s₁ hb _ habreast
    obtain ⟨rfl, rfl⟩ := EStateM.Result.ok.inj hb
    exact ⟨a', s', rfl, h, habreast⟩

theorem local_fail (cause : ParseCause) : Local tail look (fail file cause) m' := by
  constructor
  · intro s a s₁ h
    exact nomatch h
  · intro s s' a s₁ h
    exact nomatch h

theorem Local.bind (h : Local tail look m m')
    (hk : ∀ a a', look a' = look a → Local tail look' (k a) (k' a')) :
    Local tail look' (m >>= k) (m' >>= k') := by
  constructor
  · intro s b s₂ hb
    cases hm : m s with
    | error e s₁ =>
      rw [bind_of_error hm] at hb
      exact nomatch hb
    | ok a s₁ =>
      rw [bind_of_ok hm] at hb
      exact ((hk a a rfl).suffix hb).trans (h.suffix hm)
  · intro s s' b s₂ hb hs habreast
    cases hm : m s with
    | error e s₁ =>
      rw [bind_of_error hm] at hb
      exact nomatch hb
    | ok a s₁ =>
      rw [bind_of_ok hm] at hb
      have hs₁ := rest_ne_nil_of_suffix ((hk a a rfl).suffix hb) hs
      obtain ⟨a', s₁', hm', ha, habreast₁⟩ := h.follows hm hs₁ habreast
      obtain ⟨b', s₂', hb', hlook, habreast₂⟩ := (hk a a' ha).follows hb hs habreast₁
      exact ⟨b', s₂', by rw [bind_of_ok hm', hb'], hlook, habreast₂⟩

theorem Local.step {k k' : Parse γ} (h : Local tail look m m') (hk : Local tail look' k k') :
    Local tail look' (m >>= fun _ => k) (m' >>= fun _ => k') :=
  h.bind fun _ _ _ => hk

theorem Local.same (h : Local tail id m m') (hk : ∀ a, Local tail look' (k a) (k' a)) :
    Local tail look' (m >>= k) (m' >>= k') := by
  refine h.bind fun a a' ha => ?_
  obtain rfl : a' = a := ha
  exact hk a'

theorem local_get {view view' : TokenStream → α}
    (h : ∀ s s', s'.current.bare = s.current.bare → look (view' s') = look (view s)) :
    Local tail look (do return view (← get)) (do return view' (← get)) := by
  constructor
  · intro s a s₁ ha
    obtain ⟨-, rfl⟩ := EStateM.Result.ok.inj ha
    exact List.suffix_refl _
  · intro s s' a s₁ ha hs habreast
    obtain ⟨rfl, rfl⟩ := EStateM.Result.ok.inj ha
    exact ⟨view' s', s', rfl, h s s' (habreast.step hs).1, habreast⟩

theorem local_kind : Local tail id kind kind :=
  local_get fun _ _ h => congrArg Prod.fst h

theorem local_current : Local tail Token.bare current current :=
  local_get fun _ _ h => h

theorem local_here : Local tail (fun _ => ()) (here file) (here file') :=
  local_get fun _ _ _ => rfl

theorem local_advance (htail : tail ≠ []) : Local tail id advance advance := by
  constructor
  · intro s a s₁ ha
    obtain ⟨-, rfl⟩ := EStateM.Result.ok.inj ha
    by_cases hs : s.rest = []
    · obtain ⟨t, ts⟩ := s
      obtain rfl : ts = [] := hs
      exact List.suffix_refl _
    · rw [advance_toList hs]
      exact List.suffix_cons _ _
  · intro s s' a s₁ ha hs₁ habreast
    obtain ⟨-, rfl⟩ := EStateM.Result.ok.inj ha
    have hs : s.rest ≠ [] := by
      intro hs
      obtain ⟨t, ts⟩ := s
      obtain rfl : ts = [] := hs
      exact hs₁ rfl
    have hrest := (habreast.step hs).2
    refine ⟨(), s'.advance, rfl, rfl, ?_⟩
    rwa [advance_toList hs, advance_toList (hrest.ne_nil htail)]

theorem local_expect (htail : tail ≠ []) (kind : TokenKind) :
    Local tail Token.bare (expect file kind) (expect file' kind) := by
  refine local_current.bind fun t t' ht => ?_
  rw [Token.kind_eq_of_bare ht]
  by_cases h : t.kind = kind
  · rw [if_pos h, if_pos h]
    exact (local_advance htail).step (local_pure ht)
  · rw [if_neg h]
    exact local_fail _

theorem local_consume (htail : tail ≠ []) (kind : TokenKind) :
    Local tail id (consume kind) (consume kind) := by
  refine local_kind.same fun found => ?_
  by_cases h : found = kind
  · rw [if_pos h]
    exact (local_advance htail).step (local_pure rfl)
  · rw [if_neg h]
    exact local_pure rfl

end Calculus

structure AllLocal (tail : List Token) (file file' : Option String) (n n' : Nat) : Prop where
  expression : Local tail Term.bare (expression file n) (expression file' n')
  logical : Local tail Term.bare (logical file n) (logical file' n')
  logicalRest : ∀ e e', e'.bare = e.bare →
    Local tail Term.bare (logicalRest file n e) (logicalRest file' n' e')
  relational : Local tail Term.bare (relational file n) (relational file' n')
  additive : Local tail Term.bare (additive file n) (additive file' n')
  additiveRest : ∀ e e', e'.bare = e.bare →
    Local tail Term.bare (additiveRest file n e) (additiveRest file' n' e')
  product : Local tail Term.bare (product file n) (product file' n')
  productRest : ∀ e e', e'.bare = e.bare →
    Local tail Term.bare (productRest file n e) (productRest file' n' e')
  factor : Local tail Term.bare (factor file n) (factor file' n')
  argument : Local tail Term.bare (argument file n) (argument file' n')
  folded : ∀ side loc loc',
    Local tail Term.bare (folded file n side loc) (folded file' n' side loc')
  elements : Local tail (Term.relocateAll fun _ => none) (elements file n) (elements file' n')
  applications : ∀ e e', e'.bare = e.bare →
    Local tail Term.bare (applications file n e) (applications file' n' e')

section Step

variable {n n' : Nat} (htail : tail ≠ []) (h : AllLocal tail file file' n n')

include htail h

theorem AllLocal.expression_succ :
    Local tail Term.bare (Parse.expression file (n + 1)) (Parse.expression file' (n' + 1)) := by
  rw [Parse.expression, Parse.expression]
  refine local_here.bind fun loc loc' _ => local_kind.same fun k => ?_
  cases k with
  | letWord =>
    refine (local_advance htail).step <| (local_expect htail _).bind fun x x' hx => ?_
    refine (local_expect htail _).step <| h.expression.bind fun v v' hv => ?_
    refine (local_expect htail _).step <| h.expression.bind fun b b' hb => local_pure ?_
    simp [Token.text_eq_of_bare hx, hv, hb]
  | ifWord =>
    refine (local_advance htail).step <| h.expression.bind fun c c' hc => ?_
    refine (local_expect htail _).step <| h.expression.bind fun a a' ha => ?_
    refine (local_expect htail _).step <| h.expression.bind fun b b' hb => local_pure ?_
    simp [hc, ha, hb]
  | fnWord =>
    refine (local_advance htail).step <| (local_expect htail _).bind fun x x' hx => ?_
    refine (local_expect htail _).step <| h.expression.bind fun b b' hb => local_pure ?_
    simp [Token.text_eq_of_bare hx, hb]
  | _ => exact h.logical

theorem AllLocal.logicalRest_succ {e e' : Expr} (he : e'.bare = e.bare) :
    Local tail Term.bare (Parse.logicalRest file (n + 1) e)
      (Parse.logicalRest file' (n' + 1) e') := by
  rw [Parse.logicalRest, Parse.logicalRest]
  refine local_kind.same fun k => ?_
  cases logicOp? k with
  | none => exact local_pure he
  | some op =>
    refine local_here.bind fun loc loc' _ => (local_advance htail).step ?_
    exact h.relational.bind fun b b' hb => h.logicalRest _ _ (by simp [he, hb])

theorem AllLocal.relational_succ :
    Local tail Term.bare (Parse.relational file (n + 1)) (Parse.relational file' (n' + 1)) := by
  rw [Parse.relational, Parse.relational]
  refine h.additive.bind fun a a' ha => local_kind.same fun k => ?_
  cases relOp? k with
  | none => exact local_pure ha
  | some op =>
    refine local_here.bind fun loc loc' _ => (local_advance htail).step ?_
    exact h.additive.bind fun b b' hb => local_pure (by simp [ha, hb])

theorem AllLocal.additiveRest_succ {e e' : Expr} (he : e'.bare = e.bare) :
    Local tail Term.bare (Parse.additiveRest file (n + 1) e)
      (Parse.additiveRest file' (n' + 1) e') := by
  rw [Parse.additiveRest, Parse.additiveRest]
  refine local_kind.same fun k => ?_
  cases sumOp? k with
  | none => exact local_pure he
  | some op =>
    refine local_here.bind fun loc loc' _ => (local_advance htail).step ?_
    exact h.product.bind fun b b' hb => h.additiveRest _ _ (by simp [he, hb])

theorem AllLocal.product_succ :
    Local tail Term.bare (Parse.product file (n + 1)) (Parse.product file' (n' + 1)) := by
  rw [Parse.product, Parse.product]
  refine local_kind.same fun k => ?_
  cases k with
  | notWord =>
    refine local_here.bind fun loc loc' _ => (local_advance htail).step ?_
    exact h.relational.bind fun e e' he => local_pure (by simp [he])
  | _ => exact h.factor.bind h.productRest

theorem AllLocal.productRest_succ {e e' : Expr} (he : e'.bare = e.bare) :
    Local tail Term.bare (Parse.productRest file (n + 1) e)
      (Parse.productRest file' (n' + 1) e') := by
  rw [Parse.productRest, Parse.productRest]
  refine local_kind.same fun k => ?_
  cases productOp? k with
  | none => exact local_pure he
  | some op =>
    refine local_here.bind fun loc loc' _ => (local_advance htail).step ?_
    exact h.factor.bind fun b b' hb => h.productRest _ _ (by simp [he, hb])

theorem AllLocal.factor_succ :
    Local tail Term.bare (Parse.factor file (n + 1)) (Parse.factor file' (n' + 1)) := by
  rw [Parse.factor, Parse.factor]
  refine local_current.bind fun token token' htoken => ?_
  obtain ⟨kind, text, line, column⟩ := token
  obtain ⟨kind', text', line', column'⟩ := token'
  obtain ⟨rfl, rfl⟩ := Prod.mk.inj htoken
  cases kind' with
  | minus =>
    refine (local_advance htail).step <| h.factor.bind fun e e' he => local_pure ?_
    simp [he]
  | hdWord => exact h.argument.bind fun e e' he => local_pure (by simp [he])
  | tlWord => exact h.argument.bind fun e e' he => local_pure (by simp [he])
  | lenWord => exact h.argument.bind fun e e' he => local_pure (by simp [he])
  | mapWord =>
    refine (local_advance htail).step <| (local_expect htail _).step ?_
    refine h.expression.bind fun f f' hf => h.expression.bind fun xs xs' hxs => ?_
    exact (local_expect htail _).step (local_pure (by simp [hf, hxs]))
  | foldlWord => exact h.folded _ _ _
  | foldrWord => exact h.folded _ _ _
  | lbracket =>
    refine (local_advance htail).step <| (local_consume htail _).same fun closed => ?_
    cases closed with
    | true => exact local_pure (by simp)
    | false =>
      refine h.expression.bind fun e e' he => h.elements.bind fun es es' hes => ?_
      exact (local_expect htail _).step (local_pure (by simp [he, hes]))
  | lparen =>
    refine (local_advance htail).step <| h.expression.bind fun e e' he => ?_
    exact (local_expect htail _).step (h.applications e e' he)
  | int =>
    dsimp only
    cases Text.readInt text' with
    | ok i => exact (local_advance htail).step (local_pure (by simp))
    | error e => cases e <;> exact local_fail _
  | real =>
    dsimp only
    cases Text.readReal? text' with
    | some x => exact (local_advance htail).step (local_pure (by simp))
    | none => exact local_fail _
  | bool => exact (local_advance htail).step (local_pure (by simp))
  | ident => exact (local_advance htail).step (h.applications _ _ (by simp))
  | _ => exact local_fail _

theorem AllLocal.elements_succ :
    Local tail (Term.relocateAll fun _ => none) (Parse.elements file (n + 1))
      (Parse.elements file' (n' + 1)) := by
  rw [Parse.elements, Parse.elements]
  refine (local_consume htail _).same fun more => ?_
  cases more with
  | true =>
    refine h.expression.bind fun e e' he => h.elements.bind fun es es' hes => local_pure ?_
    simp [he, hes]
  | false => exact local_pure rfl

theorem AllLocal.applications_succ {e e' : Expr} (he : e'.bare = e.bare) :
    Local tail Term.bare (Parse.applications file (n + 1) e)
      (Parse.applications file' (n' + 1) e') := by
  rw [Parse.applications, Parse.applications]
  refine local_kind.same fun k => ?_
  cases k with
  | lparen =>
    refine local_here.bind fun loc loc' _ => (local_advance htail).step ?_
    refine h.expression.bind fun a a' ha => (local_expect htail _).step ?_
    exact h.applications _ _ (by simp [he, ha])
  | _ => exact local_pure he

theorem AllLocal.succ : AllLocal tail file file' (n + 1) (n' + 1) where
  expression := h.expression_succ htail
  logical := by
    rw [Parse.logical, Parse.logical]
    exact h.relational.bind h.logicalRest
  logicalRest _ _ := h.logicalRest_succ htail
  relational := h.relational_succ htail
  additive := by
    rw [Parse.additive, Parse.additive]
    exact h.product.bind h.additiveRest
  additiveRest _ _ := h.additiveRest_succ htail
  product := h.product_succ htail
  productRest _ _ := h.productRest_succ htail
  factor := h.factor_succ htail
  argument := by
    rw [Parse.argument, Parse.argument]
    refine (local_advance htail).step <| (local_expect htail _).step ?_
    exact h.expression.bind fun e e' he => (local_expect htail _).step (local_pure he)
  folded side loc loc' := by
    rw [Parse.folded, Parse.folded]
    refine (local_advance htail).step <| (local_expect htail _).step ?_
    refine h.expression.bind fun f f' hf => h.expression.bind fun i i' hi => ?_
    refine h.expression.bind fun xs xs' hxs => (local_expect htail _).step (local_pure ?_)
    simp [hf, hi, hxs]
  elements := h.elements_succ htail
  applications _ _ := h.applications_succ htail

end Step

theorem allLocal (htail : tail ≠ []) (file file' : Option String) (n d : Nat) :
    AllLocal tail file file' n (n + d) := by
  induction n with
  | succ n ih =>
    rw [Nat.succ_add]
    exact ih.succ htail
  | zero =>
    -- Without fuel every reading function fails.
    constructor <;> intros <;>
      simp only [Parse.expression, Parse.logical, Parse.logicalRest, Parse.relational,
        Parse.additive, Parse.additiveRest, Parse.product, Parse.productRest, Parse.factor,
        Parse.argument, Parse.folded, Parse.elements, Parse.applications] <;>
      exact local_fail _

end Parse

end Minifun
