import Minifun.Proofs.Program.Texts

/-! # Programs of moved tokens

Tokens that end with a semicolon are read in the same way at other places: the program is the same
with its places moved along, or the same error stands at the moved token. Nothing but statements
goes past a semicolon, so the end of the text behind the last one has no place in a program, and is
no place of an error.
-/

namespace Minifun

namespace Parse

/-- Two rows of tokens are related up to their last semicolon, and then both end. -/
inductive Paired (R : Token → Token → Prop) : List Token → List Token → Prop where
  | last {t t' u u'} : R t t' → t.kind = .semicolon → u.kind = .eof → u'.kind = .eof →
      Paired R [t, u] [t', u']
  | cons {t t' ts ts'} : R t t' → Paired R ts ts' → Paired R (t :: ts) (t' :: ts')

/-- Two readers end with related results before the last semicolon, or with the same failure at
related tokens. -/
inductive Together (R : Token → Token → Prop) (file : Option String) {α : Type}
    (Q : α → α → Prop) :
    EStateM.Result ParseError TokenStream α → EStateM.Result ParseError TokenStream α → Prop where
  | ok {a a' s s'} : Q a a' → Paired R s.toList s'.toList → Together R file Q (.ok a s) (.ok a' s')
  | error {t t' cause s s'} : R t t' →
      Together R file Q (.error ⟨cause, t.loc file⟩ s) (.error ⟨cause, t'.loc file⟩ s')

/-- Two readers end together on related tokens, if the kind of the first one is known to pass a
test. -/
def Keeps (R : Token → Token → Prop) (file : Option String) {α : Type} (K : TokenKind → Prop)
    (Q : α → α → Prop) (m m' : Parse α) : Prop :=
  ∀ s s', Paired R s.toList s'.toList → K s.current.kind → Together R file Q (m s) (m' s')

abbrev anyKind : TokenKind → Prop :=
  fun _ => True

/-- Related tokens have the same words, and the place of one is that of the other one, moved. -/
structure Moves (R : Token → Token → Prop) (file : Option String) (g : Option Loc → Option Loc) :
    Prop where
  bare : ∀ {t t'}, R t t' → t'.bare = t.bare
  loc : ∀ {t t'}, R t t' → g (some (t.loc file)) = some (t'.loc file)

variable {R : Token → Token → Prop} {file : Option String} {g : Option Loc → Option Loc}
  {α β : Type} {K K' : TokenKind → Prop} {P : α → α → Prop} {Q : β → β → Prop} {m m' : Parse α}
  {s s' : TokenStream}

section Calculus

theorem Paired.current (h : Paired R s.toList s'.toList) : R s.current s'.current := by
  obtain ⟨t, ts⟩ := s
  obtain ⟨t', ts'⟩ := s'
  simp only [TokenStream.toList] at h
  cases h with
  | last h => exact h
  | cons h _ => exact h

theorem Paired.advance (h : Paired R s.toList s'.toList) :
    Paired R s.advance.toList s'.advance.toList ∨
      s.current.kind = .semicolon ∧ s.advance.current.kind = .eof ∧
        s'.advance.current.kind = .eof := by
  obtain ⟨t, ts⟩ := s
  obtain ⟨t', ts'⟩ := s'
  simp only [TokenStream.toList] at h
  cases h with
  | last _ hsemi heof heof' => exact .inr ⟨hsemi, heof, heof'⟩
  | cons _ h =>
    cases h with
    | last h hsemi heof heof' => exact .inl (.last h hsemi heof heof')
    | cons h hrest => exact .inl (.cons h hrest)

theorem Paired.rest_ne_nil (h : Paired R s.toList s'.toList) : s.rest ≠ [] := by
  obtain ⟨t, ts⟩ := s
  obtain ⟨t', ts'⟩ := s'
  simp only [TokenStream.toList] at h
  cases h with
  | last => exact List.cons_ne_nil _ _
  | cons _ h => cases h <;> exact List.cons_ne_nil _ _

theorem Paired.length_eq {ts ts' : List Token} (h : Paired R ts ts') : ts'.length = ts.length := by
  induction h with
  | last => rfl
  | cons _ _ ih => rw [List.length_cons, List.length_cons, ih]

theorem Paired.map_append {ι : Type} {f f' : ι → Token} {is : List ι} {ts ts' : List Token}
    (his : ∀ i ∈ is, R (f i) (f' i)) (h : Paired R ts ts') :
    Paired R (is.map f ++ ts) (is.map f' ++ ts') := by
  induction is with
  | nil => exact h
  | cons i is ih =>
    obtain ⟨hi, his⟩ := List.forall_mem_cons.mp his
    exact .cons hi (ih his)

theorem keeps_pure {a a' : α} (h : P a a') : Keeps R file K P (pure a) (pure a') :=
  fun _ _ hs _ => .ok h hs

theorem keeps_fail (cause : ParseCause) :
    Keeps R file K P (fail file cause) (fail file cause) :=
  fun _ _ hs _ => .error hs.current

theorem Keeps.weaken (h : Keeps R file K' P m m') (hK : ∀ k, K k → K' k) : Keeps R file K P m m' :=
  fun s s' hs hk => h s s' hs (hK _ hk)

theorem Keeps.bind {f f' : α → Parse β} (hm : Keeps R file K P m m')
    (hf : ∀ a a', P a a' → Keeps R file anyKind Q (f a) (f' a')) :
    Keeps R file K Q (m >>= f) (m' >>= f') := by
  intro s s' hs hk
  have h := hm s s' hs hk
  generalize hx : m s = x, hy : m' s' = y at h
  cases h with
  | ok ha hlevel =>
    rw [bind_of_ok hx, bind_of_ok hy]
    exact hf _ _ ha _ _ hlevel trivial
  | error ht =>
    rw [bind_of_error hx, bind_of_error hy]
    exact .error ht

theorem Keeps.step {k k' : Parse β} (hm : Keeps R file K P m m')
    (hk : Keeps R file anyKind Q k k') :
    Keeps R file K Q (m >>= fun _ => k) (m' >>= fun _ => k') :=
  hm.bind fun _ _ _ => hk

theorem keeps_here {f f' : Loc → Parse β}
    (h : ∀ t t', R t t' → Keeps R file K Q (f (t.loc file)) (f' (t'.loc file))) :
    Keeps R file K Q (here file >>= f) (here file >>= f') :=
  fun s s' hs hk => h _ _ hs.current s s' hs hk

theorem keeps_current {f f' : Token → Parse β}
    (h : ∀ t t', R t t' → Keeps R file (· = t.kind) Q (f t) (f' t')) :
    Keeps R file K Q (current >>= f) (current >>= f') :=
  fun s s' hs _ => h _ _ hs.current s s' hs rfl

theorem keeps_advance {k k' : Parse β} (hK : ¬ K .semicolon) (h : Keeps R file anyKind Q k k') :
    Keeps R file K Q (advance >>= fun _ => k) (advance >>= fun _ => k') := by
  intro s s' hs hk
  rcases hs.advance with hnext | ⟨hsemi, -⟩
  · exact h s.advance s'.advance hnext trivial
  · exact absurd (hsemi ▸ hk) hK

variable (hR : Moves R file g)

include hR

theorem keeps_kind {f f' : TokenKind → Parse β}
    (h : ∀ k, K k → Keeps R file (· = k) Q (f k) (f' k)) :
    Keeps R file K Q (kind >>= f) (kind >>= f') := by
  intro s s' hs hk
  rw [bind_of_ok (kind_eq s), bind_of_ok (kind_eq s'),
    Token.kind_eq_of_bare (hR.bare hs.current)]
  exact h _ hk s s' hs rfl

theorem keeps_expect {k : TokenKind} (hk : k ≠ .semicolon) :
    Keeps R file K R (expect file k) (expect file k) := by
  refine keeps_current fun t t' ht => ?_
  rw [Token.kind_eq_of_bare (hR.bare ht), Token.found, Token.found,
    Token.kind_eq_of_bare (hR.bare ht), Token.text_eq_of_bare (hR.bare ht)]
  by_cases hkind : t.kind = k
  · rw [if_pos hkind, if_pos hkind]
    exact keeps_advance (by simp [hkind, hk.symm]) (keeps_pure ht)
  · rw [if_neg hkind, if_neg hkind]
    exact keeps_fail _

theorem keeps_consume {k : TokenKind} (hk : k ≠ .semicolon) :
    Keeps R file K Eq (consume k) (consume k) := by
  refine keeps_kind hR fun found _ => ?_
  by_cases hkind : found = k
  · rw [if_pos hkind]
    exact keeps_advance (by simp [hkind, hk.symm]) (keeps_pure rfl)
  · rw [if_neg hkind]
    exact keeps_pure rfl

end Calculus

abbrev KeepsTerm (R : Token → Token → Prop) (file : Option String) (g : Option Loc → Option Loc)
    (K : TokenKind → Prop) (m m' : Parse Expr) : Prop :=
  Keeps R file K (fun e e' => e' = e.relocate g) m m'

structure AllKeep (R : Token → Token → Prop) (file : Option String) (g : Option Loc → Option Loc)
    (n : Nat) : Prop where
  expression : KeepsTerm R file g anyKind (expression file n) (expression file n)
  logical : KeepsTerm R file g anyKind (logical file n) (logical file n)
  logicalRest : ∀ e, KeepsTerm R file g anyKind (logicalRest file n e)
    (logicalRest file n (e.relocate g))
  relational : KeepsTerm R file g anyKind (relational file n) (relational file n)
  additive : KeepsTerm R file g anyKind (additive file n) (additive file n)
  additiveRest : ∀ e, KeepsTerm R file g anyKind (additiveRest file n e)
    (additiveRest file n (e.relocate g))
  product : KeepsTerm R file g anyKind (product file n) (product file n)
  productRest : ∀ e, KeepsTerm R file g anyKind (productRest file n e)
    (productRest file n (e.relocate g))
  factor : KeepsTerm R file g anyKind (factor file n) (factor file n)
  argument : KeepsTerm R file g (· ≠ .semicolon) (argument file n) (argument file n)
  folded : ∀ side t t', R t t' → KeepsTerm R file g (· ≠ .semicolon)
    (folded file n side (t.loc file)) (folded file n side (t'.loc file))
  elements : Keeps R file anyKind (fun es es' => es' = Term.relocateAll g es) (elements file n)
    (elements file n)
  applications : ∀ e, KeepsTerm R file g anyKind (applications file n e)
    (applications file n (e.relocate g))

section Step

variable {n : Nat} (hR : Moves R file g) (h : AllKeep R file g n)

include hR h

theorem AllKeep.expression_succ :
    KeepsTerm R file g anyKind (Parse.expression file (n + 1)) (Parse.expression file (n + 1)) := by
  rw [Parse.expression]
  refine keeps_here fun t t' ht => keeps_kind hR fun k _ => ?_
  have hloc := hR.loc ht
  cases k with
  | letWord =>
    refine keeps_advance (by simp) <| (keeps_expect hR (by decide)).bind fun x x' hx => ?_
    refine (keeps_expect hR (by decide)).step <| h.expression.bind fun v _ hv => ?_
    refine (keeps_expect hR (by decide)).step <| h.expression.bind fun b _ hb => keeps_pure ?_
    simp [Token.text_eq_of_bare (hR.bare hx), hloc, hv, hb]
  | ifWord =>
    refine keeps_advance (by simp) <| h.expression.bind fun c _ hc => ?_
    refine (keeps_expect hR (by decide)).step <| h.expression.bind fun a _ ha => ?_
    refine (keeps_expect hR (by decide)).step <| h.expression.bind fun b _ hb => keeps_pure ?_
    simp [hloc, hc, ha, hb]
  | fnWord =>
    refine keeps_advance (by simp) <| (keeps_expect hR (by decide)).bind fun x x' hx => ?_
    refine (keeps_expect hR (by decide)).step <| h.expression.bind fun b _ hb => keeps_pure ?_
    simp [Token.text_eq_of_bare (hR.bare hx), hloc, hb]
  | _ => exact h.logical.weaken fun _ _ => trivial

theorem AllKeep.logicalRest_succ (e : Expr) :
    KeepsTerm R file g anyKind (Parse.logicalRest file (n + 1) e)
      (Parse.logicalRest file (n + 1) (e.relocate g)) := by
  rw [Parse.logicalRest, Parse.logicalRest]
  refine keeps_kind hR fun k _ => ?_
  cases hop : logicOp? k with
  | none => exact keeps_pure rfl
  | some op =>
    refine keeps_here fun t t' ht => keeps_advance (by rintro rfl; cases hop) ?_
    refine h.relational.bind fun b _ hb => ?_
    rw [hb, ← hR.loc ht]
    exact h.logicalRest _

theorem AllKeep.relational_succ :
    KeepsTerm R file g anyKind (Parse.relational file (n + 1)) (Parse.relational file (n + 1)) := by
  rw [Parse.relational]
  refine h.additive.bind fun a _ ha => keeps_kind hR fun k _ => ?_
  cases hop : relOp? k with
  | none => exact keeps_pure ha
  | some op =>
    refine keeps_here fun t t' ht => keeps_advance (by rintro rfl; cases hop) ?_
    exact h.additive.bind fun b _ hb => keeps_pure (by simp [hR.loc ht, ha, hb])

theorem AllKeep.additiveRest_succ (e : Expr) :
    KeepsTerm R file g anyKind (Parse.additiveRest file (n + 1) e)
      (Parse.additiveRest file (n + 1) (e.relocate g)) := by
  rw [Parse.additiveRest, Parse.additiveRest]
  refine keeps_kind hR fun k _ => ?_
  cases hop : sumOp? k with
  | none => exact keeps_pure rfl
  | some op =>
    refine keeps_here fun t t' ht => keeps_advance (by rintro rfl; cases hop) ?_
    refine h.product.bind fun b _ hb => ?_
    rw [hb, ← hR.loc ht]
    exact h.additiveRest _

theorem AllKeep.product_succ :
    KeepsTerm R file g anyKind (Parse.product file (n + 1)) (Parse.product file (n + 1)) := by
  rw [Parse.product]
  refine keeps_kind hR fun k _ => ?_
  cases k with
  | notWord =>
    refine keeps_here fun t t' ht => keeps_advance (by simp) ?_
    exact h.relational.bind fun e _ he => keeps_pure (by simp [hR.loc ht, he])
  | _ =>
    refine (h.factor.weaken fun _ _ => trivial).bind fun e _ he => ?_
    rw [he]
    exact h.productRest e

theorem AllKeep.productRest_succ (e : Expr) :
    KeepsTerm R file g anyKind (Parse.productRest file (n + 1) e)
      (Parse.productRest file (n + 1) (e.relocate g)) := by
  rw [Parse.productRest, Parse.productRest]
  refine keeps_kind hR fun k _ => ?_
  cases hop : productOp? k with
  | none => exact keeps_pure rfl
  | some op =>
    refine keeps_here fun t t' ht => keeps_advance (by rintro rfl; cases hop) ?_
    refine h.factor.bind fun b _ hb => ?_
    rw [hb, ← hR.loc ht]
    exact h.productRest _

theorem AllKeep.factor_succ :
    KeepsTerm R file g anyKind (Parse.factor file (n + 1)) (Parse.factor file (n + 1)) := by
  rw [Parse.factor]
  refine keeps_current fun t t' ht => ?_
  have hloc := hR.loc ht
  have hbare := hR.bare ht
  -- Both sides look at one kind and one text from here on.
  obtain ⟨kind, text, line, column⟩ := t
  obtain ⟨kind', text', line', column'⟩ := t'
  obtain ⟨rfl, rfl⟩ := Prod.mk.inj hbare
  have hargument {K : TokenKind → Prop} (hK : ¬ K .semicolon) :
      KeepsTerm R file g K (Parse.argument file n) (Parse.argument file n) :=
    h.argument.weaken fun k hk hsemi => hK (hsemi ▸ hk)
  cases kind' with
  | minus =>
    refine keeps_advance (by simp) <| h.factor.bind fun e _ he => keeps_pure ?_
    simp [hloc, he]
  | hdWord => exact (hargument (by simp)).bind fun e _ he => keeps_pure (by simp [hloc, he])
  | tlWord => exact (hargument (by simp)).bind fun e _ he => keeps_pure (by simp [hloc, he])
  | lenWord => exact (hargument (by simp)).bind fun e _ he => keeps_pure (by simp [hloc, he])
  | mapWord =>
    refine keeps_advance (by simp) <| (keeps_expect hR (by decide)).step ?_
    refine h.expression.bind fun f _ hf => h.expression.bind fun xs _ hxs => ?_
    exact (keeps_expect hR (by decide)).step (keeps_pure (by simp [hloc, hf, hxs]))
  | foldlWord => exact (h.folded _ _ _ ht).weaken (by rintro _ rfl; simp)
  | foldrWord => exact (h.folded _ _ _ ht).weaken (by rintro _ rfl; simp)
  | lbracket =>
    refine keeps_advance (by simp) <| (keeps_consume hR (by decide)).bind fun closed _ hclosed => ?_
    subst hclosed
    cases closed with
    | true => exact keeps_pure (by simp [hloc])
    | false =>
      refine h.expression.bind fun e _ he => h.elements.bind fun es _ hes => ?_
      exact (keeps_expect hR (by decide)).step (keeps_pure (by simp [hloc, he, hes]))
  | lparen =>
    refine keeps_advance (by simp) <| h.expression.bind fun e _ he => ?_
    rw [he]
    exact (keeps_expect hR (by decide)).step (h.applications e)
  | int =>
    dsimp only
    cases Text.readInt text' with
    | ok i => exact keeps_advance (by simp) (keeps_pure (by simp [hloc]))
    | error e => cases e <;> exact keeps_fail _
  | real =>
    dsimp only
    cases Text.readReal? text' with
    | some x => exact keeps_advance (by simp) (keeps_pure (by simp [hloc]))
    | none => exact keeps_fail _
  | bool => exact keeps_advance (by simp) (keeps_pure (by simp [hloc]))
  | ident =>
    refine keeps_advance (by simp) ?_
    rw [← hloc]
    exact h.applications (.ident text' _)
  | _ => exact keeps_fail _

theorem AllKeep.elements_succ :
    Keeps R file anyKind (fun es es' => es' = Term.relocateAll g es) (Parse.elements file (n + 1))
      (Parse.elements file (n + 1)) := by
  rw [Parse.elements]
  refine (keeps_consume hR (by decide)).bind fun more _ hmore => ?_
  subst hmore
  cases more with
  | true =>
    refine h.expression.bind fun e _ he => h.elements.bind fun es _ hes => keeps_pure ?_
    simp [he, hes]
  | false => exact keeps_pure rfl

theorem AllKeep.applications_succ (e : Expr) :
    KeepsTerm R file g anyKind (Parse.applications file (n + 1) e)
      (Parse.applications file (n + 1) (e.relocate g)) := by
  rw [Parse.applications, Parse.applications]
  refine keeps_kind hR fun k _ => ?_
  cases k with
  | lparen =>
    refine keeps_here fun t t' ht => keeps_advance (by simp) ?_
    refine h.expression.bind fun a _ ha => (keeps_expect hR (by decide)).step ?_
    rw [ha, ← hR.loc ht]
    exact h.applications _
  | _ => exact keeps_pure rfl

theorem AllKeep.succ : AllKeep R file g (n + 1) where
  expression := h.expression_succ hR
  logical := by
    rw [Parse.logical]
    exact h.relational.bind fun e _ he => he ▸ h.logicalRest e
  logicalRest := h.logicalRest_succ hR
  relational := h.relational_succ hR
  additive := by
    rw [Parse.additive]
    exact h.product.bind fun e _ he => he ▸ h.additiveRest e
  additiveRest := h.additiveRest_succ hR
  product := h.product_succ hR
  productRest := h.productRest_succ hR
  factor := h.factor_succ hR
  argument := by
    rw [Parse.argument]
    refine keeps_advance (by simp) <| (keeps_expect hR (by decide)).step ?_
    refine h.expression.bind fun e _ he => (keeps_expect hR (by decide)).step ?_
    exact keeps_pure he
  folded side t t' ht := by
    rw [Parse.folded, Parse.folded]
    refine keeps_advance (by simp) <| (keeps_expect hR (by decide)).step ?_
    refine h.expression.bind fun f _ hf => h.expression.bind fun i _ hi => ?_
    refine h.expression.bind fun xs _ hxs => (keeps_expect hR (by decide)).step (keeps_pure ?_)
    simp [hR.loc ht, hf, hi, hxs]
  elements := h.elements_succ hR
  applications := h.applications_succ hR

end Step

theorem allKeep (hR : Moves R file g) (n : Nat) : AllKeep R file g n := by
  induction n with
  | succ n ih => exact ih.succ hR
  | zero =>
    -- Without fuel every reading function fails where it stands.
    constructor <;> intros <;>
      simp only [KeepsTerm, Parse.expression, Parse.logical, Parse.logicalRest, Parse.relational,
        Parse.additive, Parse.additiveRest, Parse.product, Parse.productRest, Parse.factor,
        Parse.argument, Parse.folded, Parse.elements, Parse.applications] <;>
      exact keeps_fail _

theorem statement_keeps (hR : Moves R file g) (fuel : Nat) :
    KeepsTerm R file g anyKind (statement file fuel) (statement file fuel) := by
  have hexpr := (allKeep hR fuel).expression
  unfold statement
  refine keeps_kind hR fun k _ => ?_
  cases k with
  | valWord =>
    refine keeps_here fun t t' ht => keeps_advance (by simp) ?_
    refine (keeps_expect hR (by decide)).bind fun x x' hx => ?_
    refine keeps_current fun next next' hnext => ?_
    have hnextloc := hR.loc hnext
    obtain ⟨kind, text, line, column⟩ := next
    obtain ⟨kind', text', line', column'⟩ := next'
    obtain ⟨rfl, rfl⟩ := Prod.mk.inj (hR.bare hnext)
    have hvalue {K : TokenKind → Prop} : KeepsTerm R file g K
        (do
          let _ ← expect file .assign
          let value ← expression file fuel
          return .val x.text value (some (t.loc file)))
        (do
          let _ ← expect file .assign
          let value ← expression file fuel
          return .val x'.text value (some (t'.loc file))) := by
      refine (keeps_expect hR (by decide)).step <| hexpr.bind fun e _ he => keeps_pure ?_
      simp [Token.text_eq_of_bare (hR.bare hx), hR.loc ht, he]
    cases kind' with
    | ident =>
      refine keeps_advance (by simp) <| (keeps_expect hR (by decide)).step ?_
      refine hexpr.bind fun e _ he => keeps_pure ?_
      simp [Token.text_eq_of_bare (hR.bare hx), hR.loc ht, hnextloc, he]
    | _ => exact hvalue
  | _ => exact hexpr.weaken fun _ _ => trivial

inductive Alike (R : Token → Token → Prop) (file : Option String) (g : Option Loc → Option Loc) :
    EStateM.Result ParseError TokenStream (List Expr) →
    EStateM.Result ParseError TokenStream (List Expr) → Prop where
  | ok {es s s'} : Alike R file g (.ok es s) (.ok (Term.relocateAll g es) s')
  | error {t t' cause s s'} : R t t' →
      Alike R file g (.error ⟨cause, t.loc file⟩ s) (.error ⟨cause, t'.loc file⟩ s')

theorem Paired.found (hR : Moves R file g) (h : Paired R s.toList s'.toList) :
    s'.current.found = s.current.found := by
  have hbare := hR.bare h.current
  rw [Token.found, Token.found, Token.kind_eq_of_bare hbare, Token.text_eq_of_bare hbare]

theorem expect_of_ne {k : TokenKind} (h : s.current.kind ≠ k) :
    expect file k s = .error ⟨.expected k s.current.found, s.current.loc file⟩ s := by
  rw [expect, bind_of_ok (current_eq s), if_neg h]
  rfl

theorem statements_alike (hR : Moves R file g) (fuel : Nat) {n : Nat}
    (h : Paired R s.toList s'.toList) (hn : s.rest.length < n) :
    Alike R file g (statements file fuel n s) (statements file fuel n s') := by
  induction n generalizing s s' with
  | zero => exact absurd hn (Nat.not_lt_zero _)
  | succ n ih =>
    have hkind := Token.kind_eq_of_bare (hR.bare h.current)
    by_cases heof : s.current.kind = .eof
    · rw [statements_of_eof heof, statements_of_eof (hkind.trans heof)]
      exact .ok
    rw [statements_of_ne_eof heof, statements_of_ne_eof (hkind ▸ heof)]
    have hfirst := statement_keeps hR fuel s s' h trivial
    generalize hx : statement file fuel s = x, hy : statement file fuel s' = y at hfirst
    cases hfirst with
    | error ht =>
      rw [bind_of_error hx, bind_of_error hy]
      exact .error ht
    | @ok e e' s₁ s₁' he hlevel =>
      rw [bind_of_ok hx, bind_of_ok hy]
      have hkind₁ := Token.kind_eq_of_bare (hR.bare hlevel.current)
      by_cases hsemi : s₁.current.kind = .semicolon
      · have hrest : Alike R file g (statements file fuel n s₁.advance)
            (statements file fuel n s₁'.advance) := by
          have hlen := (local_statement (List.cons_ne_nil default []) file file fuel 0).suffix hx
            |>.length_le
          have hpos := List.length_pos_iff.mpr hlevel.rest_ne_nil
          have hadvance := congrArg List.length (advance_toList hlevel.rest_ne_nil)
          simp only [TokenStream.toList, List.length_cons] at hlen hadvance
          rcases hlevel.advance with hnext | ⟨-, hend, hend'⟩
          · exact ih hnext (by omega)
          · obtain ⟨n, rfl⟩ : ∃ k, n = k + 1 := ⟨n - 1, by omega⟩
            rw [statements_of_eof hend, statements_of_eof hend']
            exact .ok
        rw [bind_of_ok (expect_eq_ok_iff.mpr ⟨hsemi, rfl, rfl⟩),
          bind_of_ok (expect_eq_ok_iff.mpr ⟨hkind₁.trans hsemi, rfl, rfl⟩)]
        generalize hu : statements file fuel n s₁.advance = u,
          hv : statements file fuel n s₁'.advance = v at hrest
        cases hrest with
        | error ht =>
          rw [bind_of_error hu, bind_of_error hv]
          exact .error ht
        | ok =>
          rw [bind_of_ok hu, bind_of_ok hv, he]
          exact .ok
      · rw [bind_of_error (expect_of_ne hsemi), bind_of_error (expect_of_ne (hkind₁ ▸ hsemi)),
          hlevel.found hR]
        exact .error hlevel.current

end Parse

namespace Program

open Parse

variable {R : Token → Token → Prop} {file : Option String} {g : Option Loc → Option Loc}
  {ts ts' : List Token}

/-- Related tokens with a semicolon at their end are the same program with its places moved, or have
the same error at related tokens. -/
theorem ofTokens_paired (hR : Moves R file g) (h : Paired R ts ts') :
    (∃ p p', ofTokens ts file = .ok p ∧ ofTokens ts' file = .ok p' ∧
      p'.statements = Term.relocateAll g p.statements) ∨
    ∃ t t' cause, R t t' ∧ ofTokens ts file = .error ⟨cause, t.loc file⟩ ∧
      ofTokens ts' file = .error ⟨cause, t'.loc file⟩ := by
  have hfuel : fuelFor ts' = fuelFor ts := by rw [fuelFor, fuelFor, h.length_eq]
  have hne : ts ≠ [] := by
    rintro rfl
    cases h
  have hne' : ts' ≠ [] := by
    rintro rfl
    cases h
  rw [← toList_ofList hne, ← toList_ofList hne'] at h
  have hlen : (TokenStream.ofList ts).rest.length < fuelFor ts := by
    have hcons := congrArg List.length (toList_ofList hne)
    simp only [TokenStream.toList, List.length_cons] at hcons
    unfold fuelFor
    omega
  have halike := statements_alike hR (fuelFor ts) h hlen
  unfold ofTokens program
  rw [hfuel, bind_of_ok (here_eq file _), bind_of_ok (here_eq file _)]
  generalize hx : Parse.statements file (fuelFor ts) (fuelFor ts) (.ofList ts) = x,
    hy : Parse.statements file (fuelFor ts) (fuelFor ts) (.ofList ts') = y at halike
  cases halike with
  | ok =>
    rw [bind_of_ok hx, bind_of_ok hy]
    exact .inl ⟨_, _, rfl, rfl, rfl⟩
  | error ht =>
    rw [bind_of_error hx, bind_of_error hy]
    exact .inr ⟨_, _, _, ht, rfl, rfl⟩

end Program

end Minifun
