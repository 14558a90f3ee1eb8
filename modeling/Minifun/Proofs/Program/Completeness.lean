import Minifun.Proofs.Program.Productions

/-! # The reader and the grammar

The grammar is ambiguous. What follows `not` may belong to its operand or not, and the reader takes
as much into the operand as it can. No words are lost by that: each `not` opens a comparison of its
own, so the reader can always take at least as many comparisons as a derivation does. Apart from the
functions that take arguments side by side, words with a derivation are therefore read, though
perhaps as another tree, and that tree has a derivation too.
-/

namespace Minifun

open Grammar

namespace Parse

def anyTree (_ : Expr) : Prop := True

section Greedy

/-- Products, each after any number of `not`, joined by comparisons and by the operators of sums.
There may be as many comparisons as there are `not` before them, and `c` more. -/
inductive Chain (file : Option String) : Nat → List Word → Prop where
  | not {c t ws} : Chain file (c + 1) ws → Chain file c ((.notWord, t) :: ws)
  | last {c us} : ReadsAt anyTree (product file) .product us → Chain file c us
  | sum {c us k t op vs} : ReadsAt anyTree (product file) .product us → (k, op) ∈ operators .sum →
      Chain file c vs → Chain file c (us ++ (k, t) :: vs)
  | comparison {c us k t op vs} : ReadsAt anyTree (product file) .product us →
      (k, op) ∈ operators .relational → Chain file c vs → Chain file (c + 1) (us ++ (k, t) :: vs)

/-- What is left of a chain when a sum has been read: nothing, or a comparison that is allowed. -/
inductive Left (file : Option String) : Nat → List Word → Prop where
  | nothing {c} : Left file c []
  | comparison {c k t op vs} : (k, op) ∈ operators .relational → Chain file c vs →
      Left file (c + 1) ((k, t) :: vs)

variable {file : Option String} {us vs ws rest after : List Word} {k : TokenKind} {t : String}
  {op : BinOp} {c : Nat}

theorem Chain.succ (h : Chain file c ws) : Chain file (c + 1) ws := by
  induction h with
  | not _ ih => exact .not ih
  | last hus => exact .last hus
  | sum hus hop _ ih => exact .sum hus hop ih
  | comparison hus hop _ ih => exact .comparison hus hop ih

/-- Words that can be put in front of a chain, with an operator of sums or a comparison in
between. -/
structure Links (file : Option String) (us : List Word) : Prop where
  alone : Chain file 0 us
  sum : ∀ {c k t op vs}, (k, op) ∈ operators .sum → Chain file c vs →
    Chain file c (us ++ (k, t) :: vs)
  comparison : ∀ {c k t op vs}, (k, op) ∈ operators .relational → Chain file c vs →
    Chain file (c + 1) (us ++ (k, t) :: vs)

/-- Words that are a chain with one comparison, and that can be put in front of a chain after
`not`. -/
structure Compares (file : Option String) (us : List Word) : Prop where
  alone : Chain file 1 us
  not : ∀ t, Links file ((.notWord, t) :: us)

theorem links_product (h : ReadsAt anyTree (product file) .product us) : Links file us :=
  ⟨.last h, .sum h, .comparison h⟩

theorem Links.addition (hus : Links file us) (hop : (k, op) ∈ operators .sum)
    (hvs : Links file vs) : Links file (us ++ (k, t) :: vs) := by
  refine ⟨hus.sum hop hvs.alone, fun hop' hws => ?_, fun hop' hws => ?_⟩
  · rw [List.append_assoc, List.cons_append]
    exact hus.sum hop (hvs.sum hop' hws)
  · rw [List.append_assoc, List.cons_append]
    exact hus.sum hop (hvs.comparison hop' hws)

theorem Links.compares (h : Links file us) : Compares file us where
  alone := h.alone.succ
  not _ := ⟨.not h.alone.succ, fun hop hws => .not (h.sum hop hws.succ),
    fun hop hws => .not (h.comparison hop hws.succ)⟩

theorem Links.comparisons (hus : Links file us) (hop : (k, op) ∈ operators .relational)
    (hvs : Links file vs) : Compares file (us ++ (k, t) :: vs) where
  alone := hus.comparison hop hvs.alone
  not t' := by
    refine ⟨.not (hus.comparison hop hvs.alone), fun hop' hws => ?_, fun hop' hws => ?_⟩
    · rw [List.cons_append, List.append_assoc, List.cons_append]
      exact .not (hus.comparison hop (hvs.sum hop' hws))
    · rw [List.cons_append, List.append_assoc, List.cons_append]
      exact .not (hus.comparison hop (hvs.comparison hop' hws))

def SumReads (file : Option String) (us after : List Word) : Prop :=
  ∀ g : Expr → Expr, Reads anyTree (fun n => do
    let e ← product file n
    additiveRest file n (g e)) us after

theorem SumReads.additive (h : SumReads file us after) :
    Reads anyTree (additive file) us after := by
  refine reads_of_succ rfl fun n s hs => ?_
  rw [Parse.additive]
  exact h id n s hs

theorem sumReads_product (h : Reads anyTree (product file) us after) (hstop : Stops .sum after) :
    SumReads file us after := by
  intro g n s hs
  refine h.bind hs fun e s₁ _ hs₁ => ?_
  exact looping_additiveRest.done trivial hstop n s₁ hs₁

theorem SumReads.cons (h : ReadsAt anyTree (product file) .product us)
    (hop : (k, op) ∈ operators .sum) (hne : vs ++ after ≠ []) (hvs : SumReads file vs after) :
    SumReads file (us ++ (k, t) :: vs) after := by
  have hloop : Looping file .sum .product (product file) (additiveRest file) := looping_additiveRest
  intro g n s hs
  simp only [List.cons_append, List.append_assoc] at hs
  refine (h _ (stops_cons.mpr (hloop.apart _ hop))).bind hs fun e s₁ _ hs₁ => ?_
  cases n with
  | zero =>
    rw [hloop.zero]
    exact accepts_endless
  | succ n =>
    rw [Accepts, hloop.step (by rwa [(current_of_words hs₁).1])]
    refine accepts_here fun loc => accepts_advance hs₁ hne fun s₂ hs₂ => ?_
    exact hvs (fun b => .binary op (g e) b loc) n s₂ hs₂

theorem Left.stops (h : Left file c vs) (hstop : Stops .relational rest) :
    Stops .sum (vs ++ rest) := by
  cases h with
  | nothing => exact hstop.mono (by decide)
  | comparison hop _ =>
    have hapart : ∀ w ∈ operators .relational, w.1 ∉ continuing .sum := by decide
    exact stops_cons.mpr (hapart _ hop)

/-- The greedy reading of a chain. It takes a sum, within which every `not` has taken a comparison
if there was one, and leaves at most a comparison. -/
theorem Chain.sum_reads (h : Chain file c ws) (hstop : Stops .relational rest) :
    ∃ us vs, ws = us ++ vs ∧ SumReads file us (vs ++ rest) ∧ Left file c vs := by
  have hne : ∀ vs : List Word, vs ++ rest ≠ [] := fun vs => by simp [hstop.ne_nil]
  induction hn : ws.length using Nat.strong_induction_on generalizing c ws with
  | _ n ih =>
    cases h with
    | last hus =>
      have hsum := sumReads_product (hus _ (hstop.mono (by decide))) (hstop.mono (by decide))
      exact ⟨ws, [], by simp, hsum, .nothing⟩
    | @sum _ us k t op vs hus hop hvs =>
      obtain ⟨us₁, vs₁, rfl, hsum, hleft⟩ := ih vs.length (by simp [← hn]; omega) hvs rfl
      refine ⟨us ++ (k, t) :: us₁, vs₁, by simp, ?_, hleft⟩
      exact .cons hus hop (by simp [hne]) hsum
    | @comparison c us k t op vs hus hop hvs =>
      have hleft : Left file (c + 1) ((k, t) :: vs) := .comparison hop hvs
      have hafter := hleft.stops hstop
      exact ⟨us, _, rfl, sumReads_product (hus _ (hafter.mono (by decide))) hafter, hleft⟩
    | @not _ t ws h =>
      obtain ⟨us₁, vs₁, rfl, hsum₁, hleft₁⟩ := ih ws.length (by simp [← hn]) h rfl
      cases hleft₁ with
      | nothing =>
        refine ⟨(.notWord, t) :: us₁, [], by simp, ?_, .nothing⟩
        have hread := hsum₁.additive.relational hstop
        exact sumReads_product (reads_not (hne us₁) hread fun _ _ _ => trivial)
          (hstop.mono (by decide))
      | @comparison c k t' op vs hop hvs =>
        obtain ⟨us₂, vs₂, rfl, hsum₂, hleft₂⟩ := ih vs.length (by simp [← hn]; omega) hvs rfl
        refine ⟨(.notWord, t) :: (us₁ ++ (k, t') :: us₂), vs₂, by simp, ?_, hleft₂⟩
        have hread := reads_comparison (R := anyTree) hop (by simpa using hsum₁.additive)
          (by simp [hne]) hsum₂.additive fun _ _ _ _ _ => trivial
        exact sumReads_product (reads_not (by simp) hread fun _ _ _ => trivial)
          (hleft₂.stops hstop)

theorem Chain.relational (h : Chain file 1 ws) :
    ReadsAt anyTree (Parse.relational file) .relational ws := by
  intro rest hstop
  obtain ⟨us, vs, rfl, hsum, hleft⟩ := h.sum_reads hstop
  cases hleft with
  | nothing => simpa using hsum.additive.relational hstop
  | @comparison c k t op vs hop hvs =>
    obtain ⟨us₂, vs₂, rfl, hsum₂, hleft₂⟩ := hvs.sum_reads hstop
    cases hleft₂ with
    | nothing =>
      rw [List.append_nil]
      exact reads_comparison hop (by simpa using hsum.additive) (by simp [hstop.ne_nil])
        hsum₂.additive fun _ _ _ _ _ => trivial

end Greedy

def Accepted (file : Option String) : Phrase → List Word → Prop
  | .expr .expression _, us => ReadsAt anyTree (expression file) .expression us
  | .expr .logical _, us => Opens anyTree (logical file) (logicalRest file) .relational us
  | .expr .relational _, us => Compares file us
  | .expr .sum _, us => Links file us
  | .expr .product _, us => Links file us
  | .expr .factors _, us => Opens anyTree (product file) (productRest file) .factor us
  | .expr .factor _, us => ReadsAt anyTree (factor file) .factor us
  | .expr .applied _, us => Opens anyTree (factor file) (applications file) .applied us
  | .elements _, us => ∀ r rest, Stops .expression (us ++ (.rbracket, r) :: rest) ∧
      Reads (fun _ => True) (elements file) us ((.rbracket, r) :: rest)

/-- The words of the functions that take arguments side by side. -/
def sideBySide : List TokenKind :=
  [.mapWord, .foldlWord, .foldrWord]

theorem accepted_of_derives {phrase : Phrase} (h : Derives phrase ws)
    (hno : ∀ w ∈ ws, w.1 ∉ sideBySide) : Accepted file phrase ws := by
  induction h with
  | letIn _ _ ihv ihb =>
    simp only [List.forall_mem_cons, List.forall_mem_append] at hno
    exact readsAt_letIn (ihv hno.2.2.2.1) (ihb hno.2.2.2.2.2) fun _ _ _ _ _ => trivial
  | cond _ _ _ ihc iha ihb =>
    simp only [List.forall_mem_cons, List.forall_mem_append] at hno
    exact readsAt_cond (ihc hno.2.1) (iha hno.2.2.2.1) (ihb hno.2.2.2.2.2)
      fun _ _ _ _ _ _ _ => trivial
  | lambda _ ih =>
    simp only [List.forall_mem_cons] at hno
    exact readsAt_lambda (ih hno.2.2.2) fun _ _ _ => trivial
  | ofLogical _ ih => exact fun _ hstop => ((ih hno).readsAt looping_logicalRest _ hstop).expression
  | ofRelational _ ih => exact opens_logical (ih hno).alone.relational
  | logic _ hop _ iha ihb =>
    simp only [List.forall_mem_cons, List.forall_mem_append] at hno
    exact (iha hno.1).operator looping_logicalRest hop (ihb hno.2.2).alone.relational
      fun _ _ _ _ _ => trivial
  | ofSum _ ih => exact (ih hno).compares
  | comparison _ hop _ iha ihb =>
    simp only [List.forall_mem_cons, List.forall_mem_append] at hno
    exact (iha hno.1).comparisons hop (ihb hno.2.2)
  | ofProduct _ ih => exact ih hno
  | addition _ hop _ iha ihb =>
    simp only [List.forall_mem_cons, List.forall_mem_append] at hno
    exact (iha hno.1).addition hop (ihb hno.2.2)
  | not _ ih =>
    simp only [List.forall_mem_cons] at hno
    exact (ih hno.2).not _
  | ofFactors _ ih =>
    exact links_product fun _ hstop => (ih hno).readsAt looping_productRest _ hstop
  | ofFactor _ ih => exact opens_product (ih hno)
  | multiplication _ hop _ iha ihb =>
    simp only [List.forall_mem_cons, List.forall_mem_append] at hno
    exact (iha hno.1).operator looping_productRest hop (ihb hno.2.2) fun _ _ _ _ _ => trivial
  | neg _ ih =>
    simp only [List.forall_mem_cons] at hno
    exact readsAt_neg (ih hno.2) fun _ _ _ => trivial
  | head _ ih =>
    simp only [List.forall_mem_cons, List.forall_mem_append] at hno
    exact readsAt_head (ih hno.2.2.1) fun _ _ _ => trivial
  | tail _ ih =>
    simp only [List.forall_mem_cons, List.forall_mem_append] at hno
    exact readsAt_tail (ih hno.2.2.1) fun _ _ _ => trivial
  | length _ ih =>
    simp only [List.forall_mem_cons, List.forall_mem_append] at hno
    exact readsAt_length (ih hno.2.2.1) fun _ _ _ => trivial
  | map => exact absurd (hno _ List.mem_cons_self) (by simp [sideBySide])
  | @fold side =>
    exact absurd (hno _ List.mem_cons_self) (by cases side <;> simp [sideBySide, foldWord])
  | nil => exact readsAt_nil fun _ => trivial
  | list _ _ ihe ihes =>
    simp only [List.forall_mem_cons, List.forall_mem_append] at hno
    have hes := ihes hno.2.2.1
    exact readsAt_list (fun rest => ihe hno.2.1 _ (hes _ rest).1) (fun rest => (hes _ rest).2)
      fun _ _ _ _ _ => trivial
  | int hread => exact readsAt_int hread fun _ => trivial
  | real hread => exact readsAt_real hread fun _ => trivial
  | bool => exact readsAt_bool fun _ => trivial
  | ofApplied _ ih => exact (ih hno).factor
  | ident => exact opens_ident fun _ => trivial
  | brackets _ ih =>
    simp only [List.forall_mem_cons, List.forall_mem_append] at hno
    exact opens_brackets (ih hno.2.1)
  | apply _ _ ihf iha =>
    simp only [List.forall_mem_cons, List.forall_mem_append] at hno
    exact (ihf hno.1).apply (iha hno.2.2.1) fun _ _ _ _ _ => trivial
  | noElements =>
    exact fun r rest => ⟨stops_cons.mpr (by decide), reads_noElements trivial (by decide)⟩
  | element _ _ ihe ihes =>
    simp only [List.forall_mem_cons, List.forall_mem_append] at hno
    intro r rest
    obtain ⟨hstop, hes⟩ := ihes hno.2.2 r rest
    refine ⟨stops_cons.mpr (by decide), ?_⟩
    exact reads_element (ihe hno.2.1 _ hstop) (by simp [hstop.ne_nil]) hes fun _ _ _ _ => trivial

theorem reads_of_derivesStatement {e : Expr} (h : DerivesStatement e ws)
    (hno : ∀ w ∈ ws, w.1 ∉ sideBySide) :
    Reads anyTree (statement file) ws ((.semicolon, t) :: rest) := by
  cases h with
  | val he =>
    simp only [List.forall_mem_cons] at hno
    exact reads_val (accepted_of_derives he hno.2.2.2) fun _ _ _ => trivial
  | function he =>
    simp only [List.forall_mem_cons] at hno
    exact reads_function (accepted_of_derives he hno.2.2.2.2) fun _ _ _ _ => trivial
  | expression he =>
    exact (accepted_of_derives he hno _ (stops_cons.mpr (by decide))).statement

theorem reads_of_derivesProgram {es : List Expr} (h : DerivesProgram es ws)
    (hno : ∀ w ∈ ws, w.1 ∉ sideBySide) (n : Nat) :
    Reads (fun _ => True) (fun fuel => statements file fuel n) ws [(.eof, t)] := by
  induction h generalizing n with
  | nil => exact reads_statements_nil trivial n
  | cons he _ ih =>
    simp only [List.forall_mem_cons, List.forall_mem_append] at hno
    exact reads_statements_cons (reads_of_derivesStatement he hno.1) (by simp) (ih hno.2.2)
      (fun _ _ _ _ => trivial) n

end Parse

namespace Program

open Parse

/-- The reader and the grammar. Tokens that are read as a program have a derivation, whose tree is
the program without its places. Tokens that have some derivation are read as a program, unless
arguments stand side by side in it. -/
theorem ofTokens_grammar (body : List Token) (last : Token) (file : Option String)
    (hbody : ∀ t ∈ body, t.kind ≠ .eof) (hlast : last.kind = .eof) :
    (∀ p, ofTokens (body ++ [last]) file = .ok p →
      DerivesProgram (p.statements.map Term.bare) (body.map Token.bare)) ∧
    ((∀ t ∈ body, t.kind ∉ [TokenKind.mapWord, .foldlWord, .foldrWord]) →
      ∀ es, DerivesProgram es (body.map Token.bare) →
        ∃ p, ofTokens (body ++ [last]) file = .ok p) := by
  constructor
  · exact fun p hp => (derives_of_ofTokens hbody hlast hp).1
  · intro hno es hes
    have hbare : last.bare = (.eof, last.text) := by rw [Token.bare, hlast]
    obtain ⟨p, hp, -⟩ := exists_ofTokens hlast fun n =>
      hbare ▸ reads_of_derivesProgram hes (by simpa [sideBySide, Token.bare] using hno) n
    exact ⟨p, hp⟩

/-- The first comparison is read as the operand of `not`, and the second one compares what it
gives. -/
theorem ofTokens_grammar_not :
    let body : List Token := [⟨.notWord, "not", 1, 1⟩, ⟨.ident, "a", 1, 5⟩, ⟨.lt, "<", 1, 7⟩,
      ⟨.ident, "b", 1, 9⟩, ⟨.eq, "=", 1, 11⟩, ⟨.bool, "true", 1, 13⟩, ⟨.semicolon, ";", 1, 17⟩]
    ∃ p, ofTokens (body ++ [⟨.eof, "", 1, 18⟩]) none = .ok p ∧
      DerivesProgram (p.statements.map Term.bare) (body.map Token.bare) := by
  intro body
  have hname : ∀ x : String, Derives (.expr .sum (.ident x none)) [(.ident, x)] := fun x =>
    .ofProduct (.ofFactors (.ofFactor (.ofApplied .ident)))
  have hless : Derives
      (.expr .relational (.binary (.rel .lt) (.ident "a" none) (.ident "b" none) none))
      [(.ident, "a"), (.lt, "<"), (.ident, "b")] :=
    .comparison (hname "a") (by decide) (hname "b")
  have htrue : Derives (.expr .sum (.literal (.bool ("true" == "true")) none)) [(.bool, "true")] :=
    .ofProduct (.ofFactors (.ofFactor .bool))
  have hequal : (.eq, .rel .eq) ∈ operators .relational := by decide
  have hstatement := DerivesStatement.expression <| .ofLogical <| .ofRelational <|
    .comparison (.ofProduct (.not (t := "not") hless)) (t := "=") hequal htrue
  have hall := ofTokens_grammar body ⟨.eof, "", 1, 18⟩ none (by decide) rfl
  obtain ⟨p, hp⟩ := hall.2 (by decide) _ (.cons (t := ";") hstatement .nil)
  exact ⟨p, hp, hall.1 p hp⟩

end Program

end Minifun
