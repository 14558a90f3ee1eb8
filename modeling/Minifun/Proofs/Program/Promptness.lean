import Minifun.Proofs.Program.Foresight

/-! # Errors at the first impossible token

Every reading function looks one token ahead: there is one case for each of its branches, and an
induction on the number of tokens. A whole number completes every phrase that has not begun. What is
put after a phrase to complete what it is a part of begins with a token that does not go on with it.

So a program fails at the first token with which no program goes on.
-/

namespace Minifun

open Grammar
open Set (range)
open Function (uncurry)

namespace Parse

variable {α : Type} {file : Option String} {𝓡 : Set (Parse α)} {s : TokenStream} {t : Token}
  {L : Nat}

/-- The kinds of tokens that are put after a phrase. None of them goes on with it. -/
def neutral : List TokenKind :=
  [.inWord, .thenWord, .elseWord, .rparen, .rbracket, .semicolon, .int, .eof]

abbrev ForeseesPhrase (file : Option String) (L : Nat) (𝓜 : Set (Parse Expr)) : Prop :=
  Foresees file L true [.int] neutral 𝓜

abbrev ForeseesTail (file : Option String) (L : Nat) (𝓜 : Set (Parse Expr)) : Prop :=
  Foresees file L false [] neutral 𝓜

section Families

variable {m : Nat → Parse α}

theorem endless_fail : Endless (fail (α := α) file (.broken .endless)) s :=
  ⟨_, _, rfl, rfl⟩

theorem exists_advance {f : Unit → Parse α} (h : f () ∈ 𝓡) :
    ∃ r ∈ 𝓡, (advance >>= f) s = r s.advance :=
  ⟨f (), h, rfl⟩

theorem leads_range (hzero : m 0 = fail file (.broken .endless))
    (hsucc : ∀ n s, s.current = t → Endless (m (n + 1)) s ∨ ∃ r ∈ 𝓡, m (n + 1) s = r s.advance) :
    Leads t (range m) 𝓡 := by
  rintro _ ⟨n, rfl⟩ s hs
  cases n with
  | zero => exact .inl (hzero ▸ endless_fail)
  | succ n => exact hsucc n s hs

theorem defers_range {P : TokenKind → Prop} (hzero : m 0 = fail file (.broken .endless))
    (hsucc : ∀ n s, P s.current.kind → ∃ r ∈ 𝓡, m (n + 1) s = r s) :
    Defers P (range m) 𝓡 := by
  rintro _ ⟨n, rfl⟩ s hs
  cases n with
  | zero => exact .inl (hzero ▸ endless_fail)
  | succ n => exact .inr (hsucc n s hs)

theorem Foresees.zero {strict : Bool} {heads stops : List TokenKind} {𝓜 : Set (Parse α)}
    (h : Finishes strict heads stops 𝓜) : Foresees file 0 strict heads stops 𝓜 := by
  refine ⟨h, fun {s} _ hL => ?_⟩
  simp [TokenStream.toList] at hL

theorem Foresees.before {strict : Bool} {heads stops : List TokenKind} {𝓜 : Set (Parse Expr)}
    (h : ForeseesPhrase file L 𝓜) (hr : Foresees file L strict heads stops 𝓡)
    (hsub : heads ++ stops ⊆ neutral) :
    Foresees file L true [.int] stops (Parse.inTurn 𝓜 𝓡) :=
  h.inTurn hr hsub (by omega)

theorem Defers.foresees {heads stops : List TokenKind} {𝓜 : Set (Parse α)}
    (h : Defers (fun _ => True) 𝓜 𝓡) (hr : Foresees file L true heads stops 𝓡) :
    Foresees file L true heads stops 𝓜 :=
  ⟨h.finishes hr.finishes (by simp), fun hs hL => h.prompt hr (by simp) hs trivial hL⟩

end Families

section Expressions

theorem leads_let (ht : t.kind = .letWord) : Leads t (range (expression file))
    (inTurn {expect file .ident} (inTurn {expect file .assign} (inTurn (range (expression file))
      (inTurn {expect file .inWord} (inTurn (range (expression file)) (range pure)))))) := by
  refine leads_range rfl fun n s hs => .inr ?_
  rw [expression, bind_of_ok (here_eq file s), bind_of_ok (kind_eq s), hs, ht]
  exact exists_advance (mem_inTurn rfl fun _ => mem_inTurn rfl fun _ => mem_inTurn ⟨n, rfl⟩ fun _ =>
    mem_inTurn rfl fun _ => mem_inTurn ⟨n, rfl⟩ fun _ => ⟨_, rfl⟩)

theorem leads_if (ht : t.kind = .ifWord) : Leads t (range (expression file))
    (inTurn (range (expression file)) (inTurn {expect file .thenWord}
      (inTurn (range (expression file)) (inTurn {expect file .elseWord}
        (inTurn (range (expression file)) (range pure)))))) := by
  refine leads_range rfl fun n s hs => .inr ?_
  rw [expression, bind_of_ok (here_eq file s), bind_of_ok (kind_eq s), hs, ht]
  exact exists_advance (mem_inTurn ⟨n, rfl⟩ fun _ => mem_inTurn rfl fun _ =>
    mem_inTurn ⟨n, rfl⟩ fun _ => mem_inTurn rfl fun _ => mem_inTurn ⟨n, rfl⟩ fun _ => ⟨_, rfl⟩)

theorem leads_fn (ht : t.kind = .fnWord) : Leads t (range (expression file))
    (inTurn {expect file .ident} (inTurn {expect file .arrow} (inTurn (range (expression file))
      (range pure)))) := by
  refine leads_range rfl fun n s hs => .inr ?_
  rw [expression, bind_of_ok (here_eq file s), bind_of_ok (kind_eq s), hs, ht]
  exact exists_advance (mem_inTurn rfl fun _ => mem_inTurn rfl fun _ => mem_inTurn ⟨n, rfl⟩ fun _ =>
    ⟨_, rfl⟩)

theorem defers_expression : Defers (fun k => k ∉ [TokenKind.letWord, .ifWord, .fnWord])
    (range (expression file)) (range (logical file)) := by
  refine defers_range rfl fun n s hk => ⟨logical file n, ⟨n, rfl⟩, ?_⟩
  rw [expression, bind_of_ok (here_eq file s), bind_of_ok (kind_eq s)]
  cases hkind : s.current.kind with
  | letWord | ifWord | fnWord => simp [hkind] at hk
  | _ => rfl

theorem foresees_expression (hlogical : ForeseesPhrase file (L + 1) (range (logical file)))
    (h : ForeseesPhrase file L (range (expression file))) :
    ForeseesPhrase file (L + 1) (range (expression file)) := by
  refine ⟨defers_expression.finishes hlogical.finishes (by decide), fun {s} hs hL => ?_⟩
  cases hk : s.current.kind with
  | letWord =>
    have hin := h.alone.after .inWord (by decide)
    have hassign := (h.before hin (by decide)).after .assign (by decide)
    exact (leads_let hk).prompt (hassign.after .ident (by decide)) hs (by simp [hk]) hL
  | ifWord =>
    have helse := h.alone.after .elseWord (by decide)
    have hthen := (h.before helse (by decide)).after .thenWord (by decide)
    exact (leads_if hk).prompt (h.before hthen (by decide)) hs (by simp [hk]) hL
  | fnWord =>
    have harrow := h.alone.after .arrow (by decide)
    exact (leads_fn hk).prompt (harrow.after .ident (by decide)) hs (by simp [hk]) hL
  | _ => exact defers_expression.prompt hlogical (by decide) hs (by rw [hk]; decide) hL

end Expressions

section Loops

/-- A loop over operators that stops where none of its level follows. -/
structure Repeating (file : Option String) (level operandLevel : Level) (operand : Nat → Parse Expr)
    (loop : Nat → Expr → Parse Expr) : Prop extends
    Looping file level operandLevel operand loop where
  halt : ∀ {n e s}, (∀ op, (s.current.kind, op) ∉ operators level) → loop (n + 1) e s = .ok e s

theorem repeating_logicalRest :
    Repeating file .logical .relational (relational file) (logicalRest file) where
  toLooping := looping_logicalRest
  halt {n e s} hk := by
    have hnone : logicOp? s.current.kind = none :=
      Option.eq_none_iff_forall_ne_some.mpr fun op hop => hk op (logicOp?_eq_some_iff.mp hop)
    rw [logicalRest, bind_of_ok (kind_eq s), hnone]
    rfl

theorem repeating_additiveRest :
    Repeating file .sum .product (product file) (additiveRest file) where
  toLooping := looping_additiveRest
  halt {n e s} hk := by
    have hnone : sumOp? s.current.kind = none :=
      Option.eq_none_iff_forall_ne_some.mpr fun op hop => hk op (sumOp?_eq_some_iff.mp hop)
    rw [additiveRest, bind_of_ok (kind_eq s), hnone]
    rfl

theorem repeating_productRest :
    Repeating file .factors .factor (factor file) (productRest file) where
  toLooping := looping_productRest
  halt {n e s} hk := by
    have hnone : productOp? s.current.kind = none :=
      Option.eq_none_iff_forall_ne_some.mpr fun op hop => hk op (productOp?_eq_some_iff.mp hop)
    rw [productRest, bind_of_ok (kind_eq s), hnone]
    rfl

theorem not_operator_of_neutral (level : Level) :
    ∀ k ∈ neutral, ∀ op, (k, op) ∉ operators level := by
  intro k hk op hop
  have hapart : ∀ w ∈ operators level, w.1 ∉ neutral := by cases level <;> decide
  exact hapart _ hop hk

variable {level operandLevel : Level} {operand : Nat → Parse Expr} {loop : Nat → Expr → Parse Expr}

theorem Repeating.rests (h : Repeating file level operandLevel operand loop) :
    Rests (fun k => ∀ op, (k, op) ∉ operators level) (range (uncurry loop)) := by
  rintro _ ⟨⟨n, e⟩, rfl⟩ s hk
  rw [Function.uncurry_apply_pair]
  cases n with
  | zero =>
    rw [h.zero]
    exact accepts_endless
  | succ n => exact .inr ⟨e, s, h.halt hk, rfl⟩

theorem Repeating.leads (h : Repeating file level operandLevel operand loop) {op : BinOp}
    (hop : (t.kind, op) ∈ operators level) : Leads t (range (uncurry loop))
      (inTurn (range operand) (range (uncurry loop))) := by
  rintro _ ⟨⟨n, e⟩, rfl⟩ s rfl
  rw [Function.uncurry_apply_pair]
  cases n with
  | zero =>
    rw [h.zero]
    exact .inl endless_fail
  | succ n =>
    right
    rw [h.step hop, bind_of_ok (here_eq file s)]
    exact exists_advance (mem_inTurn ⟨n, rfl⟩ fun _ => ⟨(n, _), rfl⟩)

theorem Repeating.finishes (h : Repeating file level operandLevel operand loop) :
    Finishes false [] neutral (range (uncurry loop)) :=
  h.rests.finishes (not_operator_of_neutral level)

theorem Repeating.foresees (h : Repeating file level operandLevel operand loop)
    (hoperand : ForeseesPhrase file L (range operand))
    (hloop : ForeseesTail file L (range (uncurry loop))) :
    ForeseesTail file (L + 1) (range (uncurry loop)) := by
  refine ⟨h.finishes, fun {s} hs hL => ?_⟩
  by_cases hk : ∃ op, (s.current.kind, op) ∈ operators level
  · obtain ⟨op, hop⟩ := hk
    refine (h.leads hop).prompt (hoperand.before hloop (by decide)) hs ?_ hL
    intro heof
    exact not_operator_of_neutral level .eof (by decide) op (heof ▸ hop)
  · exact h.rests.prompt (not_operator_of_neutral level) (not_exists.mp hk)

theorem defers_operands {start : Nat → Parse Expr} (hzero : start 0 = fail file (.broken .endless))
    (hsucc : ∀ n, start (n + 1) = operand n >>= loop n) : Defers (fun _ => True) (range start)
      (inTurn (range operand) (range (uncurry loop))) :=
  defers_range hzero fun n s _ =>
    ⟨_, mem_inTurn ⟨n, rfl⟩ fun e => ⟨(n, e), rfl⟩, by rw [hsucc]; rfl⟩

theorem defers_logical : Defers (fun _ => True) (range (logical file))
    (inTurn (range (relational file)) (range (uncurry (logicalRest file)))) :=
  defers_operands (by rw [logical]) fun n => by rw [logical]

theorem defers_additive : Defers (fun _ => True) (range (additive file))
    (inTurn (range (product file)) (range (uncurry (additiveRest file)))) :=
  defers_operands (by rw [additive]) fun n => by rw [additive]

theorem leads_not (ht : t.kind = .notWord) : Leads t (range (product file))
    (inTurn (range (relational file)) (range pure)) := by
  refine leads_range rfl fun n s hs => .inr ?_
  rw [product, bind_of_ok (kind_eq s), hs, ht]
  dsimp only
  rw [bind_of_ok (here_eq file s)]
  exact exists_advance (mem_inTurn ⟨n, rfl⟩ fun _ => ⟨_, rfl⟩)

theorem defers_product : Defers (fun k => k ≠ .notWord) (range (product file))
    (inTurn (range (factor file)) (range (uncurry (productRest file)))) := by
  refine defers_range rfl fun n s hk =>
    ⟨_, mem_inTurn ⟨n, rfl⟩ fun e => ⟨(n, e), rfl⟩, ?_⟩
  rw [product, bind_of_ok (kind_eq s)]
  cases hkind : s.current.kind with
  | notWord => exact absurd hkind hk
  | _ => rfl

theorem foresees_product (hfactors : ForeseesPhrase file (L + 1)
      (inTurn (range (factor file)) (range (uncurry (productRest file)))))
    (hrelational : ForeseesPhrase file L (range (relational file))) :
    ForeseesPhrase file (L + 1) (range (product file)) := by
  refine ⟨defers_product.finishes hfactors.finishes (by decide), fun {s} hs hL => ?_⟩
  by_cases hk : s.current.kind = .notWord
  · exact (leads_not hk).prompt hrelational.alone hs (by simp [hk]) hL
  · exact defers_product.prompt hfactors (by decide) hs hk hL

end Loops

section Comparisons

/-- Reads a sum with which an expression is compared, if there is one. -/
def comparison (file : Option String) (n : Nat) (left : Expr) : Parse Expr := do
  match relOp? (← kind) with
  | none => return left
  | some op =>
    let loc ← here file
    advance
    let right ← additive file n
    return .binary op left right loc

theorem rests_comparison : Rests (fun k => relOp? k = none)
    (range (uncurry (comparison file))) := by
  rintro _ ⟨⟨n, e⟩, rfl⟩ s hk
  rw [Function.uncurry_apply_pair, comparison, Accepts, bind_of_ok (kind_eq s), hk]
  exact accepts_pure rfl

theorem comparison_finishes :
    Finishes false [] neutral (range (uncurry (comparison file))) :=
  rests_comparison.finishes (by decide)

theorem leads_comparison {op : BinOp} (hop : relOp? t.kind = some op) :
    Leads t (range (uncurry (comparison file)))
      (inTurn (range (additive file)) (range pure)) := by
  rintro _ ⟨⟨n, e⟩, rfl⟩ s rfl
  right
  rw [Function.uncurry_apply_pair, comparison, bind_of_ok (kind_eq s), hop]
  dsimp only
  rw [bind_of_ok (here_eq file s)]
  exact exists_advance (mem_inTurn ⟨n, rfl⟩ fun _ => ⟨_, rfl⟩)

theorem foresees_comparison (h : ForeseesPhrase file L (range (additive file))) :
    ForeseesTail file L (range (uncurry (comparison file))) := by
  refine ⟨comparison_finishes, fun {s} hs hL => ?_⟩
  cases hop : relOp? s.current.kind with
  | none => exact rests_comparison.prompt (by decide) hop
  | some op =>
    refine (leads_comparison hop).prompt h.alone hs ?_ (by omega)
    intro heof
    simp [heof, relOp?] at hop

theorem defers_relational : Defers (fun _ => True) (range (relational file))
    (inTurn (range (additive file)) (range (uncurry (comparison file)))) :=
  defers_operands (by rw [relational]) fun n => by rw [relational]; rfl

end Comparisons

section Lists

/-- Reads further elements of a list and the closing bracket. There may be no further elements, but
with the bracket there is always something to read. -/
def listTail (file : Option String) (n : Nat) (make : List Expr → Expr) : Parse Expr := do
  let rest ← elements file n
  let _ ← expect file .rbracket
  return make rest

def listBody (file : Option String) (n : Nat) (loc : Loc) : Parse Expr := do
  if ← consume .rbracket then return .list [] loc
  else
    let first ← expression file n
    listTail file n fun rest => .list (first :: rest) loc

theorem leads_comma (ht : t.kind = .comma) :
    Leads t (range (uncurry (listTail file)))
      (inTurn (range (expression file)) (range (uncurry (listTail file)))) := by
  rintro _ ⟨⟨n, make⟩, rfl⟩ s rfl
  rw [Function.uncurry_apply_pair, listTail]
  cases n with
  | zero =>
    rw [elements]
    exact .inl endless_fail
  | succ n =>
    right
    rw [elements, bind_assoc, bind_of_ok (consume_of_eq ht)]
    simp only [if_true, bind_assoc, pure_bind]
    exact ⟨_, mem_inTurn ⟨n, rfl⟩ fun e => ⟨(n, fun es => make (e :: es)), rfl⟩, rfl⟩

theorem defers_listTail : Defers (fun k => k ≠ .comma)
    (range (uncurry (listTail file)))
    (inTurn {expect file .rbracket} (range pure)) := by
  rintro _ ⟨⟨n, make⟩, rfl⟩ s hk
  rw [Function.uncurry_apply_pair, listTail]
  cases n with
  | zero =>
    rw [elements]
    exact .inl endless_fail
  | succ n =>
    right
    rw [elements, bind_assoc, bind_of_ok (consume_of_ne hk)]
    exact ⟨_, mem_inTurn rfl fun _ => ⟨make [], rfl⟩, rfl⟩

theorem foresees_closing : Foresees file L true [.rbracket] neutral
    (inTurn {expect file .rbracket} (range (pure : Expr → Parse Expr))) :=
  foresees_pure.after .rbracket (by decide)

theorem listTail_finishes : Finishes true [.rbracket] neutral
    (range (uncurry (listTail file))) :=
  defers_listTail.finishes (foresees_closing (L := 0)).finishes (by decide)

theorem foresees_listTail (h : ForeseesPhrase file L (range (expression file)))
    (htail : Foresees file L true [.rbracket] neutral
      (range (uncurry (listTail file)))) :
    Foresees file (L + 1) true [.rbracket] neutral
      (range (uncurry (listTail file))) := by
  refine ⟨listTail_finishes, fun {s} hs hL => ?_⟩
  by_cases hk : s.current.kind = .comma
  · exact (leads_comma hk).prompt (h.before htail (by decide)) hs (by simp [hk]) hL
  · exact defers_listTail.prompt foresees_closing (by decide) hs hk hL

theorem leads_rbracket (ht : t.kind = .rbracket) :
    Leads t (range (uncurry (listBody file))) (range pure) := by
  rintro _ ⟨⟨n, loc⟩, rfl⟩ s rfl
  right
  rw [Function.uncurry_apply_pair, listBody, bind_of_ok (consume_of_eq ht)]
  exact ⟨_, ⟨_, rfl⟩, rfl⟩

theorem defers_listBody : Defers (fun k => k ≠ .rbracket)
    (range (uncurry (listBody file)))
    (inTurn (range (expression file)) (range (uncurry (listTail file)))) := by
  rintro _ ⟨⟨n, loc⟩, rfl⟩ s hk
  right
  rw [Function.uncurry_apply_pair, listBody, bind_of_ok (consume_of_ne hk)]
  exact ⟨_, mem_inTurn ⟨n, rfl⟩ fun e => ⟨(n, fun es => .list (e :: es) loc), rfl⟩, rfl⟩

theorem foresees_listBody (h : ForeseesPhrase file L (range (expression file)))
    (htail : Foresees file L true [.rbracket] neutral
      (range (uncurry (listTail file)))) :
    ForeseesPhrase file L (range (uncurry (listBody file))) := by
  have hfull := h.before htail (by decide)
  refine ⟨defers_listBody.finishes hfull.finishes (by decide), fun {s} hs hL => ?_⟩
  by_cases hk : s.current.kind = .rbracket
  · exact (leads_rbracket hk).prompt (L := L) foresees_pure hs (by simp [hk]) (by omega)
  · exact defers_listBody.prompt hfull (by decide) hs hk hL

end Lists

section Factors

theorem rests_applications : Rests (fun k => k ≠ .lparen)
    (range (uncurry (applications file))) := by
  rintro _ ⟨⟨n, e⟩, rfl⟩ s hk
  rw [Function.uncurry_apply_pair]
  cases n with
  | zero => exact accepts_endless
  | succ n =>
    rw [applications, Accepts, bind_of_ok (kind_eq s)]
    cases hkind : s.current.kind with
    | lparen => exact absurd hkind hk
    | _ => exact accepts_pure rfl

theorem applications_finishes :
    Finishes false [] neutral (range (uncurry (applications file))) :=
  rests_applications.finishes (by decide)

theorem leads_applications (ht : t.kind = .lparen) :
    Leads t (range (uncurry (applications file)))
      (inTurn (range (expression file)) (inTurn {expect file .rparen}
        (range (uncurry (applications file))))) := by
  rintro _ ⟨⟨n, e⟩, rfl⟩ s rfl
  rw [Function.uncurry_apply_pair]
  cases n with
  | zero => exact .inl endless_fail
  | succ n =>
    right
    rw [applications, bind_of_ok (kind_eq s), ht]
    dsimp only
    rw [bind_of_ok (here_eq file s)]
    exact exists_advance (mem_inTurn ⟨n, rfl⟩ fun _ => mem_inTurn rfl fun _ => ⟨(n, _), rfl⟩)

theorem foresees_applications (h : ForeseesPhrase file L (range (expression file)))
    (happlications : ForeseesTail file L (range (uncurry (applications file)))) :
    ForeseesTail file (L + 1) (range (uncurry (applications file))) := by
  refine ⟨applications_finishes, fun {s} hs hL => ?_⟩
  by_cases hk : s.current.kind = .lparen
  · have hclose := happlications.after .rparen (by decide)
    exact (leads_applications hk).prompt (h.before hclose (by decide)) hs (by simp [hk]) hL
  · exact rests_applications.prompt (by decide) hk

theorem leads_minus (ht : t.kind = .minus) : Leads t (range (factor file))
    (inTurn (range (factor file)) (range pure)) := by
  refine leads_range rfl fun n s hs => .inr ?_
  rw [factor, bind_of_ok (current_eq s), hs, ht]
  exact exists_advance (mem_inTurn ⟨n, rfl⟩ fun _ => ⟨_, rfl⟩)

theorem factor_builtin (file : Option String) (n : Nat)
    (hk : s.current.kind ∈ [TokenKind.hdWord, .tlWord, .lenWord]) :
    ∃ make : Expr → Expr, factor file (n + 1) s = (do
      let e ← argument file n
      return make e) s := by
  rw [factor, bind_of_ok (current_eq s)]
  cases hkind : s.current.kind with
  | hdWord | tlWord | lenWord => exact ⟨_, rfl⟩
  | _ => simp [hkind] at hk

theorem leads_builtin (ht : t.kind ∈ [TokenKind.hdWord, .tlWord, .lenWord]) :
    Leads t (range (factor file)) (inTurn {expect file .lparen}
      (inTurn (range (expression file)) (inTurn {expect file .rparen} (range pure)))) := by
  refine leads_range rfl fun n s hs => ?_
  obtain ⟨make, hmake⟩ := factor_builtin file n (hs ▸ ht)
  rw [Endless, hmake]
  cases n with
  | zero => exact .inl ⟨_, _, rfl, rfl⟩
  | succ n =>
    right
    rw [argument]
    simp only [bind_assoc, pure_bind]
    exact exists_advance (mem_inTurn rfl fun _ => mem_inTurn ⟨n, rfl⟩ fun _ =>
      mem_inTurn rfl fun _ => ⟨_, rfl⟩)

theorem leads_map (ht : t.kind = .mapWord) : Leads t (range (factor file))
    (inTurn {expect file .lparen} (inTurn (range (expression file))
      (inTurn (range (expression file)) (inTurn {expect file .rparen} (range pure))))) := by
  refine leads_range rfl fun n s hs => .inr ?_
  rw [factor, bind_of_ok (current_eq s), hs, ht]
  exact exists_advance (mem_inTurn rfl fun _ => mem_inTurn ⟨n, rfl⟩ fun _ =>
    mem_inTurn ⟨n, rfl⟩ fun _ => mem_inTurn rfl fun _ => ⟨_, rfl⟩)

theorem leads_fold (side : Side) (ht : t.kind = foldWord side) : Leads t (range (factor file))
    (inTurn {expect file .lparen} (inTurn (range (expression file))
      (inTurn (range (expression file)) (inTurn (range (expression file))
        (inTurn {expect file .rparen} (range pure)))))) := by
  -- The word of a fold is read by a function of its own, which may be without fuel.
  refine leads_range rfl fun n s hs => ?_
  have hfolded : factor file (n + 1) s = folded file n side (t.loc file) s := by
    rw [factor, bind_of_ok (current_eq s), hs, ht]
    cases side <;> rfl
  rw [Endless, hfolded]
  cases n with
  | zero => exact .inl ⟨_, _, rfl, rfl⟩
  | succ n =>
    right
    rw [folded]
    exact exists_advance (mem_inTurn rfl fun _ => mem_inTurn ⟨n, rfl⟩ fun _ =>
      mem_inTurn ⟨n, rfl⟩ fun _ => mem_inTurn ⟨n, rfl⟩ fun _ => mem_inTurn rfl fun _ => ⟨_, rfl⟩)

theorem leads_lbracket (ht : t.kind = .lbracket) : Leads t (range (factor file))
    (range (uncurry (listBody file))) := by
  refine leads_range rfl fun n s hs => .inr ?_
  rw [factor, bind_of_ok (current_eq s), hs, ht]
  exact exists_advance ⟨(n, _), rfl⟩

theorem leads_lparen (ht : t.kind = .lparen) : Leads t (range (factor file))
    (inTurn (range (expression file)) (inTurn {expect file .rparen}
      (range (uncurry (applications file))))) := by
  refine leads_range rfl fun n s hs => .inr ?_
  rw [factor, bind_of_ok (current_eq s), hs, ht]
  exact exists_advance (mem_inTurn ⟨n, rfl⟩ fun _ => mem_inTurn rfl fun _ => ⟨(n, _), rfl⟩)

theorem leads_ident (ht : t.kind = .ident) : Leads t (range (factor file))
    (range (uncurry (applications file))) := by
  refine leads_range rfl fun n s hs => .inr ?_
  rw [factor, bind_of_ok (current_eq s), hs, ht]
  exact exists_advance ⟨(n, _), rfl⟩

theorem leads_constant (ht : t.kind ∈ [TokenKind.int, .real, .bool])
    (hfault : numeralFault? t.bare = none) :
    Leads t (range (factor file)) (range pure) := by
  refine leads_range rfl fun n s hs => .inr ?_
  rw [factor, bind_of_ok (current_eq s), hs]
  cases hkind : t.kind with
  | int =>
    cases hread : Text.readInt t.text with
    | ok i => exact exists_advance ⟨_, rfl⟩
    | error fault => cases fault <;> simp [Token.bare, hkind, numeralFault?, hread] at hfault
  | real =>
    cases hread : Text.readReal? t.text with
    | some x => exact exists_advance ⟨_, rfl⟩
    | none => simp [Token.bare, hkind, numeralFault?, hread] at hfault
  | bool => exact exists_advance ⟨_, rfl⟩
  | _ => simp [hkind] at ht

theorem factor_of_fault {b : Breakdown} (hfault : numeralFault? s.current.bare = some b) (n : Nat) :
    factor file (n + 1) s = fail file (.broken b) s := by
  rw [factor, bind_of_ok (current_eq s)]
  cases hkind : s.current.kind with
  | int =>
    cases hread : Text.readInt s.current.text with
    | ok i => simp [Token.bare, hkind, numeralFault?, hread] at hfault
    | error fault =>
      cases fault with
      | malformed | tooLong =>
        obtain rfl : _ = b := by simpa [Token.bare, hkind, numeralFault?, hread] using hfault
        rfl
  | real =>
    cases hread : Text.readReal? s.current.text with
    | some x => simp [Token.bare, hkind, numeralFault?, hread] at hfault
    | none =>
      obtain rfl : _ = b := by simpa [Token.bare, hkind, numeralFault?, hread] using hfault
      rfl
  | _ => simp [Token.bare, hkind, numeralFault?] at hfault

theorem rejects_factor (ht : t.kind ∉ factorStarts) :
    Rejects file t (.unexpected t.found) (range (factor file)) := by
  rintro _ ⟨n, rfl⟩ s rfl
  cases n with
  | zero => exact .inl endless_fail
  | succ n =>
    right
    rw [factor, bind_of_ok (current_eq s)]
    cases hkind : s.current.kind <;> first
      | exact absurd (by rw [hkind]; decide) ht
      | rfl

theorem factor_finishes : Finishes true [.int] neutral (range (factor file)) := by
  have hleads : Leads ⟨.int, "0", 1, 1⟩ (range (factor file)) (range pure) :=
    leads_constant (by decide) (by decide)
  refine ⟨[⟨.int, "0", 1, 1⟩], .inr (headed_cons (by simp)), fun rest hrest => ?_⟩
  exact hleads.replays (rests_pure.replays (by simp)) hrest.ne_nil

theorem prompt_constant (hs : s.Ends) (hk : s.current.kind ∈ [TokenKind.int, .real, .bool]) :
    ∀ m ∈ range (factor file), Prompt file true [.int] neutral (range (factor file)) m s := by
  cases hfault : numeralFault? s.current.bare with
  | none =>
    refine (leads_constant hk hfault).prompt foresees_pure hs ?_ (Nat.le_succ _)
    intro heof
    simp [heof] at hk
  | some b =>
    rintro _ ⟨n, rfl⟩
    cases n with
    | zero => exact endless_fail.prompt
    | succ n => exact prompt_of_broken (factor_of_fault hfault n) rfl

theorem foresees_factor (h : ForeseesPhrase file L (range (expression file)))
    (hfactor : ForeseesPhrase file L (range (factor file)))
    (hbody : ForeseesPhrase file L (range (uncurry (listBody file))))
    (happlications : ForeseesTail file L (range (uncurry (applications file)))) :
    ForeseesPhrase file (L + 1) (range (factor file)) := by
  have hclose : Foresees file L true [.rparen] neutral
      (inTurn {expect file .rparen} (range (pure : Expr → Parse Expr))) :=
    foresees_pure.after .rparen (by decide)
  -- The arguments of built-in functions stand side by side.
  have hone := h.before hclose (by decide)
  have htwo := h.before hone (by decide)
  have hthree := h.before htwo (by decide)
  refine ⟨factor_finishes, fun {s} hs hL => ?_⟩
  cases hk : s.current.kind with
  | minus => exact (leads_minus hk).prompt hfactor.alone hs (by simp [hk]) hL
  | hdWord | tlWord | lenWord =>
    have hopen := hone.after .lparen (by decide)
    exact (leads_builtin (by simp [hk])).prompt hopen hs (by simp [hk]) hL
  | mapWord => exact (leads_map hk).prompt (htwo.after .lparen (by decide)) hs (by simp [hk]) hL
  | foldlWord =>
    exact (leads_fold .left hk).prompt (hthree.after .lparen (by decide)) hs (by simp [hk]) hL
  | foldrWord =>
    exact (leads_fold .right hk).prompt (hthree.after .lparen (by decide)) hs (by simp [hk]) hL
  | lbracket => exact (leads_lbracket hk).prompt hbody hs (by simp [hk]) hL
  | lparen =>
    have hrest := happlications.after .rparen (by decide)
    exact (leads_lparen hk).prompt (h.before hrest (by decide)) hs (by simp [hk]) hL
  | int | real | bool => exact prompt_constant hs (by simp [hk])
  | ident => exact (leads_ident hk).prompt happlications hs (by simp [hk]) hL
  | _ => exact (rejects_factor (by rw [hk]; decide)).prompt factor_finishes

end Factors

section All

structure AllForesee (file : Option String) (L : Nat) : Prop where
  expression : ForeseesPhrase file L (range (expression file))
  logicalRest : ForeseesTail file L (range (uncurry (logicalRest file)))
  relational : ForeseesPhrase file L (range (relational file))
  additive : ForeseesPhrase file L (range (additive file))
  additiveRest : ForeseesTail file L (range (uncurry (additiveRest file)))
  product : ForeseesPhrase file L (range (product file))
  productRest : ForeseesTail file L (range (uncurry (productRest file)))
  factor : ForeseesPhrase file L (range (factor file))
  listTail : Foresees file L true [.rbracket] neutral
    (range (uncurry (listTail file)))
  applications : ForeseesTail file L (range (uncurry (applications file)))

theorem allForesee_zero (file : Option String) : AllForesee file 0 := by
  have hfactor : Finishes true [.int] neutral (range (factor file)) := factor_finishes
  have hproduct : Finishes true [.int] neutral (range (product file)) :=
    defers_product.finishes (hfactor.inTurn repeating_productRest.finishes (by decide)) (by decide)
  have hadditive : Finishes true [.int] neutral (range (additive file)) :=
    defers_additive.finishes (hproduct.inTurn repeating_additiveRest.finishes (by decide)) (by simp)
  have hrelational : Finishes true [.int] neutral (range (relational file)) :=
    defers_relational.finishes (hadditive.inTurn comparison_finishes (by decide)) (by simp)
  have hlogical : Finishes true [.int] neutral (range (logical file)) :=
    defers_logical.finishes (hrelational.inTurn repeating_logicalRest.finishes (by decide))
      (by simp)
  exact {
    expression := .zero (defers_expression.finishes hlogical (by decide))
    logicalRest := .zero repeating_logicalRest.finishes
    relational := .zero hrelational
    additive := .zero hadditive
    additiveRest := .zero repeating_additiveRest.finishes
    product := .zero hproduct
    productRest := .zero repeating_productRest.finishes
    factor := .zero hfactor
    listTail := .zero listTail_finishes
    applications := .zero applications_finishes }

theorem AllForesee.succ (h : AllForesee file L) : AllForesee file (L + 1) := by
  have hbody := foresees_listBody h.expression h.listTail
  have hfactor := foresees_factor h.expression h.factor hbody h.applications
  have hproduct := foresees_product (hfactor.inTurn h.productRest (by decide) le_rfl) h.relational
  have hadditive := defers_additive.foresees (hproduct.inTurn h.additiveRest (by decide) le_rfl)
  have hcomparison := foresees_comparison h.additive
  have hrelational := defers_relational.foresees (hadditive.inTurn hcomparison (by decide) le_rfl)
  have hlogical := defers_logical.foresees (hrelational.inTurn h.logicalRest (by decide) le_rfl)
  exact {
    expression := foresees_expression hlogical h.expression
    logicalRest := repeating_logicalRest.foresees h.relational h.logicalRest
    relational := hrelational
    additive := hadditive
    additiveRest := repeating_additiveRest.foresees h.product h.additiveRest
    product := hproduct
    productRest := repeating_productRest.foresees h.factor h.productRest
    factor := hfactor
    listTail := foresees_listTail h.expression h.listTail
    applications := foresees_applications h.expression h.applications }

theorem allForesee (file : Option String) (L : Nat) : AllForesee file L := by
  induction L with
  | zero => exact allForesee_zero file
  | succ L ih => exact ih.succ

end All

section Statements

def definition (file : Option String) (fuel : Nat) (name : Token) (loc : Loc) : Parse Expr := do
  let next ← current
  match next.kind with
  | .ident =>
    advance
    let _ ← expect file .assign
    let body ← expression file fuel
    return .val name.text (.lambda next.text body (some (next.loc file))) loc
  | _ =>
    let _ ← expect file .assign
    let value ← expression file fuel
    return .val name.text value loc

def definitions (file : Option String) : Set (Parse Expr) :=
  {m | ∃ fuel name loc, m = definition file fuel name loc}

theorem leads_parameter (ht : t.kind = .ident) : Leads t (definitions file)
    (inTurn {expect file .assign} (inTurn (range (expression file)) (range pure))) := by
  rintro _ ⟨fuel, name, loc, rfl⟩ s rfl
  right
  rw [definition, bind_of_ok (current_eq s), ht]
  exact exists_advance (mem_inTurn rfl fun _ => mem_inTurn ⟨fuel, rfl⟩ fun _ => ⟨_, rfl⟩)

theorem defers_definition : Defers (fun k => k ≠ .ident) (definitions file)
    (inTurn {expect file .assign} (inTurn (range (expression file)) (range pure))) := by
  rintro _ ⟨fuel, name, loc, rfl⟩ s hk
  refine .inr ⟨_, mem_inTurn rfl fun _ => mem_inTurn ⟨fuel, rfl⟩ fun e =>
    ⟨.val name.text e loc, rfl⟩, ?_⟩
  rw [definition, bind_of_ok (current_eq s)]
  cases hkind : s.current.kind with
  | ident => exact absurd hkind hk
  | _ => rfl

theorem foresees_definition (file : Option String) (L : Nat) :
    Foresees file L true [.assign] neutral (definitions file) := by
  have hvalue := (allForesee file L).expression.alone.after .assign (by decide)
  refine ⟨defers_definition.finishes hvalue.finishes (by decide), fun {s} hs hL => ?_⟩
  by_cases hk : s.current.kind = .ident
  · exact (leads_parameter hk).prompt hvalue hs (by simp [hk]) (by omega)
  · exact defers_definition.prompt hvalue (by decide) hs hk hL

theorem leads_val (ht : t.kind = .valWord) : Leads t (range (statement file))
    (inTurn {expect file .ident} (definitions file)) := by
  rintro _ ⟨fuel, rfl⟩ s rfl
  right
  rw [statement, bind_of_ok (kind_eq s), ht]
  dsimp only
  rw [bind_of_ok (here_eq file s)]
  exact exists_advance (mem_inTurn rfl fun _ => ⟨fuel, _, _, rfl⟩)

theorem defers_statement : Defers (fun k => k ≠ .valWord) (range (statement file))
    (range (expression file)) := by
  rintro _ ⟨fuel, rfl⟩ s hk
  refine .inr ⟨_, ⟨fuel, rfl⟩, ?_⟩
  rw [statement, bind_of_ok (kind_eq s)]
  cases hkind : s.current.kind with
  | valWord => exact absurd hkind hk
  | _ => rfl

theorem foresees_statement (file : Option String) (L : Nat) :
    ForeseesPhrase file L (range (statement file)) := by
  have hexpression := (allForesee file L).expression
  refine ⟨defers_statement.finishes hexpression.finishes (by decide), fun {s} hs hL => ?_⟩
  by_cases hk : s.current.kind = .valWord
  · have hname := (foresees_definition file L).after .ident (by decide)
    exact (leads_val hk).prompt hname hs (by simp [hk]) (by omega)
  · exact defers_statement.prompt hexpression (by decide) hs hk hL

theorem rests_statements : Rests (fun k => k = .eof)
    (range (uncurry (statements file))) := by
  rintro _ ⟨⟨fuel, n⟩, rfl⟩ s hk
  rw [Function.uncurry_apply_pair]
  cases n with
  | zero => exact accepts_endless
  | succ n => exact .inr ⟨[], s, statements_of_eof hk, rfl⟩

theorem defers_statements : Defers (fun k => k ≠ .eof)
    (range (uncurry (statements file)))
    (inTurn (range (statement file)) (inTurn {expect file .semicolon}
      (inTurn (range (uncurry (statements file))) (range pure)))) := by
  rintro _ ⟨⟨fuel, n⟩, rfl⟩ s hk
  rw [Function.uncurry_apply_pair]
  cases n with
  | zero => exact .inl endless_fail
  | succ n =>
    right
    rw [statements_of_ne_eof hk]
    exact ⟨_, mem_inTurn ⟨fuel, rfl⟩ fun _ => mem_inTurn rfl fun _ => mem_inTurn ⟨(fuel, n), rfl⟩
      fun _ => ⟨_, rfl⟩, rfl⟩

theorem foresees_statements (file : Option String) (L : Nat) :
    Foresees file L false [.int] [.eof] (range (uncurry (statements file))) := by
  have hfinish : Finishes false [.int] [.eof] (range (uncurry (statements file))) :=
    rests_statements.finishes (by simp)
  induction L with
  | zero => exact .zero hfinish
  | succ L ih =>
    refine ⟨hfinish, fun {s} hs hL => ?_⟩
    by_cases hk : s.current.kind = .eof
    · exact rests_statements.prompt (by simp) hk
    · have hsemicolon := ih.alone.after .semicolon (by decide)
      have hstatement := (foresees_statement file (L + 1)).inTurn hsemicolon (by decide) le_rfl
      exact defers_statements.prompt hstatement (by decide) hs hk hL

end Statements

end Parse

namespace Program

open Parse

variable {tokens tokens' : List Token} {file : Option String} {e : ParseError} {k : Nat}

def Terminated (tokens : List Token) : Prop :=
  ∃ body last, tokens = body ++ [last] ∧ last.kind = .eof

/-- Reading tokens as a program fails with an error at one of them: those before it have been read,
it is at hand, and the error is located there. -/
def FailsAt (tokens : List Token) (file : Option String) (k : Nat) (e : ParseError) : Prop :=
  ∃ s, program file (fuelFor tokens) (TokenStream.ofList tokens) = .error e s ∧
    s.toList = tokens.drop k ∧ e.loc = s.current.loc file

theorem program_eq_error_iff {fuel : Nat} {s s' : TokenStream} :
    program file fuel s = .error e s' ↔ Parse.statements file fuel fuel s = .error e s' := by
  rw [program, bind_of_ok (here_eq file s)]
  cases hread : Parse.statements file fuel fuel s with
  | ok es s₁ =>
    rw [bind_of_ok hread]
    constructor <;> intro h <;> cases h
  | error e' s₁ =>
    rw [bind_of_error hread]
    simp

theorem ofTokens_eq_error_iff : ofTokens tokens file = .error e ↔
    ∃ s, program file (fuelFor tokens) (TokenStream.ofList tokens) = .error e s := by
  unfold ofTokens
  cases program file (fuelFor tokens) (TokenStream.ofList tokens) with
  | ok p s => simp
  | error e' s => simp

theorem not_endless (h : Terminated tokens) :
    ¬ Endless (Parse.statements file (fuelFor tokens) (fuelFor tokens))
      (TokenStream.ofList tokens) := by
  rintro ⟨e, s, hread, he⟩
  obtain ⟨body, last, rfl, hlast⟩ := h
  have herror := ofTokens_eq_error_iff.mpr ⟨s, program_eq_error_iff.mpr hread⟩
  obtain ⟨_, t, _, -, -, hfault⟩ := fault_of_ofTokens hlast herror he
  exact numeralFault?_ne_endless _ hfault

theorem Terminated.ends (h : Terminated tokens) : (TokenStream.ofList tokens).Ends := by
  obtain ⟨body, last, rfl, hlast⟩ := h
  exact ends_ofList body hlast

theorem Terminated.toList (h : Terminated tokens) :
    (TokenStream.ofList tokens).toList = tokens := by
  obtain ⟨body, last, rfl, -⟩ := h
  exact toList_ofList (by simp)

/-- The statements of a program are read by one of the readers that look one token ahead. -/
theorem mem_statements (tokens : List Token) :
    Parse.statements file (fuelFor tokens) (fuelFor tokens) ∈
      range (uncurry (Parse.statements file)) :=
  ⟨(fuelFor tokens, fuelFor tokens), rfl⟩

theorem failsAt_of_refails {w rest : List Token} {t : Token} (hends : Terminated (w ++ t :: rest))
    (h : Refails (range (uncurry (Parse.statements file))) w (t :: rest) e)
    (hloc : e.loc = t.loc file) : FailsAt (w ++ t :: rest) file w.length e := by
  rcases h _ (mem_statements (w ++ t :: rest)) _ hends.toList with hend | ⟨s, hread, hs⟩
  · exact absurd hend (not_endless hends)
  · refine ⟨s, program_eq_error_iff.mpr hread, by rw [hs, List.drop_left], ?_⟩
    rw [TokenStream.current_of_toList hs, hloc]

theorem exists_ofTokens_of_replays {w : List Token} {last : Token} (hlast : last.kind = .eof)
    (h : Replays (range (uncurry (Parse.statements file))) w [last]) :
    ∃ p, ofTokens (w ++ [last]) file = .ok p := by
  have hends : Terminated (w ++ [last]) := ⟨w, last, rfl, hlast⟩
  rcases h _ (mem_statements (w ++ [last])) _ hends.toList with hend | ⟨es, s, hread, -⟩
  · exact absurd hend (not_endless hends)
  · exact ⟨⟨es, _⟩, ofTokens_eq_ok_iff.mpr ⟨s, program_eq_ok_iff.mpr ⟨rfl, hread⟩⟩⟩

/-- Syntax errors are at the first impossible token. If tokens up to the end of the text are no
program, then reading them fails at one of them. All tokens that are the same up to that token and
with it fail there with the same error, and some tokens that are the same before it are a
program. -/
theorem ofTokens_first_error (hends : Terminated tokens) (herror : ofTokens tokens file = .error e)
    (hcause : ∀ b, e.cause ≠ .broken b) :
    ∃ k, FailsAt tokens file k e ∧
      (∀ tokens', Terminated tokens' → tokens'.take (k + 1) = tokens.take (k + 1) →
        FailsAt tokens' file k e) ∧
      ∃ tokens', Terminated tokens' ∧ tokens'.take k = tokens.take k ∧
        ∃ p, ofTokens tokens' file = .ok p := by
  obtain ⟨s, hprogram⟩ := ofTokens_eq_error_iff.mp herror
  have hprompt := (foresees_statements file _).prompt hends.ends le_rfl _ (mem_statements tokens)
  obtain ⟨hloc, w, c, hw, hfail, -, hreplay⟩ :=
    hprompt.error (program_eq_error_iff.mp hprogram) hcause
  rw [hends.toList] at hw
  refine ⟨w.length, ⟨s, hprogram, by rw [hw, List.drop_left], hloc⟩, ?_, ?_⟩
  · intro tokens' hends' htake
    have hsplit : tokens' = w ++ s.current :: tokens'.drop (w.length + 1) := by
      conv_lhs => rw [← List.take_append_drop (w.length + 1) tokens', htake, hw]
      simp [TokenStream.toList, List.take_append]
    rw [hsplit] at hends' ⊢
    exact failsAt_of_refails hends' (hfail _ rfl) hloc
  · have hlast : (⟨.eof, "", 1, 1⟩ : Token).kind = .eof := rfl
    have hall := hreplay [⟨.eof, "", 1, 1⟩] (headed_cons (by simp))
    exact ⟨_, ⟨w ++ c, _, rfl, hlast⟩, by simp [hw], exists_ofTokens_of_replays hlast hall⟩

/-- A condition without its last branch fails at the token after the one before. -/
theorem ofTokens_first_error_else :
    let tokens : List Token :=
      [⟨.ifWord, "if", 1, 1⟩, ⟨.ident, "x", 1, 4⟩, ⟨.thenWord, "then", 1, 6⟩, ⟨.ident, "y", 1, 11⟩,
        ⟨.semicolon, ";", 1, 12⟩, ⟨.eof, "", 1, 13⟩]
    let e : ParseError := ⟨.expected .elseWord ";", ⟨1, 12, none⟩⟩
    Terminated tokens ∧ ofTokens tokens none = .error e ∧ (∀ b, e.cause ≠ .broken b) ∧
      ∃ k, FailsAt tokens none k e ∧
        (∀ tokens', Terminated tokens' → tokens'.take (k + 1) = tokens.take (k + 1) →
          FailsAt tokens' none k e) ∧
        ∃ tokens', Terminated tokens' ∧ tokens'.take k = tokens.take k ∧
          ∃ p, ofTokens tokens' none = .ok p := by
  intro tokens e
  have hends : Terminated tokens := ⟨tokens.dropLast, ⟨.eof, "", 1, 13⟩, rfl, rfl⟩
  have herror : ofTokens tokens none = .error e := by rfl
  have hcause : ∀ b, e.cause ≠ .broken b := by simp [e]
  exact ⟨hends, herror, hcause, ofTokens_first_error hends herror hcause⟩

end Program

end Minifun
