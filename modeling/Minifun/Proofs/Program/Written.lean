import Mathlib.Algebra.Group.Nat.Defs
import Minifun.Proofs.Program.Productions
import Minifun.Proofs.Text.Decimal

/-! # Writing expressions and reading them back

An expression is written with brackets only where its place demands them: every place has a level,
and an expression of a looser level is put in brackets there. The words are read as the expression,
up to places. Numerals must not be too long, and arguments that stand side by side must not go on
with each other.
-/

namespace Minifun

namespace Text

variable {cs : List Char} {c : Char}

theorem toNat_of_isDigit (h : c.isDigit = true) : 48 ≤ c.toNat ∧ c.toNat ≤ 57 := by
  simp only [Char.isDigit, Bool.and_eq_true, decide_eq_true_eq] at h
  exact ⟨h.1, h.2⟩

theorem isMargin_of_isDigit (h : c.isDigit = true) : isMargin c = false := by
  have hc := toNat_of_isDigit h
  simp only [isMargin, isBlank, Bool.and_eq_false_iff, Bool.or_eq_false_iff, beq_eq_false_iff_ne,
    decide_eq_false_iff_not]
  omega

theorem dropWhile_isMargin (h : ∀ c ∈ cs, c.isDigit = true) : cs.dropWhile isMargin = cs := by
  cases cs with
  | nil => rfl
  | cons c cs => exact List.dropWhile_cons_of_neg (by simp [isMargin_of_isDigit (h c (by simp))])

theorem leadingSign_of_digits (h : ∀ c ∈ cs, c.isDigit = true) : leadingSign cs = (false, cs) := by
  unfold leadingSign
  split
  · exact absurd (h '-' (by simp)) (by decide)
  · exact absurd (h '+' (by simp)) (by decide)
  · rfl

theorem decimalValue?_of_isDigit (h : c.isDigit = true) :
    decimalValue? c = some (c.toNat - 48) := by
  rw [decimalValue?, if_pos h]

theorem moreDigits_of_digits (h : ∀ c ∈ cs, c.isDigit = true) :
    moreDigits cs = (cs.map fun c => c.toNat - 48, []) := by
  induction cs with
  | nil => rfl
  | cons c cs ih =>
    obtain ⟨hc, hcs⟩ := List.forall_mem_cons.mp h
    unfold moreDigits
    split
    · rename_i heq
      exact nomatch heq
    · rename_i heq
      obtain ⟨rfl, -⟩ := List.cons.inj heq
      exact absurd hc (by decide)
    · rename_i heq
      obtain ⟨rfl, rfl⟩ := List.cons.inj heq
      simp [decimalValue?_of_isDigit hc, ih hcs]

theorem leadingDigits_of_digits (h : ∀ c ∈ cs, c.isDigit = true) :
    leadingDigits cs = (cs.map fun c => c.toNat - 48, []) := by
  cases cs with
  | nil => rfl
  | cons c cs =>
    obtain ⟨hc, hcs⟩ := List.forall_mem_cons.mp h
    simp [leadingDigits, decimalValue?_of_isDigit hc, moreDigits_of_digits hcs]

theorem readInt_repr (n : Nat) : readInt n.repr =
    if mostDigits < n.repr.length then .error (.tooLong n.repr.length) else .ok n := by
  have hdigits : ∀ c ∈ n.repr.toList, c.isDigit = true := fun c hc => isDigit_of_mem_nat hc
  have hchars : numeralChars n.repr = n.repr.toList := by
    rw [numeralChars, dropWhile_isMargin hdigits, dropEndWhile,
      dropWhile_isMargin (by simpa using hdigits), List.reverse_reverse]
  have hvalue : ofDigits (n.repr.toList.map fun c => c.toNat - 48) = n := by
    rw [ofDigits, List.foldl_map, Nat.toList_repr]
    exact Nat.ofDigitChars_toDigits (by decide) (by decide)
  have hlength : (n.repr.toList.map fun c => c.toNat - 48).length = n.repr.length := by
    rw [List.length_map, String.length_toList]
  have hne : (n.repr.toList.map fun c => c.toNat - 48) ≠ [] := by
    simp [Nat.toList_repr]
  simp only [readInt, hchars, leadingSign_of_digits hdigits, leadingDigits_of_digits hdigits]
  generalize (n.repr.toList.map fun c => c.toNat - 48) = ds at *
  cases ds with
  | nil => exact absurd rfl hne
  | cons d ds => simp [hlength, hvalue]

theorem length_repr_le_iff {n : Nat} : n.repr.length ≤ mostDigits ↔ n < 10 ^ mostDigits := by
  rw [← String.length_toList, Nat.toList_repr]
  exact Nat.length_toDigits_le_iff (by decide) (by decide)

end Text

namespace Grammar

def Level.rank : Level → Nat
  | .expression => 0
  | .logical => 1
  | .relational => 2
  | .sum => 3
  | .product => 4
  | .factors => 5
  | .factor => 6
  | .applied => 7

/-- The level of the left operand of an operator of a level. Comparisons do not nest. -/
def Level.left : Level → Level
  | .relational => .sum
  | level => level

def Level.right : Level → Level
  | .logical => .relational
  | .relational => .sum
  | .sum => .factors
  | .factors => .factor
  | level => level

def operatorLevel : BinOp → Level
  | .logic _ => .logical
  | .rel _ => .relational
  | .arith .add | .arith .sub => .sum
  | .arith _ | .concat => .factors
  | .other _ => .expression

def operatorKind : BinOp → TokenKind
  | .logic .and => .andWord
  | .logic .or => .orWord
  | .rel .lt => .lt
  | .rel .le => .le
  | .rel .gt => .gt
  | .rel .ge => .ge
  | .rel .eq => .eq
  | .rel .ne => .ne
  | .arith .add => .plus
  | .arith .sub => .minus
  | .arith .mul => .star
  | .arith .div => .slash
  | .arith .mod => .modWord
  | .concat => .concat
  | .other _ => .eof

/-- The tightest level that an expression has without brackets. -/
def levelOf : Expr → Level
  | .ident _ _ | .apply _ _ _ => .applied
  | .literal _ _ | .unary .neg _ _ | .list _ _ | .head _ _ | .tail _ _ | .length _ _ | .map _ _ _
  | .fold _ _ _ _ _ => .factor
  | .unary _ _ _ => .relational
  | .binary op _ _ _ => operatorLevel op
  | .cond _ _ _ _ | .lambda _ _ _ | .letIn _ _ _ _ | .val _ _ _ | .block _ _ => .expression

def inBrackets (ws : List Word) : List Word :=
  (.lparen, "(") :: (ws ++ [(.rparen, ")")])

/-- The words of an expression in a place of a level, with brackets if that demands them. -/
def placed (level : Level) (e : Expr) (ws : List Word) : List Word :=
  if level.rank ≤ (levelOf e).rank then ws else inBrackets ws

mutual

def written : Expr → List Word
  | .literal (.int n) _ => [(.int, toString n)]
  | .literal (.bool b) _ => [(.bool, if b then "true" else "false")]
  | .ident x _ => [(.ident, x)]
  | .unary .neg e _ => (.minus, "-") :: placed .factor e (written e)
  | .unary _ e _ => (.notWord, "not") :: placed .relational e (written e)
  | .binary op a b _ =>
    placed (operatorLevel op).left a (written a) ++
      (operatorKind op, op.symbol) :: placed (operatorLevel op).right b (written b)
  | .list [] _ => [(.lbracket, "["), (.rbracket, "]")]
  | .list (e :: es) _ => (.lbracket, "[") :: (written e ++ (writtenRest es ++ [(.rbracket, "]")]))
  | .head e _ => (.hdWord, "hd") :: inBrackets (written e)
  | .tail e _ => (.tlWord, "tl") :: inBrackets (written e)
  | .length e _ => (.lenWord, "len") :: inBrackets (written e)
  | .cond c a b _ =>
    (.ifWord, "if") :: (written c ++ (.thenWord, "then") ::
      (written a ++ (.elseWord, "else") :: written b))
  | .lambda x b _ => (.fnWord, "fn") :: (.ident, x) :: (.arrow, "->") :: written b
  | .apply f a _ => placed .applied f (written f) ++ inBrackets (written a)
  | .letIn x v b _ =>
    (.letWord, "let") :: (.ident, x) :: (.assign, ":=") ::
      (written v ++ (.inWord, "in") :: written b)
  | .map f xs _ => (.mapWord, "map") :: inBrackets (written f ++ written xs)
  | .fold side f i xs _ =>
    (foldWord side, side.keyword) :: inBrackets (written f ++ (written i ++ written xs))
  | .literal _ _ | .val _ _ _ | .block _ _ => []

def writtenRest : List Expr → List Word
  | [] => []
  | e :: es => (.comma, ",") :: (written e ++ writtenRest es)

end

def BeginsApart (e : Expr) : Prop :=
  ∀ w ∈ (written e).head?, w.1 ∉ [TokenKind.lparen, .minus]

/-- The expressions that can be written, with whole numbers from a set. Arguments that stand side by
side must begin apart. -/
inductive Writable (numbers : Nat → Prop) : Expr → Prop where
  | int {n : Nat} {loc} : numbers n → Writable numbers (.literal (.int n) loc)
  | bool {b loc} : Writable numbers (.literal (.bool b) loc)
  | ident {x loc} : Writable numbers (.ident x loc)
  | neg {e loc} : Writable numbers e → Writable numbers (.unary .neg e loc)
  | not {e loc} : Writable numbers e → Writable numbers (.unary .not e loc)
  | binary {op a b loc} : op ∈ BinOp.all → Writable numbers a → Writable numbers b →
      Writable numbers (.binary op a b loc)
  | list {es loc} : (∀ e ∈ es, Writable numbers e) → Writable numbers (.list es loc)
  | head {e loc} : Writable numbers e → Writable numbers (.head e loc)
  | tail {e loc} : Writable numbers e → Writable numbers (.tail e loc)
  | length {e loc} : Writable numbers e → Writable numbers (.length e loc)
  | cond {c a b loc} : Writable numbers c → Writable numbers a → Writable numbers b →
      Writable numbers (.cond c a b loc)
  | lambda {x b loc} : Writable numbers b → Writable numbers (.lambda x b loc)
  | apply {f a loc} : Writable numbers f → Writable numbers a → Writable numbers (.apply f a loc)
  | letIn {x v b loc} : Writable numbers v → Writable numbers b →
      Writable numbers (.letIn x v b loc)
  | map {f xs loc} : Writable numbers f → Writable numbers xs → BeginsApart xs →
      Writable numbers (.map f xs loc)
  | fold {side f i xs loc} : Writable numbers f → Writable numbers i → Writable numbers xs →
      BeginsApart i → BeginsApart xs → Writable numbers (.fold side f i xs loc)

end Grammar

namespace Parse

open Grammar

variable {file : Option String} {P : Expr → Prop} {ws rest : List Word} {level level' : Level}

def ReadsAs (file : Option String) (P : Expr → Prop) : Level → List Word → Prop
  | .expression => ReadsAt P (expression file) .expression
  | .logical => Opens P (logical file) (logicalRest file) .relational
  | .relational => ReadsAt P (relational file) .relational
  | .sum => Opens P (additive file) (additiveRest file) .product
  | .product => ReadsAt P (product file) .product
  | .factors => Opens P (product file) (productRest file) .factor
  | .factor => ReadsAt P (factor file) .factor
  | .applied => Opens P (factor file) (applications file) .applied

section Levels

def outer : Level → Level
  | .applied => .factor
  | .factor => .factors
  | .factors => .product
  | .product => .sum
  | .sum => .relational
  | .relational => .logical
  | .logical | .expression => .expression

theorem ReadsAs.outer (h : ReadsAs file P level ws) : ReadsAs file P (outer level) ws := by
  cases level with
  | expression => exact h
  | logical => exact fun rest hstop => (Opens.readsAt h looping_logicalRest rest hstop).expression
  | relational => exact opens_logical h
  | sum =>
    exact fun rest hstop =>
      (Opens.readsAt h looping_additiveRest rest (hstop.mono (by decide))).relational hstop
  | product => exact opens_additive h
  | factors =>
    exact fun rest hstop => Opens.readsAt h looping_productRest rest (hstop.mono (by decide))
  | factor => exact opens_product h
  | applied => exact Opens.factor h

theorem ReadsAs.mono (h : ReadsAs file P level ws) (hle : level'.rank ≤ level.rank) :
    ReadsAs file P level' ws := by
  induction hd : level.rank - level'.rank generalizing level with
  | zero =>
    obtain rfl : level = level' := by
      cases level <;> cases level' <;> simp [Level.rank] at hle hd ⊢
    exact h
  | succ d ih =>
    have hrank : (Parse.outer level).rank = level.rank - 1 := by cases level <;> rfl
    exact ih h.outer (by omega) (by omega)

theorem ReadsAs.loose (h : ReadsAs file P level ws) :
    ReadsAt P (expression file) .expression ws := by
  have hexpression : ReadsAs file P .expression ws := h.mono (Nat.zero_le _)
  exact hexpression

theorem ReadsAs.inBrackets (h : ReadsAs file P level ws) :
    ReadsAs file P .applied (inBrackets ws) :=
  opens_brackets h.loose

theorem ReadsAs.placed {e : Expr} (h : ReadsAs file P (levelOf e) ws) (level : Level) :
    ReadsAs file P level (placed level e ws) := by
  unfold Grammar.placed
  split
  · rename_i hle
    exact h.mono hle
  · exact h.inBrackets.mono (by cases level <;> decide)

/-- Words that do not begin with a bracket or a minus sign stop the expression before them. -/
theorem ReadsAt.stops (h : ReadsAt P (expression file) .expression ws)
    (hapart : ∀ w ∈ ws.head?, w.1 ∉ [TokenKind.lparen, .minus]) (hstop : Stops .expression rest) :
    Stops .expression (ws ++ rest) := by
  cases ws with
  | nil => exact hstop
  | cons w ws =>
    obtain ⟨k, t⟩ := w
    let token : Word → Token := fun w => ⟨w.1, w.2, 1, 1⟩
    let s : TokenStream := ⟨token (k, t), (ws ++ rest).map token⟩
    have hs : s.words = (k, t) :: ws ++ rest := by
      simp [TokenStream.words_eq, s, token, Token.bare, Function.comp_def]
    have hstart : k ∈ expressionStarts := by
      by_contra hk
      exact (h rest hstop).not_refuses hs (expression_refuses file hk)
    have hall : ∀ k ∈ expressionStarts, k ∉ [TokenKind.lparen, .minus] →
        k ∉ continuing .expression := by decide
    exact stops_cons.mpr (hall k hstart (hapart (k, t) (by simp)))

end Levels

def Is (e e' : Expr) : Prop :=
  e'.bare = e.bare

section Expressions

variable {e a b f xs i v : Expr} {op : BinOp} {loc : Option Loc} {x : String}

theorem readsAs_int {n : Nat} (hn : n < 10 ^ Text.mostDigits) :
    ReadsAs file (Is (.literal (.int n) loc)) .factor (written (.literal (.int n) loc)) := by
  have hread : Text.readInt (toString (n : Int)) = .ok n := by
    have hrepr : toString (n : Int) = n.repr := rfl
    rw [hrepr, Text.readInt_repr, if_neg (Nat.not_lt.mpr (Text.length_repr_le_iff.mpr hn))]
  exact readsAt_int hread fun _ => rfl

theorem readsAs_not (h : ReadsAs file (Is e) (levelOf e) (written e)) :
    ReadsAs file (Is (.unary .not e loc)) .relational (written (.unary .not e loc)) := by
  intro rest hstop
  have hread := h.placed .relational rest hstop
  have hnot := reads_not (t := "not") (R := Is (.unary .not e loc)) (by simp [hstop.ne_nil]) hread
    fun e' loc' he' => by simp_all [Is]
  exact (hnot.additive (hstop.mono (by decide))).relational hstop

theorem readsAs_binary (hop : op ∈ BinOp.all) (ha : ReadsAs file (Is a) (levelOf a) (written a))
    (hb : ReadsAs file (Is b) (levelOf b) (written b)) :
    ReadsAs file (Is (.binary op a b loc)) (operatorLevel op) (written (.binary op a b loc)) := by
  have hmem : ∀ op ∈ BinOp.all, (operatorKind op, op) ∈ operators (operatorLevel op) := by decide
  have hmem := hmem op hop
  have htree : ∀ a' b' loc', Is a a' → Is b b' → Is (.binary op a b loc) (.binary op a' b' loc') :=
    fun a' b' loc' ha' hb' => by simp_all [Is]
  have ha := ha.placed (operatorLevel op).left
  have hb := hb.placed (operatorLevel op).right
  rw [written]
  cases hlevel : operatorLevel op with
  | logical =>
    rw [hlevel] at ha hb hmem
    exact Opens.operator ha looping_logicalRest hmem hb htree
  | relational =>
    rw [hlevel] at ha hb hmem
    have hapart : ∀ w ∈ operators .relational, w.1 ∉ continuing .sum := by decide
    intro rest hstop
    refine reads_comparison hmem (Opens.readsAt ha looping_additiveRest _ ?_)
      (by simp [hstop.ne_nil]) (Opens.readsAt hb looping_additiveRest rest ?_) htree
    · exact stops_cons.mpr (hapart _ hmem)
    · exact hstop.mono (by decide)
  | sum =>
    rw [hlevel] at ha hb hmem
    exact Opens.operator ha looping_additiveRest hmem (ReadsAs.outer hb) htree
  | factors =>
    rw [hlevel] at ha hb hmem
    exact Opens.operator ha looping_productRest hmem hb htree
  | expression | product | factor | applied => simp [hlevel, operators] at hmem

theorem readsAs_elements {es : List Expr}
    (h : ∀ e ∈ es, ReadsAs file (Is e) (levelOf e) (written e)) (r : String) (rest : List Word) :
    Stops .expression (writtenRest es ++ (.rbracket, r) :: rest) ∧
      Reads (fun es' => Term.relocateAll (fun _ => none) es' = Term.relocateAll (fun _ => none) es)
        (elements file) (writtenRest es) ((.rbracket, r) :: rest) := by
  induction es with
  | nil => exact ⟨stops_cons.mpr (by decide), reads_noElements rfl (by decide)⟩
  | cons e es ih =>
    obtain ⟨he, hes⟩ := List.forall_mem_cons.mp h
    obtain ⟨hstop, hread⟩ := ih hes
    rw [writtenRest]
    refine ⟨stops_cons.mpr (by decide), ?_⟩
    exact reads_element (he.loose _ hstop) (by simp) hread fun e' es' he' hes' => by simp_all [Is]

theorem readsAs_list {es : List Expr}
    (h : ∀ e ∈ es, ReadsAs file (Is e) (levelOf e) (written e)) :
    ReadsAs file (Is (.list es loc)) .factor (written (.list es loc)) := by
  cases es with
  | nil =>
    rw [written]
    exact readsAt_nil fun _ => rfl
  | cons e es =>
    obtain ⟨he, hes⟩ := List.forall_mem_cons.mp h
    have hes := readsAs_elements hes "]"
    rw [written]
    exact readsAt_list (fun rest => he.loose _ (hes rest).1) (fun rest => (hes rest).2)
      fun e' es' _ he' hes' => by simp_all [Is]

theorem readsAs_map (hf : ReadsAs file (Is f) (levelOf f) (written f))
    (hxs : ReadsAs file (Is xs) (levelOf xs) (written xs)) (hapart : BeginsApart xs) :
    ReadsAs file (Is (.map f xs loc)) .factor (written (.map f xs loc)) := by
  rw [written, Grammar.inBrackets, List.append_assoc]
  exact readsAt_map hf.loose hxs.loose
    (fun rest => hxs.loose.stops hapart (stops_cons.mpr (by decide)))
    fun f' xs' _ hf' hxs' => by simp_all [Is]

theorem readsAs_fold {side : Side} (hf : ReadsAs file (Is f) (levelOf f) (written f))
    (hi : ReadsAs file (Is i) (levelOf i) (written i))
    (hxs : ReadsAs file (Is xs) (levelOf xs) (written xs)) (hapart : BeginsApart i)
    (hapart' : BeginsApart xs) :
    ReadsAs file (Is (.fold side f i xs loc)) .factor (written (.fold side f i xs loc)) := by
  have hstop : ∀ rest, Stops .expression (written xs ++ (.rparen, ")") :: rest) :=
    fun rest => hxs.loose.stops hapart' (stops_cons.mpr (by decide))
  rw [written, Grammar.inBrackets, List.append_assoc, List.append_assoc]
  exact readsAt_fold hf.loose hi.loose hxs.loose
    (fun rest => hi.loose.stops hapart (hstop rest)) hstop
    fun f' i' xs' _ hf' hi' hxs' => by simp_all [Is]

/-- Expressions are read from the words they are written with. -/
theorem readsAs_written (h : Writable (fun n => n < 10 ^ Text.mostDigits) e) :
    ReadsAs file (Is e) (levelOf e) (written e) := by
  induction h with
  | int hn => exact readsAs_int hn
  | @bool b =>
    refine readsAt_bool fun _ => ?_
    cases b <;> rfl
  | ident => exact opens_ident fun _ => rfl
  | neg _ ih => exact readsAt_neg (ih.placed .factor) fun e' _ he' => by simp_all [Is]
  | not _ ih => exact readsAs_not ih
  | binary hop _ _ iha ihb => exact readsAs_binary hop iha ihb
  | list _ ih => exact readsAs_list ih
  | head _ ih => exact readsAt_head ih.loose fun e' _ he' => by simp_all [Is]
  | tail _ ih => exact readsAt_tail ih.loose fun e' _ he' => by simp_all [Is]
  | length _ ih => exact readsAt_length ih.loose fun e' _ he' => by simp_all [Is]
  | cond _ _ _ ihc iha ihb =>
    exact readsAt_cond ihc.loose iha.loose ihb.loose fun _ _ _ _ _ _ _ => by simp_all [Is]
  | lambda _ ih => exact readsAt_lambda ih.loose fun e' _ he' => by simp_all [Is]
  | apply _ _ ihf iha =>
    exact Opens.apply (ihf.placed .applied) iha.loose fun _ _ _ _ _ => by simp_all [Is]
  | letIn _ _ ihv ihb =>
    exact readsAt_letIn ihv.loose ihb.loose fun _ _ _ _ _ => by simp_all [Is]
  | map _ _ hapart ihf ihxs => exact readsAs_map ihf ihxs hapart
  | fold _ _ _ hapart hapart' ihf ihi ihxs => exact readsAs_fold ihf ihi ihxs hapart hapart'

end Expressions

end Parse

namespace Program

open Grammar Parse

/-- Reading undoes writing. The words of an expression with a semicolon are a program of that
expression, up to places, if its whole numbers have at most 4300 digits. -/
theorem ofTokens_written {e : Expr} (h : Writable (fun n => n < 10 ^ Text.mostDigits) e)
    {body : List Token} {last : Token} {c : String}
    (hbody : body.map Token.bare = written e ++ [(.semicolon, c)]) (hlast : last.kind = .eof)
    (file : Option String) :
    ∃ p, ofTokens (body ++ [last]) file = .ok p ∧ p.statements.map Term.bare = [e.bare] := by
  have hexpression : ReadsAt (Is e) (expression file) .expression (written e) :=
    (readsAs_written h).loose
  have hbare : last.bare = (.eof, last.text) := by rw [Token.bare, hlast]
  refine exists_ofTokens (S := fun es => es.map Term.bare = [e.bare]) hlast fun n => ?_
  rw [hbody, hbare]
  refine reads_statements_cons (S := fun es => es = [])
    (hexpression _ (stops_cons.mpr (by decide))).statement (by simp)
    (fun n => reads_statements_nil (S := fun es => es = []) rfl n) (fun e' es he' hes => ?_) n
  have he' : e'.bare = e.bare := he'
  rw [hes, List.map_singleton, he']

/-- No brackets are needed after `not`, around the sum or around the negation. -/
theorem ofTokens_written_not :
    let sum : Expr := .binary (.arith .add)
      (.apply (.ident "f" none) (.literal (.int (1 : Nat)) none) none)
      (.literal (.int (2 : Nat)) none) none
    let less : Expr := .binary (.rel .lt) sum (.unary .neg (.ident "x" none) none) none
    let body : List Token := [⟨.notWord, "not", 1, 1⟩, ⟨.ident, "f", 1, 5⟩, ⟨.lparen, "(", 1, 6⟩,
      ⟨.int, "1", 1, 7⟩, ⟨.rparen, ")", 1, 8⟩, ⟨.plus, "+", 1, 10⟩, ⟨.int, "2", 1, 12⟩,
      ⟨.lt, "<", 1, 14⟩, ⟨.minus, "-", 1, 16⟩, ⟨.ident, "x", 1, 17⟩, ⟨.andWord, "and", 1, 19⟩,
      ⟨.ident, "b", 1, 23⟩, ⟨.semicolon, ";", 1, 24⟩]
    ∃ p, ofTokens (body ++ [⟨.eof, "", 1, 25⟩]) none = .ok p ∧ p.statements.map Term.bare =
      [.binary (.logic .and) (.unary .not less none) (.ident "b" none) none] := by
  intro sum less body
  have hnumber : ∀ n : Nat, n < 10 → n < 10 ^ Text.mostDigits := fun n hn =>
    Nat.lt_of_lt_of_le hn (Nat.le_self_pow (by decide) 10)
  have hsum : Writable (fun n => n < 10 ^ Text.mostDigits) sum :=
    .binary (by decide) (.apply .ident (.int (hnumber 1 (by decide))))
      (.int (hnumber 2 (by decide)))
  have hless : Writable (fun n => n < 10 ^ Text.mostDigits) less :=
    .binary (by decide) hsum (.neg .ident)
  have hand : Writable (fun n => n < 10 ^ Text.mostDigits)
      (.binary (.logic .and) (.unary .not less none) (.ident "b" none) none) :=
    .binary (by decide) (.not hless) .ident
  exact ofTokens_written hand rfl rfl none

/-- A whole number of more digits is written, but not read back. -/
theorem ofTokens_written_long : ¬ ∀ e : Expr, Writable (fun _ => True) e →
    ∀ (body : List Token) (last : Token) (c : String) (file : Option String),
      body.map Token.bare = written e ++ [(.semicolon, c)] → last.kind = .eof →
      ∃ p, ofTokens (body ++ [last]) file = .ok p ∧ p.statements.map Term.bare = [e.bare] := by
  intro h
  obtain ⟨n, hn⟩ : ∃ n, 10 ^ Text.mostDigits ≤ n := ⟨_, Nat.le_refl _⟩
  obtain ⟨p, hp, -⟩ := h (.literal (.int n) none) (.int trivial)
    [⟨.int, n.repr, 1, 1⟩, ⟨.semicolon, ";", 1, 2⟩] ⟨.eof, "", 1, 3⟩ ";" none rfl rfl
  have hpass := (derives_of_ofTokens (by simp) rfl hp).2 ⟨.int, n.repr, 1, 1⟩ (by simp)
  have hlong : Text.mostDigits < n.repr.length :=
    Nat.lt_of_not_le fun hle => Nat.not_lt.mpr hn (Text.length_repr_le_iff.mp hle)
  have hfault := hpass.2
  rw [Token.bare, numeralFault?, Text.readInt_repr, if_pos hlong] at hfault
  cases hfault

end Program

end Minifun
