import Minifun.Proofs.Binary64.Display
import Minifun.Proofs.Term.Places
import Minifun.Proofs.Text.Lines
import Minifun.Term.Dump

/-! # Reading dumps

A tree can be told from the lines of its dump, whatever lines follow. The first line says which kind
of tree it is, and so how many parts there are and which lines stand between them; the elements of a
list end where the line of the closing bracket stands in place of one more tree.
-/

namespace Minifun

open Text (OneLine OneLines)

def Value.isConstant : Value → Bool
  | int _ | real _ | bool _ => true
  | _ => false

/-- A tree without places that can be read off its dump: literals are constants, names have no line
feeds, and operators are those of the language. -/
inductive Legible : Expr → Prop where
  | literal {v} : v.isConstant = true → Legible (.literal v none)
  | ident {x} : OneLine x → Legible (.ident x none)
  | unary {op e} : op ∈ [UnOp.neg, .not] → Legible e → Legible (.unary op e none)
  | binary {op a b} : op ∈ BinOp.all → Legible a → Legible b → Legible (.binary op a b none)
  | list {es} : (∀ e ∈ es, Legible e) → Legible (.list es none)
  | head {e} : Legible e → Legible (.head e none)
  | tail {e} : Legible e → Legible (.tail e none)
  | length {e} : Legible e → Legible (.length e none)
  | cond {c a b} : Legible c → Legible a → Legible b → Legible (.cond c a b none)
  | lambda {x b} : OneLine x → Legible b → Legible (.lambda x b none)
  | apply {f a} : Legible f → Legible a → Legible (.apply f a none)
  | letIn {x a b} : OneLine x → Legible a → Legible b → Legible (.letIn x a b none)
  | val {x a} : OneLine x → Legible a → Legible (.val x a none)
  | map {f xs} : Legible f → Legible xs → Legible (.map f xs none)
  | fold {side f a xs} : Legible f → Legible a → Legible xs → Legible (.fold side f a xs none)
  | block {es} : (∀ e ∈ es, Legible e) → Legible (.block es none)

section Constants

variable {v w : Value}

theorem Value.oneLine_text (hv : v.isConstant = true) : OneLine v.text := by
  intro hnewline
  cases v with
  | int n => exact absurd (Text.mem_toString hnewline) (by decide)
  | real x => exact absurd (Binary64.mem_text hnewline) (by decide)
  | bool b => cases b <;> exact absurd hnewline (by decide)
  | list | closure | name | nothing => exact absurd hv (by simp [isConstant])

theorem Value.text_int_injective {m n : Int} (h : (int m).text = (int n).text) : m = n := by
  have hend : (toString m).toList ++ [] = (toString n).toList ++ [] := by
    rw [List.append_nil, List.append_nil]
    exact congrArg String.toList h
  exact (Text.toString_append_inj (by simp) (by simp) hend).1

theorem Value.text_bool_ne (b : Bool) :
    (∀ n, (bool b).text ≠ (int n).text) ∧ ∀ x, (bool b).text ≠ (real x).text := by
  obtain ⟨c, hc, hletter⟩ : ∃ c ∈ (bool b).text.toList, c ∈ ['t', 'l'] := by
    cases b
    · exact ⟨'l', by decide, by decide⟩
    · exact ⟨'t', by decide, by decide⟩
  have hint : ∀ c ∈ ['t', 'l'], ¬ (c = '-' ∨ c.isDigit = true) := by simp
  have hreal : ∀ c ∈ ['t', 'l'],
      ¬ (c.isDigit = true ∨ c ∈ ['.', 'e', '+', '-', 'i', 'n', 'f', 'a']) := by simp
  constructor
  · intro n h
    rw [h] at hc
    exact hint c hletter (Text.mem_toString hc)
  · intro x h
    rw [h] at hc
    exact hreal c hletter (Binary64.mem_text hc)

theorem Value.text_injective (hv : v.isConstant = true) (hw : w.isConstant = true)
    (h : v.text = w.text) : v = w := by
  cases v with
  | int n =>
    cases w with
    | int k => exact congrArg int (text_int_injective h)
    | real x => exact absurd h.symm (Binary64.text_ne_toString x n)
    | bool b => exact absurd h.symm ((text_bool_ne b).1 n)
    | list | closure | name | nothing => exact absurd hw (by simp [isConstant])
  | real x =>
    cases w with
    | int k => exact absurd h (Binary64.text_ne_toString x k)
    | real y => exact congrArg real (Binary64.text_injective h)
    | bool b => exact absurd h.symm ((text_bool_ne b).2 x)
    | list | closure | name | nothing => exact absurd hw (by simp [isConstant])
  | bool b =>
    cases w with
    | int k => exact absurd h ((text_bool_ne b).1 k)
    | real y => exact absurd h ((text_bool_ne b).2 y)
    | bool c => cases b <;> cases c <;> simp [text] at h ⊢
    | list | closure | name | nothing => exact absurd hw (by simp [isConstant])
  | list | closure | name | nothing => exact absurd hv (by simp [isConstant])

theorem BinOp.symbol_injective {op op' : BinOp} (h : op ∈ all) (h' : op' ∈ all)
    (hs : op.symbol = op'.symbol) : op = op' := by
  have hall : ∀ a ∈ all, ∀ b ∈ all, a.symbol = b.symbol → a = b := by decide
  exact hall op h op' h' hs

theorem UnOp.symbol_injective {op op' : UnOp} (h : op ∈ [neg, not]) (h' : op' ∈ [neg, not])
    (hs : op.symbol = op'.symbol) : op = op' := by
  have hall : ∀ a ∈ [neg, not], ∀ b ∈ [neg, not], a.symbol = b.symbol → a = b := by decide
  exact hall op h op' h' hs

theorem Side.keyword_injective {side side' : Side} (h : side.keyword = side'.keyword) :
    side = side' := by
  cases side <;> cases side' <;> simp [keyword] at h ⊢

end Constants

namespace Term

@[simp] def keyword : Expr → String
  | literal _ _ => "Literal("
  | ident _ _ => "Id("
  | unary _ _ _ => "UnaryOp("
  | binary _ _ _ _ => "BinaryOp("
  | list _ _ => "List("
  | head _ _ => "Head("
  | tail _ _ => "Tail("
  | length _ _ => "Len("
  | cond _ _ _ _ => "If("
  | lambda _ _ _ => "Lambda("
  | apply _ _ _ => "Apply("
  | letIn _ _ _ _ => "Let("
  | val _ _ _ => "Val("
  | map _ _ _ => "Map("
  | fold _ _ _ _ _ => "Fold("
  | block _ _ => "Program("

@[simp] def detail : Expr → String
  | literal v _ => v.text ++ ")"
  | ident x _ => x ++ ")"
  | unary op _ _ => op.symbol
  | binary op _ _ _ => op.symbol
  | letIn x _ _ _ | val x _ _ => x
  | fold side _ _ _ _ => side.keyword
  | list _ _ | head _ _ | tail _ _ | length _ _ | cond _ _ _ _ | lambda _ _ _ | apply _ _ _
  | map _ _ _ | block _ _ => ""

theorem head?_dumpLines (indent : Int) (e : Expr) (rest : List String) :
    (dumpLines indent e ++ rest).head? = some (margin indent ++ (e.keyword ++ e.detail)) := by
  cases e <;> simp [String.append_assoc]

theorem keyword_toList (e : Expr) :
    e.keyword.toList = e.keyword.toList.dropLast ++ ['('] ∧
      e.keyword.toList.dropLast.all (· != '(') = true ∧
      e.keyword.toList.head?.any (· != ' ') = true := by
  cases e <;> simp only [keyword] <;> decide

theorem toList_margin (indent : Int) :
    (margin indent).toList = List.replicate indent.toNat ' ' := by
  simp [margin, Text.blanks]

theorem margin_append_inj {indent indent' : Int} {s t : String} (hs : s.toList.head? ≠ some ' ')
    (ht : t.toList.head? ≠ some ' ') (h : margin indent ++ s = margin indent' ++ t) : s = t := by
  have hblank : ∀ {indent : Int}, ∀ c ∈ (margin indent).toList, (c == ' ') = true := by
    intro indent c hc
    rw [toList_margin] at hc
    exact beq_iff_eq.mpr (List.eq_of_mem_replicate hc)
  have hother : ∀ {s : String}, s.toList.head? ≠ some ' ' →
      ∀ c ∈ s.toList.head?, (c == ' ') = false := by
    intro s hs c hc
    rw [beq_eq_false_iff_ne]
    rintro rfl
    exact hs hc
  rw [← String.toList_inj, String.toList_append, String.toList_append] at h
  exact String.toList_inj.mp (Text.append_inj_of_all hblank hblank (hother hs) (hother ht) h).2

theorem head?_keyword_ne (e : Expr) (s : String) : (e.keyword ++ s).toList.head? ≠ some ' ' := by
  obtain ⟨c, hc, hblank⟩ := (Option.any_eq_true ..).mp (keyword_toList e).2.2
  rw [String.toList_append, List.head?_append, hc]
  rintro ⟨⟩
  cases hblank

/-- The first line of a dump says what kind of tree it is. -/
theorem opening_inj {indent indent' : Int} {e e' : Expr}
    (h : margin indent ++ (e.keyword ++ e.detail) = margin indent' ++ (e'.keyword ++ e'.detail)) :
    e.keyword = e'.keyword ∧ e.detail = e'.detail := by
  have hline := margin_append_inj (head?_keyword_ne e _) (head?_keyword_ne e' _) h
  obtain ⟨hk, hall, -⟩ := keyword_toList e
  obtain ⟨hk', hall', -⟩ := keyword_toList e'
  have hbracket : ∀ ds : List Char, ∀ d ∈ ('(' :: ds).head?, (d != '(') = false := by
    rintro ds _ ⟨⟩
    rfl
  rw [← String.toList_inj, String.toList_append, String.toList_append, hk, hk', List.append_assoc,
    List.append_assoc] at hline
  obtain ⟨hword, hdetail⟩ := Text.append_inj_of_all (List.all_eq_true.mp hall)
    (List.all_eq_true.mp hall') (hbracket _) (hbracket _) hline
  refine ⟨String.toList_inj.mp (by rw [hk, hk', hword]), ?_⟩
  exact String.toList_inj.mp (List.cons.inj hdetail).2

theorem dumpLines_opening_inj {indent indent' : Int} {e e' : Expr} {rest rest' : List String}
    (h : dumpLines indent e ++ rest = dumpLines indent' e' ++ rest') :
    e.keyword = e'.keyword ∧ e.detail = e'.detail := by
  have hhead := congrArg List.head? h
  rw [head?_dumpLines, head?_dumpLines] at hhead
  exact opening_inj (Option.some.inj hhead)

/-- The line of a closing bracket does not begin a dump. -/
theorem closing_ne {indent indent' : Int} {e : Expr} {rest rest' : List String} :
    (margin indent ++ ")") :: rest ≠ dumpLines indent' e ++ rest' := by
  intro h
  have hhead := congrArg List.head? h
  rw [head?_dumpLines, List.head?_cons] at hhead
  have hline := margin_append_inj (by decide) (head?_keyword_ne e _) (Option.some.inj hhead)
  have hfirst := congrArg (fun s => s.toList.head?) hline
  cases e <;> simp at hfirst

/-- A tree is told from the lines of its dump and what follows them. -/
def Readable (e : Expr) : Prop :=
  ∀ ⦃indent : Int⦄ ⦃e' : Expr⦄ ⦃rest rest' : List String⦄, Legible e' →
    dumpLines indent e ++ rest = dumpLines indent e' ++ rest' → e = e' ∧ rest = rest'

theorem dumpAll_append_inj {es es' : List Expr} {indent outer : Int} {rest rest' : List String}
    (hes : ∀ e ∈ es, Readable e) (hes' : ∀ e ∈ es', Legible e)
    (h : dumpAll indent es ++ (margin outer ++ ")") :: rest =
      dumpAll indent es' ++ (margin outer ++ ")") :: rest') :
    es = es' ∧ rest = rest' := by
  induction es generalizing es' with
  | nil =>
    cases es' with
    | nil => exact ⟨rfl, (List.cons.inj h).2⟩
    | cons e' es' =>
      rw [dumpAll, dumpAll, List.append_assoc] at h
      exact absurd h closing_ne
  | cons e es ih =>
    cases es' with
    | nil =>
      rw [dumpAll, dumpAll, List.append_assoc] at h
      exact absurd h.symm closing_ne
    | cons e' es' =>
      obtain ⟨he, hes⟩ := List.forall_mem_cons.mp hes
      obtain ⟨he', hes'⟩ := List.forall_mem_cons.mp hes'
      rw [dumpAll, dumpAll, List.append_assoc, List.append_assoc] at h
      obtain ⟨he, h⟩ := he he' h
      obtain ⟨hes, hrest⟩ := ih hes hes' h
      exact ⟨by rw [he, hes], hrest⟩

section Constructors

variable {e c a b f xs : Expr} {es : List Expr} {v : Value} {x : String}

theorem readable_literal (hv : v.isConstant = true) : Readable (.literal v none) := by
  intro indent e' rest rest' h' heq
  obtain ⟨hkeyword, hdetail⟩ := dumpLines_opening_inj heq
  cases h' with
  | literal hw =>
    obtain rfl := Value.text_injective hv hw ((String.append_left_inj _).mp hdetail)
    exact ⟨rfl, (List.cons.inj heq).2⟩
  | _ => simp at hkeyword

theorem readable_ident : Readable (.ident x none) := by
  intro indent e' rest rest' h' heq
  obtain ⟨hkeyword, hdetail⟩ := dumpLines_opening_inj heq
  cases h' with
  | ident =>
    obtain rfl := (String.append_left_inj _).mp hdetail
    exact ⟨rfl, (List.cons.inj heq).2⟩
  | _ => simp at hkeyword

theorem Readable.unary {op : UnOp} (hop : op ∈ [UnOp.neg, .not]) (he : Readable e) :
    Readable (.unary op e none) := by
  intro indent e' rest rest' h' heq
  obtain ⟨hkeyword, hdetail⟩ := dumpLines_opening_inj heq
  cases h' with
  | unary hop' he' =>
    obtain rfl := UnOp.symbol_injective hop hop' hdetail
    simp only [dumpLines, List.cons_append, List.append_assoc, List.nil_append, List.cons.injEq,
      true_and] at heq
    obtain ⟨he, heq⟩ := he he' heq
    exact ⟨by rw [he], (List.cons.inj heq).2⟩
  | _ => simp at hkeyword

theorem Readable.binary {op : BinOp} (hop : op ∈ BinOp.all) (ha : Readable a) (hb : Readable b) :
    Readable (.binary op a b none) := by
  intro indent e' rest rest' h' heq
  obtain ⟨hkeyword, hdetail⟩ := dumpLines_opening_inj heq
  cases h' with
  | binary hop' ha' hb' =>
    obtain rfl := BinOp.symbol_injective hop hop' hdetail
    simp only [dumpLines, List.cons_append, List.append_assoc, List.nil_append, List.cons.injEq,
      true_and] at heq
    obtain ⟨ha, heq⟩ := ha ha' heq
    obtain ⟨hb, heq⟩ := hb hb' heq
    exact ⟨by rw [ha, hb], (List.cons.inj heq).2⟩
  | _ => simp at hkeyword

theorem Readable.head (he : Readable e) : Readable (.head e none) := by
  intro indent e' rest rest' h' heq
  obtain ⟨hkeyword, -⟩ := dumpLines_opening_inj heq
  cases h' with
  | head he' =>
    simp only [dumpLines, List.cons_append, List.append_assoc, List.nil_append, List.cons.injEq,
      true_and] at heq
    obtain ⟨he, heq⟩ := he he' heq
    exact ⟨by rw [he], (List.cons.inj heq).2⟩
  | _ => simp at hkeyword

theorem Readable.tail (he : Readable e) : Readable (.tail e none) := by
  intro indent e' rest rest' h' heq
  obtain ⟨hkeyword, -⟩ := dumpLines_opening_inj heq
  cases h' with
  | tail he' =>
    simp only [dumpLines, List.cons_append, List.append_assoc, List.nil_append, List.cons.injEq,
      true_and] at heq
    obtain ⟨he, heq⟩ := he he' heq
    exact ⟨by rw [he], (List.cons.inj heq).2⟩
  | _ => simp at hkeyword

theorem Readable.length (he : Readable e) : Readable (.length e none) := by
  intro indent e' rest rest' h' heq
  obtain ⟨hkeyword, -⟩ := dumpLines_opening_inj heq
  cases h' with
  | length he' =>
    simp only [dumpLines, List.cons_append, List.append_assoc, List.nil_append, List.cons.injEq,
      true_and] at heq
    obtain ⟨he, heq⟩ := he he' heq
    exact ⟨by rw [he], (List.cons.inj heq).2⟩
  | _ => simp at hkeyword

theorem Readable.cond (hc : Readable c) (ha : Readable a) (hb : Readable b) :
    Readable (.cond c a b none) := by
  intro indent e' rest rest' h' heq
  obtain ⟨hkeyword, -⟩ := dumpLines_opening_inj heq
  cases h' with
  | cond hc' ha' hb' =>
    simp only [dumpLines, List.cons_append, List.append_assoc, List.nil_append, List.cons.injEq,
      true_and] at heq
    obtain ⟨hc, heq⟩ := hc hc' heq
    obtain ⟨ha, heq⟩ := ha ha' (List.cons.inj heq).2
    obtain ⟨hb, heq⟩ := hb hb' (List.cons.inj heq).2
    exact ⟨by rw [hc, ha, hb], (List.cons.inj heq).2⟩
  | _ => simp at hkeyword

theorem Readable.lambda (hb : Readable b) : Readable (.lambda x b none) := by
  intro indent e' rest rest' h' heq
  obtain ⟨hkeyword, -⟩ := dumpLines_opening_inj heq
  cases h' with
  | lambda hx' hb' =>
    simp only [dumpLines, List.cons_append, List.append_assoc, List.nil_append, List.cons.injEq,
      true_and] at heq
    obtain ⟨hx, heq⟩ := heq
    obtain rfl := (String.append_right_inj _).mp hx
    obtain ⟨hb, heq⟩ := hb hb' heq
    exact ⟨by rw [hb], (List.cons.inj heq).2⟩
  | _ => simp at hkeyword

theorem Readable.apply (hf : Readable f) (ha : Readable a) : Readable (.apply f a none) := by
  intro indent e' rest rest' h' heq
  obtain ⟨hkeyword, -⟩ := dumpLines_opening_inj heq
  cases h' with
  | apply hf' ha' =>
    simp only [dumpLines, List.cons_append, List.append_assoc, List.nil_append, List.cons.injEq,
      true_and] at heq
    obtain ⟨hf, heq⟩ := hf hf' heq
    obtain ⟨ha, heq⟩ := ha ha' (List.cons.inj heq).2
    exact ⟨by rw [hf, ha], (List.cons.inj heq).2⟩
  | _ => simp at hkeyword

theorem Readable.letIn (ha : Readable a) (hb : Readable b) : Readable (.letIn x a b none) := by
  intro indent e' rest rest' h' heq
  obtain ⟨hkeyword, hdetail⟩ := dumpLines_opening_inj heq
  cases h' with
  | letIn hx' ha' hb' =>
    obtain rfl : x = _ := hdetail
    simp only [dumpLines, List.cons_append, List.append_assoc, List.nil_append, List.cons.injEq,
      true_and] at heq
    obtain ⟨ha, heq⟩ := ha ha' heq
    obtain ⟨hb, heq⟩ := hb hb' (List.cons.inj heq).2
    exact ⟨by rw [ha, hb], (List.cons.inj heq).2⟩
  | _ => simp at hkeyword

theorem Readable.val (ha : Readable a) : Readable (.val x a none) := by
  intro indent e' rest rest' h' heq
  obtain ⟨hkeyword, hdetail⟩ := dumpLines_opening_inj heq
  cases h' with
  | val hx' ha' =>
    obtain rfl : x = _ := hdetail
    simp only [dumpLines, List.cons_append, List.append_assoc, List.nil_append, List.cons.injEq,
      true_and] at heq
    obtain ⟨ha, heq⟩ := ha ha' heq
    exact ⟨by rw [ha], (List.cons.inj heq).2⟩
  | _ => simp at hkeyword

theorem Readable.map (hf : Readable f) (hxs : Readable xs) : Readable (.map f xs none) := by
  intro indent e' rest rest' h' heq
  obtain ⟨hkeyword, -⟩ := dumpLines_opening_inj heq
  cases h' with
  | map hf' hxs' =>
    simp only [dumpLines, List.cons_append, List.append_assoc, List.nil_append, List.cons.injEq,
      true_and] at heq
    obtain ⟨hf, heq⟩ := hf hf' heq
    obtain ⟨hxs, heq⟩ := hxs hxs' heq
    exact ⟨by rw [hf, hxs], (List.cons.inj heq).2⟩
  | _ => simp at hkeyword

theorem Readable.fold {side : Side} (hf : Readable f) (ha : Readable a) (hxs : Readable xs) :
    Readable (.fold side f a xs none) := by
  intro indent e' rest rest' h' heq
  obtain ⟨hkeyword, hdetail⟩ := dumpLines_opening_inj heq
  cases h' with
  | fold hf' ha' hxs' =>
    obtain rfl := Side.keyword_injective hdetail
    simp only [dumpLines, List.cons_append, List.append_assoc, List.nil_append, List.cons.injEq,
      true_and] at heq
    obtain ⟨hf, heq⟩ := hf hf' heq
    obtain ⟨ha, heq⟩ := ha ha' heq
    obtain ⟨hxs, heq⟩ := hxs hxs' heq
    exact ⟨by rw [hf, ha, hxs], (List.cons.inj heq).2⟩
  | _ => simp at hkeyword

theorem readable_list (hes : ∀ e ∈ es, Readable e) : Readable (.list es none) := by
  intro indent e' rest rest' h' heq
  obtain ⟨hkeyword, -⟩ := dumpLines_opening_inj heq
  cases h' with
  | list hes' =>
    simp only [dumpLines, List.cons_append, List.append_assoc, List.nil_append, List.cons.injEq,
      true_and] at heq
    obtain ⟨rfl, hrest⟩ := dumpAll_append_inj hes hes' heq
    exact ⟨rfl, hrest⟩
  | _ => simp at hkeyword

theorem readable_block (hes : ∀ e ∈ es, Readable e) : Readable (.block es none) := by
  intro indent e' rest rest' h' heq
  obtain ⟨hkeyword, -⟩ := dumpLines_opening_inj heq
  cases h' with
  | block hes' =>
    simp only [dumpLines, List.cons_append, List.append_assoc, List.nil_append, List.cons.injEq,
      true_and] at heq
    obtain ⟨rfl, hrest⟩ := dumpAll_append_inj hes hes' heq
    exact ⟨rfl, hrest⟩
  | _ => simp at hkeyword

end Constructors

/-- Legible trees are told from their dumps. -/
theorem readable_of_legible {e : Expr} (h : Legible e) : Readable e := by
  induction h with
  | literal hv => exact readable_literal hv
  | ident => exact readable_ident
  | unary hop _ ih => exact .unary hop ih
  | binary hop _ _ iha ihb => exact .binary hop iha ihb
  | list _ ih => exact readable_list ih
  | head _ ih => exact .head ih
  | tail _ ih => exact .tail ih
  | length _ ih => exact .length ih
  | cond _ _ _ ihc iha ihb => exact .cond ihc iha ihb
  | lambda _ _ ih => exact .lambda ih
  | apply _ _ ihf iha => exact .apply ihf iha
  | letIn _ _ _ iha ihb => exact .letIn iha ihb
  | val _ _ ih => exact .val ih
  | map _ _ ihf ihxs => exact .map ihf ihxs
  | fold _ _ _ ihf iha ihxs => exact .fold ihf iha ihxs
  | block _ ih => exact readable_block ih

@[simp] theorem oneLine_margin (indent : Int) : OneLine (margin indent) :=
  Text.oneLine_blanks _

theorem oneLines_dumpAll {es : List Expr} (h : ∀ e ∈ es, ∀ indent, OneLines (dumpLines indent e))
    (indent : Int) : OneLines (dumpAll indent es) := by
  induction es with
  | nil => exact Text.oneLines_nil
  | cons e es ih =>
    obtain ⟨he, hes⟩ := List.forall_mem_cons.mp h
    rw [dumpAll, Text.oneLines_append]
    exact ⟨he indent, ih hes⟩

theorem oneLines_dumpLines {e : Expr} (h : Legible e) (indent : Int) :
    OneLines (dumpLines indent e) := by
  have hunary : ∀ op ∈ [UnOp.neg, .not], OneLine op.symbol := by decide
  have hbinary : ∀ op ∈ BinOp.all, OneLine op.symbol := by decide
  have hside : ∀ side : Side, OneLine side.keyword := by
    intro side
    cases side <;> decide
  induction h generalizing indent with
  | literal hv => simp +decide [Value.oneLine_text hv]
  | ident hx => simp +decide [hx]
  | unary hop _ ih => simp +decide [hunary _ hop, ih]
  | binary hop _ _ iha ihb => simp +decide [hbinary _ hop, iha, ihb]
  | list _ ih | block _ ih => simp +decide [oneLines_dumpAll ih]
  | head _ ih | tail _ ih | length _ ih => simp +decide [ih]
  | cond _ _ _ ihc iha ihb => simp +decide [ihc, iha, ihb]
  | lambda hx _ ih | val hx _ ih => simp +decide [hx, ih]
  | apply _ _ iha ihb | map _ _ iha ihb => simp +decide [iha, ihb]
  | letIn hx _ _ iha ihb => simp +decide [hx, iha, ihb]
  | fold _ _ _ ihf iha ihxs => simp +decide [hside, ihf, iha, ihxs]

theorem dumpLines_ne_nil (indent : Int) (e : Expr) : dumpLines indent e ≠ [] := by
  intro hnil
  have hhead := head?_dumpLines indent e []
  simp [hnil] at hhead

theorem eq_of_dump {e e' : Expr} (h : Legible e) (h' : Legible e') {indent : Int}
    (hdump : dump indent e = dump indent e') : e = e' := by
  have hlines := Text.joinLines_injective (dumpLines_ne_nil indent e) (oneLines_dumpLines h indent)
    (dumpLines_ne_nil indent e') (oneLines_dumpLines h' indent) hdump
  have happend : dumpLines indent e ++ [] = dumpLines indent e' ++ [] := by rw [hlines]
  exact (readable_of_legible h h' happend).1

theorem relocateAll_eq_map (g : Option Loc → Option Loc) (es : List Expr) :
    relocateAll g es = es.map (relocate g) := by
  induction es with
  | nil => rfl
  | cons e es ih => rw [relocateAll, ih, List.map_cons]

mutual

theorem dumpLines_relocate (g : Option Loc → Option Loc) :
    ∀ (indent : Int) (e : Expr), dumpLines indent (e.relocate g) = dumpLines indent e
  | _, .literal _ _ | _, .ident _ _ => by simp
  | indent, .unary _ e _ | indent, .head e _ | indent, .tail e _ | indent, .length e _
  | indent, .val _ e _ => by
    simp [dumpLines_relocate g (indent + 2) e]
  | indent, .lambda _ b _ => by simp [dumpLines_relocate g (indent + 4) b]
  | indent, .binary _ a b _ | indent, .map a b _ => by
    simp [dumpLines_relocate g (indent + 2) a, dumpLines_relocate g (indent + 2) b]
  | indent, .apply a b _ => by
    simp [dumpLines_relocate g (indent + 4) a, dumpLines_relocate g (indent + 4) b]
  | indent, .letIn _ a b _ => by
    simp [dumpLines_relocate g (indent + 2) a, dumpLines_relocate g (indent + 4) b]
  | indent, .cond a b c _ => by
    simp [dumpLines_relocate g (indent + 2) a, dumpLines_relocate g (indent + 4) b,
      dumpLines_relocate g (indent + 4) c]
  | indent, .fold _ a b c _ => by
    simp [dumpLines_relocate g (indent + 2) a, dumpLines_relocate g (indent + 2) b,
      dumpLines_relocate g (indent + 2) c]
  | indent, .list es _ | indent, .block es _ => by
    simp [dumpAll_relocate g (indent + 2) es]

theorem dumpAll_relocate (g : Option Loc → Option Loc) :
    ∀ (indent : Int) (es : List Expr), dumpAll indent (relocateAll g es) = dumpAll indent es
  | _, [] => rfl
  | indent, e :: es => by
    simp [dumpLines_relocate g indent e, dumpAll_relocate g indent es]

end

end Term

end Minifun
