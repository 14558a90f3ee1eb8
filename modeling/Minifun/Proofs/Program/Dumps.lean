import Minifun.Proofs.Program.Breakdowns
import Minifun.Proofs.Term.Readability
import Minifun.Proofs.Token.Layout

/-! # Dumps of programs

What is read from a text is legible: the names of its tokens have no line feeds, and so do the names
in a derivation. A program can therefore be told from its dump, but for its places.
-/

namespace Minifun

open Text (OneLine)

namespace Token

theorem Lexeme.newline_not_mem {cs : List Char} {kind : TokenKind} (h : Lexeme kind cs)
    (hkind : kind = .ident) : '\n' ∉ cs := by
  cases h with
  | word hc hcs =>
    intro hmem
    rcases List.mem_cons.mp hmem with rfl | hmem
    · exact absurd (isWordChar_of_isWordStart hc) (by decide)
    · exact absurd (hcs _ hmem) (by decide)
  | single hk =>
    rw [hkind] at hk
    exact absurd hk (by unfold symbol?; split <;> simp)
  | pair hk =>
    rw [hkind] at hk
    exact absurd hk (by unfold pairSymbol?; split <;> simp)
  | int | real => cases hkind

theorem oneLine_of_lex {source : String} {file : Option String} {ts : List Token}
    (h : lex source file = .ok ts) : ∀ t ∈ ts, t.kind = .ident → OneLine t.text := by
  obtain ⟨pieces, final, -, -, rfl, hsits⟩ :=
    @lexFrom_layout file _ [] _ ts (Nat.lt_succ_self _) h
  intro t ht hkind
  rcases List.mem_append.mp ht with ht | ht
  · obtain ⟨⟨gap, t'⟩, hpiece, rfl⟩ := List.mem_map.mp ht
    obtain ⟨front, back, hsplit⟩ := List.append_of_mem hpiece
    exact (hsits front gap t' back hsplit).lexeme.newline_not_mem hkind
  · obtain rfl := List.mem_singleton.mp ht
    cases hkind

end Token

namespace Grammar

def OneLineNames (ws : List Word) : Prop :=
  ∀ w ∈ ws, w.1 = .ident → OneLine w.2

@[simp] theorem oneLineNames_nil : OneLineNames [] := by
  simp [OneLineNames]

@[simp] theorem oneLineNames_cons {w : Word} {ws : List Word} :
    OneLineNames (w :: ws) ↔ (w.1 = .ident → OneLine w.2) ∧ OneLineNames ws :=
  List.forall_mem_cons

@[simp] theorem oneLineNames_append {us vs : List Word} :
    OneLineNames (us ++ vs) ↔ OneLineNames us ∧ OneLineNames vs :=
  List.forall_mem_append

def Phrase.Legible : Phrase → Prop
  | .expr _ e => Minifun.Legible e
  | .elements es => ∀ e ∈ es, Minifun.Legible e

theorem mem_all_of_operators {level : Level} {k : TokenKind} {op : BinOp}
    (h : (k, op) ∈ operators level) : op ∈ BinOp.all := by
  have hall : ∀ x ∈ operators level, x.2 ∈ BinOp.all := by
    cases level <;> decide
  exact hall _ h

/-- Words derive legible trees if the names among them are on one line. -/
theorem Derives.legible {phrase : Phrase} {ws : List Word} (h : Derives phrase ws)
    (hws : OneLineNames ws) : phrase.Legible := by
  induction h with
  | ofLogical _ ih | ofRelational _ ih | ofSum _ ih | ofProduct _ ih | ofFactors _ ih
  | ofFactor _ ih | ofApplied _ ih => exact ih hws
  | letIn _ _ iha ihb =>
    simp only [oneLineNames_cons, oneLineNames_append] at hws
    obtain ⟨-, hx, -, ha, -, hb⟩ := hws
    exact .letIn (hx trivial) (iha ha) (ihb hb)
  | cond _ _ _ ihc iha ihb =>
    simp only [oneLineNames_cons, oneLineNames_append] at hws
    obtain ⟨-, hc, -, ha, -, hb⟩ := hws
    exact .cond (ihc hc) (iha ha) (ihb hb)
  | lambda _ ih =>
    simp only [oneLineNames_cons] at hws
    obtain ⟨-, hx, -, hb⟩ := hws
    exact .lambda (hx trivial) (ih hb)
  | logic _ hop _ iha ihb | comparison _ hop _ iha ihb | addition _ hop _ iha ihb
  | multiplication _ hop _ iha ihb =>
    simp only [oneLineNames_cons, oneLineNames_append] at hws
    obtain ⟨ha, -, hb⟩ := hws
    exact .binary (mem_all_of_operators hop) (iha ha) (ihb hb)
  | not _ ih | neg _ ih => exact .unary (by simp) (ih (oneLineNames_cons.mp hws).2)
  | head _ ih =>
    simp only [oneLineNames_cons, oneLineNames_append] at hws
    obtain ⟨-, -, he, -⟩ := hws
    exact .head (ih he)
  | tail _ ih =>
    simp only [oneLineNames_cons, oneLineNames_append] at hws
    obtain ⟨-, -, he, -⟩ := hws
    exact .tail (ih he)
  | length _ ih =>
    simp only [oneLineNames_cons, oneLineNames_append] at hws
    obtain ⟨-, -, he, -⟩ := hws
    exact .length (ih he)
  | map _ _ ihf ihxs =>
    simp only [oneLineNames_cons, oneLineNames_append] at hws
    obtain ⟨-, -, hf, hxs, -⟩ := hws
    exact .map (ihf hf) (ihxs hxs)
  | fold _ _ _ ihf iha ihxs =>
    simp only [oneLineNames_cons, oneLineNames_append] at hws
    obtain ⟨-, -, hf, ha, hxs, -⟩ := hws
    exact .fold (ihf hf) (iha ha) (ihxs hxs)
  | nil => exact .list (by simp)
  | list _ _ ihe ihes =>
    simp only [oneLineNames_cons, oneLineNames_append] at hws
    obtain ⟨-, he, hes, -⟩ := hws
    exact .list (List.forall_mem_cons.mpr ⟨ihe he, ihes hes⟩)
  | int | real | bool => exact .literal rfl
  | ident => exact .ident ((oneLineNames_cons.mp hws).1 rfl)
  | brackets _ ih =>
    simp only [oneLineNames_cons, oneLineNames_append] at hws
    obtain ⟨-, he, -⟩ := hws
    exact ih he
  | apply _ _ ihf iha =>
    simp only [oneLineNames_cons, oneLineNames_append] at hws
    obtain ⟨hf, -, ha, -⟩ := hws
    exact .apply (ihf hf) (iha ha)
  | noElements => simp [Phrase.Legible]
  | element _ _ ihe ihes =>
    simp only [oneLineNames_cons, oneLineNames_append] at hws
    obtain ⟨-, he, hes⟩ := hws
    exact List.forall_mem_cons.mpr ⟨ihe he, ihes hes⟩

theorem DerivesStatement.legible {e : Expr} {ws : List Word} (h : DerivesStatement e ws)
    (hws : OneLineNames ws) : Legible e := by
  cases h with
  | val he =>
    simp only [oneLineNames_cons] at hws
    obtain ⟨-, hx, -, hv⟩ := hws
    exact .val (hx trivial) (he.legible hv)
  | function he =>
    simp only [oneLineNames_cons] at hws
    obtain ⟨-, hf, hx, -, hb⟩ := hws
    exact .val (hf trivial) (.lambda (hx trivial) (he.legible hb))
  | expression he => exact he.legible hws

theorem DerivesProgram.legible {es : List Expr} {ws : List Word} (h : DerivesProgram es ws)
    (hws : OneLineNames ws) : ∀ e ∈ es, Legible e := by
  induction h with
  | nil => simp
  | cons he _ ih =>
    simp only [oneLineNames_cons, oneLineNames_append] at hws
    obtain ⟨hs, -, hrest⟩ := hws
    exact List.forall_mem_cons.mpr ⟨he.legible hs, ih hrest⟩

end Grammar

namespace Program

variable {source source' : String} {file file' : Option String} {p q : Program}

theorem legible_of_parse (h : parse source file = .ok p) :
    Legible (.block (p.statements.map Term.bare) none) := by
  obtain ⟨ts, hlex, hp⟩ := parse_eq_ok_iff.mp h
  have hnames := Token.oneLine_of_lex hlex
  obtain ⟨body, last, rfl, hlast, hbody⟩ := Token.lexFrom_ends hlex
  have hwords : Grammar.OneLineNames (body.map Token.bare) := by
    intro w hw
    obtain ⟨t, ht, rfl⟩ := List.mem_map.mp hw
    exact hnames t (List.mem_append_left _ ht)
  exact .block ((derives_of_ofTokens hbody hlast hp).1.legible hwords)

theorem dump_eq (p : Program) (indent : Int) :
    p.dump indent = Term.dump indent (.block (p.statements.map Term.bare) none) := by
  have hlines := Term.dumpLines_relocate (fun _ => none) indent p.block
  rw [block, Term.relocate, Term.relocateAll_eq_map] at hlines
  exact congrArg Text.joinLines hlines.symm

/-- Two programs that were read have the same dump just if they are the same but for places. -/
theorem dump_eq_dump_iff (hp : parse source file = .ok p) (hq : parse source' file' = .ok q)
    (indent : Int) :
    p.dump indent = q.dump indent ↔ p.statements.map Term.bare = q.statements.map Term.bare := by
  rw [dump_eq, dump_eq]
  constructor
  · intro h
    exact (Term.block.inj (Term.eq_of_dump (legible_of_parse hp) (legible_of_parse hq) h)).1
  · intro h
    rw [h]

/-- Two texts whose programs have one dump, since they differ in brackets and in layout only. -/
theorem dump_eq_dump_iff_brackets :
    ∃ p q, parse "hd(x) - y;" none = .ok p ∧ parse "(hd((x)))\n  - y;" (some "f") = .ok q ∧
      p.dump 0 = q.dump 0 ∧ p.statements.map Term.bare = q.statements.map Term.bare := by
  let text := "Program(\n  BinaryOp(-\n    Head(\n      Id(x)\n    )\n    Id(y)\n  )\n)"
  obtain ⟨p, hp, ht⟩ := exists_of_parse "hd(x) - y;" none
    (fun p => decide (p.dump 0 = text)) (by decide +kernel)
  obtain ⟨q, hq, ht'⟩ := exists_of_parse "(hd((x)))\n  - y;" (some "f")
    (fun q => decide (q.dump 0 = text)) (by decide +kernel)
  have hdump : p.dump 0 = q.dump 0 := (of_decide_eq_true ht).trans (of_decide_eq_true ht').symm
  exact ⟨p, q, hp, hq, hdump, (dump_eq_dump_iff hp hq 0).mp hdump⟩

end Program

end Minifun
