import Minifun.Proofs.Eval.Whole
import Minifun.Proofs.Program.Derivations

/-! # Failures without a diagnostic

A text that fails has a diagnostic, with two exceptions. A numeral may have no number, since its
digits need not be decimal and since there may be too many of them. And the remainder of an infinite
real is not defined.
-/

namespace Minifun

open Grammar

namespace Token

theorem lexFrom_ends {file : Option String} {n : Nat} {p : Cursor} {cs : List Char}
    {ts : List Token} (h : lexFrom file n p cs = .ok ts) :
    ∃ body last, ts = body ++ [last] ∧ last.kind = .eof ∧ ∀ t ∈ body, t.kind ≠ .eof := by
  induction n generalizing p cs ts with
  | zero =>
    obtain rfl := Except.ok.inj h
    exact ⟨[], _, rfl, rfl, by simp⟩
  | succ n ih =>
    rw [lexFrom] at h
    split at h
    · cases h
    · obtain rfl := Except.ok.inj h
      exact ⟨[], _, rfl, rfl, by simp⟩
    · split at h
      · cases h
      · rename_i kind word hlexeme
        split at h
        · cases h
        · rename_i rest hrest
          obtain rfl := Except.ok.inj h
          obtain ⟨body, last, rfl, hlast, hbody⟩ := ih hrest
          refine ⟨_ :: body, last, rfl, hlast, List.forall_mem_cons.mpr ⟨?_, hbody⟩⟩
          exact lexeme?_ne_eof hlexeme

end Token

theorem Failure.source_attach {f : Failure} {d : Diagnostic} (h : f.diagnose = .ok d)
    (source : String) (file : Option String) :
    (d.attach (some source) file).source = some source := by
  have hnone : d.source = none := by
    cases f with
    | lexical e | parsing e | evaluation e =>
      obtain rfl := Except.ok.inj h
      rfl
    | typing e =>
      obtain rfl := Except.ok.inj h
      unfold TypeError.diagnostic
      split <;> rfl
    | breakdown b => exact nomatch h
  simp [Diagnostic.attach, hnone]

theorem Failure.diagnosed (f : Failure) (source : String) (file : Option String) :
    (∃ b, f = .breakdown b) ∨
      ∃ d, f.diagnose = .ok d ∧ (d.attach (some source) file).source = some source := by
  cases hf : f.diagnose with
  | ok d => exact .inr ⟨d, rfl, source_attach hf source file⟩
  | error b =>
    cases f with
    | breakdown b' => exact .inl ⟨b', rfl⟩
    | lexical | parsing | typing | evaluation => simp [diagnose] at hf

namespace Program

variable {source : String} {file : Option String} {p : Program} {b : Breakdown}

theorem numerals_of_parse (h : parse source file = .ok p) {ts : List Token}
    (hlex : Token.lex source file = .ok ts) : ∀ t ∈ ts, numeralFault? t.bare = none := by
  obtain ⟨ts', hlex', hp⟩ := parse_eq_ok_iff.mp h
  obtain rfl := Except.ok.inj (hlex'.symm.trans hlex)
  obtain ⟨body, last, rfl, hlast, hbody⟩ := Token.lexFrom_ends hlex
  intro t ht
  rcases List.mem_append.mp ht with ht | ht
  · exact ((derives_of_ofTokens hbody hlast hp).2 t ht).2
  · obtain rfl := List.mem_singleton.mp ht
    simp [Token.bare, hlast, numeralFault?]

/-- A text that breaks down when it is read does so at its first numeral without a number. -/
theorem fault_of_parse (h : parse source file = .error (.breakdown b)) :
    ∃ front t rest, Token.lex source file = .ok (front ++ t :: rest) ∧
      (∀ u ∈ front, numeralFault? u.bare = none) ∧ numeralFault? t.bare = some b := by
  unfold parse at h
  cases hlex : Token.lex source file with
  | error e =>
    rw [hlex] at h
    exact nomatch h
  | ok ts =>
    obtain ⟨body, last, rfl, hlast, -⟩ := Token.lexFrom_ends hlex
    cases hp : ofTokens (body ++ [last]) file with
    | ok p => simp [hlex, hp] at h
    | error e =>
      simp only [hlex, hp, Except.error.injEq, ParseError.failure] at h
      cases hcause : e.cause with
      | broken b' =>
        rw [hcause] at h
        obtain rfl := Failure.breakdown.inj h
        obtain ⟨front, t, rest, rfl, hfront, ht⟩ := fault_of_ofTokens hlast hp hcause
        exact ⟨front, t, rest ++ [last], by simp, fun u hu => (hfront u hu).2, ht⟩
      | expected | unexpected => simp [hcause] at h

theorem eval_of_breakdown {depth : Nat} (hp : parse source file = .ok p)
    (h : run depth source file = .error (.breakdown b)) :
    ∃ type, p.check = .ok type ∧ p.eval depth = .error (.breakdown b) := by
  unfold run at h
  rw [hp] at h
  cases hc : p.check with
  | error f =>
    have hf : f = .breakdown b := by simpa [hc, bind, Except.bind] using h
    unfold check at hc
    split at hc
    · exact nomatch (Except.error.inj hc).trans hf
    · exact nomatch hc
  | ok type =>
    refine ⟨type, rfl, ?_⟩
    cases he : p.eval depth with
    | error f => simpa [hc, he, bind, Except.bind] using h
    | ok v => simp [hc, he, bind, Except.bind, pure, Except.pure] at h

theorem eval_breakdown {depth : Nat} (hp : parse source file = .ok p)
    (h : p.eval depth = .error (.breakdown b)) : b = .infiniteRemainder := by
  unfold eval at h
  cases hstop : (evalAll depth p.statements []).stop with
  | none => simp [hstop] at h
  | some stop =>
    obtain ⟨hplain, hdepth⟩ := stop_evalAll (plain_of_parse hp) (by simp) hstop
    simp only [hstop, Except.error.injEq] at h
    cases stop with
    | error e => exact nomatch h
    | outOfDepth => exact absurd rfl hdepth
    | broken b' =>
      obtain rfl := Failure.breakdown.inj h
      exact hplain

end Program

/-- Which failures of a text have a diagnostic with the text attached. The numerals of a text that
succeeds all have numbers. If a failure has no diagnostic, then the first numeral without a number
has been reached, or the text was read and checked and then took the remainder of an infinite
real. -/
theorem run_diagnosed (depth : Nat) (source : String) (file : Option String) :
    (∀ r, run depth source file = .ok r → ∀ ts, Token.lex source file = .ok ts →
      ∀ t ∈ ts, numeralFault? t.bare = none) ∧
    ∀ f, run depth source file = .error f →
      (∃ d, f.diagnose = .ok d ∧ (d.attach (some source) file).source = some source) ∨
      (∃ front t rest b, Token.lex source file = .ok (front ++ t :: rest) ∧
        (∀ u ∈ front, numeralFault? u.bare = none) ∧ numeralFault? t.bare = some b ∧
        f = .breakdown b) ∨
      ∃ p type, Program.parse source file = .ok p ∧ p.check = .ok type ∧
        p.eval depth = .error f ∧ f = .breakdown .infiniteRemainder := by
  cases hp : Program.parse source file with
  | error f =>
    have hrun : run depth source file = .error f := by
      unfold run
      rw [hp]
      rfl
    rw [hrun]
    refine ⟨fun r hr => (nomatch hr), fun f' hf => ?_⟩
    obtain rfl : f = f' := Except.error.inj hf
    rcases f.diagnosed source file with ⟨b, rfl⟩ | hd
    · obtain ⟨front, t, rest, hlex, hfront, ht⟩ := Program.fault_of_parse hp
      exact .inr (.inl ⟨front, t, rest, b, hlex, hfront, ht, rfl⟩)
    · exact .inl hd
  | ok p =>
    refine ⟨fun r _ ts hlex => Program.numerals_of_parse hp hlex, fun f hf => ?_⟩
    rcases f.diagnosed source file with ⟨b, rfl⟩ | hd
    · obtain ⟨type, hc, he⟩ := Program.eval_of_breakdown hp hf
      obtain rfl := Program.eval_breakdown hp he
      exact .inr (.inr ⟨p, type, rfl, hc, he, rfl⟩)
    · exact .inl hd

theorem run_superscript (depth : Nat) :
    run depth "²;" none = .error (.breakdown (.badInt "²")) := by
  have hparse : (Program.parse "²;" none).map (fun _ => ()) =
      .error (.breakdown (.badInt "²")) := by
    decide +kernel
  unfold run
  cases hp : Program.parse "²;" none with
  | ok p => simp [hp, Except.map] at hparse
  | error f =>
    rw [hp] at hparse
    obtain rfl : f = .breakdown (.badInt "²") := Except.error.inj hparse
    rfl

theorem run_diagnosed_superscript : ∃ front t rest, Token.lex "²;" none = .ok (front ++ t :: rest) ∧
    (∀ u ∈ front, numeralFault? u.bare = none) ∧ numeralFault? t.bare = some (.badInt "²") := by
  rcases (run_diagnosed 1 "²;" none).2 _ (run_superscript 1) with
    ⟨d, hd, -⟩ | ⟨front, t, rest, b, hlex, hfront, ht, hb⟩ | ⟨_, _, _, _, _, hb⟩
  · exact nomatch hd
  · obtain rfl := Failure.breakdown.inj hb
    exact ⟨front, t, rest, hlex, hfront, ht⟩
  · exact nomatch Failure.breakdown.inj hb

/-- Not every failure of a text has a diagnostic. -/
theorem run_not_diagnosed : ¬ ∀ depth source file f, run depth source file = .error f →
    ∃ d, f.diagnose = .ok d ∧ (d.attach (some source) file).source = some source := by
  intro h
  obtain ⟨d, hd, -⟩ := h 1 "²;" none _ (run_superscript 1)
  exact nomatch hd

end Minifun
