import Minifun.Proofs.Program.Front

/-! # Programs of several texts

A statement with its semicolon can be read on its own or in a row of such texts, with the same
result but for places.
-/

namespace Minifun

namespace Parse

variable {tail : List Token} {file file' : Option String} {fuel n : Nat} {s s₁ s₂ : TokenStream}
  {e : Expr} {es : List Expr} {words : List (TokenKind × String)}

theorem local_statement (htail : tail ≠ []) (file file' : Option String) (n d : Nat) :
    Local tail Term.bare (statement file n) (statement file' (n + d)) := by
  have hexpr := (allLocal htail file file' n d).expression
  unfold statement
  refine local_kind.same fun k => ?_
  cases k with
  | valWord =>
    refine local_here.bind fun loc loc' _ => (local_advance htail).step ?_
    refine (local_expect htail _).bind fun x x' hx => local_current.bind fun next next' hnext => ?_
    obtain ⟨kind, text, line, column⟩ := next
    obtain ⟨kind', text', line', column'⟩ := next'
    obtain ⟨rfl, rfl⟩ := Prod.mk.inj hnext
    have hvalue : Local tail Term.bare
        (do
          let _ ← expect file .assign
          let value ← expression file n
          return .val x.text value (some loc))
        (do
          let _ ← expect file' .assign
          let value ← expression file' (n + d)
          return .val x'.text value (some loc')) := by
      refine (local_expect htail _).step <| hexpr.bind fun e e' he => local_pure ?_
      simp [Token.text_eq_of_bare hx, he]
    cases kind' with
    | ident =>
      refine (local_advance htail).step <| (local_expect htail _).step ?_
      refine hexpr.bind fun e e' he => local_pure ?_
      simp [Token.text_eq_of_bare hx, he]
    | _ => exact hvalue
  | _ => exact hexpr

theorem current_eq (s : TokenStream) : current s = .ok s.current s := rfl

theorem kind_eq (s : TokenStream) : kind s = .ok s.current.kind s := rfl

theorem here_eq (file : Option String) (s : TokenStream) :
    here file s = .ok (s.current.loc file) s := rfl

theorem consume_of_eq {k : TokenKind} (hk : s.current.kind = k) :
    consume k s = .ok true s.advance := by
  rw [consume, bind_of_ok (kind_eq s), if_pos hk]
  rfl

theorem consume_of_ne {k : TokenKind} (hk : s.current.kind ≠ k) : consume k s = .ok false s := by
  rw [consume, bind_of_ok (kind_eq s), if_neg hk]
  rfl

theorem expect_eq_ok_iff {k : TokenKind} {t : Token} :
    expect file k s = .ok t s₁ ↔ s.current.kind = k ∧ t = s.current ∧ s₁ = s.advance := by
  rw [expect, bind_of_ok (current_eq s)]
  by_cases h : s.current.kind = k
  · rw [if_pos h]
    constructor
    · intro ht
      obtain ⟨rfl, rfl⟩ := EStateM.Result.ok.inj ht
      exact ⟨h, rfl, rfl⟩
    · rintro ⟨-, rfl, rfl⟩
      rfl
  · rw [if_neg h]
    constructor
    · exact fun ht => nomatch ht
    · exact fun ht => absurd ht.1 h

theorem statements_of_eof (h : s.current.kind = .eof) :
    statements file fuel (n + 1) s = .ok [] s := by
  rw [statements, bind_of_ok (kind_eq s), h]
  rfl

theorem statements_of_ne_eof (h : s.current.kind ≠ .eof) :
    statements file fuel (n + 1) s = (do
      let first ← statement file fuel
      let _ ← expect file .semicolon
      let rest ← statements file fuel n
      return first :: rest) s := by
  rw [statements, bind_of_ok (kind_eq s)]
  cases hk : s.current.kind with
  | eof => exact absurd hk h
  | _ => rfl

theorem eof_of_statements_nil (h : statements file fuel n s = .ok [] s₂) :
    s.current.kind = .eof := by
  cases n with
  | zero => exact nomatch h
  | succ n =>
    by_contra hne
    rw [statements_of_ne_eof hne] at h
    obtain ⟨_, _, -, h⟩ := bind_eq_ok_iff.mp h
    obtain ⟨_, _, -, h⟩ := bind_eq_ok_iff.mp h
    obtain ⟨_, _, -, h⟩ := bind_eq_ok_iff.mp h
    exact nomatch h

theorem statements_eq_ok_cons_iff (h : s.current.kind ≠ .eof) :
    statements file fuel (n + 1) s = .ok (e :: es) s₂ ↔
      ∃ s₁, statement file fuel s = .ok e s₁ ∧ s₁.current.kind = .semicolon ∧
        statements file fuel n s₁.advance = .ok es s₂ := by
  rw [statements_of_ne_eof h, bind_eq_ok_iff]
  constructor
  · rintro ⟨e', s₁, he, h⟩
    obtain ⟨t, s', ht, h⟩ := bind_eq_ok_iff.mp h
    obtain ⟨hsemi, -, rfl⟩ := expect_eq_ok_iff.mp ht
    obtain ⟨es', s'', hes, h⟩ := bind_eq_ok_iff.mp h
    obtain ⟨hcons, rfl⟩ := EStateM.Result.ok.inj h
    obtain ⟨rfl, rfl⟩ := List.cons.inj hcons
    exact ⟨s₁, he, hsemi, hes⟩
  · rintro ⟨s₁, he, hsemi, hes⟩
    refine ⟨e, s₁, he, ?_⟩
    rw [bind_of_ok (expect_eq_ok_iff.mpr ⟨hsemi, rfl, rfl⟩), bind_of_ok hes]
    rfl

/-- Words that are one statement with its semicolon where the text ends after them. -/
def Alone (words : List (TokenKind × String)) (e : Expr) : Prop :=
  ∃ file fuel s s₁, fuel ≤ 8 * (words.length + 2) ∧
    s.toList.map Token.bare = words ++ [Token.ending] ∧ s.current.kind ≠ .eof ∧
    statement file fuel s = .ok e s₁ ∧ s₁.current.kind = .semicolon ∧ s₁.rest.length = 1

theorem bare_eof_last {t : Token} {ts rest : List Token} (hwords : ∀ w ∈ words, w.1 ≠ .eof)
    (hts : ts.map Token.bare = words ++ [Token.ending]) (hsuffix : t :: rest <:+ ts)
    (ht : t.kind = .eof) : rest = [] := by
  obtain ⟨front, rfl⟩ := hsuffix
  rcases List.eq_nil_or_concat rest with h | ⟨rest, u, rfl⟩
  · exact h
  · rw [List.concat_eq_append, List.map_append, List.map_cons, List.map_append,
      ← List.cons_append, ← List.append_assoc] at hts
    obtain ⟨hfront, -⟩ := List.append_inj' hts rfl
    exact absurd ht (hwords t.bare (by simp [← hfront]))

theorem alone_of_statements (hwords : ∀ w ∈ words, w.1 ≠ .eof)
    (hs : s.toList.map Token.bare = words ++ [Token.ending]) (hfuel : fuel ≤ 8 * (words.length + 2))
    (h : statements file fuel n s = .ok [e] s₂) : Alone words e := by
  cases n with
  | zero => exact nomatch h
  | succ n =>
    have hne : s.current.kind ≠ .eof := by
      intro heof
      rw [statements_of_eof heof] at h
      exact nomatch h
    obtain ⟨s₁, he, hsemi, hend⟩ := (statements_eq_ok_cons_iff hne).mp h
    have hsuffix := (local_statement (List.cons_ne_nil default []) file file fuel 0).suffix he
    have heof := eof_of_statements_nil hend
    obtain ⟨t, ts⟩ := s₁
    cases ts with
    | nil => simp_all [TokenStream.advance]
    | cons u us =>
      have hlast := bare_eof_last hwords hs ((List.suffix_cons t _).trans hsuffix) heof
      exact ⟨file, fuel, s, _, hfuel, hs, hne, he, hsemi, by simp [hlast]⟩

theorem abreast_of_words {ts ts' after : List Token} (t : Token)
    (h : ts'.map Token.bare = ts.map Token.bare) :
    Abreast after (ts ++ [t]) (ts' ++ after) := by
  induction ts generalizing ts' with
  | nil =>
    obtain rfl := List.map_eq_nil_iff.mp h
    exact .last
  | cons u ts ih =>
    cases ts' with
    | nil => simp at h
    | cons u' ts' =>
      obtain ⟨hu, hts⟩ := List.cons.inj h
      exact .cons hu (ih hts)

theorem Abreast.eq_of_singleton {after ts : List Token} {t : Token}
    (h : Abreast after [t] ts) : ts = after := by
  cases h with
  | last => rfl
  | cons _ h => cases h

theorem Alone.ne_nil (h : Alone words e) : words ≠ [] := by
  obtain ⟨_, _, s, _, -, hs, hne, -⟩ := h
  rintro rfl
  exact hne (congrArg Prod.fst (List.cons.inj hs).1)

theorem length_le_of_alone {wordss : List (List (TokenKind × String))}
    (h : List.Forall₂ Alone wordss es) : es.length ≤ wordss.flatten.length := by
  induction h with
  | nil => simp
  | cons halone _ ih =>
    have hpos := List.length_pos_iff.mpr halone.ne_nil
    simp only [List.length_cons, List.flatten_cons, List.length_append]
    omega

/-- A statement is read in the same way where something follows its semicolon. -/
theorem Alone.read (h : Alone words e) {after : List (TokenKind × String)} (hafter : after ≠ [])
    (hs : s.toList.map Token.bare = words ++ after) (hfuel : 8 * (words.length + 2) ≤ fuel)
    (file : Option String) :
    s.current.kind ≠ .eof ∧ ∃ e' s₁, statement file fuel s = .ok e' s₁ ∧ e'.bare = e.bare ∧
      s₁.current.kind = .semicolon ∧ s₁.advance.toList.map Token.bare = after := by
  obtain ⟨file₀, fuel₀, s₀, t₀, hfuel₀, hs₀, hne, he, hsemi, hlen⟩ := h
  obtain ⟨ts₀, last, hsplit₀, hts₀, hlast⟩ := List.map_eq_append_iff.mp hs₀
  obtain ⟨t, rfl, -⟩ := List.map_eq_singleton_iff.mp hlast
  obtain ⟨ts, tail, hsplit, hts, htail⟩ := List.map_eq_append_iff.mp hs
  have htailne : tail ≠ [] := by
    rintro rfl
    exact hafter htail.symm
  have habreast : Abreast tail s₀.toList s.toList := by
    rw [hsplit₀, hsplit]
    exact abreast_of_words t (hts.trans hts₀.symm)
  obtain ⟨d, rfl⟩ := Nat.exists_eq_add_of_le (Nat.le_trans hfuel₀ hfuel)
  have hlocal := local_statement htailne file₀ file fuel₀ d
  have hrest₀ : t₀.rest ≠ [] := by
    intro hnil
    simp [hnil] at hlen
  obtain ⟨e', s₁, he', hbare, habreast₁⟩ := hlocal.follows he hrest₀ habreast
  obtain ⟨hcurrent, hrest⟩ := habreast₁.step hrest₀
  obtain ⟨u, hu⟩ := List.length_eq_one_iff.mp hlen
  rw [hu] at hrest
  have hafter' := hrest.eq_of_singleton
  constructor
  · rw [Token.kind_eq_of_bare (habreast.step (rest_ne_nil_of_suffix (hlocal.suffix he) hrest₀)).1]
    exact hne
  · refine ⟨e', s₁, he', hbare, (Token.kind_eq_of_bare hcurrent).trans hsemi, ?_⟩
    rw [advance_toList (hafter' ▸ htailne), hafter', htail]

theorem statements_of_alone {wordss : List (List (TokenKind × String))}
    (h : List.Forall₂ Alone wordss es)
    (hs : s.toList.map Token.bare = wordss.flatten ++ [Token.ending])
    (hfuel : 8 * (wordss.flatten.length + 2) ≤ fuel) (hn : es.length < n) (file : Option String) :
    ∃ es' s₁, statements file fuel n s = .ok es' s₁ ∧
      es'.map Term.bare = es.map Term.bare := by
  induction h generalizing s n with
  | nil =>
    cases n with
    | zero => simp at hn
    | succ n =>
      have heof : s.current.kind = .eof := congrArg Prod.fst (List.cons.inj hs).1
      exact ⟨[], s, statements_of_eof heof, rfl⟩
  | @cons words e wordss es halone _ ih =>
    simp only [List.flatten_cons, List.length_append] at hfuel
    rw [List.flatten_cons, List.append_assoc] at hs
    -- The fuel is never used up between statements, so what is enough for all is enough for each.
    have hfirst : 8 * (words.length + 2) ≤ fuel := by omega
    have hrest : 8 * (wordss.flatten.length + 2) ≤ fuel := by omega
    obtain ⟨hne, e', s₁, he', hbare, hsemi, hafter⟩ := halone.read (by simp) hs hfirst file
    cases n with
    | zero => simp at hn
    | succ n =>
      obtain ⟨es', s₂, hes', hbares⟩ := ih hafter hrest (by simpa using hn)
      refine ⟨e' :: es', s₂, (statements_eq_ok_cons_iff hne).mpr ⟨s₁, he', hsemi, hes'⟩, ?_⟩
      rw [List.map_cons, List.map_cons, hbare, hbares]

end Parse

namespace Program

open Parse Token

def IsStatement (text : String) (e : Expr) : Prop :=
  text.endsWith ";" = true ∧ ∃ loc, parse text none = .ok ⟨[e], loc⟩

theorem endsWith_iff_closed {text : String} : text.endsWith ";" = true ↔ Closed text.toList := by
  rw [String.endsWith_eq_endsWith_toSlice, String.Slice.endsWith_string_iff]
  simp [Closed]

variable {text : String} {e : Expr} {file : Option String} {p : Program}
  {words : List (TokenKind × String)}

theorem parse_eq_ok_iff : parse text file = .ok p ↔
    ∃ ts, lex text file = .ok ts ∧ ofTokens ts file = .ok p := by
  unfold parse
  cases hlex : lex text file with
  | error e => simp
  | ok ts =>
    cases hp : ofTokens ts file with
    | error e => simp [hp]
    | ok q => simp [hp]

theorem program_eq_ok_iff {fuel : Nat} {s s₁ : TokenStream} :
    program file fuel s = .ok p s₁ ↔
      p.loc = s.current.loc file ∧ Parse.statements file fuel fuel s = .ok p.statements s₁ := by
  obtain ⟨es, loc⟩ := p
  rw [program, bind_of_ok (here_eq file s), bind_eq_ok_iff]
  constructor
  · rintro ⟨es', s', hes, hp⟩
    obtain ⟨heq, rfl⟩ := EStateM.Result.ok.inj hp
    obtain ⟨rfl, rfl⟩ := Program.mk.inj heq
    exact ⟨rfl, hes⟩
  · rintro ⟨rfl, hes⟩
    exact ⟨es, s₁, hes, rfl⟩

theorem ofTokens_eq_ok_iff {ts : List Token} :
    ofTokens ts file = .ok p ↔
      ∃ s₁, program file (fuelFor ts) (TokenStream.ofList ts) = .ok p s₁ := by
  unfold ofTokens
  cases program file (fuelFor ts) (TokenStream.ofList ts) <;> simp

theorem toList_ofList {ts : List Token} (h : ts ≠ []) : (TokenStream.ofList ts).toList = ts := by
  cases ts with
  | nil => exact absurd rfl h
  | cons => rfl

theorem length_of_words {ts : List Token} {words : List (TokenKind × String)}
    {last : TokenKind × String} (h : ts.map Token.bare = words ++ [last]) :
    ts.length = words.length + 1 := by
  simpa using congrArg List.length h

theorem IsStatement.alone (h : IsStatement text e) :
    Closed text.toList ∧ ∃ words, Spells text.toList words ∧ Alone words e := by
  obtain ⟨hend, loc, hparse⟩ := h
  have hclosed := endsWith_iff_closed.mp hend
  obtain ⟨ts, hlex, htokens⟩ := parse_eq_ok_iff.mp hparse
  obtain ⟨s₁, hprogram⟩ := ofTokens_eq_ok_iff.mp htokens
  obtain ⟨-, hstatements⟩ := program_eq_ok_iff.mp hprogram
  obtain ⟨words, hspells, hwords⟩ := spells_of_lexFrom (.inr hclosed) (Nat.lt_succ_self _) hlex
  have hlength := length_of_words hwords
  have hne : ts ≠ [] := List.ne_nil_of_length_eq_add_one hlength
  refine ⟨hclosed, words, hspells, ?_⟩
  refine alone_of_statements hspells.ne_eof ?_ ?_ hstatements
  · rwa [toList_ofList hne]
  · rw [fuelFor, hlength]

theorem parse_of_spells {wordss : List (List (TokenKind × String))} {es : List Expr}
    (hspells : Spells text.toList wordss.flatten) (h : List.Forall₂ Alone wordss es)
    (file : Option String) :
    ∃ p, parse text file = .ok p ∧ p.statements.map Term.bare = es.map Term.bare := by
  obtain ⟨ts, hlex, hwords⟩ := hspells.lexFrom file {} (Nat.lt_succ_self _)
  have hlength := length_of_words hwords
  have hne : ts ≠ [] := List.ne_nil_of_length_eq_add_one hlength
  have hcount := length_le_of_alone h
  have hfuel : fuelFor ts = 8 * (wordss.flatten.length + 2) := by rw [fuelFor, hlength]
  obtain ⟨es', s₁, hes', hbare⟩ := statements_of_alone (s := TokenStream.ofList ts) h
    (by rwa [toList_ofList hne]) (Nat.le_of_eq hfuel.symm) (n := fuelFor ts) (by omega) file
  exact ⟨⟨es', _⟩, parse_eq_ok_iff.mpr ⟨ts, hlex, ofTokens_eq_ok_iff.mpr ⟨s₁,
    program_eq_ok_iff.mpr ⟨rfl, hes'⟩⟩⟩, hbare⟩

variable {texts : List String} {es : List Expr}

theorem spells_join (h : List.Forall₂ IsStatement texts es) :
    ∃ wordss, Spells (String.join texts).toList wordss.flatten ∧
      List.Forall₂ Alone wordss es ∧ (texts ≠ [] → Closed (String.join texts).toList) := by
  induction h with
  | nil => exact ⟨[], .nil skipsTo_nil, .nil, fun hne => absurd rfl hne⟩
  | @cons text e texts es htext _ ih =>
    obtain ⟨hclosed, words, hspells, halone⟩ := htext.alone
    obtain ⟨wordss, hjoin, hall, hrest⟩ := ih
    rw [String.join_cons, String.toList_append]
    refine ⟨words :: wordss, hspells.append hclosed hjoin, .cons halone hall, fun _ => ?_⟩
    cases texts with
    | nil => simpa using hclosed
    | cons => exact (hrest (List.cons_ne_nil _ _)).trans (List.suffix_append _ _)

theorem parse_join (h : List.Forall₂ IsStatement texts es) (file : Option String) :
    ∃ p, parse (String.join texts) file = .ok p ∧
      p.statements.map Term.bare = es.map Term.bare := by
  obtain ⟨wordss, hspells, hall, -⟩ := spells_join h
  exact parse_of_spells hspells hall file

end Program

end Minifun
