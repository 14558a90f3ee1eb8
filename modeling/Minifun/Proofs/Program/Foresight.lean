import Mathlib.Data.Set.Operations
import Minifun.Proofs.Program.Productions

/-! # Readers that look one token ahead

A reader decides by the token at hand alone. So what it has read up to a token it reads again on
every stream with the same tokens up to there, and if it has failed, then it fails in the same way.
Besides, a reader goes into a phrase only if there are tokens that complete it: where it fails, it
would have succeeded with other tokens in place of the one at hand and those after it.

A phrase is read with more or less fuel and after different trees. All this is therefore said of a
family of readers, which take the same tokens and may differ in what they give.
-/

namespace Minifun

namespace TokenStream

variable {s s' : TokenStream} {t : Token} {w ts : List Token}

theorem current_of_toList (hs : s.toList = t :: ts) : s.current = t :=
  (List.cons.inj hs).1

theorem advance_of_toList (hs : s.toList = t :: ts) (hts : ts ≠ []) : s.advance.toList = ts := by
  have hrest : s.rest = ts := (List.cons.inj hs).2
  rw [Parse.advance_toList (by rwa [hrest]), hrest]

theorem Ends.of_toList (h : s.Ends) (hw : s.toList = w ++ s'.toList) : s'.Ends :=
  h.of_append (w := w.map Token.bare) (by rw [words, words, hw, List.map_append])

theorem Ends.toList_advance (h : s.Ends) (hk : s.current.kind ≠ .eof) :
    s.toList = s.current :: s.advance.toList := by
  have hlength := congrArg List.length (h.words_advance hk)
  have hrest : s.rest ≠ [] := by
    intro hnil
    simp [words, toList, advance, hnil] at hlength
  rw [Parse.advance_toList hrest, toList]

end TokenStream

namespace Parse

variable {α β : Type} {file : Option String} {𝓜 𝓡 : Set (Parse α)} {𝓖 : Set (Parse β)}
  {m : Parse α} {s s' : TokenStream} {t : Token} {c v w rest : List Token} {e : ParseError}
  {strict strict' : Bool} {heads heads' stops stops' : List TokenKind} {L L' : Nat}
  {P : TokenKind → Prop}

def Headed (kinds : List TokenKind) (ts : List Token) : Prop :=
  ∃ t rest, ts = t :: rest ∧ t.kind ∈ kinds

theorem headed_cons {kinds : List TokenKind} (ht : t.kind ∈ kinds) : Headed kinds (t :: rest) :=
  ⟨t, rest, rfl, ht⟩

theorem Headed.append {kinds : List TokenKind} (h : Headed kinds w) : Headed kinds (w ++ rest) := by
  obtain ⟨t, w, rfl, ht⟩ := h
  exact headed_cons ht

theorem Headed.mono {kinds kinds' : List TokenKind} (h : Headed kinds w) (hsub : kinds ⊆ kinds') :
    Headed kinds' w := by
  obtain ⟨t, w, rfl, ht⟩ := h
  exact headed_cons (hsub ht)

theorem Headed.ne_nil {kinds : List TokenKind} (h : Headed kinds w) : w ≠ [] := by
  obtain ⟨t, w, rfl, -⟩ := h
  simp

theorem Headed.forall_head {kinds : List TokenKind} (h : Headed kinds w) (hP : ∀ k ∈ kinds, P k) :
    ∀ t ∈ w.head?, P t.kind := by
  obtain ⟨t, w, rfl, ht⟩ := h
  simpa using hP _ ht

/-- What comes next is this token, or one of these kinds. -/
def Next (kinds : List TokenKind) (t : Token) (rest : List Token) : Prop :=
  rest.head? = some t ∨ Headed kinds rest

theorem Next.forall_head (h : Next stops t rest) (ht : P t.kind) (hP : ∀ k ∈ stops, P k) :
    ∀ t ∈ rest.head?, P t.kind := by
  rcases h with h | h
  · simpa [h] using ht
  · exact h.forall_head hP

theorem Next.ne_nil (h : Next stops t rest) : rest ≠ [] := by
  rcases h with h | h
  · rintro rfl
    cases h
  · exact h.ne_nil

theorem Next.append (h : Next stops s'.current rest) (hv : s.toList = v ++ s'.toList)
    (hsub : stops ⊆ stops') : Next stops' s.current (v ++ rest) := by
  cases v with
  | nil =>
    rw [TokenStream.current_of_toList (t := s'.current) hv]
    exact h.imp id fun h => h.mono hsub
  | cons t v => exact .inl (congrArg some (TokenStream.current_of_toList hv).symm)

def Endless (m : Parse α) (s : TokenStream) : Prop :=
  ∃ e s', m s = .error e s' ∧ e.cause = .broken .endless

/-- All readers of a family take tokens before other ones, unless their fuel is used up. -/
def Replays (𝓜 : Set (Parse α)) (w rest : List Token) : Prop :=
  ∀ m ∈ 𝓜, ∀ s : TokenStream, s.toList = w ++ rest → Accepts (fun _ s' => s'.toList = rest) m s

/-- All readers of a family fail with the same error between these tokens and those, unless their
fuel is used up. -/
def Refails (𝓜 : Set (Parse α)) (w rest : List Token) (e : ParseError) : Prop :=
  ∀ m ∈ 𝓜, ∀ s : TokenStream, s.toList = w ++ rest →
    Endless m s ∨ ∃ s', m s = .error e s' ∧ s'.toList = rest

/-- Tokens complete a phrase of which nothing has been read. A strict reader takes at least one
token, and that is of one of the kinds `heads`. -/
def Finishes (strict : Bool) (heads stops : List TokenKind) (𝓜 : Set (Parse α)) : Prop :=
  ∃ c, (strict = false ∧ c = [] ∨ Headed heads c) ∧ ∀ rest, Headed stops rest → Replays 𝓜 c rest

/-- What a reader of a family does on a stream is settled by the tokens it has read and by the one
at hand. Where it has succeeded, all the family succeeds, also if a token of one of the kinds
`stops` comes next. Where it has failed without a breakdown, all the family fails, and tokens
complete the phrase before one of these kinds. If nothing has been read, they begin as `heads`
says. -/
structure Prompt (file : Option String) (strict : Bool) (heads stops : List TokenKind)
    (𝓜 : Set (Parse α)) (m : Parse α) (s : TokenStream) : Prop where
  ok : ∀ {a s₁}, m s = .ok a s₁ → ∃ w, s.toList = w ++ s₁.toList ∧ (strict = true → w ≠ []) ∧
    ∀ rest, Next stops s₁.current rest → Replays 𝓜 w rest
  error : ∀ {e s₁}, m s = .error e s₁ → (∀ b, e.cause ≠ .broken b) →
    e.loc = s₁.current.loc file ∧ ∃ w c, s.toList = w ++ s₁.toList ∧
      (∀ rest, rest.head? = some s₁.current → Refails 𝓜 w rest e) ∧ (w = [] → Headed heads c) ∧
      ∀ rest, Headed stops rest → Replays 𝓜 (w ++ c) rest

/-- A family looks one token ahead on streams of at most so many tokens. -/
structure Foresees (file : Option String) (L : Nat) (strict : Bool) (heads stops : List TokenKind)
    (𝓜 : Set (Parse α)) : Prop where
  finishes : Finishes strict heads stops 𝓜
  prompt : ∀ {s : TokenStream}, s.Ends → s.toList.length ≤ L → ∀ m ∈ 𝓜,
    Prompt file strict heads stops 𝓜 m s

section InTurn

def inTurn (𝓜 : Set (Parse α)) (𝓖 : Set (Parse β)) : Set (Parse β) :=
  {r | ∃ m ∈ 𝓜, ∃ f : α → Parse β, (∀ a, f a ∈ 𝓖) ∧ r = m >>= f}

theorem mem_inTurn {f : α → Parse β} (hm : m ∈ 𝓜) (hf : ∀ a, f a ∈ 𝓖) : m >>= f ∈ inTurn 𝓜 𝓖 :=
  ⟨m, hm, f, hf, rfl⟩

theorem Replays.inTurn (hm : Replays 𝓜 w (v ++ rest)) (hg : Replays 𝓖 v rest) :
    Replays (inTurn 𝓜 𝓖) (w ++ v) rest := by
  rintro _ ⟨m, hmem, f, hf, rfl⟩ s hs
  rw [List.append_assoc] at hs
  exact (hm m hmem s hs).bind fun a s₁ hs₁ => hg _ (hf a) s₁ hs₁

theorem Refails.inTurn (hm : Refails 𝓜 w rest e) : Refails (inTurn 𝓜 𝓖) w rest e := by
  rintro _ ⟨m, hmem, f, -, rfl⟩ s hs
  rcases hm m hmem s hs with ⟨e', s', hread, he⟩ | ⟨s', hread, hs'⟩
  · exact .inl ⟨e', s', bind_of_error hread, he⟩
  · exact .inr ⟨s', bind_of_error hread, hs'⟩

theorem Replays.refails (hm : Replays 𝓜 w (v ++ rest)) (hg : Refails 𝓖 v rest e) :
    Refails (Parse.inTurn 𝓜 𝓖) (w ++ v) rest e := by
  rintro _ ⟨m, hmem, f, hf, rfl⟩ s hs
  rw [List.append_assoc] at hs
  rcases hm m hmem s hs with ⟨e', s', hread, he⟩ | ⟨a, s', hread, hs'⟩
  · exact .inl ⟨e', s', bind_of_error hread, he⟩
  · rw [Endless, bind_of_ok hread]
    exact hg _ (hf a) s' hs'

/-- What completes a phrase and what follows begin with a token that the phrase before it may stop
at. -/
theorem Headed.completed (hc : strict = false ∧ c = [] ∨ Headed heads c) (hrest : Headed stops rest)
    (hsub : heads ++ stops ⊆ stops') : Headed stops' (c ++ rest) := by
  rcases hc with ⟨-, rfl⟩ | hc
  · exact hrest.mono fun k hk => hsub (List.mem_append_right _ hk)
  · exact hc.append.mono fun k hk => hsub (List.mem_append_left _ hk)

theorem Finishes.inTurn (hm : Finishes true heads stops' 𝓜) (hg : Finishes strict heads' stops 𝓖)
    (hsub : heads' ++ stops ⊆ stops') : Finishes true heads stops (inTurn 𝓜 𝓖) := by
  obtain ⟨c, hc, hm⟩ := hm
  obtain ⟨d, hd, hg⟩ := hg
  refine ⟨c ++ d, .inr (hc.elim (by simp) Headed.append), fun rest hrest => ?_⟩
  exact (hm _ (.completed hd hrest hsub)).inTurn (hg rest hrest)

/-- If the first reader fails, then the second one has not begun. -/
theorem Prompt.inTurn_of_error {f : α → Parse β} {s₁ : TokenStream}
    (hm : Prompt file true heads stops' 𝓜 m s) (hread : m s = .error e s₁)
    (hg : Finishes strict heads' stops 𝓖) (hsub : heads' ++ stops ⊆ stops') :
    Prompt file true heads stops (inTurn 𝓜 𝓖) (m >>= f) s := by
  constructor
  · intro b s₂ h
    rw [bind_of_error hread] at h
    cases h
  · intro e' s₂ h hb
    rw [bind_of_error hread] at h
    obtain ⟨rfl, rfl⟩ := EStateM.Result.error.inj h
    obtain ⟨hloc, w, c, hw, hfail, hhead, hm⟩ := hm.error hread hb
    obtain ⟨d, hd, hg⟩ := hg
    refine ⟨hloc, w, c ++ d, hw, fun rest hrest => (hfail rest hrest).inTurn,
      fun hnil => (hhead hnil).append, fun rest hrest => ?_⟩
    rw [← List.append_assoc]
    exact (hm _ (.completed hd hrest hsub)).inTurn (hg rest hrest)

/-- If the first reader succeeds, then it has read at least one token, and it does so again before
whatever the second one takes. -/
theorem Prompt.inTurn_of_ok {f : α → Parse β} {a : α} {s₁ : TokenStream}
    (hm : Prompt file true heads stops' 𝓜 m s) (hread : m s = .ok a s₁)
    (hg : Prompt file strict heads' stops 𝓖 (f a) s₁) (hsub : heads' ++ stops ⊆ stops') :
    Prompt file true heads stops (inTurn 𝓜 𝓖) (m >>= f) s := by
  have hheads : heads' ⊆ stops' := fun k hk => hsub (List.mem_append_left _ hk)
  have hstops : stops ⊆ stops' := fun k hk => hsub (List.mem_append_right _ hk)
  obtain ⟨w, hw, hne, hm⟩ := hm.ok hread
  constructor
  · intro b s₂ h
    rw [bind_of_ok hread] at h
    obtain ⟨v, hv, -, hg⟩ := hg.ok h
    refine ⟨w ++ v, by rw [hw, hv, List.append_assoc], by simp [hne], fun rest hrest => ?_⟩
    exact (hm _ (hrest.append hv hstops)).inTurn (hg rest hrest)
  · intro e s₂ h hb
    rw [bind_of_ok hread] at h
    obtain ⟨hloc, v, c, hv, hfail, hhead, hg⟩ := hg.error h hb
    refine ⟨hloc, w ++ v, c, by rw [hw, hv, List.append_assoc], fun rest hrest => ?_, by simp [hne],
      fun rest hrest => ?_⟩
    · exact (hm _ (Next.append (.inl hrest) hv hstops)).refails (hfail rest hrest)
    · rw [List.append_assoc]
      refine Replays.inTurn ?_ (hg rest hrest)
      rw [List.append_assoc]
      refine hm _ ?_
      cases v with
      | nil => exact .inr ((hhead rfl).append.mono hheads)
      | cons t v => exact .inl (congrArg some (TokenStream.current_of_toList hv).symm)

/-- A strict family and another one after it, which may begin only with what the first stops at. -/
theorem Foresees.inTurn (hm : Foresees file L true heads stops' 𝓜)
    (hg : Foresees file L' strict heads' stops 𝓖) (hsub : heads' ++ stops ⊆ stops')
    (hL : L ≤ L' + 1) : Foresees file L true heads stops (inTurn 𝓜 𝓖) := by
  refine ⟨hm.finishes.inTurn hg.finishes hsub, ?_⟩
  rintro s hs hlength _ ⟨m, hmem, f, hf, rfl⟩
  have hprompt := hm.prompt hs hlength m hmem
  cases hread : m s with
  | error e s₁ => exact hprompt.inTurn_of_error hread hg.finishes hsub
  | ok a s₁ =>
    refine hprompt.inTurn_of_ok hread (hg.prompt ?_ ?_ (f a) (hf a)) hsub
    · obtain ⟨w, hw, -⟩ := hprompt.ok hread
      exact hs.of_toList hw
    · obtain ⟨w, hw, hne, -⟩ := hprompt.ok hread
      have hpos := List.length_pos_iff.mpr (hne rfl)
      have htotal := congrArg List.length hw
      rw [List.length_append] at htotal
      omega

end InTurn

section Branches

/-- At a token the readers of a family go to the next one and then read as another family. -/
def Leads (t : Token) (𝓜 𝓡 : Set (Parse α)) : Prop :=
  ∀ m ∈ 𝓜, ∀ s, s.current = t → Endless m s ∨ ∃ r ∈ 𝓡, m s = r s.advance

def Defers (P : TokenKind → Prop) (𝓜 𝓡 : Set (Parse α)) : Prop :=
  ∀ m ∈ 𝓜, ∀ s, P s.current.kind → Endless m s ∨ ∃ r ∈ 𝓡, m s = r s

def Rests (P : TokenKind → Prop) (𝓜 : Set (Parse α)) : Prop :=
  ∀ m ∈ 𝓜, ∀ s, P s.current.kind → Accepts (fun _ s' => s' = s) m s

def Rejects (file : Option String) (t : Token) (cause : ParseCause) (𝓜 : Set (Parse α)) : Prop :=
  ∀ m ∈ 𝓜, ∀ s, s.current = t → Endless m s ∨ m s = fail file cause s

theorem prompt_of_broken {b : Breakdown} (hread : m s = .error e s') (he : e.cause = .broken b) :
    Prompt file strict heads stops 𝓜 m s := by
  constructor
  · intro a s₁ h
    rw [hread] at h
    cases h
  · intro e' s₁ h hb
    rw [hread] at h
    obtain ⟨rfl, rfl⟩ := EStateM.Result.error.inj h
    exact absurd he (hb _)

theorem Endless.prompt (h : Endless m s) : Prompt file strict heads stops 𝓜 m s := by
  obtain ⟨e, s', hread, he⟩ := h
  exact prompt_of_broken hread he

theorem Leads.replays (h : Leads t 𝓜 𝓡) (hr : Replays 𝓡 w rest) (hne : rest ≠ []) :
    Replays 𝓜 (t :: w) rest := by
  intro m hm s hs
  have hadvance := TokenStream.advance_of_toList hs (List.append_ne_nil_of_right_ne_nil w hne)
  rcases h m hm s (TokenStream.current_of_toList hs) with hend | ⟨r, hmem, hread⟩
  · exact .inl hend
  · rw [Accepts, hread]
    exact hr r hmem s.advance hadvance

theorem Leads.refails (h : Leads t 𝓜 𝓡) (hr : Refails 𝓡 w rest e) (hne : rest ≠ []) :
    Refails 𝓜 (t :: w) rest e := by
  intro m hm s hs
  have hadvance := TokenStream.advance_of_toList hs (List.append_ne_nil_of_right_ne_nil w hne)
  rcases h m hm s (TokenStream.current_of_toList hs) with hend | ⟨r, hmem, hread⟩
  · exact .inl hend
  · rw [Endless, hread]
    exact hr r hmem s.advance hadvance

theorem Leads.prompt (h : Leads s.current 𝓜 𝓡) (hr : Foresees file L strict' heads' stops 𝓡)
    (hs : s.Ends) (hk : s.current.kind ≠ .eof) (hL : s.toList.length ≤ L + 1) :
    ∀ m ∈ 𝓜, Prompt file strict heads stops 𝓜 m s := by
  intro m hm
  have hsplit := hs.toList_advance hk
  rcases h m hm s rfl with hend | ⟨r, hmem, hread⟩
  · exact hend.prompt
  have hlength : s.advance.toList.length ≤ L := by
    rw [hsplit, List.length_cons] at hL
    omega
  have hprompt := hr.prompt (hs.of_toList (w := [s.current]) hsplit) hlength r hmem
  constructor
  · intro a s₁ hok
    obtain ⟨w, hw, -, hr⟩ := hprompt.ok (hread ▸ hok)
    refine ⟨s.current :: w, by rw [hsplit, hw, List.cons_append], by simp, fun rest hrest => ?_⟩
    exact h.replays (hr rest hrest) hrest.ne_nil
  · intro e s₁ herror hb
    obtain ⟨hloc, w, c, hw, hfail, -, hr⟩ := hprompt.error (hread ▸ herror) hb
    refine ⟨hloc, s.current :: w, c, by rw [hsplit, hw, List.cons_append], fun rest hrest => ?_,
      by simp, fun rest hrest => h.replays (hr rest hrest) hrest.ne_nil⟩
    have hnext : Next stops s₁.current rest := .inl hrest
    exact h.refails (hfail rest hrest) hnext.ne_nil

theorem Defers.replays (h : Defers P 𝓜 𝓡) (hr : Replays 𝓡 w rest)
    (hP : ∀ t ∈ (w ++ rest).head?, P t.kind) : Replays 𝓜 w rest := by
  intro m hm s hs
  rcases h m hm s (hP _ (by rw [← hs]; rfl)) with hend | ⟨r, hmem, hread⟩
  · exact .inl hend
  · rw [Accepts, hread]
    exact hr r hmem s hs

theorem Defers.refails (h : Defers P 𝓜 𝓡) (hr : Refails 𝓡 w rest e)
    (hP : ∀ t ∈ (w ++ rest).head?, P t.kind) : Refails 𝓜 w rest e := by
  intro m hm s hs
  rcases h m hm s (hP _ (by rw [← hs]; rfl)) with hend | ⟨r, hmem, hread⟩
  · exact .inl hend
  · rw [Endless, hread]
    exact hr r hmem s hs

theorem Defers.finishes (h : Defers P 𝓜 𝓡) (hr : Finishes true heads stops 𝓡)
    (hP : ∀ k ∈ heads, P k) : Finishes strict heads stops 𝓜 := by
  obtain ⟨c, hc, hr⟩ := hr
  have hc : Headed heads c := hc.resolve_left (by simp)
  exact ⟨c, .inr hc, fun rest hrest => h.replays (hr rest hrest) (hc.append.forall_head hP)⟩

theorem Defers.prompt (h : Defers P 𝓜 𝓡) (hr : Foresees file L true heads stops 𝓡)
    (hP : ∀ k ∈ heads, P k) (hs : s.Ends) (hk : P s.current.kind) (hL : s.toList.length ≤ L) :
    ∀ m ∈ 𝓜, Prompt file strict heads stops 𝓜 m s := by
  intro m hm
  rcases h m hm s hk with hend | ⟨r, hmem, hread⟩
  · exact hend.prompt
  have hprompt := hr.prompt hs hL r hmem
  -- The tokens that were read begin with the one at hand.
  have hfirst : ∀ {w rest : List Token} {s₁ : TokenStream}, s.toList = w ++ s₁.toList → w ≠ [] →
      ∀ t ∈ (w ++ rest).head?, P t.kind := by
    intro w rest s₁ hw hne
    obtain ⟨t, w, rfl⟩ := List.exists_cons_of_ne_nil hne
    obtain rfl := TokenStream.current_of_toList hw
    simpa using hk
  constructor
  · intro a s₁ hok
    obtain ⟨w, hw, hne, hr⟩ := hprompt.ok (hread ▸ hok)
    exact ⟨w, hw, fun _ => hne rfl, fun rest hrest =>
      h.replays (hr rest hrest) (hfirst hw (hne rfl))⟩
  · intro e s₁ herror hb
    obtain ⟨hloc, w, c, hw, hfail, hhead, hr⟩ := hprompt.error (hread ▸ herror) hb
    refine ⟨hloc, w, c, hw, fun rest hrest => h.refails (hfail rest hrest) ?_, hhead,
      fun rest hrest => h.replays (hr rest hrest) ?_⟩
    · rcases eq_or_ne w [] with rfl | hne
      · rw [List.nil_append, hrest, ← TokenStream.current_of_toList (t := s₁.current) hw]
        simpa using hk
      · exact hfirst hw hne
    · rcases eq_or_ne w [] with rfl | hne
      · exact (hhead rfl).append.forall_head hP
      · rw [List.append_assoc]
        exact hfirst hw hne

theorem Rests.replays (h : Rests P 𝓜) (hP : ∀ t ∈ rest.head?, P t.kind) : Replays 𝓜 [] rest := by
  intro m hm s hs
  rw [List.nil_append] at hs
  rcases h m hm s (hP _ (by rw [← hs]; rfl)) with hend | ⟨a, s', hread, rfl⟩
  · exact .inl hend
  · exact .inr ⟨a, s', hread, hs⟩

theorem Rests.finishes (h : Rests P 𝓜) (hP : ∀ k ∈ stops, P k) :
    Finishes false heads stops 𝓜 :=
  ⟨[], .inl ⟨rfl, rfl⟩, fun _ hrest => h.replays (hrest.forall_head hP)⟩

theorem Rests.prompt (h : Rests P 𝓜) (hP : ∀ k ∈ stops, P k) (hk : P s.current.kind) :
    ∀ m ∈ 𝓜, Prompt file false heads stops 𝓜 m s := by
  intro m hm
  rcases h m hm s hk with hend | ⟨a, s', hread, rfl⟩
  · exact Endless.prompt hend
  constructor
  · intro b s₁ hok
    obtain ⟨rfl, rfl⟩ := EStateM.Result.ok.inj (hread.symm.trans hok)
    exact ⟨[], rfl, by simp, fun rest hrest => h.replays (hrest.forall_head hk hP)⟩
  · intro e s₁ herror
    cases hread.symm.trans herror

theorem Rejects.prompt {cause : ParseCause} (h : Rejects file s.current cause 𝓜)
    (hfinish : Finishes true heads stops 𝓜) : ∀ m ∈ 𝓜, Prompt file strict heads stops 𝓜 m s := by
  intro m hm
  rcases h m hm s rfl with hend | hread
  · exact hend.prompt
  constructor
  · intro a s₁ hok
    cases hread.symm.trans hok
  · intro e s₁ herror _
    obtain ⟨rfl, rfl⟩ := EStateM.Result.error.inj (hread.symm.trans herror)
    obtain ⟨c, hc, hfinish⟩ := hfinish
    refine ⟨rfl, [], c, rfl, fun rest hrest m' hm' s' hs' => ?_,
      fun _ => hc.resolve_left (by simp), hfinish⟩
    have hcurrent : s'.current = s.current := by
      rw [List.nil_append] at hs'
      rw [← hs'] at hrest
      exact Option.some.inj hrest
    refine (h m' hm' s' hcurrent).imp id fun hread' => ⟨s', hread'.trans ?_, hs'⟩
    rw [← hcurrent]
    rfl

end Branches

section Tokens

variable {k : TokenKind}

theorem rests_pure : Rests (fun _ => True) (Set.range (pure : α → Parse α)) := by
  rintro _ ⟨a, rfl⟩ s -
  exact accepts_pure rfl

theorem foresees_pure : Foresees file L false [] stops (Set.range (pure : α → Parse α)) :=
  ⟨rests_pure.finishes (by simp), fun _ _ => rests_pure.prompt (by simp) trivial⟩

theorem Replays.alone (h : Replays 𝓜 w rest) :
    Replays (Parse.inTurn 𝓜 (Set.range (pure : α → Parse α))) w rest := by
  rw [← List.append_nil w]
  exact Replays.inTurn h (rests_pure.replays (by simp))

theorem Foresees.alone (h : Foresees file L strict heads stops 𝓜) :
    Foresees file L strict heads stops (Parse.inTurn 𝓜 (Set.range (pure : α → Parse α))) := by
  constructor
  · obtain ⟨c, hc, hm⟩ := h.finishes
    exact ⟨c, hc, fun rest hrest => (hm rest hrest).alone⟩
  rintro s hs hL _ ⟨m, hmem, f, hf, rfl⟩
  have hprompt := h.prompt hs hL m hmem
  cases hread : m s with
  | error e s₁ =>
    constructor
    · intro b s₂ hok
      cases (bind_of_error hread).symm.trans hok
    · intro e' s₂ herror hb
      obtain ⟨rfl, rfl⟩ := EStateM.Result.error.inj ((bind_of_error hread).symm.trans herror)
      obtain ⟨hloc, w, c, hw, hfail, hhead, hm⟩ := hprompt.error hread hb
      exact ⟨hloc, w, c, hw, fun rest hrest => (hfail rest hrest).inTurn, hhead,
        fun rest hrest => (hm rest hrest).alone⟩
  | ok a s₁ =>
    obtain ⟨b, hb⟩ := hf a
    have hpure : (m >>= f) s = .ok b s₁ := by
      rw [bind_of_ok hread, ← hb]
      rfl
    constructor
    · intro b' s₂ hok
      obtain ⟨rfl, rfl⟩ := EStateM.Result.ok.inj (hpure.symm.trans hok)
      obtain ⟨w, hw, hne, hm⟩ := hprompt.ok hread
      exact ⟨w, hw, hne, fun rest hrest => (hm rest hrest).alone⟩
    · intro e s₂ herror
      cases hpure.symm.trans herror

theorem leads_expect (hk : t.kind = k) : Leads t {expect file k} (Set.range pure) := by
  rintro _ rfl s rfl
  exact .inr ⟨_, ⟨s.current, rfl⟩, expect_eq_ok_iff.mpr ⟨hk, rfl, rfl⟩⟩

theorem rejects_expect (hk : t.kind ≠ k) :
    Rejects file t (.expected k t.found) {expect file k} := by
  rintro _ rfl s rfl
  right
  rw [expect, bind_of_ok (current_eq s), if_neg hk]

theorem foresees_expect (hk : k ≠ .eof) : Foresees file L true [k] stops {expect file k} := by
  have hfinish : Finishes true [k] stops {expect file k} := by
    have hleads : Leads ⟨k, "", 1, 1⟩ {expect file k} (Set.range pure) := leads_expect rfl
    refine ⟨[⟨k, "", 1, 1⟩], .inr (headed_cons (by simp)), fun rest hrest => ?_⟩
    exact hleads.replays (rests_pure.replays (by simp)) hrest.ne_nil
  refine ⟨hfinish, fun {s} hs hL => ?_⟩
  by_cases hkind : s.current.kind = k
  · exact (leads_expect hkind).prompt (L := L) foresees_pure hs (hkind ▸ hk) (by omega)
  · exact (rejects_expect hkind).prompt hfinish

theorem Foresees.after (k : TokenKind) (hk : k ≠ .eof) (h : Foresees file L strict heads stops 𝓖) :
    Foresees file L true [k] stops (Parse.inTurn {expect file k} 𝓖) :=
  (foresees_expect hk).inTurn h (List.Subset.refl _) (by omega)

end Tokens

end Parse

end Minifun
