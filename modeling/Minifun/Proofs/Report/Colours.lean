import Mathlib.Data.List.Forall2
import Minifun.Proofs.Text.Decimal
import Minifun.Proofs.Text.Lines
import Minifun.Report.Diagnostic

/-! # Reports without their colours

A report in colours is the plain report with escape codes put in, so that erasing the codes leaves
the plain one. The texts that are shown must have no escape characters of their own, since a code
in them would be erased as well.
-/

namespace Minifun

namespace Text

def escapeChar : Char := '\x1b'

def Unescaped (s : String) : Prop :=
  escapeChar ∉ s.toList

instance (s : String) : Decidable (Unescaped s) :=
  inferInstanceAs (Decidable (escapeChar ∉ s.toList))

variable {s t : String}

theorem Unescaped.append (h : Unescaped s) (h' : Unescaped t) : Unescaped (s ++ t) := by
  rw [Unescaped, String.toList_append]
  exact List.not_mem_append h h'

theorem unescaped_replicate (n : Nat) {c : Char} (h : escapeChar ≠ c) :
    Unescaped (String.ofList (List.replicate n c)) := by
  rw [Unescaped, String.toList_ofList]
  exact fun hc => h (List.eq_of_mem_replicate hc)

theorem unescaped_nat (n : Nat) : Unescaped (toString n) :=
  fun h => absurd (isDigit_of_mem_nat h) (by decide)

theorem unescaped_int (i : Int) : Unescaped (toString i) :=
  fun h => absurd (mem_toString h) (by decide)

theorem unescaped_of_mem_lines {l : String} (h : Unescaped s) (hl : l ∈ lines s) : Unescaped l := by
  obtain ⟨cs, hcs, rfl⟩ := List.mem_map.mp hl
  rw [Unescaped, String.toList_ofList]
  exact fun hc => h (mem_of_mem_splitLines hcs hc)

theorem unescaped_intercalate {ls : List String} (h : Unescaped s) (hls : ∀ l ∈ ls, Unescaped l) :
    Unescaped (s.intercalate ls) := by
  induction ls with
  | nil => exact List.not_mem_nil
  | cons l ls ih =>
    obtain ⟨hl, hls⟩ := List.forall_mem_cons.mp hls
    cases ls with
    | nil => rwa [String.intercalate_singleton]
    | cons l' ls =>
      rw [String.intercalate_cons_cons]
      exact (hl.append h).append (ih hls)

end Text

open Text (Unescaped escapeChar)

def Ink.all : List Ink :=
  [.bold, .dim, .red, .green, .yellow, .blue, .magenta, .cyan, .brightBlue]

namespace Palette

/-- The escape codes: the one that ends painting, and one for each ink. -/
def codes : List (List Char) :=
  (resetCode :: Ink.all.map Ink.code).map String.toList

theorem code_mem_codes (ink : Ink) : ink.code.toList ∈ codes := by
  cases ink <;> decide

theorem resetCode_mem_codes : resetCode.toList ∈ codes := by
  decide

theorem head_of_mem_codes : ∀ code ∈ codes, code.head? = some escapeChar := by
  decide

theorem codes_apart : ∀ code ∈ codes, ∀ code' ∈ codes, code <+: code' → code = code' := by
  decide

def codeAt (cs : List Char) : Option (List Char) :=
  codes.find? fun code => code.isPrefixOf cs

/-- A text without so many characters at its front, and without the escape codes in the rest. -/
def eraseFrom : Nat → List Char → List Char
  | _, [] => []
  | skip + 1, _ :: cs => eraseFrom skip cs
  | 0, c :: cs =>
    match codeAt (c :: cs) with
    | some code => eraseFrom (code.length - 1) cs
    | none => c :: eraseFrom 0 cs

def erase (s : String) : String :=
  String.ofList (eraseFrom 0 s.toList)

section Erase

variable {cs code : List Char}

theorem codeAt_append (h : code ∈ codes) (rest : List Char) :
    codeAt (code ++ rest) = some code := by
  cases hfound : codeAt (code ++ rest) with
  | none =>
    have hnone := List.find?_eq_none.mp hfound code h
    exact absurd (List.isPrefixOf_iff_prefix.mpr (List.prefix_append code rest)) hnone
  | some code' =>
    have hmem := List.mem_of_find?_eq_some hfound
    have hfront := List.find?_some hfound
    have hprefix := List.isPrefixOf_iff_prefix.mp hfront
    -- Of two codes at the front of one text one begins the other.
    rcases List.prefix_or_prefix_of_prefix hprefix (List.prefix_append code rest) with hle | hle
    · rw [codes_apart code' hmem code h hle]
    · rw [codes_apart code h code' hmem hle]

theorem codeAt_cons {c : Char} (hc : escapeChar ≠ c) (cs : List Char) :
    codeAt (c :: cs) = none := by
  refine List.find?_eq_none.mpr fun code hcode hprefix => hc ?_
  have hhead := head_of_mem_codes code hcode
  cases code with
  | nil => cases hhead
  | cons d code =>
    obtain ⟨rfl, -⟩ := List.cons_prefix_cons.mp (List.isPrefixOf_iff_prefix.mp hprefix)
    exact (Option.some.inj hhead).symm

theorem eraseFrom_length (cs rest : List Char) :
    eraseFrom cs.length (cs ++ rest) = eraseFrom 0 rest := by
  induction cs with
  | nil => rfl
  | cons c cs ih => exact ih

theorem eraseFrom_code (h : code ∈ codes) (rest : List Char) :
    eraseFrom 0 (code ++ rest) = eraseFrom 0 rest := by
  have hcode := codeAt_append h rest
  cases code with
  | nil => rfl
  | cons c code =>
    rw [List.cons_append] at hcode ⊢
    rw [eraseFrom, hcode]
    exact eraseFrom_length code rest

theorem eraseFrom_text (h : escapeChar ∉ cs) (rest : List Char) :
    eraseFrom 0 (cs ++ rest) = cs ++ eraseFrom 0 rest := by
  induction cs with
  | nil => rfl
  | cons c cs ih =>
    rw [List.cons_append, eraseFrom, codeAt_cons (List.ne_of_not_mem_cons h),
      ih (List.not_mem_of_not_mem_cons h), List.cons_append]

end Erase

/-- Erasing the codes of a text leaves another one, which has no escape characters. No code begins
in the text and goes on behind it, whatever comes there. -/
structure Fades (s t : String) : Prop where
  unescaped : Unescaped t
  erased : ∀ rest, eraseFrom 0 (s.toList ++ rest) = t.toList ++ eraseFrom 0 rest

def FadeAll : List String → List String → Prop :=
  List.Forall₂ Fades

section Fades

variable {s s' t t' word : String} {ink : Ink}

theorem Fades.erase_eq (h : Fades s t) : erase s = t := by
  have herased := h.erased []
  rw [List.append_nil] at herased
  rw [erase, herased, eraseFrom, List.append_nil, String.ofList_toList]

theorem fades_text (h : Unescaped s) : Fades s s :=
  ⟨h, eraseFrom_text h⟩

theorem fades_paint (ink : Ink) (h : Unescaped s) :
    Fades (coloured.paint ink s) (plain.paint ink s) := by
  refine ⟨h, fun rest => ?_⟩
  change eraseFrom 0 ((ink.code ++ s ++ resetCode).toList ++ rest) = s.toList ++ eraseFrom 0 rest
  rw [String.toList_append, String.toList_append, List.append_assoc, List.append_assoc,
    eraseFrom_code (code_mem_codes ink), eraseFrom_text h, eraseFrom_code resetCode_mem_codes]

theorem Fades.append (h : Fades s t) (h' : Fades s' t') : Fades (s ++ s') (t ++ t') := by
  refine ⟨h.unescaped.append h'.unescaped, fun rest => ?_⟩
  rw [String.toList_append, String.toList_append, List.append_assoc, h.erased, h'.erased,
    List.append_assoc]

theorem Fades.behind (hword : Unescaped word) (h : Fades s t) :
    Fades (coloured.paint ink word ++ " " ++ s) (plain.paint ink word ++ " " ++ t) :=
  ((fades_paint ink hword).append (fades_text (by decide))).append h

theorem Fades.indented (hword : Unescaped word) (h : Fades s t) :
    Fades ("  " ++ coloured.paint ink word ++ " " ++ s)
      ("  " ++ plain.paint ink word ++ " " ++ t) :=
  (((fades_text (by decide)).append (fades_paint ink hword)).append
    (fades_text (by decide))).append h

theorem FadeAll.append {ls ls' ms ms' : List String} (h : FadeAll ls ms) (h' : FadeAll ls' ms') :
    FadeAll (ls ++ ls') (ms ++ ms') :=
  List.rel_append h h'

theorem FadeAll.joinLines {ls ms : List String} (h : FadeAll ls ms) :
    Fades (Text.joinLines ls) (Text.joinLines ms) := by
  induction h with
  | nil => exact fades_text (by decide)
  | cons hline hlines ih =>
    cases hlines with
    | nil =>
      rw [Text.joinLines, Text.joinLines, String.intercalate_singleton,
        String.intercalate_singleton]
      exact hline
    | cons hline' hlines =>
      rw [Text.joinLines, Text.joinLines, String.intercalate_cons_cons,
        String.intercalate_cons_cons]
      exact (hline.append (fades_text (by decide))).append ih

end Fades

end Palette

open Palette (Fades FadeAll fades_text fades_paint)

def Loc.Clean (loc : Loc) : Prop :=
  ∀ name ∈ loc.file, Unescaped name

instance (loc : Loc) : Decidable loc.Clean :=
  inferInstanceAs (Decidable (∀ name ∈ loc.file, Unescaped name))

theorem Loc.Clean.unescaped_text {loc : Loc} (h : loc.Clean) : Unescaped loc.text := by
  have hplace : Unescaped loc.place := by
    rw [place]
    split
    · exact .append (by decide) (Text.unescaped_int _)
    · exact .append (.append (Text.unescaped_int _) (by decide)) (Text.unescaped_int _)
  rw [text]
  split
  · exact hplace
  · next name hname =>
    split
    · exact hplace
    · exact .append (.append (h name hname) (by decide)) hplace

namespace Excerpt

variable {line : String}

theorem unescaped_gutter (number : Nat) : Unescaped (gutter number) :=
  .append (.append (Text.unescaped_replicate _ (by decide)) (Text.unescaped_nat number)) (by decide)

theorem fades_plainLine (number : Nat) (h : Unescaped line) :
    Fades (plainLine number line) (plainLine number line) :=
  fades_text (.append (.append (by decide) (unescaped_gutter number)) h)

theorem fades_markedLine (number : Nat) (h : Unescaped line) :
    Fades (markedLine .coloured number line) (markedLine .plain number line) :=
  (Fades.behind (by decide) (fades_text (unescaped_gutter number))).append (fades_text h)

theorem fades_caretLine (line : String) (column : Int) :
    Fades (caretLine .coloured line column) (caretLine .plain line column) :=
  .append (fades_text (.append (by decide) (Text.unescaped_replicate _ (by decide))))
    (fades_paint .red (Text.unescaped_replicate _ (by decide)))

theorem fadeAll_body (loc : Loc) (number : Nat) {ls : List String} (h : ∀ l ∈ ls, Unescaped l) :
    FadeAll (body .coloured loc number ls) (body .plain loc number ls) := by
  induction ls generalizing number with
  | nil => exact .nil
  | cons l ls ih =>
    obtain ⟨hl, hls⟩ := List.forall_mem_cons.mp h
    rw [body, body]
    split
    · split
      · exact .cons (fades_markedLine number hl) (.cons (fades_caretLine l _) (ih _ hls))
      · exact .cons (fades_markedLine number hl) (ih _ hls)
    · exact .cons (fades_plainLine number hl) (ih _ hls)

theorem fades_render {source message : String} {loc : Loc} (context : Int)
    (hsource : Unescaped source) (hloc : loc.Clean) (hmessage : Unescaped message) :
    Fades (render .coloured source loc message context)
      (render .plain source loc message context) := by
  have htitle : FadeAll
      (if message = "" then [] else [Palette.coloured.failure ("Error: " ++ message)])
      (if message = "" then [] else [Palette.plain.failure ("Error: " ++ message)]) := by
    split
    · exact .nil
    · exact .cons (.behind (by decide) (fades_text (.append (by decide) hmessage))) .nil
  have hplace : Fades (Palette.coloured.dim "at" ++ " " ++ loc.text)
      (Palette.plain.dim "at" ++ " " ++ loc.text) :=
    .behind (by decide) (fades_text hloc.unescaped_text)
  have hshown : ∀ l ∈ (window (Text.lines source) loc context).2, Unescaped l := fun l hl =>
    Text.unescaped_of_mem_lines hsource (List.mem_of_mem_take (List.mem_of_mem_drop hl))
  simp only [render]
  split
  · exact (htitle.append
      (.cons hplace (.cons (fades_text (by decide)) (fadeAll_body loc _ hshown)))).joinLines
  · exact htitle.joinLines

end Excerpt

structure Step.Clean (step : Step) : Prop where
  description : Unescaped step.description
  loc : ∀ loc ∈ step.loc, loc.Clean
  result : ∀ result ∈ step.result, Unescaped result

namespace Trace

theorem fadeAll_stepLines (number : Nat) {step : Step} (h : step.Clean) :
    FadeAll (stepLines .coloured number step) (stepLines .plain number step) := by
  have hnumber : Unescaped ("Step " ++ toString number ++ ":") :=
    .append (.append (by decide) (Text.unescaped_nat number)) (by decide)
  rw [stepLines, stepLines]
  refine FadeAll.append (.cons (.behind hnumber (fades_text h.description)) ?place) ?result
  case place =>
    cases hplace : step.loc with
    | none => exact .nil
    | some loc =>
      exact .cons (.indented (by decide) (fades_text (h.loc loc hplace).unescaped_text)) .nil
  case result =>
    cases hresult : step.result with
    | none => exact .nil
    | some result =>
      dsimp only
      split
      · exact .nil
      · exact .cons (.indented (by decide) (fades_paint .cyan (h.result result hresult))) .nil

theorem fadeAll_stepsLines (number : Nat) {steps : List Step} (h : ∀ step ∈ steps, step.Clean) :
    FadeAll (stepsLines .coloured number steps) (stepsLines .plain number steps) := by
  induction steps generalizing number with
  | nil => exact .nil
  | cons step steps ih =>
    obtain ⟨hstep, hsteps⟩ := List.forall_mem_cons.mp h
    exact (fadeAll_stepLines number hstep).append (ih (number + 1) hsteps)

theorem rel_render {steps : List Step} (h : ∀ step ∈ steps, step.Clean) :
    Option.Rel Fades (render .coloured steps) (render .plain steps) := by
  have htitle := fades_paint .bold (s := "\nType Derivation Trace:") (by decide)
  rw [render, render]
  split
  · exact .none
  · exact .some (FadeAll.joinLines (.cons htitle (fadeAll_stepsLines 1 h)))

end Trace

namespace Diagnostic

structure Clean (d : Diagnostic) : Prop where
  message : Unescaped d.message
  loc : ∀ loc ∈ d.loc, loc.Clean
  expected : ∀ expected ∈ d.expected, Unescaped expected
  actual : ∀ actual ∈ d.actual, Unescaped actual
  similar : ∀ name ∈ d.similar, Unescaped name
  source : ∀ source ∈ d.source, Unescaped source

variable {d : Diagnostic}

theorem eq_some_of_present {o : Option String} {s : String} (h : present o = some s) :
    o = some s := by
  cases o with
  | none => cases h
  | some t =>
    rw [present] at h
    split at h
    · cases h
    · exact h

theorem Clean.unescaped_hints (h : d.Clean) : ∀ hint ∈ d.hints, Unescaped hint := by
  have hnames : ∀ names ∈ (d.similar.take 3).map fun name => "'" ++ name ++ "'",
      Unescaped names := by
    refine List.forall_mem_map.mpr fun name hname => ?_
    exact .append (.append (by decide) (h.similar name (List.mem_of_mem_take hname))) (by decide)
  rw [hints]
  split
  case h_1 =>
    refine List.forall_mem_append.mpr ⟨?_, List.forall_mem_singleton.mpr (by decide)⟩
    split
    · exact List.forall_mem_nil _
    · exact List.forall_mem_singleton.mpr
        (.append (.append (by decide) (Text.unescaped_intercalate (by decide) hnames)) (by decide))
  case h_3 =>
    split
    · next expected actual hexpected hactual =>
      have hexpected := h.expected expected (eq_some_of_present hexpected)
      have hactual := h.actual actual (eq_some_of_present hactual)
      exact List.forall_mem_singleton.mpr
        (.append (.append (.append (by decide) hexpected) (by decide)) hactual)
    · exact List.forall_mem_nil _
  all_goals decide

theorem Clean.rel_suggestion (h : d.Clean) :
    Option.Rel Fades (d.suggestion .coloured) (d.suggestion .plain) := by
  have hhints := h.unescaped_hints
  rw [suggestion, suggestion]
  split
  · exact .none
  · refine .some (FadeAll.joinLines ?_)
    exact List.forall₂_map_left_iff.mpr (List.forall₂_map_right_iff.mpr
      (List.forall₂_same.mpr fun hint hmem =>
        .behind (by decide) (fades_text (hhints hint hmem))))

theorem Clean.fadeAll_opening (h : d.Clean) :
    FadeAll (d.opening .coloured) (d.opening .plain) := by
  have hmessage : Unescaped (d.stage.label ++ ": " ++ d.message) := by
    have hlabel : Unescaped d.stage.label := by cases d.stage <;> decide
    exact .append (.append hlabel (by decide)) h.message
  have htitle : Fades (Palette.coloured.failure (d.stage.label ++ ": " ++ d.message))
      (Palette.plain.failure (d.stage.label ++ ": " ++ d.message)) :=
    .behind (by decide) (fades_text hmessage)
  rw [opening, opening]
  split
  · next source loc hsource hloc =>
    have hsource := h.source source (eq_some_of_present hsource)
    exact .cons (Excerpt.fades_render 2 hsource (h.loc loc hloc) hmessage) .nil
  · next loc hsource hloc =>
    have hplace := (h.loc loc hloc).unescaped_text
    exact .cons htitle (.cons (.behind (by decide) (fades_text hplace)) .nil)
  · exact .cons htitle .nil

theorem Clean.fades_render {steps : List Step} (h : d.Clean) (hsteps : ∀ step ∈ steps, step.Clean) :
    Fades (d.render .coloured steps) (d.render .plain steps) := by
  simp only [render]
  refine ((h.fadeAll_opening.append ?hint).append ?findings).joinLines
  case hint =>
    have hsuggestion := h.rel_suggestion
    generalize d.suggestion .coloured = s, d.suggestion .plain = t at hsuggestion ⊢
    cases hsuggestion with
    | none => exact .nil
    | some hhint => exact .cons (fades_text (by decide)) (.cons hhint .nil)
  case findings =>
    split
    · have hfindings := Trace.rel_render hsteps
      generalize Trace.render .coloured steps = s, Trace.render .plain steps = t at hfindings ⊢
      cases hfindings with
      | none => exact .nil
      | some hlines => exact .cons hlines .nil
    · exact .nil

/-- Erasing the escape codes of a report in colours leaves the plain report, which has no escape
characters. -/
theorem erase_render {steps : List Step} (h : d.Clean) (hsteps : ∀ step ∈ steps, step.Clean) :
    Palette.erase (d.render .coloured steps) = d.render .plain steps ∧
      Unescaped (d.render .plain steps) :=
  have hreport := h.fades_render hsteps
  ⟨hreport.erase_eq, hreport.unescaped⟩

/-- A type error with an excerpt, a hint and a finding. -/
theorem erase_render_mismatch :
    let d : Diagnostic :=
      { stage := .typing, message := "expected int but got bool", kind := some .typeMismatch,
        loc := some ⟨2, 5, some "a.mfl"⟩, expected := some "int", actual := some "bool",
        source := some "val x := 1;\nx + true;" }
    let steps : List Step := [⟨"Definition of x", some ⟨1, 1, none⟩, some "int"⟩]
    Palette.erase (d.render .coloured steps) = d.render .plain steps ∧
      Unescaped (d.render .plain steps) :=
  erase_render ⟨by decide, by decide, by decide, by decide, by decide, by decide⟩
    (List.forall_mem_singleton.mpr ⟨by decide, by decide, by decide⟩)

end Diagnostic

end Minifun
