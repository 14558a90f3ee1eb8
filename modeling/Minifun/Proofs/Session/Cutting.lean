import Mathlib.Tactic.Choose
import Minifun.Proofs.Program.Texts
import Minifun.Proofs.Session.Outline

/-! # A session is its program

Statements with their semicolons may be given to a session in one input, in several, or one by one.
All succeed together, or none of these ways does, and then the statements are no program that
succeeds either. What the session answers and knows in the end is the same for all of them.
-/

namespace Minifun

open Token Parse Program

namespace Session

/-- Gives a session inputs one after the other. The answers are those of all inputs. -/
def feed (s : Session) : List String → Except Failure (List (List (Value × Ty)) × Session)
  | [] => .ok ([], s)
  | source :: sources => do
    let executed := s.execute source
    let pairs ← executed.outcome
    let rest ← executed.session.feed sources
    return (pairs :: rest.1, rest.2)

/-- A way to cut a row of texts into parts, none of which is empty. -/
structure Cutting (texts : List String) (cut : List (List String)) : Prop where
  flatten : cut.flatten = texts
  nonempty : ∀ part ∈ cut, part ≠ []

section Inputs

variable {texts : List String} {es : List Expr}

theorem dropEndWhile_closed {cs : List Char} (h : Closed cs) :
    Text.dropEndWhile Text.isBlank cs = cs := by
  obtain ⟨front, rfl⟩ := h
  simp [Text.dropEndWhile, Text.isBlank]

theorem toList_terminated {source : String} (h : Closed source.toList) :
    (terminated source).toList = source.toList.dropWhile Text.isBlank := by
  have hclosed := (dropWhile_closed (p := Text.isBlank) (by decide) h []).1
  have htrim : (Text.trim source).toList = source.toList.dropWhile Text.isBlank := by
    rw [Text.trim, String.toList_ofList, dropEndWhile_closed hclosed]
  have hend : (Text.trim source).endsWith ";" = true := by
    rwa [endsWith_iff_closed, htrim]
  simp only [terminated, hend, if_true, htrim]

theorem parse_terminated (h : List.Forall₂ IsStatement texts es) (hne : texts ≠ []) :
    ∃ p, Program.parse (terminated (String.join texts)) none = .ok p ∧
      p.statements.map Term.bare = es.map Term.bare := by
  obtain ⟨wordss, hspells, hall, hclosed⟩ := spells_join h
  have hwords := hspells.dropWhile_blank (hclosed hne)
  rw [← toList_terminated (hclosed hne)] at hwords
  exact parse_of_spells hwords hall none

end Inputs

def Reads (source : String) (es : List Expr) : Prop :=
  ∃ p, Program.parse (terminated source) none = .ok p ∧ p.statements.map Term.bare = es

variable {s : Session} {source : String} {sources : List String} {es : List Expr}
  {ess : List (List Expr)}

theorem feed_of_error {e : Failure} (h : (s.execute source).outcome = .error e)
    (sources : List String) : s.feed (source :: sources) = .error e := by
  rw [feed, h]
  rfl

theorem feed_of_ok {pairs : List (Value × Ty)} (h : (s.execute source).outcome = .ok pairs)
    (sources : List String) :
    s.feed (source :: sources) =
      ((s.execute source).session.feed sources).map fun r => (pairs :: r.1, r.2) := by
  rw [feed, h]
  rfl

theorem execute_reads (hquiet : s.tracing = false) (h : Reads source es) :
    ((s.execute source).outcome.toOption.map fun pairs =>
      (pairs.map bareAnswer, (s.execute source).session.outline)) =
      s.outline.statements s.depth es := by
  obtain ⟨p, hp, rfl⟩ := h
  exact execute_outline hquiet hp

/-- Inputs one after the other do what all their statements do one after the other. -/
theorem feed_outline (hquiet : s.tracing = false) (h : List.Forall₂ Reads sources ess) :
    ((s.feed sources).toOption.map fun r => (r.1.flatten.map bareAnswer, r.2.outline)) =
      s.outline.statements s.depth ess.flatten := by
  induction h generalizing s with
  | nil => rfl
  | @cons source es sources ess hreads _ ih =>
    obtain ⟨htracing, hdepth⟩ := settings_execute s source
    rw [List.flatten_cons, Outline.statements_append, ← execute_reads hquiet hreads]
    cases hout : (s.execute source).outcome with
    | error e =>
      rw [feed_of_error hout]
      rfl
    | ok pairs =>
      have hrest := ih (htracing.trans hquiet)
      rw [hdepth] at hrest
      rw [feed_of_ok hout]
      simp only [Except.toOption, Option.map_some, Option.bind_some, ← hrest]
      cases (s.execute source).session.feed sources with
      | error e => rfl
      | ok r => simp [Except.map]

theorem feed_nonempty (hquiet : s.tracing = false) (h : List.Forall₂ Reads sources ess)
    (hne : ∀ es ∈ ess, es ≠ [])
    {answers : List (List (Value × Ty))} {final : Session}
    (hfeed : s.feed sources = .ok (answers, final)) : ∀ pairs ∈ answers, pairs ≠ [] := by
  induction h generalizing s answers with
  | nil =>
    obtain ⟨rfl, -⟩ := Prod.mk.inj (Except.ok.inj hfeed)
    simp
  | @cons source es sources ess hreads _ ih =>
    obtain ⟨hes, hess⟩ := List.forall_mem_cons.mp hne
    cases hout : (s.execute source).outcome with
    | error e => simp [feed_of_error hout] at hfeed
    | ok pairs =>
      have hlength : pairs.length = es.length := by
        have hreads := execute_reads hquiet hreads
        rw [hout] at hreads
        simpa using Outline.length_statements hreads.symm
      rw [feed_of_ok hout] at hfeed
      cases hrest : (s.execute source).session.feed sources with
      | error e => simp [hrest, Except.map] at hfeed
      | ok r =>
        obtain ⟨rest, final'⟩ := r
        rw [hrest] at hfeed
        obtain ⟨rfl, rfl⟩ := Prod.mk.inj (Except.ok.inj hfeed)
        have hquiet' := (settings_execute s source).1.trans hquiet
        refine List.forall_mem_cons.mpr ⟨?_, ih hquiet' hess hrest⟩
        rw [← List.length_pos_iff, hlength]
        exact List.length_pos_iff.mpr hes

theorem getLast?_flatten_of_nonempty {α : Type} {parts : List (List α)}
    (h : ∀ part ∈ parts, part ≠ []) :
    parts.flatten.getLast? = parts.getLast?.bind List.getLast? := by
  obtain rfl | ⟨front, part, rfl⟩ := parts.eq_nil_or_concat
  · rfl
  · obtain ⟨last, hlast⟩ :=
      List.getLast?_isSome.mpr (h part (by simp)) |> Option.isSome_iff_exists.mp
    simp [List.concat_eq_append, List.getLast?_append, hlast]

theorem isStatement_map {texts : List String} {statementOf : String → Expr}
    (h : ∀ t ∈ texts, IsStatement t (statementOf t)) :
    List.Forall₂ IsStatement texts (texts.map statementOf) := by
  rw [List.forall₂_map_right_iff, List.forall₂_same]
  exact h

theorem Cutting.reads {texts : List String} {cut : List (List String)} (hcut : Cutting texts cut)
    {statementOf : String → Expr} (h : ∀ t ∈ texts, IsStatement t (statementOf t)) :
    List.Forall₂ Reads (cut.map String.join)
      (cut.map fun part => (part.map statementOf).map Term.bare) := by
  rw [List.forall₂_map_left_iff, List.forall₂_map_right_iff, List.forall₂_same]
  intro part hpart
  have hall : ∀ t ∈ part, IsStatement t (statementOf t) := fun t ht =>
    h t (hcut.flatten ▸ List.mem_flatten_of_mem hpart ht)
  exact parse_terminated (isStatement_map hall) (hcut.nonempty part hpart)

theorem Cutting.flatten_map {texts : List String} {cut : List (List String)}
    (hcut : Cutting texts cut) (k : String → Expr) :
    (cut.map fun part => (part.map k).map Term.bare).flatten = (texts.map k).map Term.bare := by
  rw [← hcut.flatten]
  simp [List.map_flatten, Function.comp_def]

theorem isOk_eq_isSome_map {ε α β : Type} (r : Except ε α) (k : α → β) :
    r.isOk = (r.toOption.map k).isSome := by
  cases r <;> rfl

theorem exists_isStatement {text : String} (hend : text.endsWith ";" = true)
    (h : (Program.parse text none).toOption.map (·.statements.length) = some 1) :
    ∃ e, IsStatement text e := by
  obtain ⟨⟨es, loc⟩, hp, hlength⟩ := eq_ok_of_map_eq_some h
  obtain ⟨e, rfl⟩ := List.length_eq_one_iff.mp hlength
  exact ⟨e, hend, loc, hp⟩

theorem feed_cutting (depth : Nat) {texts : List String}
    {cut : List (List String)} (hcut : Cutting texts cut) {statementOf : String → Expr}
    (h : ∀ t ∈ texts, IsStatement t (statementOf t)) :
    ((feed { depth := depth } (cut.map String.join)).toOption.map fun r =>
        (r.1.flatten.map bareAnswer, r.2.outline)) =
      ({} : Outline).statements depth ((texts.map statementOf).map Term.bare) := by
  rw [← hcut.flatten_map]
  exact feed_outline rfl (hcut.reads h)

theorem run_join (depth : Nat) (file : Option String) {texts : List String} (hne : texts ≠ [])
    {statementOf : String → Expr} (h : ∀ t ∈ texts, IsStatement t (statementOf t)) :
    ((run depth (String.join texts) file).toOption.map fun r => (r.answer.bare, r.type)) =
      (({} : Outline).statements depth ((texts.map statementOf).map Term.bare)).bind
        (·.1.getLast?) := by
  obtain ⟨p, hp, hstatements⟩ := parse_join (isStatement_map h) file
  rw [← hstatements]
  refine run_outline hp ?_
  intro hnil
  simp [hnil, hne] at hstatements

/-- Statements with their semicolons succeed as the inputs of a session exactly if they succeed as
one program, however they are cut into inputs. The last answer and type are then those of the
program, and neither the answers and types of all statements nor what is defined in the end depend
on the cutting. Answers are compared without the places in the bodies of closures. -/
theorem feed_eq_run (depth : Nat) (file : Option String) {texts : List String}
    (hne : texts ≠ []) (htexts : ∀ t ∈ texts, ∃ e, IsStatement t e) :
    let fresh : Session := { depth := depth }
    (∀ cut, Cutting texts cut →
      (fresh.feed (cut.map String.join)).isOk = (run depth (String.join texts) file).isOk) ∧
    ∀ r, run depth (String.join texts) file = .ok r →
      ∃ pairs definitions names, ∀ cut, Cutting texts cut →
        ∃ answers final, fresh.feed (cut.map String.join) = .ok (answers, final) ∧
          (answers.getLast?.bind List.getLast?).map bareAnswer = some (r.answer.bare, r.type) ∧
          answers.flatten.map bareAnswer = pairs ∧ final.definitions = definitions ∧
          final.names = names := by
  intro fresh
  -- The program and every cutting are compared with the statements themselves, which know no
  -- inputs.
  choose! statementOf hstatement using htexts
  have hrun := run_join depth file hne hstatement
  constructor
  · intro cut hcut
    have hfeed := feed_cutting depth hcut hstatement
    rw [isOk_eq_isSome_map, isOk_eq_isSome_map, hfeed, hrun]
    cases hall : ({} : Outline).statements depth ((texts.map statementOf).map Term.bare) with
    | none => rfl
    | some result =>
      have hlength := Outline.length_statements hall
      have hpairs : result.1 ≠ [] := by
        intro hnil
        simp [hnil, hne, eq_comm] at hlength
      simp [List.getLast?_isSome, hpairs]
  · intro r hr
    rw [hr] at hrun
    obtain ⟨result, hall, hlast⟩ := Option.bind_eq_some_iff.mp hrun.symm
    refine ⟨result.1, result.2.definitions, result.2.names, fun cut hcut => ?_⟩
    have hfeed := feed_cutting depth hcut hstatement
    rw [hall] at hfeed
    obtain ⟨⟨answers, final⟩, hok, hresult⟩ := eq_ok_of_map_eq_some hfeed
    have houtline : final.outline = result.2 := congrArg Prod.snd hresult
    have hnonempty : ∀ pairs ∈ answers, pairs ≠ [] := by
      refine feed_nonempty rfl (hcut.reads hstatement) ?_ hok
      intro es hes
      obtain ⟨part, hpart, rfl⟩ := List.mem_map.mp hes
      simpa using hcut.nonempty part hpart
    refine ⟨answers, final, hok, ?_, congrArg Prod.fst hresult, ?_, ?_⟩
    · rw [← getLast?_flatten_of_nonempty hnonempty, ← List.getLast?_map, ← hlast]
      exact congrArg (fun r => r.1.getLast?) hresult
    · rw [← definitions_outline, houtline]
    · rw [← names_outline, houtline]

/-- A definition and its use, as two inputs and as a program. -/
theorem feed_eq_run_successor :
    ∃ r answers final,
      run 2 (String.join ["val next x := x + 1;", " next(2);"]) none = .ok r ∧ r.type = .int ∧
      feed { depth := 2 } ["val next x := x + 1;", " next(2);"] = .ok (answers, final) ∧
      (answers.getLast?.bind List.getLast?).map bareAnswer = some (r.answer.bare, .int) := by
  have hstatements : ∀ t ∈ ["val next x := x + 1;", " next(2);"], ∃ e, IsStatement t e := by
    simp only [List.forall_mem_cons]
    exact ⟨exists_isStatement (by decide +kernel) (by decide +kernel),
      exists_isStatement (by decide +kernel) (by decide +kernel), by simp⟩
  have htype : ((run 2 (String.join ["val next x := x + 1;", " next(2);"]) none).toOption.map
      (·.type)) = some .int := by decide +kernel
  obtain ⟨r, hr, ht⟩ := eq_ok_of_map_eq_some htype
  obtain ⟨_, _, _, h⟩ := (feed_eq_run 2 none (by simp) hstatements).2 r hr
  obtain ⟨answers, final, hfeed, hlast, -⟩ :=
    h [["val next x := x + 1;"], [" next(2);"]] ⟨rfl, by simp⟩
  rw [ht] at hlast
  exact ⟨r, answers, final, hr, ht, by simpa using hfeed, hlast⟩

end Session

end Minifun
