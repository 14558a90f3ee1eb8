import Minifun.Proofs.Session.Alignment
import Minifun.Proofs.Session.Trimming

/-! # The inputs that errors come from

Code that a session keeps in closures has the places of the input it was read from, but not the
input. An error of evaluation therefore stands in the input that is evaluated, or in an earlier one
that succeeded and defined a function which fails when it is called.
-/

namespace Minifun

variable {source : String}

theorem Loc.pointsInto_of_after {l : Loc} {lead : List Char} (hfeed : '\n' ∉ lead)
    (hpos : 1 ≤ l.column) (h : (l.after lead).PointsInto source) : l.PointsInto source := by
  by_cases hline : l.line = 1
  · have hcolumn : (l.after lead).column = lead.length + l.column := by
      rw [after, if_pos hline, Cursor.behind_of_not_mem hfeed]
      push_cast
      omega
    have hsame : (l.after lead).line = l.line := by
      rw [after, if_pos hline, Cursor.behind_of_not_mem hfeed, hline]
      rfl
    obtain ⟨hlow, hhigh, -, hbound⟩ := h
    rw [hsame] at hlow hhigh hbound
    refine ⟨hlow, hhigh, hpos, fun text htext => ?_⟩
    have hle := hbound text htext
    omega
  · rw [after, if_neg hline, List.count_eq_zero.mpr hfeed] at h
    simpa using h

/-- A place in what is read of an input: it points into the text without the blanks around it, and
into the input if the blanks before this text move it. Without line feeds among these it also does
so where it is. -/
structure Loc.ReadFrom (l : Loc) (source : String) : Prop where
  read : l.PointsInto (Text.trim source)
  given : (l.after (Text.leading source)).PointsInto source
  here : '\n' ∉ Text.leading source → l.PointsInto source

theorem StandsIn.exists_readFrom {loc : Option Loc} (h : StandsIn (Text.trim source).toList loc) :
    ∃ l, loc = some l ∧ l.ReadFrom source := by
  obtain ⟨front, hfront, rfl⟩ := h
  have hin : (Loc.behind none front).PointsInto (Text.trim source) :=
    Loc.pointsInto_behind hfront none
  have hmoved : ((Loc.behind none front).after (Text.leading source)).PointsInto source := by
    rw [Loc.after_behind]
    refine Loc.pointsInto_behind ?_ none
    rw [Text.toList_eq_margins source]
    exact List.prefix_append_right_inj _ |>.mpr (hfront.trans (List.prefix_append ..))
  exact ⟨_, rfl, hin, hmoved, fun hfeed => Loc.pointsInto_of_after hfeed hin.column_pos hmoved⟩

namespace Program

variable {g : Option Loc → Option Loc} {depth : Nat} {ss : List Expr} {frame : Frame Value}

theorem parse_ne_evaluation (source : String) (file : Option String) (e : EvalError) :
    parse source file ≠ .error (.evaluation e) := by
  unfold parse
  cases Token.lex source file with
  | error e' => exact nofun
  | ok ts =>
    cases hts : ofTokens ts file with
    | ok p =>
      simp only [hts]
      exact nofun
    | error e' =>
      obtain ⟨cause, loc⟩ := e'
      simp only [hts]
      cases cause <;> exact nofun

/-- A place that stays whenever the statements and the frame do is one of theirs. -/
theorem mem_places_of_pinned {loc : Option Loc}
    (h : ∀ g, Term.relocateAll g ss = ss → Frame.relocate g frame = frame → g loc = loc) :
    loc ∈ Term.placesAll ss ∨ loc ∈ Frame.places frame := by
  refine mem_of_fixed (P := fun l => l ∈ Term.placesAll ss ∨ l ∈ Frame.places frame) fun g hg => ?_
  have hss := Term.relocateAll_eq_self_iff ss |>.mpr fun l hl => hg l (.inl hl)
  have hframe := Frame.relocate_eq_self_iff frame |>.mpr fun l hl => hg l (.inr hl)
  exact h g hss hframe

theorem loc_of_stopped {e : EvalError} (h : (evalAll depth ss frame).stop = some (.error e)) :
    e.loc ∈ Term.placesAll ss ∨ e.loc ∈ Frame.places frame := by
  refine mem_places_of_pinned fun g hss hframe => ?_
  exact congrArg EvalError.loc (Stop.error.inj (evalAll_pinned hss hframe h))

/-- The frame after an evaluation does not change with places that are neither in the statements nor
in the frame before it. -/
theorem frame_pinned (hss : Term.relocateAll g ss = ss) (hframe : Frame.relocate g frame = frame)
    (h : (evalAll depth ss frame).stop = none) :
    Frame.relocate g (evalAll depth ss frame).frame = (evalAll depth ss frame).frame := by
  induction ss generalizing frame with
  | nil => exact hframe
  | cons s ss ih =>
    obtain ⟨hs, hss⟩ := List.cons.inj hss
    have hshift := evalStatement_pinned depth hs hframe
    cases hr : s.evalStatement depth frame with
    | error stop frame' =>
      rw [evalAll_cons_of_error hr] at h
      exact nomatch h
    | ok v frame' =>
      rw [evalAll_cons_of_ok hr] at h ⊢
      exact ih hss (hshift.frame_eq hr hr) h

/-- Evaluation makes up no places: those in the frame after it were in the statements or in the
frame before it. -/
theorem places_evalAll (h : (evalAll depth ss frame).stop = none) {loc : Option Loc}
    (hloc : loc ∈ Frame.places (evalAll depth ss frame).frame) :
    loc ∈ Term.placesAll ss ∨ loc ∈ Frame.places frame := by
  refine mem_places_of_pinned fun g hss hframe => ?_
  exact Frame.relocate_eq_self_iff _ |>.mp (frame_pinned hss hframe h) loc hloc

end Program

namespace Session

variable {s : Session}

theorem standsIn_of_parse {p : Program} (hp : Program.parse (terminated source) none = .ok p)
    {loc : Option Loc} (hloc : loc ∈ Term.placesAll p.statements) :
    StandsIn (Text.trim source).toList loc := by
  obtain ⟨u, between, rest, hcut⟩ := exists_cut source
  have hprefix : u <+: (Text.trim source).toList := by
    rcases hcut.trimmed with ⟨-, htrim⟩ | ⟨-, htrim⟩
    · exact htrim ▸ List.prefix_append ..
    · exact htrim ▸ List.prefix_rfl
  refine mem_of_fixed fun g hg => ?_
  have hsame := hcut.relocate_parsed hp (g := g) fun l hl => by
    obtain ⟨front, hfront, rfl⟩ := hl
    exact hg _ ⟨front, hfront.trans hprefix, rfl⟩
  exact Term.relocateAll_eq_self_iff _ |>.mp hsame loc hloc

/-- The places in what a session keeps are those of inputs in its history. -/
def Rooted (s : Session) : Prop :=
  ∀ loc ∈ Frame.places s.frame, ∃ earlier ∈ s.history, StandsIn (Text.trim earlier).toList loc

theorem rooted_fresh (tracing : Bool) (depth : Nat) :
    Rooted { tracing := tracing, depth := depth } := by
  intro loc hloc
  exact nomatch hloc

/-- An execution that succeeds adds places of its input, and the input to the history. -/
theorem Rooted.execute (h : Rooted s) {pairs : List (Value × Ty)}
    (hok : (s.execute source).outcome = .ok pairs) : Rooted (s.execute source).session := by
  obtain ⟨p, types, checker, shared, hp, hc, hstop⟩ := execute_eq_ok hok
  have heval := evaluate_of_stop_eq_none hstop
  rw [execute_of_ok hp hc hstop, heval]
  intro loc hloc
  rcases Program.places_evalAll (heval ▸ hstop) hloc with hnew | hold
  · exact ⟨source, by simp, standsIn_of_parse hp hnew⟩
  · obtain ⟨earlier, hmem, hstands⟩ := h loc hold
    exact ⟨earlier, List.mem_append_left _ hmem, hstands⟩

theorem Rooted.after (h : Rooted s) (rs : List Request) : Rooted (s.after rs) :=
  Invariant.after ⟨fun h _ => h, fun h hok => h.execute hok⟩ h rs

theorem loc_of_execute {e : EvalError}
    (h : (s.execute source).outcome = .error (.evaluation e)) :
    StandsIn (Text.trim source).toList e.loc ∨ e.loc ∈ Frame.places s.frame := by
  cases hp : Program.parse (terminated source) none with
  | error f =>
    rw [execute_of_unread hp] at h
    obtain rfl := Except.error.inj h
    exact absurd hp (Program.parse_ne_evaluation _ _ _)
  | ok p =>
    generalize hc : s.checker.checkEach ⟨s.next, {}⟩ p.statements = checked
    obtain ⟨f | types, checker, shared⟩ := checked
    · rw [execute_of_illTyped hp hc] at h
      exact nomatch h
    · cases hs : (s.evaluate p.statements).stop with
      | none =>
        rw [execute_of_ok hp hc hs] at h
        exact nomatch h
      | some stop =>
        rw [execute_of_stopped hp hc hs] at h
        cases stop with
        | outOfDepth | broken b => exact nomatch h
        | error e' =>
          obtain rfl := Failure.evaluation.inj (Except.error.inj h)
          exact (Program.loc_of_stopped (Program.stop_evalAll_of_evalEach hs)).imp_left
            (standsIn_of_parse hp)

def failsAt {α : Type} (l : Loc) : Except Failure α → Bool
  | .error (.evaluation e) => e.loc == some l
  | .error _ | .ok _ => false

theorem exists_of_failsAt {α : Type} {r : Except Failure α} {l : Loc} (h : failsAt l r = true) :
    ∃ e, r = .error (.evaluation e) ∧ e.loc = some l := by
  unfold failsAt at h
  split at h
  · exact ⟨_, rfl, beq_iff_eq.mp h⟩
  · exact nomatch h
  · exact nomatch h

/-- Whatever a session was asked, an error of evaluating an input has a place. It is a place of the
input, and points into it unless the input begins with line feeds, or it is a place of code that the
session has kept, and of an earlier input. -/
theorem execute_error_origin (tracing : Bool) (depth : Nat) (rs : List Request) (source : String)
    (e : EvalError) :
    let s := ({ tracing := tracing, depth := depth } : Session).after rs
    (s.execute source).outcome = .error (.evaluation e) →
      ∃ l, e.loc = some l ∧
        (l.ReadFrom source ∨
          some l ∈ Frame.places s.frame ∧ ∃ earlier ∈ s.history, l.ReadFrom earlier) := by
  intro s h
  rcases loc_of_execute h with hstands | hkept
  · obtain ⟨l, hl, hread⟩ := hstands.exists_readFrom
    exact ⟨l, hl, .inl hread⟩
  · have hrooted : Rooted s := (rooted_fresh tracing depth).after rs
    obtain ⟨earlier, hmem, hstands⟩ := hrooted _ hkept
    obtain ⟨l, hl, hread⟩ := hstands.exists_readFrom
    exact ⟨l, hl, .inr ⟨hl ▸ hkept, earlier, hmem, hread⟩⟩

/-- The function that an input defines fails in the second line of this input when another input of
one line calls it. -/
theorem execute_error_origin_call :
    let s := ({ depth := 4 } : Session).after [.execute "val f x :=\n hd(x);"]
    ∃ e, (s.execute "f([]);").outcome = .error (.evaluation e) ∧
      some ⟨2, 2, none⟩ ∈ Frame.places s.frame ∧ e.loc = some ⟨2, 2, none⟩ ∧
      Loc.ReadFrom ⟨2, 2, none⟩ "val f x :=\n hd(x);" := by
  intro s
  obtain ⟨e, hf, hplace⟩ : ∃ e, (s.execute "f([]);").outcome = .error (.evaluation e) ∧ e.loc = _ :=
    exists_of_failsAt (l := ⟨2, 2, none⟩) (by decide +kernel)
  have hhistory : s.history = ["val f x :=\n hd(x);"] := by decide +kernel
  obtain ⟨l, hl, horigin⟩ :=
    execute_error_origin false 4 [.execute "val f x :=\n hd(x);"] "f([]);" e hf
  obtain rfl := Option.some.inj (hl.symm.trans hplace)
  rcases horigin with hread | ⟨hkept, earlier, hmem, hread⟩
  · -- The input that fails has only one line.
    exact absurd (hread.here (by decide +kernel)).line_le (by decide +kernel)
  · obtain rfl : earlier = _ := List.mem_singleton.mp (hhistory ▸ hmem)
    exact ⟨e, hf, hkept, hplace, hread⟩

/-- The call of one line is reported in the third line, and the division behind a line feed in the
first line, which is empty. -/
theorem execute_error_elsewhere :
    (∃ e l, ((({} : Session).after [.execute "val f x :=\n\n hd(x);"]).execute "f([]);").outcome =
        .error (.evaluation e) ∧ e.loc = some l ∧ ¬ l.PointsInto "f([]);") ∧
      ∃ e l, (({} : Session).execute "\n1/0;").outcome = .error (.evaluation e) ∧
        e.loc = some l ∧ ¬ l.PointsInto "\n1/0;" := by
  constructor
  · obtain ⟨e, hf, hplace⟩ := exists_of_failsAt (l := ⟨3, 2, none⟩)
      (r := ((({} : Session).after [.execute "val f x :=\n\n hd(x);"]).execute "f([]);").outcome)
      (by decide +kernel)
    refine ⟨e, _, hf, hplace, fun hpoints => ?_⟩
    exact absurd hpoints.line_le (by decide +kernel)
  · obtain ⟨e, hf, hplace⟩ := exists_of_failsAt (l := ⟨1, 2, none⟩)
      (r := (({} : Session).execute "\n1/0;").outcome) (by decide +kernel)
    refine ⟨e, _, hf, hplace, fun hpoints => ?_⟩
    exact absurd (hpoints.column_le "" (by decide +kernel)) (by decide +kernel)

end Session

end Minifun
