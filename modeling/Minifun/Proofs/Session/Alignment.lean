import Minifun.Proofs.Eval.Whole
import Minifun.Proofs.Session.Outline
import Minifun.Proofs.Session.Rollback
import Minifun.Proofs.Typing.Refinement

/-! # Names and types of a session

The types and the values of a session belong to the same names in the same order, because an input
is kept only if it was checked and evaluated to the end. Names are only added. They keep their
values, and their types are refined, as later inputs find out more about variables that are still
open.
-/

namespace Minifun

namespace Infer

variable {κ : Kinds} {st st' : InferState} {s e : Expr} {ss : List Expr} {t last : Ty}
  {frame : Frame Ty} {outer : List (Frame Ty)}

theorem frame_of_plain (h : Plain e) (hg : Good frame outer κ st)
    (hok : e.infer outer st = .ok t st') : st'.frame = frame := by
  have hd := typed_of_plain h frame outer κ st hg
  unfold Denotes Relates at hd
  rw [hok] at hd
  obtain ⟨_, hg', -⟩ := hd
  exact hg'.here

theorem frame_of_settle {x : String} {loc : Option Loc} {u : Ty}
    (h : settle x loc t st = .ok u st') : ∃ u, st'.frame = st.frame.define x u := by
  obtain ⟨-, rfl⟩ := EStateM.Result.ok.inj h
  exact ⟨_, rfl⟩

/-- A definition that is written as a function gives its name a type before its right side is
checked, and another one after it. -/
theorem frame_of_function {x : String} {loc : Option Loc} (he : Plain e) (hl : e.isLambda = true)
    (hg : Good st.frame [] κ st) (hok : (Term.val x e loc).infer [] st = .ok t st') :
    ∃ u, st'.frame = st.frame.define x u := by
  rw [Term.infer_val_function _ _ _ _ hl] at hok
  obtain ⟨a, st₁, ha, hok⟩ := bind_eq_ok_iff.mp hok
  obtain ⟨rfl, rfl⟩ := EStateM.Result.ok.inj ha
  obtain ⟨b, st₂, hb, hok⟩ := bind_eq_ok_iff.mp hok
  obtain ⟨rfl, rfl⟩ := EStateM.Result.ok.inj hb
  obtain ⟨_, st₃, hd, hok⟩ := bind_eq_ok_iff.mp hok
  obtain ⟨-, rfl⟩ := EStateM.Result.ok.inj hd
  have g₁ := hg.fresh .any
  have g₂ := g₁.good.fresh .any
  have hself : ∀ (κ : Kinds) i, Function.update κ i (some .any) i = some Kind.any :=
    fun κ i => Function.update_self ..
  have hg₃ := g₂.good.define (t := .fn (.var st.next none) (.var ↑(st.next + 1) none))
    ⟨⟨.any, g₂.kinds _ _ (hself κ _), rfl⟩, .any, hself _ _, rfl⟩ x st.trace
  obtain ⟨u, st₄, hfun, hsettle⟩ := bind_eq_ok_iff.mp hok
  obtain ⟨v, st₅, hv, hfun⟩ := bind_eq_ok_iff.mp hfun
  obtain ⟨_, st₆, hu, hfun⟩ := bind_eq_ok_iff.mp hfun
  obtain ⟨-, rfl⟩ := EStateM.Result.ok.inj hfun
  obtain ⟨w, hw⟩ := frame_of_settle hsettle
  have hframe := frame_of_plain he hg₃ hv
  rw [(unify_eq_ok hu).2] at hw
  exact ⟨w, by simp only [hw, hframe, Frame.define_define]⟩

theorem frame_of_statement (h : PlainStatement s) (hg : Good st.frame [] κ st)
    (hok : s.infer [] st = .ok t st') :
    match s.defined? with
    | none => st'.frame = st.frame
    | some x => ∃ u, st'.frame = st.frame.define x u := by
  cases h with
  | expression he =>
    rw [he.defined?]
    exact frame_of_plain he hg hok
  | @val x e loc he =>
    cases hl : e.isLambda with
    | true => exact frame_of_function he hl hg hok
    | false =>
      rw [Term.infer_val_value _ _ _ _ hl] at hok
      obtain ⟨v, st₁, hv, hsettle⟩ := bind_eq_ok_iff.mp hok
      rw [← frame_of_plain he hg hv]
      exact frame_of_settle hsettle

theorem grows_of_statement (h : PlainStatement s) (hg : Good st.frame [] κ st)
    (hok : s.infer [] st = .ok t st') : ∃ κ', Grows st'.frame [] κ st κ' st' := by
  have hc := carries_of_plain h hg
  unfold Carries Relates at hc
  rw [hok] at hc
  obtain ⟨κ', hg', hκ, he, -⟩ := hc
  exact ⟨κ', hg', hκ, he⟩

theorem grows_of_statements (hs : ∀ s ∈ ss, PlainStatement s) (hg : Good st.frame [] κ st)
    (hn : (st.frame.names ++ ss.filterMap Term.defined?).Nodup)
    (hok : Term.inferStatements [] last ss st = .ok t st') :
    (∃ κ', Grows st'.frame [] κ st κ' st') ∧
      st'.frame.names = st.frame.names ++ ss.filterMap Term.defined? ∧
      ∀ x ∈ st.frame.names, st'.frame.find? x = st.frame.find? x := by
  induction ss generalizing κ st last with
  | nil =>
    rw [Term.inferStatements] at hok
    obtain ⟨-, rfl⟩ := EStateM.Result.ok.inj hok
    exact ⟨⟨κ, .refl hg⟩, by simp, fun _ _ => rfl⟩
  | cons s ss ih =>
    obtain ⟨hs, hss⟩ := List.forall_mem_cons.mp hs
    rw [Term.inferStatements] at hok
    obtain ⟨u, st₁, hu, hok⟩ := bind_eq_ok_iff.mp hok
    obtain ⟨κ₁, g₁⟩ := grows_of_statement hs hg hu
    have hframe := frame_of_statement hs hg hu
    cases hd : s.defined? with
    | none =>
      rw [hd] at hframe
      rw [List.filterMap_cons_none hd] at hn ⊢
      rw [← hframe] at hn ⊢
      obtain ⟨⟨κ₂, g₂⟩, hnames, hfind⟩ := ih hss g₁.good hn hok
      exact ⟨⟨κ₂, g₂.good, fun i k hk => g₂.kinds i k (g₁.kinds i k hk),
        g₂.extends_.trans g₁.extends_⟩, hnames, hfind⟩
    | some x =>
      rw [hd] at hframe
      obtain ⟨w, hw⟩ := hframe
      rw [List.filterMap_cons_some hd] at hn ⊢
      have hx : x ∉ st.frame.names := fun hx => List.disjoint_of_nodup_append hn hx (by simp)
      have hnames₁ : st₁.frame.names = st.frame.names ++ [x] := by
        rw [hw, Frame.names_define_of_not_mem w hx]
      rw [List.append_cons, ← hnames₁] at hn ⊢
      obtain ⟨⟨κ₂, g₂⟩, hnames, hfind⟩ := ih hss g₁.good hn hok
      refine ⟨⟨κ₂, g₂.good, fun i k hk => g₂.kinds i k (g₁.kinds i k hk),
        g₂.extends_.trans g₁.extends_⟩, hnames, fun y hy => ?_⟩
      have hyx : y ≠ x := fun e => hx (e ▸ hy)
      rw [hfind y (by simp [hnames₁, hy]), hw, Frame.find?_define, if_neg hyx]

end Infer

namespace Session

open Infer

variable {s : Session} {source : String}

/-- The types and the values of a session belong to the same names, each of which is there once; the
types fit what is known about their variables, and the values are whole. -/
structure Aligned (s : Session) : Prop where
  names : s.checker.frame.names = s.frame.names
  nodup : s.frame.names.Nodup
  good : ∃ κ, Good s.checker.frame [] κ (s.checker.start ⟨s.next, {}⟩)
  whole : ∀ b ∈ s.frame, b.2.Whole

/-- A session knows all that another one does: it has further names, and what the old ones stand for
is the same, with types that may be refined. -/
structure Develops (s s' : Session) : Prop where
  names : s.names <+: s'.names
  value : ∀ x ∈ s.names, s'.frame.find? x = s.frame.find? x
  type : ∀ x ∈ s.names, ∃ t t', s.checker.typeOf? x = some t ∧ s'.checker.typeOf? x = some t' ∧
    t'.Refines t

theorem aligned_fresh (tracing : Bool) (depth : Nat) :
    Aligned { tracing := tracing, depth := depth } :=
  ⟨rfl, List.nodup_nil, ⟨_, good_empty⟩, by simp⟩

theorem Aligned.mono {n : Nat} (h : Aligned s) (hle : s.next ≤ n) :
    Aligned { s with next := n } := by
  obtain ⟨κ, hg⟩ := h.good
  refine ⟨h.names, h.nodup, ⟨κ, hg.here, hg.sound, fun i k hk => ?_, hg.fits⟩, h.whole⟩
  have hlt : i < (s.next : Int) := hg.given i k hk
  change i < (n : Int)
  omega

theorem find?_append_of_mem {α : Type} {f g : Frame α} {x : String} (hx : x ∈ f.names) :
    Frame.find? (f ++ g) x = f.find? x := by
  cases hf : f.find? x with
  | none => exact absurd hx ((Frame.find?_eq_none_iff f x).mp hf)
  | some a =>
    have hl : List.lookup x f = some a := hf
    rw [Frame.find?, List.lookup_append, hl, Option.some_or]

theorem execute_eq_ok {pairs : List (Value × Ty)} (h : (s.execute source).outcome = .ok pairs) :
    ∃ p types checker shared, Program.parse (terminated source) none = .ok p ∧
      s.checker.checkEach ⟨s.next, {}⟩ p.statements = (.ok types, checker, shared) ∧
      (s.evaluate p.statements).stop = none := by
  cases hp : Program.parse (terminated source) none with
  | error e =>
    rw [execute_of_unread hp] at h
    exact nomatch h
  | ok p =>
    generalize hc : s.checker.checkEach ⟨s.next, {}⟩ p.statements = checked
    obtain ⟨e | types, checker, shared⟩ := checked
    · rw [execute_of_illTyped hp hc] at h
      exact nomatch h
    · cases hs : (s.evaluate p.statements).stop with
      | some stop =>
        rw [execute_of_stopped hp hc hs] at h
        exact nomatch h
      | none => exact ⟨p, types, checker, shared, rfl, hc, hs⟩

/-- An execution that succeeds adds the same names to the types and to the values. -/
theorem Aligned.execute (h : Aligned s) {pairs : List (Value × Ty)}
    (hok : (s.execute source).outcome = .ok pairs) :
    Aligned (s.execute source).session ∧ Develops s (s.execute source).session := by
  obtain ⟨p, types, checker, shared, hp, hc, hstop⟩ := execute_eq_ok hok
  have heval := evaluate_of_stop_eq_none hstop
  have hplain := Program.plain_of_parse hp
  obtain ⟨κ, hg⟩ := h.good
  obtain ⟨new, hframe, hnew, hnodup, hwhole⟩ :=
    Program.frame_evalAll hplain h.whole h.nodup (heval ▸ hstop)
  obtain ⟨t, hinfer, -⟩ :=
    (Checker.inferStatements_of_checkEach s.checker ⟨s.next, {}⟩ .nothing p.statements).2 _ _ _ hc
  have hn : (s.checker.frame.names ++ p.statements.filterMap Term.defined?).Nodup := by
    rw [h.names, ← hnew]
    simpa [Frame.names] using hnodup
  obtain ⟨⟨κ', g⟩, hnames, hfind⟩ := grows_of_statements hplain hg hn hinfer
  have hnames' : checker.frame.names =
      s.checker.frame.names ++ p.statements.filterMap Term.defined? := hnames
  rw [execute_of_ok hp hc hstop, heval]
  simp only [hframe]
  constructor
  · refine ⟨?_, hnodup, ⟨κ', g.good.here, g.good.sound, g.good.given, g.good.fits⟩, hwhole⟩
    simp only [hnames', h.names, ← hnew]
    simp [Frame.names]
  · refine ⟨⟨new.names, by simp [Session.names, Frame.names]⟩,
      fun x hx => find?_append_of_mem hx, fun x hx => ?_⟩
    have hx' : x ∈ s.checker.frame.names := h.names ▸ hx
    cases ht : s.checker.frame.find? x with
    | none => exact absurd hx' ((Frame.find?_eq_none_iff _ _).mp ht)
    | some u =>
      have ht' : checker.frame.find? x = some u := (hfind x hx').trans ht
      have hfits := hg.fits _ List.mem_cons_self x u (Frame.mem_of_find?_eq_some ht)
      refine ⟨s.checker.subst.externalize u, checker.subst.externalize u,
        by simp [Checker.typeOf?, ht], by simp [Checker.typeOf?, ht'], ?_⟩
      exact hg.sound.refines_externalize g.good.sound g.extends_ g.kinds hfits

theorem Aligned.after (h : Aligned s) (rs : List Request) : Aligned (s.after rs) :=
  Invariant.after ⟨fun h hle => h.mono hle, fun h hok => (h.execute hok).1⟩ h rs

/-- Whatever a session was asked, its types and its values belong to the same names in the same
order. An execution that succeeds then adds names behind the old ones. These keep their values, and
their types as they are shown become instances of what they were. -/
theorem after_aligned (tracing : Bool) (depth : Nat) (rs : List Request) :
    let s := ({ tracing := tracing, depth := depth } : Session).after rs
    s.checker.frame.names = s.names ∧
      ∀ source pairs, (s.execute source).outcome = .ok pairs →
        let s' := (s.execute source).session
        s.names <+: s'.names ∧
          (∀ x ∈ s.names, s'.frame.find? x = s.frame.find? x) ∧
          ∀ x ∈ s.names, ∃ t t', s.checker.typeOf? x = some t ∧ s'.checker.typeOf? x = some t' ∧
            t'.Refines t := by
  intro s
  have h : Aligned s := (aligned_fresh tracing depth).after rs
  refine ⟨h.names, fun source pairs hok => ?_⟩
  obtain ⟨hnames, hvalue, htype⟩ := (h.execute hok).2
  exact ⟨hnames, hvalue, htype⟩

/-- The type of a name is refined by its first use, for it is not generalized. -/
theorem after_aligned_identity :
    let s := ({ depth := 4 } : Session).after [.execute "val id := fn x -> x;"]
    let s' := (s.execute "val one := id(1);").session
    s'.names = ["id", "one"] ∧ s'.frame.find? "id" = s.frame.find? "id" ∧
      s.checker.typeOf? "id" = some (.fn (.var 0 none) (.var 0 none)) ∧
      s'.checker.typeOf? "id" = some (.fn .int .int) ∧
      (Ty.fn .int .int).Refines (.fn (.var 0 none) (.var 0 none)) := by
  intro s s'
  have hmem : "id" ∈ s.names := by decide +kernel
  have hok : (s.execute "val one := id(1);").outcome.toOption.map List.length = some 1 := by
    decide +kernel
  have ht : s.checker.typeOf? "id" = some (.fn (.var 0 none) (.var 0 none)) := by decide +kernel
  have ht' : s'.checker.typeOf? "id" = some (.fn .int .int) := by decide +kernel
  obtain ⟨pairs, hpairs, -⟩ := eq_ok_of_map_eq_some hok
  obtain ⟨-, hvalue, htype⟩ :=
    (after_aligned false 4 [.execute "val id := fn x -> x;"]).2 "val one := id(1);" pairs hpairs
  obtain ⟨t, t', h, h', hrefines⟩ := htype "id" hmem
  obtain rfl := Option.some.inj (h.symm.trans ht)
  obtain rfl := Option.some.inj (h'.symm.trans ht')
  exact ⟨by decide +kernel, hvalue "id" hmem, ht, ht', hrefines⟩

end Session

end Minifun
