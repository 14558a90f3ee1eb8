import Mathlib.Data.List.Forall2
import Minifun.Eval.Run

/-! # Values that evaluation cannot tell apart

Two closures are alike when they have one parameter and one body, and the free names of the body
stand for alike values in both scopes; what else the scopes bind does not matter. As closures can
find themselves in their scopes, likeness is the greatest relation of this kind. Binding two alike
values to a name gives alike values, and frames of alike values serve names alike.
-/

namespace Minifun

namespace Term

mutual

/-- The names of a term that neither functions nor `let` bind in it. -/
@[simp] def free : Expr → List String
  | .literal _ _ => []
  | .ident x _ => [x]
  | .unary _ e _ | .head e _ | .tail e _ | .length e _ | .val _ e _ => e.free
  | .binary _ a b _ | .apply a b _ | .map a b _ => a.free ++ b.free
  | .cond a b c _ | .fold _ a b c _ => a.free ++ b.free ++ c.free
  | .lambda x body _ => body.free.filter (· ≠ x)
  | .letIn x v body _ => v.free ++ body.free.filter (· ≠ x)
  | .list es _ | .block es _ => freeOf es

@[simp] def freeOf : List Expr → List String
  | [] => []
  | e :: es => e.free ++ freeOf es

end

end Term

/-- How two values look that are alike, where a relation tells about their parts. -/
inductive Resembles (R : Value → Value → Prop) : Value → Value → Prop where
  | int {n} : Resembles R (.int n) (.int n)
  | real {x} : Resembles R (.real x) (.real x)
  | bool {b} : Resembles R (.bool b) (.bool b)
  | list {vs ws} : List.Forall₂ R vs ws → Resembles R (.list vs) (.list ws)
  | closure {p body s t} :
      (∀ y ∈ Term.free body, y ≠ p → Option.Rel R (Scope.lookup y s) (Scope.lookup y t)) →
      Resembles R (.closure p body s) (.closure p body t)
  | name {x} : Resembles R (.name x) (.name x)
  | nothing : Resembles R .nothing .nothing

def Alike (v w : Value) : Prop :=
  ∃ R, (∀ v w, R v w → Resembles R v w) ∧ R v w

abbrev AlikeFrames : Frame Value → Frame Value → Prop :=
  List.Forall₂ fun b c => b.1 = c.1 ∧ Alike b.2 c.2

theorem rel_imp {α : Type} {R R' : α → α → Prop} {a b : Option α} (h : Option.Rel R a b)
    (hR : ∀ x y, R x y → R' x y) : Option.Rel R' a b := by
  cases h with
  | some h => exact .some (hR _ _ h)
  | none => exact .none

variable {R R' : Value → Value → Prop} {v w : Value} {vs ws : List Value} {p x : String}
  {body : Expr} {s t : Scope Value} {f g : Frame Value}

theorem Resembles.mono (h : Resembles R v w) (hR : ∀ v w, R v w → R' v w) : Resembles R' v w := by
  cases h with
  | int => exact .int
  | real => exact .real
  | bool => exact .bool
  | list h => exact .list (h.imp hR)
  | closure h => exact .closure fun y hy hne => rel_imp (h y hy hne) hR
  | name => exact .name
  | nothing => exact .nothing

theorem resembles_refl (hR : ∀ v, R v v) (v : Value) : Resembles R v v := by
  cases v with
  | int => exact .int
  | real => exact .real
  | bool => exact .bool
  | list vs => exact .list (List.forall₂_same.mpr fun v _ => hR v)
  | closure p body s =>
    refine .closure fun y _ _ => ?_
    cases Scope.lookup y s with
    | some v => exact .some (hR v)
    | none => exact .none
  | name => exact .name
  | nothing => exact .nothing

namespace Alike

theorem resembles (h : Alike v w) : Resembles Alike v w := by
  obtain ⟨R, hR, h⟩ := h
  exact (hR v w h).mono fun v w hv => ⟨R, hR, hv⟩

theorem of_resembles (h : Resembles Alike v w) : Alike v w :=
  ⟨Resembles Alike, fun _ _ hv => hv.mono fun _ _ h => h.resembles, h⟩

theorem refl (v : Value) : Alike v v :=
  ⟨Eq, fun v _ h => h ▸ resembles_refl (fun _ => rfl) v, rfl⟩

theorem list (h : List.Forall₂ Alike vs ws) : Alike (.list vs) (.list ws) :=
  of_resembles (.list h)

theorem closure
    (h : ∀ y ∈ body.free, y ≠ p → Option.Rel Alike (s.lookup y) (t.lookup y)) :
    Alike (.closure p body s) (.closure p body t) :=
  of_resembles (.closure h)

theorem cls_eq (h : Alike v w) : v.cls = w.cls := by
  cases h.resembles <;> rfl

theorem isValue_eq (h : Alike v w) : v.isValue = w.isValue := by
  cases h.resembles <;> rfl

theorem isList_eq (h : Alike v w) : v.isList = w.isList := by
  cases h.resembles <;> rfl

theorem classOf_eq (h : Alike v w) : v.classOf = w.classOf := by
  rw [Value.classOf, Value.classOf, h.isValue_eq, h.cls_eq]

theorem sameClass_eq {v' w' : Value} (h : Alike v w) (h' : Alike v' w') :
    v.sameClass v' = w.sameClass w' := by
  rw [Value.sameClass, Value.sameClass, h.cls_eq, h'.cls_eq]

theorem eq_of_scalar (h : Alike v w) (hv : v.cls ≠ .list) (hf : v.cls ≠ .function) : v = w := by
  cases h.resembles with
  | list => exact absurd rfl hv
  | closure => exact absurd rfl hf
  | int | real | bool | name | nothing => rfl

theorem tied (h : Alike v w) (x : String) : Alike (v.tied x) (w.tied x) := by
  cases h.resembles with
  | @closure p body s t hs =>
    -- the two closures are added to what is alike anyway
    refine ⟨fun v w => Alike v w ∨ v = .closure p body (.knot x p body s) ∧
      w = .closure p body (.knot x p body t), ?_, .inr ⟨rfl, rfl⟩⟩
    rintro v w (h | ⟨rfl, rfl⟩)
    · exact h.resembles.mono fun _ _ h => .inl h
    · refine .closure fun y hy hne => ?_
      by_cases he : x = y
      · simp only [Scope.lookup, if_pos he]
        exact .some (.inr ⟨rfl, rfl⟩)
      · simp only [Scope.lookup, if_neg he]
        exact rel_imp (hs y hy hne) fun _ _ h => .inl h
  | int | real | bool | list | name | nothing => exact h

end Alike

namespace AlikeFrames

theorem names_eq (h : AlikeFrames f g) : f.names = g.names := by
  induction h with
  | nil => rfl
  | cons hb _ ih =>
    simp only [Frame.names, List.map_cons, hb.1, List.cons.injEq, true_and]
    exact ih

theorem defines_eq (h : AlikeFrames f g) (y : String) : f.defines y = g.defines y := by
  rw [Bool.eq_iff_iff, Frame.defines_iff, Frame.defines_iff, h.names_eq]

theorem find? (h : AlikeFrames f g) (y : String) :
    Option.Rel Alike (f.find? y) (g.find? y) := by
  induction h with
  | nil => exact .none
  | @cons b c f g hb _ ih =>
    rw [Frame.find?_cons, Frame.find?_cons, ← hb.1]
    by_cases hy : y = b.1
    · simp only [if_pos hy]
      exact .some hb.2
    · simp only [if_neg hy]
      exact ih

theorem define (h : AlikeFrames f g) (hv : Alike v w) (x : String) :
    AlikeFrames (f.define x v) (g.define x w) := by
  induction h with
  | nil => exact .cons ⟨rfl, hv⟩ .nil
  | @cons b c f g hb hf ih =>
    unfold Frame.define
    rw [← hb.1]
    by_cases hx : b.1 = x
    · simp only [if_pos hx]
      exact .cons ⟨rfl, hv⟩ hf
    · simp only [if_neg hx]
      exact .cons hb ih

end AlikeFrames

/-- Two scopes around two frames of one name each, or more, serve names alike: the frames are alike,
and for the names that they do not have so are the scopes. -/
structure Beside (names : List String) (outer outer' : Scope Value) (frame frame' : Frame Value) :
    Prop where
  frames : AlikeFrames frame frame'
  outer : ∀ y ∈ names, y ∉ frame.names → Option.Rel Alike (outer.lookup y) (outer'.lookup y)

namespace Beside

variable {names names' : List String} {outer outer' : Scope Value}
  {frame frame' : Frame Value}

theorem mono (h : Beside names outer outer' frame frame') (hn : names' ⊆ names) :
    Beside names' outer outer' frame frame' :=
  ⟨h.frames, fun y hy => h.outer y (hn hy)⟩

theorem grow (h : Beside names outer outer' frame frame') (hf : AlikeFrames f g)
    (hn : frame.names ⊆ f.names) : Beside names outer outer' f g :=
  ⟨hf, fun y hy hne => h.outer y hy fun hm => hne (hn hm)⟩

theorem lookup (h : Beside names outer outer' frame frame') {y : String} (hy : y ∈ names) :
    Option.Rel Alike ((Scope.frame frame outer).lookup y)
      ((Scope.frame frame' outer').lookup y) := by
  have hf := h.frames.find? y
  unfold Scope.lookup
  cases hl : frame.find? y with
  | some v =>
    rw [hl] at hf
    generalize hr : frame'.find? y = r at hf
    cases hf with
    | some hv => exact .some hv
  | none =>
    rw [hl] at hf
    generalize hr : frame'.find? y = r at hf
    cases hf with
    | none => exact h.outer y hy ((Frame.find?_eq_none_iff frame y).mp hl)

theorem single (hv : Alike v w)
    (h : ∀ y ∈ names, y ≠ x → Option.Rel Alike (outer.lookup y) (outer'.lookup y)) :
    Beside names outer outer' [(x, v)] [(x, w)] := by
  refine ⟨.cons ⟨rfl, hv⟩ .nil, fun y hy hne => h y hy ?_⟩
  rintro rfl
  exact hne List.mem_cons_self

end Beside

end Minifun
