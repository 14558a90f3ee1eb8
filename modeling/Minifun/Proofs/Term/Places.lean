import Minifun.Eval.Run

/-! # Moving the places of terms

The places that terms carry are for reports only. Here they are moved by an arbitrary function,
throughout a term and the values in it: a closure has a body, and a scope of further values. Apart
from the places nothing changes: names are looked up as before, and values look the same.
-/

namespace Minifun

mutual

@[simp] def Term.relocate (g : Option Loc → Option Loc) : Expr → Expr
  | .literal v loc => .literal (v.relocate g) (g loc)
  | .ident x loc => .ident x (g loc)
  | .unary op e loc => .unary op (e.relocate g) (g loc)
  | .binary op a b loc => .binary op (a.relocate g) (b.relocate g) (g loc)
  | .list es loc => .list (Term.relocateAll g es) (g loc)
  | .head e loc => .head (e.relocate g) (g loc)
  | .tail e loc => .tail (e.relocate g) (g loc)
  | .length e loc => .length (e.relocate g) (g loc)
  | .cond c a b loc => .cond (c.relocate g) (a.relocate g) (b.relocate g) (g loc)
  | .lambda x body loc => .lambda x (body.relocate g) (g loc)
  | .apply f a loc => .apply (f.relocate g) (a.relocate g) (g loc)
  | .letIn x v body loc => .letIn x (v.relocate g) (body.relocate g) (g loc)
  | .val x e loc => .val x (e.relocate g) (g loc)
  | .map f xs loc => .map (f.relocate g) (xs.relocate g) (g loc)
  | .fold side f i xs loc => .fold side (f.relocate g) (i.relocate g) (xs.relocate g) (g loc)
  | .block ss loc => .block (Term.relocateAll g ss) (g loc)

@[simp] def Term.relocateAll (g : Option Loc → Option Loc) : List Expr → List Expr
  | [] => []
  | e :: es => e.relocate g :: Term.relocateAll g es

@[simp] def Value.relocate (g : Option Loc → Option Loc) : Value → Value
  | .int n => .int n
  | .real x => .real x
  | .bool b => .bool b
  | .list vs => .list (Value.relocateAll g vs)
  | .closure p body s => .closure p (body.relocate g) (s.relocate g)
  | .name x => .name x
  | .nothing => .nothing

@[simp] def Value.relocateAll (g : Option Loc → Option Loc) : List Value → List Value
  | [] => []
  | v :: vs => v.relocate g :: Value.relocateAll g vs

@[simp] def Scope.relocate (g : Option Loc → Option Loc) : Scope Value → Scope Value
  | .empty => .empty
  | .frame bs parent => .frame (Frame.relocate g bs) (parent.relocate g)
  | .knot x p body parent => .knot x p (body.relocate g) (parent.relocate g)

@[simp] def Frame.relocate (g : Option Loc → Option Loc) :
    List (String × Value) → List (String × Value)
  | [] => []
  | b :: bs => Frame.relocateBinding g b :: Frame.relocate g bs

def Frame.relocateBinding (g : Option Loc → Option Loc) : String × Value → String × Value
  | (x, v) => (x, v.relocate g)

end

mutual

@[simp] theorem Term.relocate_id : ∀ e : Expr, e.relocate id = e
  | .literal v _ => by simp [Value.relocate_id v]
  | .ident _ _ => by simp
  | .unary _ e _ | .head e _ | .tail e _ | .length e _ | .lambda _ e _ | .val _ e _ => by
    simp [Term.relocate_id e]
  | .binary _ a b _ | .apply a b _ | .letIn _ a b _ | .map a b _ => by
    simp [Term.relocate_id a, Term.relocate_id b]
  | .cond a b c _ | .fold _ a b c _ => by
    simp [Term.relocate_id a, Term.relocate_id b, Term.relocate_id c]
  | .list es _ | .block es _ => by simp [Term.relocateAll_id es]

@[simp] theorem Term.relocateAll_id : ∀ es : List Expr, Term.relocateAll id es = es
  | [] => by simp
  | e :: es => by simp [Term.relocate_id e, Term.relocateAll_id es]

theorem Value.relocate_id : ∀ v : Value, v.relocate id = v
  | .list vs => by simp [Value.relocateAll_id vs]
  | .closure _ body s => by simp [Term.relocate_id body, Scope.relocate_id s]
  | .int _ | .real _ | .bool _ | .name _ | .nothing => by simp

theorem Value.relocateAll_id : ∀ vs : List Value, Value.relocateAll id vs = vs
  | [] => by simp
  | v :: vs => by simp [Value.relocate_id v, Value.relocateAll_id vs]

theorem Scope.relocate_id : ∀ s : Scope Value, s.relocate id = s
  | .empty => by simp
  | .frame bs parent => by simp [Frame.relocate_id bs, Scope.relocate_id parent]
  | .knot _ _ body parent => by simp [Term.relocate_id body, Scope.relocate_id parent]

theorem Frame.relocate_id : ∀ f : List (String × Value), Frame.relocate id f = f
  | [] => by simp
  | b :: bs => by simp [Frame.relocateBinding_id b, Frame.relocate_id bs]

theorem Frame.relocateBinding_id : ∀ b : String × Value, Frame.relocateBinding id b = b
  | (_, v) => by simp [Frame.relocateBinding, Value.relocate_id v]

end

variable {g : Option Loc → Option Loc}

namespace Term

@[simp] theorem loc_relocate (e : Expr) : (e.relocate g).loc = g e.loc := by
  cases e <;> rfl

@[simp] theorem isLambda_relocate (e : Expr) : (e.relocate g).isLambda = e.isLambda := by
  cases e <;> rfl

end Term

namespace Value

theorem relocateAll_eq_map (vs : List Value) : relocateAll g vs = vs.map (relocate g) := by
  induction vs <;> simp_all

@[simp] theorem cls_relocate (v : Value) : (v.relocate g).cls = v.cls := by
  cases v <;> rfl

@[simp] theorem isValue_relocate (v : Value) : (v.relocate g).isValue = v.isValue := by
  cases v <;> rfl

@[simp] theorem isList_relocate (v : Value) : (v.relocate g).isList = v.isList := by
  cases v <;> rfl

@[simp] theorem sameClass_relocate (v w : Value) :
    (v.relocate g).sameClass (w.relocate g) = v.sameClass w := by
  rw [sameClass, cls_relocate, cls_relocate, sameClass]

@[simp] theorem tied_relocate (x : String) (v : Value) :
    (v.tied x).relocate g = (v.relocate g).tied x := by
  cases v <;> simp [tied]

mutual

@[simp] theorem text_relocate : ∀ v : Value, (v.relocate g).text = v.text
  | .list vs => by rw [relocate, text, text, texts_relocate vs]
  | .int _ | .real _ | .bool _ | .closure _ _ _ | .name _ | .nothing => by simp [text]

theorem texts_relocate : ∀ vs : List Value, texts (relocateAll g vs) = texts vs
  | [] => rfl
  | v :: vs => by rw [relocateAll, texts, texts, text_relocate v, texts_relocate vs]

end

end Value

namespace Frame

@[simp] theorem relocateBinding_eq (b : String × Value) :
    relocateBinding g b = (b.1, b.2.relocate g) := by
  obtain ⟨x, v⟩ := b
  rw [relocateBinding]

theorem relocate_eq_map (f : Frame Value) :
    relocate g f = f.map fun b => (b.1, b.2.relocate g) := by
  induction f <;> simp_all

@[simp] theorem names_relocate (f : Frame Value) : Frame.names (relocate g f) = f.names := by
  simp [relocate_eq_map, names, Function.comp_def]

@[simp] theorem defines_relocate (f : Frame Value) (x : String) :
    Frame.defines (relocate g f) x = f.defines x := by
  rw [Bool.eq_iff_iff, defines_iff, defines_iff, names_relocate]

theorem find?_relocate (f : Frame Value) (x : String) :
    Frame.find? (relocate g f) x = (Frame.find? f x).map (Value.relocate g) := by
  induction f with
  | nil => rfl
  | cons b f ih =>
    by_cases h : x = b.1 <;> simp [h, ih]

theorem define_relocate (x : String) (v : Value) (f : Frame Value) :
    relocate g (define x v f) = define x (v.relocate g) (relocate g f) := by
  induction f with
  | nil => rfl
  | cons b f ih =>
    by_cases h : b.1 = x <;> simp [define, h, ih]

theorem distinctFrom_relocate (seen : List String) (bs : List (String × Value)) :
    distinctFrom seen (relocate g bs) = relocate g (distinctFrom seen bs) := by
  induction bs generalizing seen with
  | nil => rfl
  | cons b bs ih =>
    by_cases h : b.1 ∈ seen <;> simp [distinctFrom, h, ih]

end Frame

namespace Scope

theorem bindings_relocate (s : Scope Value) :
    (s.relocate g).bindings = Frame.relocate g s.bindings := by
  induction s with
  | empty => rfl
  | frame bs parent ih => simp [bindings, ih, Frame.relocate_eq_map]
  | knot x p body parent ih => simp [bindings, ih]

@[simp] theorem names_scope_relocate (s : Scope Value) : (s.relocate g).names = s.names := by
  rw [names, bindings_relocate, Frame.distinct, Frame.distinctFrom_relocate, Frame.names_relocate]
  rfl

theorem lookup_relocate (s : Scope Value) (x : String) :
    (s.relocate g).lookup x = (s.lookup x).map (Value.relocate g) := by
  rw [lookup_eq_find?, lookup_eq_find?, bindings_relocate, Frame.find?_relocate]

theorem snapshot_relocate (s : Scope Value) : s.snapshot.relocate g = (s.relocate g).snapshot := by
  simp [snapshot, bindings_relocate, Frame.distinct, Frame.distinctFrom_relocate]

end Scope

end Minifun
