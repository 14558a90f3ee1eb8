import Minifun.Value.Basic

/-! # Shared frames

Scopes that share frames: a scope is a frame with a link to the frame around it, and a binding added
to a frame is seen by every scope that reaches it. Frames are numbered in the order in which they
were made, so that links lead to smaller numbers.
-/

namespace Minifun

structure LinkedFrame (α : Type) where
  bindings : Frame α
  parent : Option Nat
deriving Repr

structure Frames (α : Type) where
  frames : List (LinkedFrame α) := []
deriving Repr

namespace Frames

variable {α : Type}

/-- The bindings of a frame and of the frames around it, innermost first, along at most `n`
links. -/
def chain (s : Frames α) : Nat → Nat → List (String × α)
  | 0, _ => []
  | n + 1, id =>
    match s.frames[id]? with
    | none => []
    | some f =>
      match f.parent with
      | none => f.bindings
      | some parent => f.bindings ++ s.chain n parent

/-- The bindings seen from a frame, innermost first. -/
def bindings (s : Frames α) (id : Nat) : List (String × α) :=
  s.chain (id + 1) id

def lookup (s : Frames α) (id : Nat) (name : String) : Option α :=
  (s.bindings id).lookup name

def items (s : Frames α) (id : Nat) : Frame α :=
  Frame.distinct (s.bindings id)

def names (s : Frames α) (id : Nat) : List String :=
  (s.items id).names

def defines (s : Frames α) (id : Nat) (name : String) : Bool :=
  match s.frames[id]? with
  | none => false
  | some f => f.bindings.defines name

/-- A new frame with its number. -/
def add (s : Frames α) (bindings : Frame α) (parent : Option Nat) : Frames α × Nat :=
  (⟨s.frames ++ [⟨bindings, parent⟩]⟩, s.frames.length)

def extend (s : Frames α) (id : Nat) (name : String) (a : α) : Frames α × Nat :=
  s.add [(name, a)] (some id)

/-- A new frame that binds every name as a frame and those around it do, without links. -/
def snapshot (s : Frames α) (id : Nat) : Frames α × Nat :=
  s.add (s.items id) none

/-- A new frame with the bindings and the link of a frame. -/
def copy (s : Frames α) (id : Nat) : Frames α × Nat :=
  match s.frames[id]? with
  | none => s.add [] none
  | some f => s.add f.bindings f.parent

def define (s : Frames α) (id : Nat) (name : String) (a : α) : Frames α :=
  ⟨s.frames.modify id fun f => { f with bindings := f.bindings.define name a }⟩

/-- A new frame within a frame, which binds a name to what is made from the number of the new
frame. So a closure is bound to a name in the very frame it captures. -/
def tie (s : Frames α) (id : Nat) (name : String) (a : Nat → α) : Frames α × Nat :=
  s.add [(name, a s.frames.length)] (some id)

end Frames

/-- What a name of a scope of shared frames stands for: a value of its own, or a closure whose scope
is one of the frames. -/
inductive Held where
  | value (v : Value)
  | closure (param : String) (body : Expr) (frame : Nat)

instance : Inhabited Held := ⟨.value .nothing⟩

def Held.frame? : Held → Option Nat
  | .closure _ _ frame => some frame
  | .value _ => none

/-- Makes a closure with a frame as its scope able to call itself by a name: the closure moves to a
new frame within that one, which binds the name to it. -/
def Frames.bindRecursive (s : Frames Held) (id : Nat) (name param : String) (body : Expr) :
    Frames Held × Nat :=
  s.tie id name fun frame => .closure param body frame

end Minifun
