import Minifun.Proofs.Typing.Supply

/-! # Copies of a checker

A checker and a copy of it draw variables from one supply, so the numbers that one of them sees
depend on what the other one is asked in between. The answers do not: each of the two answers as if
it were asked alone.
-/

namespace Minifun

inductive Query where
  | check (statements : List Expr)
  | typeOf (name : String)
  | globals

inductive Response where
  | check (outcome : Except TypeError Ty)
  | typeOf (type : Option Ty)
  | globals (types : List (String × Ty))

structure Responded where
  response : Response
  checker : Checker
  shared : Shared

/-- A checker and a copy of it. -/
inductive Party where
  | original
  | fork
deriving DecidableEq

def Party.own {α : Type} (p : Party) (entries : List (Party × α)) : List α :=
  entries.filterMap fun e => if e.1 = p then some e.2 else none

namespace Party

variable {α : Type} {p r : Party}

@[simp] theorem own_cons_self (a : α) (entries : List (Party × α)) :
    p.own ((p, a) :: entries) = a :: p.own entries := by
  simp [Party.own]

@[simp] theorem own_cons_of_ne (h : r ≠ p) (a : α) (entries : List (Party × α)) :
    p.own ((r, a) :: entries) = p.own entries := by
  simp [Party.own, h]

end Party

namespace Checker

def ask (c : Checker) (shared : Shared) : Query → Responded
  | .check ss =>
    let checked := c.check shared ss
    ⟨.check checked.outcome, checked.checker, checked.shared⟩
  | .typeOf name => ⟨.typeOf (c.typeOf? name), c, shared⟩
  | .globals => ⟨.globals c.globals, c, shared⟩

def askAlone (c : Checker) (shared : Shared) : List Query → List Response
  | [] => []
  | q :: qs =>
    let responded := c.ask shared q
    responded.response :: responded.checker.askAlone responded.shared qs

/-- The responses of two checkers that are asked in turns, each with the one it comes from. -/
def askBoth (checkers : Party → Checker) (shared : Shared) :
    List (Party × Query) → List (Party × Response)
  | [] => []
  | (p, q) :: calls =>
    let responded := (checkers p).ask shared q
    (p, responded.response) ::
      askBoth (Function.update checkers p responded.checker) responded.shared calls

/-- The checker that is reached when programs are checked one after the other, whether they have a
type or not. -/
def checkAll (c : Checker) (shared : Shared) : List (List Expr) → Checker × Shared
  | [] => (c, shared)
  | ss :: programs =>
    let checked := c.check shared ss
    checked.checker.checkAll checked.shared programs

variable {c c' : Checker} {shared shared' : Shared} {p : Party}

theorem Below.checkAll (h : c.Below shared.next) (programs : List (List Expr)) :
    (c.checkAll shared programs).1.Below (c.checkAll shared programs).2.next := by
  induction programs generalizing c shared with
  | nil => exact h
  | cons ss programs ih => exact ih (h.check ss)

theorem next_le_ask (c : Checker) (shared : Shared) (q : Query) :
    shared.next ≤ (c.ask shared q).shared.next := by
  cases q with
  | check ss => exact next_le_check c shared ss
  | typeOf | globals => exact Nat.le_refl _

theorem Mirrors.ask (h : Mirrors shared.next shared'.next c c') (q : Query) :
    (c'.ask shared' q).response = (c.ask shared q).response ∧
      Mirrors (c.ask shared q).shared.next (c'.ask shared' q).shared.next
        (c.ask shared q).checker (c'.ask shared' q).checker := by
  cases q with
  | check ss =>
    obtain ⟨hout, hm⟩ := h.check shared shared' ss
    exact ⟨congrArg Response.check hout, hm⟩
  | typeOf name => exact ⟨congrArg Response.typeOf (h.typeOf? name), h⟩
  | globals => exact ⟨congrArg Response.globals h.globals, h⟩

/-- What one of two checkers replies in turns with the other one is what it replies alone, also when
it has other numbers alone. -/
theorem Mirrors.askBoth {checkers : Party → Checker}
    (h : Mirrors shared.next shared'.next c (checkers p)) (calls : List (Party × Query)) :
    p.own (askBoth checkers shared' calls) = c.askAlone shared (p.own calls) := by
  induction calls generalizing c shared shared' checkers with
  | nil => rfl
  | cons call calls ih =>
    obtain ⟨r, q⟩ := call
    by_cases hr : r = p
    · subst hr
      obtain ⟨hresponse, hm⟩ := h.ask q
      rw [Checker.askBoth, Party.own_cons_self, Party.own_cons_self, askAlone, hresponse]
      exact congrArg _ (ih (by simpa using hm))
    · rw [Checker.askBoth, Party.own_cons_of_ne hr, Party.own_cons_of_ne hr]
      refine ih ?_
      rw [Function.update_of_ne (Ne.symm hr)]
      exact h.mono (next_le_ask _ _ q)

/-- A checker that has checked programs, of which some may have failed, and a copy of it do not
disturb each other: in whatever turns they are asked, each of them replies as it does alone. -/
theorem forks_independent (shared : Shared) (programs : List (List Expr))
    (calls : List (Party × Query)) (p : Party) :
    let reached := ({} : Checker).checkAll shared programs
    p.own (askBoth (fun _ => reached.1) reached.2 calls) =
      reached.1.askAlone reached.2 (p.own calls) := by
  intro reached
  have hbelow : reached.1.Below reached.2.next := Below.empty.checkAll programs
  exact hbelow.mirrors.askBoth calls

end Checker

end Minifun
