import Minifun.Value.Basic
import Minifun.Ty.Subst

/-! # Typing rules

The rules of the language over closed types, one for each construct. A name has one type wherever it
is used. The right side of a definition sees the name only if it is written as a function, and later
definitions of a name hide earlier ones.
-/

namespace Minifun

inductive Ground where
  | int
  | real
  | bool
  | list (elem : Ground)
  | fn (param result : Ground)
deriving DecidableEq, Repr, Inhabited

namespace Ground

def isNumeric : Ground → Bool
  | int | real => true
  | _ => false

def toTy : Ground → Ty
  | int => .int
  | real => .real
  | bool => .bool
  | list a => .list a.toTy
  | fn a b => .fn a.toTy b.toTy

theorem toTy_injective {g h : Ground} (e : g.toTy = h.toTy) : g = h := by
  induction g generalizing h with
  | list a ih =>
    cases h <;> simp only [toTy, reduceCtorEq, Ty.list.injEq] at e
    rw [ih e]
  | fn a b iha ihb =>
    cases h <;> simp only [toTy, reduceCtorEq, Ty.fn.injEq] at e
    rw [iha e.1, ihb e.2]
  | int | real | bool => cases h <;> first | rfl | exact nomatch e

end Ground

abbrev Valuation := Int → Ground

/-- A closed type is an instance of a type if it arises by giving every variable a closed type,
which is one of numbers where the variable is numeric. -/
def Ty.HasInstance (t : Ty) (τ : Ground) : Prop :=
  ∃ ρ : Valuation, (∀ i, (i, some .numeric) ∈ t.vars → (ρ i).isNumeric = true) ∧
    t.mapVars (fun i _ => (ρ i).toTy) = τ.toTy

abbrev Context := String → Option Ground

namespace Context

def empty : Context := fun _ => none

def bind (Γ : Context) (x : String) (τ : Ground) : Context :=
  fun y => if y = x then some τ else Γ y

def Within (Γ Δ : Context) : Prop :=
  ∀ x τ, Γ x = some τ → Δ x = some τ

variable {Γ Δ : Context} {x y : String} {τ : Ground}

@[simp] theorem bind_self (Γ : Context) (x : String) (τ : Ground) : Γ.bind x τ x = some τ :=
  if_pos rfl

theorem bind_of_ne (h : y ≠ x) : Γ.bind x τ y = Γ y :=
  if_neg h

theorem bind_bind (Γ : Context) (x : String) (σ τ : Ground) :
    (Γ.bind x σ).bind x τ = Γ.bind x τ := by
  funext y
  by_cases h : y = x
  · simp [bind, h]
  · simp [bind, h]

theorem Within.bind (h : Γ.Within Δ) (x : String) (τ : Ground) :
    (Γ.bind x τ).Within (Δ.bind x τ) := by
  intro y σ hy
  by_cases he : y = x
  · subst he
    simpa using hy
  · rw [bind_of_ne he] at hy ⊢
    exact h y σ hy

theorem within_bind_of_none (h : Γ x = none) (τ : Ground) : Γ.Within (Γ.bind x τ) := by
  intro y σ hy
  have hne : y ≠ x := by
    rintro rfl
    simp [h] at hy
  rwa [bind_of_ne hne]

end Context

inductive HasType : Context → Expr → Ground → Prop where
  | int {Γ n loc} : HasType Γ (.literal (.int n) loc) .int
  | real {Γ x loc} : HasType Γ (.literal (.real x) loc) .real
  | bool {Γ b loc} : HasType Γ (.literal (.bool b) loc) .bool
  | ident {Γ x τ loc} : Γ x = some τ → HasType Γ (.ident x loc) τ
  | neg {Γ e τ loc} : τ.isNumeric = true → HasType Γ e τ → HasType Γ (.unary .neg e loc) τ
  | not {Γ e loc} : HasType Γ e .bool → HasType Γ (.unary .not e loc) .bool
  | arith {Γ op a b τ loc} : τ.isNumeric = true → HasType Γ a τ → HasType Γ b τ →
      HasType Γ (.binary (.arith op) a b loc) τ
  | rel {Γ op a b τ loc} : τ.isNumeric = true → HasType Γ a τ → HasType Γ b τ →
      HasType Γ (.binary (.rel op) a b loc) .bool
  | logic {Γ op a b loc} : HasType Γ a .bool → HasType Γ b .bool →
      HasType Γ (.binary (.logic op) a b loc) .bool
  | concat {Γ a b τ loc} : HasType Γ a (.list τ) → HasType Γ b (.list τ) →
      HasType Γ (.binary .concat a b loc) (.list τ)
  | list {Γ es τ loc} : (∀ e ∈ es, HasType Γ e τ) → HasType Γ (.list es loc) (.list τ)
  | head {Γ e τ loc} : HasType Γ e (.list τ) → HasType Γ (.head e loc) τ
  | tail {Γ e τ loc} : HasType Γ e (.list τ) → HasType Γ (.tail e loc) (.list τ)
  | length {Γ e τ loc} : HasType Γ e (.list τ) → HasType Γ (.length e loc) .int
  | cond {Γ c a b τ loc} : HasType Γ c .bool → HasType Γ a τ → HasType Γ b τ →
      HasType Γ (.cond c a b loc) τ
  | lambda {Γ x body σ τ loc} : HasType (Γ.bind x σ) body τ →
      HasType Γ (.lambda x body loc) (.fn σ τ)
  | apply {Γ f a σ τ loc} : HasType Γ f (.fn σ τ) → HasType Γ a σ → HasType Γ (.apply f a loc) τ
  | letIn {Γ x v body σ τ loc} : HasType Γ v σ → HasType (Γ.bind x σ) body τ →
      HasType Γ (.letIn x v body loc) τ
  | map {Γ f xs σ τ loc} : HasType Γ f (.fn σ τ) → HasType Γ xs (.list σ) →
      HasType Γ (.map f xs loc) (.list τ)
  | foldl {Γ f i xs σ τ loc} : HasType Γ f (.fn τ (.fn σ τ)) → HasType Γ i τ →
      HasType Γ xs (.list σ) → HasType Γ (.fold .left f i xs loc) τ
  | foldr {Γ f i xs σ τ loc} : HasType Γ f (.fn σ (.fn τ τ)) → HasType Γ i τ →
      HasType Γ xs (.list σ) → HasType Γ (.fold .right f i xs loc) τ

/-- A statement has a closed type in a context, and leaves a context to the next one. -/
inductive StatementType : Context → Expr → Ground → Context → Prop where
  /-- A function may call itself. -/
  | function {Γ x e τ loc} : e.isLambda = true → HasType (Γ.bind x τ) e τ →
      StatementType Γ (.val x e loc) τ (Γ.bind x τ)
  | value {Γ x e τ loc} : e.isLambda = false → HasType Γ e τ →
      StatementType Γ (.val x e loc) τ (Γ.bind x τ)
  | expression {Γ e τ} : HasType Γ e τ → StatementType Γ e τ Γ

/-- The last of several statements has a closed type, and those before it have some. -/
inductive ProgramType : Context → List Expr → Ground → Prop where
  | last {Γ Δ s τ} : StatementType Γ s τ Δ → ProgramType Γ [s] τ
  | next {Γ Δ s ss σ τ} : StatementType Γ s σ Δ → ProgramType Δ ss τ → ProgramType Γ (s :: ss) τ

section Inversion

variable {Γ : Context} {e a b c f i xs v body : Expr} {es : List Expr} {x : String} {τ : Ground}
  {loc : Option Loc}

theorem hasType_ident : HasType Γ (.ident x loc) τ ↔ Γ x = some τ :=
  ⟨fun h => by cases h; assumption, .ident⟩

theorem hasType_neg :
    HasType Γ (.unary .neg e loc) τ ↔ τ.isNumeric = true ∧ HasType Γ e τ := by
  constructor
  · intro h
    cases h with
    | neg hn h => exact ⟨hn, h⟩
  · rintro ⟨hn, h⟩
    exact .neg hn h

theorem hasType_not : HasType Γ (.unary .not e loc) τ ↔ τ = .bool ∧ HasType Γ e .bool := by
  constructor
  · intro h
    cases h with
    | not h => exact ⟨rfl, h⟩
  · rintro ⟨rfl, h⟩
    exact .not h

theorem hasType_arith {op : ArithOp} : HasType Γ (.binary (.arith op) a b loc) τ ↔
    τ.isNumeric = true ∧ HasType Γ a τ ∧ HasType Γ b τ := by
  constructor
  · intro h
    cases h with
    | arith hn ha hb => exact ⟨hn, ha, hb⟩
  · rintro ⟨hn, ha, hb⟩
    exact .arith hn ha hb

theorem hasType_rel {op : RelOp} : HasType Γ (.binary (.rel op) a b loc) τ ↔
    τ = .bool ∧ ∃ σ : Ground, σ.isNumeric = true ∧ HasType Γ a σ ∧ HasType Γ b σ := by
  constructor
  · intro h
    cases h with
    | rel hn ha hb => exact ⟨rfl, _, hn, ha, hb⟩
  · rintro ⟨rfl, σ, hn, ha, hb⟩
    exact .rel hn ha hb

theorem hasType_logic {op : LogicOp} : HasType Γ (.binary (.logic op) a b loc) τ ↔
    τ = .bool ∧ HasType Γ a .bool ∧ HasType Γ b .bool := by
  constructor
  · intro h
    cases h with
    | logic ha hb => exact ⟨rfl, ha, hb⟩
  · rintro ⟨rfl, ha, hb⟩
    exact .logic ha hb

theorem hasType_concat : HasType Γ (.binary .concat a b loc) τ ↔
    ∃ σ, τ = .list σ ∧ HasType Γ a (.list σ) ∧ HasType Γ b (.list σ) := by
  constructor
  · intro h
    cases h with
    | concat ha hb => exact ⟨_, rfl, ha, hb⟩
  · rintro ⟨σ, rfl, ha, hb⟩
    exact .concat ha hb

theorem hasType_list :
    HasType Γ (.list es loc) τ ↔ ∃ σ, τ = .list σ ∧ ∀ e ∈ es, HasType Γ e σ := by
  constructor
  · intro h
    cases h with
    | list h => exact ⟨_, rfl, h⟩
  · rintro ⟨σ, rfl, h⟩
    exact .list h

theorem hasType_head : HasType Γ (.head e loc) τ ↔ HasType Γ e (.list τ) :=
  ⟨fun h => by cases h; assumption, .head⟩

theorem hasType_tail :
    HasType Γ (.tail e loc) τ ↔ ∃ σ, τ = .list σ ∧ HasType Γ e (.list σ) := by
  constructor
  · intro h
    cases h with
    | tail h => exact ⟨_, rfl, h⟩
  · rintro ⟨σ, rfl, h⟩
    exact .tail h

theorem hasType_length :
    HasType Γ (.length e loc) τ ↔ τ = .int ∧ ∃ σ, HasType Γ e (.list σ) := by
  constructor
  · intro h
    cases h with
    | length h => exact ⟨rfl, _, h⟩
  · rintro ⟨rfl, σ, h⟩
    exact .length h

theorem hasType_cond : HasType Γ (.cond c a b loc) τ ↔
    HasType Γ c .bool ∧ HasType Γ a τ ∧ HasType Γ b τ := by
  constructor
  · intro h
    cases h with
    | cond hc ha hb => exact ⟨hc, ha, hb⟩
  · rintro ⟨hc, ha, hb⟩
    exact .cond hc ha hb

theorem hasType_lambda : HasType Γ (.lambda x body loc) τ ↔
    ∃ σ σ', τ = .fn σ σ' ∧ HasType (Γ.bind x σ) body σ' := by
  constructor
  · intro h
    cases h with
    | lambda h => exact ⟨_, _, rfl, h⟩
  · rintro ⟨σ, σ', rfl, h⟩
    exact .lambda h

theorem hasType_apply :
    HasType Γ (.apply f a loc) τ ↔ ∃ σ, HasType Γ f (.fn σ τ) ∧ HasType Γ a σ := by
  constructor
  · intro h
    cases h with
    | apply hf ha => exact ⟨_, hf, ha⟩
  · rintro ⟨σ, hf, ha⟩
    exact .apply hf ha

theorem hasType_letIn :
    HasType Γ (.letIn x v body loc) τ ↔ ∃ σ, HasType Γ v σ ∧ HasType (Γ.bind x σ) body τ := by
  constructor
  · intro h
    cases h with
    | letIn hv hb => exact ⟨_, hv, hb⟩
  · rintro ⟨σ, hv, hb⟩
    exact .letIn hv hb

theorem hasType_map : HasType Γ (.map f xs loc) τ ↔
    ∃ σ σ', τ = .list σ' ∧ HasType Γ f (.fn σ σ') ∧ HasType Γ xs (.list σ) := by
  constructor
  · intro h
    cases h with
    | map hf hx => exact ⟨_, _, rfl, hf, hx⟩
  · rintro ⟨σ, σ', rfl, hf, hx⟩
    exact .map hf hx

theorem hasType_foldl : HasType Γ (.fold .left f i xs loc) τ ↔
    ∃ σ, HasType Γ f (.fn τ (.fn σ τ)) ∧ HasType Γ i τ ∧ HasType Γ xs (.list σ) := by
  constructor
  · intro h
    cases h with
    | foldl hf hi hx => exact ⟨_, hf, hi, hx⟩
  · rintro ⟨σ, hf, hi, hx⟩
    exact .foldl hf hi hx

theorem hasType_foldr : HasType Γ (.fold .right f i xs loc) τ ↔
    ∃ σ, HasType Γ f (.fn σ (.fn τ τ)) ∧ HasType Γ i τ ∧ HasType Γ xs (.list σ) := by
  constructor
  · intro h
    cases h with
    | foldr hf hi hx => exact ⟨_, hf, hi, hx⟩
  · rintro ⟨σ, hf, hi, hx⟩
    exact .foldr hf hi hx

theorem statementType_value {Δ : Context} (h : e.isLambda = false) :
    StatementType Γ (.val x e loc) τ Δ ↔ HasType Γ e τ ∧ Δ = Γ.bind x τ := by
  constructor
  · intro hs
    cases hs with
    | function hl => exact nomatch hl.symm.trans h
    | value _ he => exact ⟨he, rfl⟩
    | expression he => exact nomatch he
  · rintro ⟨he, rfl⟩
    exact .value h he

theorem statementType_function {Δ : Context} (h : e.isLambda = true) :
    StatementType Γ (.val x e loc) τ Δ ↔
      ∃ α β, HasType (Γ.bind x (.fn α β)) e τ ∧ .fn α β = τ ∧ Δ = Γ.bind x τ := by
  constructor
  · intro hs
    cases hs with
    | function _ he =>
      cases he with
      | lambda hb => exact ⟨_, _, .lambda hb, rfl, rfl⟩
      | _ => exact nomatch h
    | value hl => exact nomatch hl.symm.trans h
    | expression he => exact nomatch he
  · rintro ⟨α, β, he, rfl, rfl⟩
    exact .function h he

theorem programType_singleton : ProgramType Γ [e] τ ↔ ∃ Δ, StatementType Γ e τ Δ := by
  constructor
  · intro h
    cases h with
    | last hs => exact ⟨_, hs⟩
    | next _ h => exact nomatch h
  · rintro ⟨Δ, hs⟩
    exact .last hs

theorem programType_cons (h : es ≠ []) :
    ProgramType Γ (e :: es) τ ↔ ∃ σ Δ, StatementType Γ e σ Δ ∧ ProgramType Δ es τ := by
  constructor
  · intro hp
    cases hp with
    | last hs => exact absurd rfl h
    | next hs hp => exact ⟨_, _, hs, hp⟩
  · rintro ⟨σ, Δ, hs, hp⟩
    exact .next hs hp

end Inversion

theorem HasType.weaken {Γ Δ : Context} {e : Expr} {τ : Ground} (h : HasType Γ e τ)
    (hΔ : Γ.Within Δ) : HasType Δ e τ := by
  induction h generalizing Δ with
  | int => exact .int
  | real => exact .real
  | bool => exact .bool
  | ident hx => exact .ident (hΔ _ _ hx)
  | neg hn _ ih => exact .neg hn (ih hΔ)
  | not _ ih => exact .not (ih hΔ)
  | arith hn _ _ iha ihb => exact .arith hn (iha hΔ) (ihb hΔ)
  | rel hn _ _ iha ihb => exact .rel hn (iha hΔ) (ihb hΔ)
  | logic _ _ iha ihb => exact .logic (iha hΔ) (ihb hΔ)
  | concat _ _ iha ihb => exact .concat (iha hΔ) (ihb hΔ)
  | list _ ih => exact .list fun e he => ih e he hΔ
  | head _ ih => exact .head (ih hΔ)
  | tail _ ih => exact .tail (ih hΔ)
  | length _ ih => exact .length (ih hΔ)
  | cond _ _ _ ihc iha ihb => exact .cond (ihc hΔ) (iha hΔ) (ihb hΔ)
  | lambda _ ih => exact .lambda (ih (hΔ.bind _ _))
  | apply _ _ ihf iha => exact .apply (ihf hΔ) (iha hΔ)
  | letIn _ _ ihv ihb => exact .letIn (ihv hΔ) (ihb (hΔ.bind _ _))
  | map _ _ ihf ihx => exact .map (ihf hΔ) (ihx hΔ)
  | foldl _ _ _ ihf ihi ihx => exact .foldl (ihf hΔ) (ihi hΔ) (ihx hΔ)
  | foldr _ _ _ ihf ihi ihx => exact .foldr (ihf hΔ) (ihi hΔ) (ihx hΔ)

end Minifun
