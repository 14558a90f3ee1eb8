import Minifun.Proofs.Program.Texts

/-! # The grammar

Words are derived as expressions of a level. An operator binds its operands the tighter the later
its level comes. Repeated operators and applications nest to the left, so the repetitions of the
grammar are left recursion here. A derivation has a tree, which carries no places.
-/

namespace Minifun

abbrev Word := TokenKind × String

namespace Grammar

inductive Level where
  | expression | logical | relational | sum | product | factors | factor | applied
deriving DecidableEq, Repr

/-- What words can be: an expression of a level, or further elements of a list. -/
inductive Phrase where
  | expr (level : Level) (e : Expr)
  | elements (es : List Expr)

def operators : Level → List (TokenKind × BinOp)
  | .logical => [(.andWord, .logic .and), (.orWord, .logic .or)]
  | .relational => [(.lt, .rel .lt), (.le, .rel .le), (.gt, .rel .gt), (.ge, .rel .ge),
      (.eq, .rel .eq), (.ne, .rel .ne)]
  | .sum => [(.plus, .arith .add), (.minus, .arith .sub)]
  | .factors => [(.star, .arith .mul), (.slash, .arith .div), (.modWord, .arith .mod),
      (.concat, .concat)]
  | .expression | .product | .factor | .applied => []

def foldWord : Side → TokenKind
  | .left => .foldlWord
  | .right => .foldrWord

/-- Words have a derivation with a tree. -/
inductive Derives : Phrase → List Word → Prop where
  -- expr ::= 'let' ID ':=' expr 'in' expr | 'if' expr 'then' expr 'else' expr
  --   | 'fn' ID '->' expr | bexpr
  | letIn {l x a i v b us vs} :
      Derives (.expr .expression v) us → Derives (.expr .expression b) vs →
      Derives (.expr .expression (.letIn x v b none))
        ((.letWord, l) :: (.ident, x) :: (.assign, a) :: (us ++ (.inWord, i) :: vs))
  | cond {i t l c a b cs us vs} :
      Derives (.expr .expression c) cs → Derives (.expr .expression a) us →
      Derives (.expr .expression b) vs →
      Derives (.expr .expression (.cond c a b none))
        ((.ifWord, i) :: (cs ++ (.thenWord, t) :: (us ++ (.elseWord, l) :: vs)))
  | lambda {f x a b vs} : Derives (.expr .expression b) vs →
      Derives (.expr .expression (.lambda x b none))
        ((.fnWord, f) :: (.ident, x) :: (.arrow, a) :: vs)
  | ofLogical {e ws} : Derives (.expr .logical e) ws → Derives (.expr .expression e) ws
  -- bexpr ::= rexpr { ('and' | 'or') rexpr }
  | ofRelational {e ws} : Derives (.expr .relational e) ws → Derives (.expr .logical e) ws
  | logic {k t op a b us vs} : Derives (.expr .logical a) us → (k, op) ∈ operators .logical →
      Derives (.expr .relational b) vs →
      Derives (.expr .logical (.binary op a b none)) (us ++ (k, t) :: vs)
  -- rexpr ::= mexpr [ ('<' | '<=' | '>' | '>=' | '=' | '!=') mexpr ]
  | ofSum {e ws} : Derives (.expr .sum e) ws → Derives (.expr .relational e) ws
  | comparison {k t op a b us vs} : Derives (.expr .sum a) us → (k, op) ∈ operators .relational →
      Derives (.expr .sum b) vs →
      Derives (.expr .relational (.binary op a b none)) (us ++ (k, t) :: vs)
  -- mexpr ::= term { ('+' | '-') term }
  | ofProduct {e ws} : Derives (.expr .product e) ws → Derives (.expr .sum e) ws
  | addition {k t op a b us vs} : Derives (.expr .sum a) us → (k, op) ∈ operators .sum →
      Derives (.expr .product b) vs →
      Derives (.expr .sum (.binary op a b none)) (us ++ (k, t) :: vs)
  -- term ::= 'not' rexpr | factor { ('*' | '/' | 'mod' | '++') factor }
  | not {t e ws} : Derives (.expr .relational e) ws →
      Derives (.expr .product (.unary .not e none)) ((.notWord, t) :: ws)
  | ofFactors {e ws} : Derives (.expr .factors e) ws → Derives (.expr .product e) ws
  | ofFactor {e ws} : Derives (.expr .factor e) ws → Derives (.expr .factors e) ws
  | multiplication {k t op a b us vs} : Derives (.expr .factors a) us →
      (k, op) ∈ operators .factors → Derives (.expr .factor b) vs →
      Derives (.expr .factors (.binary op a b none)) (us ++ (k, t) :: vs)
  -- factor ::= '-' factor | ('hd' | 'tl' | 'len') '(' expr ')' | 'map' '(' expr expr ')'
  --   | ('foldl' | 'foldr') '(' expr expr expr ')' | '[' [ expr { ',' expr } ] ']'
  --   | '(' expr ')' { '(' expr ')' } | INT | REAL | 'true' | 'false' | ID { '(' expr ')' }
  | neg {t e ws} : Derives (.expr .factor e) ws →
      Derives (.expr .factor (.unary .neg e none)) ((.minus, t) :: ws)
  | head {t l r e ws} : Derives (.expr .expression e) ws →
      Derives (.expr .factor (.head e none))
        ((.hdWord, t) :: (.lparen, l) :: (ws ++ [(.rparen, r)]))
  | tail {t l r e ws} : Derives (.expr .expression e) ws →
      Derives (.expr .factor (.tail e none))
        ((.tlWord, t) :: (.lparen, l) :: (ws ++ [(.rparen, r)]))
  | length {t l r e ws} : Derives (.expr .expression e) ws →
      Derives (.expr .factor (.length e none))
        ((.lenWord, t) :: (.lparen, l) :: (ws ++ [(.rparen, r)]))
  | map {t l r f xs fs ws} : Derives (.expr .expression f) fs → Derives (.expr .expression xs) ws →
      Derives (.expr .factor (.map f xs none))
        ((.mapWord, t) :: (.lparen, l) :: (fs ++ (ws ++ [(.rparen, r)])))
  | fold {side t l r f i xs fs is ws} : Derives (.expr .expression f) fs →
      Derives (.expr .expression i) is → Derives (.expr .expression xs) ws →
      Derives (.expr .factor (.fold side f i xs none))
        ((foldWord side, t) :: (.lparen, l) :: (fs ++ (is ++ (ws ++ [(.rparen, r)]))))
  | nil {l r} : Derives (.expr .factor (.list [] none)) [(.lbracket, l), (.rbracket, r)]
  | list {l r e es ws us} : Derives (.expr .expression e) ws → Derives (.elements es) us →
      Derives (.expr .factor (.list (e :: es) none))
        ((.lbracket, l) :: (ws ++ (us ++ [(.rbracket, r)])))
  | int {t n} : Text.readInt t = .ok n →
      Derives (.expr .factor (.literal (.int n) none)) [(.int, t)]
  | real {t x} : Text.readReal? t = some x →
      Derives (.expr .factor (.literal (.real x) none)) [(.real, t)]
  | bool {t} : Derives (.expr .factor (.literal (.bool (t == "true")) none)) [(.bool, t)]
  | ofApplied {e ws} : Derives (.expr .applied e) ws → Derives (.expr .factor e) ws
  | ident {x} : Derives (.expr .applied (.ident x none)) [(.ident, x)]
  | brackets {l r e ws} : Derives (.expr .expression e) ws →
      Derives (.expr .applied e) ((.lparen, l) :: (ws ++ [(.rparen, r)]))
  | apply {l r f a fs us} : Derives (.expr .applied f) fs → Derives (.expr .expression a) us →
      Derives (.expr .applied (.apply f a none)) (fs ++ (.lparen, l) :: (us ++ [(.rparen, r)]))
  -- { ',' expr }
  | noElements : Derives (.elements []) []
  | element {t e es ws us} : Derives (.expr .expression e) ws → Derives (.elements es) us →
      Derives (.elements (e :: es)) ((.comma, t) :: (ws ++ us))

/-- Words are a statement: `stmt ::= 'val' ID [ID] ':=' expr | expr`. -/
inductive DerivesStatement : Expr → List Word → Prop where
  | val {v x a e ws} : Derives (.expr .expression e) ws →
      DerivesStatement (.val x e none) ((.valWord, v) :: (.ident, x) :: (.assign, a) :: ws)
  | function {v f x a e ws} : Derives (.expr .expression e) ws →
      DerivesStatement (.val f (.lambda x e none) none)
        ((.valWord, v) :: (.ident, f) :: (.ident, x) :: (.assign, a) :: ws)
  | expression {e ws} : Derives (.expr .expression e) ws → DerivesStatement e ws

/-- Words are the statements of a program: `prog ::= { stmt ';' } EOF`. -/
inductive DerivesProgram : List Expr → List Word → Prop where
  | nil : DerivesProgram [] []
  | cons {t e es ws us} : DerivesStatement e ws → DerivesProgram es us →
      DerivesProgram (e :: es) (ws ++ (.semicolon, t) :: us)

/-- Why the numeral of a word has no number, if it is a numeral and has none. -/
def numeralFault? : Word → Option Breakdown
  | (.int, text) =>
    match Text.readInt text with
    | .ok _ => none
    | .error .malformed => some (.badInt text)
    | .error (.tooLong digits) => some (.longInt digits)
  | (.real, text) => if (Text.readReal? text).isSome then none else some (.badReal text)
  | _ => none

/-- A word that can be read over: not the end of the text, nor a numeral without a number. -/
def Passable (w : Word) : Prop :=
  w.1 ≠ .eof ∧ numeralFault? w = none

variable {k : TokenKind} {op : BinOp}

theorem logicOp?_eq_some_iff : Parse.logicOp? k = some op ↔ (k, op) ∈ operators .logical := by
  cases k <;> simp [Parse.logicOp?, operators, eq_comm]

theorem relOp?_eq_some_iff : Parse.relOp? k = some op ↔ (k, op) ∈ operators .relational := by
  cases k <;> simp [Parse.relOp?, operators, eq_comm]

theorem sumOp?_eq_some_iff : Parse.sumOp? k = some op ↔ (k, op) ∈ operators .sum := by
  cases k <;> simp [Parse.sumOp?, operators, eq_comm]

theorem productOp?_eq_some_iff : Parse.productOp? k = some op ↔ (k, op) ∈ operators .factors := by
  cases k <;> simp [Parse.productOp?, operators, eq_comm]

theorem Derives.ne_nil {level : Level} {e : Expr} {ws : List Word}
    (h : Derives (.expr level e) ws) : ws ≠ [] := by
  generalize hp : Phrase.expr level e = phrase at h
  induction h generalizing level e with
  | ofLogical _ ih | ofRelational _ ih | ofSum _ ih | ofProduct _ ih | ofFactors _ ih
  | ofFactor _ ih | ofApplied _ ih => exact ih rfl
  | noElements | element => exact nomatch hp
  | _ => simp

end Grammar

end Minifun
