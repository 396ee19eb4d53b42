import StackCompiler.Grammar.Basic

/-!
Expressions, by recursive descent.

    expression := location assignop expression | location ++ | location -- | or-chain
    or-chain   := and-chain (or and-chain)*
    and-chain  := negation (and negation)*
    negation   := not negation | comparison
    comparison := minmax-chain [relop minmax-chain]
    minmax-chain, sum-chain, mul-chain likewise, down to unary
    unary      := (- | * | ?) unary | factor
    factor     := ( expression ) | name ( arguments ) | constant | location
    location   := name [ "[" expression "]" ]

An expression may start with a location whether it assigns or not, so `expression` reads that location
first. With `reuse` it hands it on to the factor at the same place; without, the factor reads it once
more, which takes exponential time in the depth of nested indices.

Every call is made with fewer tokens, or with the same tokens and a production of lower rank.
-/

set_option autoImplicit false
namespace StackCompiler.Grammar

/-- The binary operators that form chains, the loosest first. -/
inductive Level where
  | or
  | and
  | minMax
  | sum
  | mul
  deriving DecidableEq, Inhabited

namespace Level

def tag : Level → Tag
  | or => .simpleExp
  | and => .andExp
  | minMax => .minMaxExp
  | sum => .sumExp
  | mul => .mulExp

def accepts : Level → Token → Bool
  | or, t => t.isKeyword "or" || t.isOperator ["||"]
  | and, t => t.isKeyword "and" || t.isOperator ["&&"]
  | minMax, t => t.isOperator [":>:", ":<:"]
  | sum, t => t.isOperator ["+", "-"]
  | mul, t => t.isOperator ["*", "/", "%"]

def rank : Level → Nat
  | or => 13
  | and => 11
  | minMax => 7
  | sum => 5
  | mul => 3

theorem rank_le (level : Level) : level.rank ≤ 13 := by
  cases level <;> decide

grind_pattern rank_le => level.rank

/-- A chain of one operand is that operand. -/
def chainTree (level : Level) (first : Tree) (links : List Tree) : Tree :=
  match links with
  | [] => first
  | _ => .inner level.tag (first :: links)

end Level

def isAssignment (t : Token) : Bool :=
  t.isOperator ["=", "+=", "-=", "*=", "/="]

def isStep (t : Token) : Bool :=
  t.isOperator ["++", "--"]

def isNegation (t : Token) : Bool :=
  t.isKeyword "not" || t.isOperator ["!"]

def isRelational (t : Token) : Bool :=
  t.isOperator ["<=", "<", ">", ">=", "==", "!="]

def isUnary (t : Token) : Bool :=
  t.isOperator ["-", "*", "?"]

def isConstant (t : Token) : Bool :=
  t.kind == .number || t.kind == .character || t.kind == .string ||
    t.isKeyword "true" || t.isKeyword "false"

/-- A name with an opening parenthesis behind it. -/
def startsCall : List Token → Bool
  | name :: paren :: _ => name.isIdentifier && paren.isSymbol "("
  | _ => false

variable (reuse : Bool)

mutual

def expression (ts : List Token) : Outcome ts.length := do
  match ← location ts with
  | none => chain .or ts none
  | some target =>
    match eat? isAssignment target.rest with
    | some op =>
      let value ← required .expression op.rest (expression op.rest)
      return some ((target.andThen (op.andThen value)).map
        fun v => .marked .assign op.value [target.value, v])
    | none =>
      match eat? isStep target.rest with
      | some op => return some ((target.andThen op).map (.marked .incDec · [target.value]))
      | none => chain .or ts (if reuse then some target else none)
termination_by 20 * ts.length + 15
decreasing_by all_goals grind [Level.rank]

def location (ts : List Token) : Outcome ts.length := do
  match eat? Token.isIdentifier ts with
  | none => return none
  | some name =>
    match eat? (·.isSymbol "[") name.rest with
    | none => return some (name.map (.marked .mutable · []))
    | some bracket =>
      let index ← required .index bracket.rest (expression bracket.rest)
      let close ← expectSymbol "]" index.rest
      return some ((name.andThen (bracket.andThen (index.andThen close))).map
        fun _ => .marked .mutable name.value [index.value])
termination_by 20 * ts.length
decreasing_by all_goals grind

/-- A chain of operands at `level`. `known` is the location at its very start, if already read. -/
def chain (level : Level) (ts : List Token) (known : Option (Read Tree ts.length)) :
    Outcome ts.length := do
  match ← operand level ts known with
  | none => return none
  | some first =>
    let links ← chainLinks level first.rest
    return some ((first.andMaybe links).map (level.chainTree first.value))
termination_by 20 * ts.length + level.rank + 1
decreasing_by all_goals grind

def chainLinks (level : Level) (ts : List Token) :
    Except Unexpected (Read (List Tree) (ts.length + 1)) := do
  match eat? level.accepts ts with
  | none => return .nothing [] ts
  | some op =>
    let next ← required (.operandAfter op.value.lexeme) op.rest (operand level op.rest none)
    let links ← chainLinks level next.rest
    return ((op.andThen (next.andMaybe links)).map
      (.marked .operator op.value [] :: next.value :: ·)).maybe
termination_by 20 * ts.length
decreasing_by all_goals grind

def operand (level : Level) (ts : List Token) (known : Option (Read Tree ts.length)) :
    Outcome ts.length :=
  match level with
  | .or => chain .and ts known
  | .and => negation ts known
  | .minMax => chain .sum ts known
  | .sum => chain .mul ts known
  | .mul => unary ts known
termination_by 20 * ts.length + level.rank
decreasing_by all_goals grind [Level.rank]

def negation (ts : List Token) (known : Option (Read Tree ts.length)) : Outcome ts.length := do
  match eat? isNegation ts with
  | none => comparison ts known
  | some op =>
    let inner ← required (.operandAfter "not") op.rest (negation op.rest none)
    return some ((op.andThen inner).map fun t => .marked .notExp op.value [t])
termination_by 20 * ts.length + 10
decreasing_by all_goals grind

/-- Comparisons do not chain. -/
def comparison (ts : List Token) (known : Option (Read Tree ts.length)) : Outcome ts.length := do
  match ← chain .minMax ts known with
  | none => return none
  | some left =>
    match eat? isRelational left.rest with
    | none => return some left
    | some op =>
      let right ← required (.operandAfter op.value.lexeme) op.rest (chain .minMax op.rest none)
      return some ((left.andThen (op.andThen right)).map
        fun t => .inner .relExp [left.value, .marked .operator op.value [], t])
termination_by 20 * ts.length + 9
decreasing_by all_goals grind [Level.rank]

def unary (ts : List Token) (known : Option (Read Tree ts.length)) : Outcome ts.length := do
  match eat? isUnary ts with
  | none => factor ts known
  | some op =>
    let inner ← required (.operandAfter op.value.lexeme) op.rest (unary op.rest none)
    return some ((op.andThen inner).map fun t => .marked .unaryExp op.value [t])
termination_by 20 * ts.length + 2
decreasing_by all_goals grind

def factor (ts : List Token) (known : Option (Read Tree ts.length)) : Outcome ts.length := do
  match eat? (·.isSymbol "(") ts with
  | some paren =>
    let inner ← required .expression paren.rest (expression paren.rest)
    let close ← expectSymbol ")" inner.rest
    return some ((paren.andThen (inner.andThen close)).map
      fun _ => .marked .paren paren.value [inner.value])
  | none =>
    if startsCall ts then
      let name ← expectIdentifier ts
      let paren ← expectSymbol "(" name.rest
      let args ← arguments paren.rest
      return some ((name.andThen (paren.andThen args)).map (.marked .call name.value))
    else
      match eat? isConstant ts with
      | some c => return some (c.map (.marked .constant · []))
      | none =>
        match known with
        | some target => return some target
        | none => location ts
termination_by 20 * ts.length + 1
decreasing_by all_goals grind

def arguments (ts : List Token) : Except Unexpected (Read (List Tree) ts.length) := do
  match eat? (·.isSymbol ")") ts with
  | some close => return close.map fun _ => []
  | none => argumentList ts
termination_by 20 * ts.length + 17
decreasing_by all_goals grind

def argumentList (ts : List Token) : Except Unexpected (Read (List Tree) ts.length) := do
  let first ← required .argument ts (expression ts)
  match eat? (·.isSymbol ",") first.rest with
  | some comma =>
    let more ← argumentList comma.rest
    return (first.andThen (comma.andThen more)).map (first.value :: ·)
  | none =>
    let close ← expectSymbol ")" first.rest
    return (first.andThen close).map fun _ => [first.value]
termination_by 20 * ts.length + 16
decreasing_by all_goals grind

end

/-- An expression that assigns nothing at its top: initializers, conditions, bounds of a range. -/
def simpleExpression (ts : List Token) : Outcome ts.length :=
  chain reuse .or ts none

end StackCompiler.Grammar
