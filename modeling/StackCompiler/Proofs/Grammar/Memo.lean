import StackCompiler.Grammar.Program

/-!
The productions of the grammar with a memo of the last location read.

An expression reads the location at its start before it knows whether that location is assigned to, and
otherwise starts again at the same place. Here the location is not handed on: it is left in a memo that all
productions share. The memo stays when a production declines, is overwritten by every location read, and
is taken out by the first location asked for at the place where it was read.
-/

set_option autoImplicit false
namespace StackCompiler.Grammar

structure Memo where
  start : List Token
  found : Read Tree start.length

abbrev Memoized (α : Type) :=
  StateT (Option Memo) (Except Unexpected) α

namespace Memo

/-- Takes the memo out if it was left at the front of `ts`. -/
def remembered (ts : List Token) : Memoized (Option (Read Tree ts.length)) := fun memo =>
  match memo with
  | none => .ok (none, none)
  | some m => if h : m.start = ts then .ok (some (h ▸ m.found), none) else .ok (none, some m)

def store (ts : List Token) (found : Read Tree ts.length) : Memoized Unit :=
  set (some (⟨ts, found⟩ : Memo))

def required (e : Expectation) (ts : List Token) (reader : Memoized (Option (Read Tree ts.length))) :
    Memoized (Read Tree ts.length) := do
  match ← reader with
  | some r => return r
  | none => throw ⟨e, ts.head?⟩

mutual

def expression (ts : List Token) : Memoized (Option (Read Tree ts.length)) := do
  match ← location ts with
  | none => chain .or ts
  | some target =>
    match eat? isAssignment target.rest with
    | some op =>
      let value ← required .expression op.rest (expression op.rest)
      return some ((target.andThen (op.andThen value)).map
        fun v => .marked .assign op.value [target.value, v])
    | none =>
      match eat? isStep target.rest with
      | some op => return some ((target.andThen op).map (.marked .incDec · [target.value]))
      | none => chain .or ts
termination_by 20 * ts.length + 15
decreasing_by all_goals grind [Level.rank]

def location (ts : List Token) : Memoized (Option (Read Tree ts.length)) := do
  match ← remembered ts with
  | some found => return some found
  | none =>
    match eat? Token.isIdentifier ts with
    | none => return none
    | some name =>
      match eat? (·.isSymbol "[") name.rest with
      | none =>
        store ts (name.map (.marked .mutable · []))
        return some (name.map (.marked .mutable · []))
      | some bracket =>
        let index ← required .index bracket.rest (expression bracket.rest)
        let close ← expectSymbol "]" index.rest
        let found := (name.andThen (bracket.andThen (index.andThen close))).map
          fun _ => .marked .mutable name.value [index.value]
        store ts found
        return some found
termination_by 20 * ts.length
decreasing_by all_goals grind

def chain (level : Level) (ts : List Token) : Memoized (Option (Read Tree ts.length)) := do
  match ← operand level ts with
  | none => return none
  | some first =>
    let links ← chainLinks level first.rest
    return some ((first.andMaybe links).map (level.chainTree first.value))
termination_by 20 * ts.length + level.rank + 1
decreasing_by all_goals grind

def chainLinks (level : Level) (ts : List Token) : Memoized (Read (List Tree) (ts.length + 1)) := do
  match eat? level.accepts ts with
  | none => return .nothing [] ts
  | some op =>
    let next ← required (.operandAfter op.value.lexeme) op.rest (operand level op.rest)
    let links ← chainLinks level next.rest
    return ((op.andThen (next.andMaybe links)).map
      (.marked .operator op.value [] :: next.value :: ·)).maybe
termination_by 20 * ts.length
decreasing_by all_goals grind

def operand (level : Level) (ts : List Token) : Memoized (Option (Read Tree ts.length)) :=
  match level with
  | .or => chain .and ts
  | .and => negation ts
  | .minMax => chain .sum ts
  | .sum => chain .mul ts
  | .mul => unary ts
termination_by 20 * ts.length + level.rank
decreasing_by all_goals grind [Level.rank]

def negation (ts : List Token) : Memoized (Option (Read Tree ts.length)) := do
  match eat? isNegation ts with
  | none => comparison ts
  | some op =>
    let inner ← required (.operandAfter "not") op.rest (negation op.rest)
    return some ((op.andThen inner).map fun t => .marked .notExp op.value [t])
termination_by 20 * ts.length + 10
decreasing_by all_goals grind

def comparison (ts : List Token) : Memoized (Option (Read Tree ts.length)) := do
  match ← chain .minMax ts with
  | none => return none
  | some left =>
    match eat? isRelational left.rest with
    | none => return some left
    | some op =>
      let right ← required (.operandAfter op.value.lexeme) op.rest (chain .minMax op.rest)
      return some ((left.andThen (op.andThen right)).map
        fun t => .inner .relExp [left.value, .marked .operator op.value [], t])
termination_by 20 * ts.length + 9
decreasing_by all_goals grind [Level.rank]

def unary (ts : List Token) : Memoized (Option (Read Tree ts.length)) := do
  match eat? isUnary ts with
  | none => factor ts
  | some op =>
    let inner ← required (.operandAfter op.value.lexeme) op.rest (unary op.rest)
    return some ((op.andThen inner).map fun t => .marked .unaryExp op.value [t])
termination_by 20 * ts.length + 2
decreasing_by all_goals grind

def factor (ts : List Token) : Memoized (Option (Read Tree ts.length)) := do
  match eat? (·.isSymbol "(") ts with
  | some paren =>
    let inner ← required .expression paren.rest (expression paren.rest)
    let close ← expectSymbol ")" inner.rest
    return some ((paren.andThen (inner.andThen close)).map
      fun _ => .marked .paren paren.value [inner.value])
  | none =>
    if startsCall ts then
      let name ← expectIdentifier ts
      let paren ← expectSymbol "(" name.rest
      let args ← arguments paren.rest
      return some ((name.andThen (paren.andThen args)).map (.marked .call name.value))
    else
      match eat? isConstant ts with
      | some c => return some (c.map (.marked .constant · []))
      | none => location ts
termination_by 20 * ts.length + 1
decreasing_by all_goals grind

def arguments (ts : List Token) : Memoized (Read (List Tree) ts.length) := do
  match eat? (·.isSymbol ")") ts with
  | some close => return close.map fun _ => []
  | none => argumentList ts
termination_by 20 * ts.length + 17
decreasing_by all_goals grind

def argumentList (ts : List Token) : Memoized (Read (List Tree) ts.length) := do
  let first ← required .argument ts (expression ts)
  match eat? (·.isSymbol ",") first.rest with
  | some comma =>
    let more ← argumentList comma.rest
    return (first.andThen (comma.andThen more)).map (first.value :: ·)
  | none =>
    let close ← expectSymbol ")" first.rest
    return (first.andThen close).map fun _ => [first.value]
termination_by 20 * ts.length + 16
decreasing_by all_goals grind

end

def simpleExpression (ts : List Token) : Memoized (Option (Read Tree ts.length)) :=
  chain .or ts

/-! Declarations. The productions without expressions in them leave the memo alone. -/

def declarator (ts : List Token) : Memoized (Read Tree ts.length) := do
  let name ← declaredName ts
  match eat? (·.isSymbol ":") name.rest with
  | none => return name.map fun id => .inner .varDeclInit [id]
  | some colon =>
    let init ← required .initializer colon.rest (simpleExpression colon.rest)
    return (name.andThen (colon.andThen init)).map fun t => .inner .varDeclInit [name.value, t]

def declarators (ts : List Token) : Memoized (Read (List Tree) ts.length) := do
  let first ← declarator ts
  match eat? (·.isSymbol ",") first.rest with
  | some comma =>
    let more ← declarators comma.rest
    return (first.andThen (comma.andThen more)).map (first.value :: ·)
  | none =>
    let close ← expectSymbol ";" first.rest
    return (first.andThen close).map fun _ => [first.value]
termination_by ts.length
decreasing_by grind

def varDeclaration (ts : List Token) : Memoized (Option (Read Tree ts.length)) := do
  match eat? isTypeName ts with
  | none => return none
  | some type =>
    let list ← declarators type.rest
    return some ((type.andThen list).map
      fun inits => .inner .varDecl (.marked .typeSpec type.value [] :: inits))

def localDeclaration (ts : List Token) : Memoized (Option (Read Tree ts.length)) := do
  match eat? (·.isKeyword "static") ts with
  | none => varDeclaration ts
  | some static =>
    let type ← expect .typeName isTypeName static.rest
    let list ← declarators type.rest
    return some ((static.andThen (type.andThen list)).map fun inits =>
      .inner .varDecl (.marked .static static.value [] :: .marked .typeSpec type.value [] :: inits))

def localDeclarations (ts : List Token) : Memoized (Read (List Tree) (ts.length + 1)) := do
  match ← localDeclaration ts with
  | none => return .nothing [] ts
  | some first =>
    let more ← localDeclarations first.rest
    return ((first.andMaybe more).map (first.value :: ·)).maybe
termination_by ts.length
decreasing_by grind

/-! Statements. -/

def rangeStep (ts : List Token) : Memoized (Read (List Tree) (ts.length + 1)) := do
  match eat? (·.isKeyword "by") ts with
  | none => return .nothing [] ts
  | some word =>
    let step ← required .rangeStep word.rest (simpleExpression word.rest)
    return ((word.andThen step).map ([·])).maybe

def rangeEnd (ts : List Token) : Memoized (Read (List Tree) (ts.length + 1)) := do
  match eat? (·.isKeyword "to") ts with
  | none => return .nothing [] ts
  | some word =>
    let stop ← required .rangeEnd word.rest (simpleExpression word.rest)
    let step ← rangeStep stop.rest
    return ((word.andThen (stop.andMaybe step)).map (stop.value :: ·)).maybe

def range (ts : List Token) : Memoized (Read Tree ts.length) := do
  let start ← required .rangeStart ts (simpleExpression ts)
  let more ← rangeEnd start.rest
  return (start.andMaybe more).map fun bounds => .inner .iterRange (start.value :: bounds)

def expressionStatement (ts : List Token) : Memoized (Option (Read Tree ts.length)) := do
  match eat? (·.isSymbol ";") ts with
  | some semicolon => return some (semicolon.map (.marked .expStmt · []))
  | none =>
    match ← expression ts with
    | none => return none
    | some value =>
      let semicolon ← expectSymbol ";" value.rest
      return some ((value.andThen semicolon).map (.marked .expStmt · [value.value]))

def returnTail (keyword : Token) (ts : List Token) : Memoized (Read Tree ts.length) := do
  match eat? (·.isSymbol ";") ts with
  | some semicolon => return semicolon.map fun _ => .marked .returnStmt keyword []
  | none =>
    let value ← required .expression ts (expression ts)
    let semicolon ← expectSymbol ";" value.rest
    return (value.andThen semicolon).map fun _ => .marked .returnStmt keyword [value.value]

mutual

def statement (ts : List Token) : Memoized (Option (Read Tree ts.length)) :=
  match ts with
  | [] => return none
  | first :: rest => do
    if first.isSymbol "\x7b" then
      let body ← blockTail first rest
      return some body.cons
    else if first.isKeyword "if" then
      let condition ← required .condition rest (simpleExpression rest)
      let word ← expectKeyword "then" condition.rest
      let yes ← required .statement word.rest (statement word.rest)
      let no ← elseBranch yes.rest
      return some ((condition.andThen (word.andThen (yes.andMaybe no))).map
        fun other => .marked .ifStmt first (condition.value :: yes.value :: other)).cons
    else if first.isKeyword "while" then
      let condition ← required .condition rest (simpleExpression rest)
      let word ← expectKeyword "do" condition.rest
      let body ← required .statement word.rest (statement word.rest)
      return some ((condition.andThen (word.andThen body)).map
        fun t => .marked .whileStmt first [condition.value, t]).cons
    else if first.isKeyword "for" then
      let name ← expectIdentifier rest
      let equals ← expect (.text "=") (·.isOperator ["="]) name.rest
      let bounds ← range equals.rest
      let word ← expectKeyword "do" bounds.rest
      let body ← required .statement word.rest (statement word.rest)
      return some ((name.andThen (equals.andThen (bounds.andThen (word.andThen body)))).map
        fun t => .marked .forStmt name.value [bounds.value, t]).cons
    else if first.isKeyword "return" then
      let tail ← returnTail first rest
      return some tail.cons
    else if first.isKeyword "break" then
      let semicolon ← expectSymbol ";" rest
      return some (semicolon.map fun _ => .marked .breakStmt first []).cons
    else expressionStatement (first :: rest)
termination_by 4 * ts.length
decreasing_by all_goals grind

def elseBranch (ts : List Token) : Memoized (Read (List Tree) (ts.length + 1)) := do
  match eat? (·.isKeyword "else") ts with
  | none => return .nothing [] ts
  | some word =>
    let no ← required .statement word.rest (statement word.rest)
    return ((word.andThen no).map ([·])).maybe
termination_by 4 * ts.length
decreasing_by all_goals grind

def blockTail (brace : Token) (ts : List Token) : Memoized (Read Tree ts.length) := do
  let declarations ← localDeclarations ts
  let body ← statements declarations.rest
  return (declarations.maybeThen body).map
    fun items => .marked .compoundStmt brace (declarations.value ++ items)
termination_by 4 * ts.length + 2
decreasing_by all_goals grind

def statements (ts : List Token) : Memoized (Read (List Tree) ts.length) :=
  match ts with
  | [] => throw ⟨.text "\x7d", none⟩
  | first :: rest => do
    if first.isSymbol "\x7d" then
      return .nothing [] rest
    else
      let next ← required .statement (first :: rest) (statement (first :: rest))
      let more ← statements next.rest
      return (next.andThen more).map (next.value :: ·)
termination_by 4 * ts.length + 1
decreasing_by all_goals grind

end

def block (ts : List Token) : Memoized (Option (Read Tree ts.length)) := do
  match eat? (·.isSymbol "\x7b") ts with
  | none => return none
  | some brace =>
    let tail ← blockTail brace.value brace.rest
    return some (brace.andThen tail)

/-! Whole sources, read from an empty memo. -/

def functionTail (result : List Tree) (ts : List Token) : Memoized (Read Tree ts.length) := do
  let name ← expectIdentifier ts
  let paren ← expectSymbol "(" name.rest
  let parms ← parameters paren.rest
  let close ← expectSymbol ")" parms.rest
  let body ← required (.text "\x7b") close.rest (block close.rest)
  return (name.andThen (paren.andThen (parms.maybeThen (close.andThen body)))).map
    fun block => .marked .funDecl name.value (result ++ [parms.value, block])

def declaration (ts : List Token) : Memoized (Option (Read Tree ts.length)) := do
  match eat? isTypeName ts with
  | some type =>
    if startsCall type.rest then
      let tail ← functionTail [.marked .typeSpec type.value []] type.rest
      return some (type.andThen tail)
    else
      varDeclaration ts
  | none =>
    if startsCall ts then
      let tail ← functionTail [] ts
      return some tail
    else
      return none

def declarations (ts : List Token) : Memoized (List Tree) := do
  if ts.isEmpty then
    return []
  else
    let first ← required .declaration ts (declaration ts)
    let more ← declarations first.rest
    return first.value :: more
termination_by ts.length
decreasing_by grind

def program (ts : List Token) : Memoized Tree := do
  match ← declarations ts with
  | [] => throw ⟨.declaration, none⟩
  | list => return .inner .program list

def parse (source : String) : Except Diagnostic Tree :=
  match program (tokenize source) none with
  | .ok (tree, _) => .ok tree
  | .error u => .error (u.diagnostic (lastLine source))

end Memo

end StackCompiler.Grammar
