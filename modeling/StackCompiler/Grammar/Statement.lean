import StackCompiler.Grammar.Declaration

/-!
Statements. Every statement but an expression statement shows its form by its first token; an `else`
belongs to the nearest `if` that has none.

    statement := block | ";" | expression ";" | return [expression] ";" | break ";"
               | if simple-expression then statement [else statement]
               | while simple-expression do statement
               | for name = simple-expression [to simple-expression [by simple-expression]] do statement
    block     := opening brace, declaration*, statement*, closing brace
-/

set_option autoImplicit false
namespace StackCompiler.Grammar

variable (reuse : Bool)

def rangeStep (ts : List Token) : Except Unexpected (Read (List Tree) (ts.length + 1)) := do
  match eat? (·.isKeyword "by") ts with
  | none => return .nothing [] ts
  | some word =>
    let step ← required .rangeStep word.rest (simpleExpression reuse word.rest)
    return ((word.andThen step).map ([·])).maybe

def rangeEnd (ts : List Token) : Except Unexpected (Read (List Tree) (ts.length + 1)) := do
  match eat? (·.isKeyword "to") ts with
  | none => return .nothing [] ts
  | some word =>
    let stop ← required .rangeEnd word.rest (simpleExpression reuse word.rest)
    let step ← rangeStep reuse stop.rest
    return ((word.andThen (stop.andMaybe step)).map (stop.value :: ·)).maybe

def range (ts : List Token) : Except Unexpected (Read Tree ts.length) := do
  let start ← required .rangeStart ts (simpleExpression reuse ts)
  let more ← rangeEnd reuse start.rest
  return (start.andMaybe more).map fun bounds => .inner .iterRange (start.value :: bounds)

def expressionStatement (ts : List Token) : Outcome ts.length := do
  match eat? (·.isSymbol ";") ts with
  | some semicolon => return some (semicolon.map (.marked .expStmt · []))
  | none =>
    match ← expression reuse ts with
    | none => return none
    | some value =>
      let semicolon ← expectSymbol ";" value.rest
      return some ((value.andThen semicolon).map (.marked .expStmt · [value.value]))

def returnTail (keyword : Token) (ts : List Token) : Except Unexpected (Read Tree ts.length) := do
  match eat? (·.isSymbol ";") ts with
  | some semicolon => return semicolon.map fun _ => .marked .returnStmt keyword []
  | none =>
    let value ← required .expression ts (expression reuse ts)
    let semicolon ← expectSymbol ";" value.rest
    return (value.andThen semicolon).map fun _ => .marked .returnStmt keyword [value.value]

mutual

def statement (ts : List Token) : Outcome ts.length :=
  match ts with
  | [] => .ok none
  | first :: rest => do
    if first.isSymbol "\x7b" then
      let body ← blockTail first rest
      return some body.cons
    else if first.isKeyword "if" then
      let condition ← required .condition rest (simpleExpression reuse rest)
      let word ← expectKeyword "then" condition.rest
      let yes ← required .statement word.rest (statement word.rest)
      let no ← elseBranch yes.rest
      return some ((condition.andThen (word.andThen (yes.andMaybe no))).map
        fun other => .marked .ifStmt first (condition.value :: yes.value :: other)).cons
    else if first.isKeyword "while" then
      let condition ← required .condition rest (simpleExpression reuse rest)
      let word ← expectKeyword "do" condition.rest
      let body ← required .statement word.rest (statement word.rest)
      return some ((condition.andThen (word.andThen body)).map
        fun t => .marked .whileStmt first [condition.value, t]).cons
    else if first.isKeyword "for" then
      let name ← expectIdentifier rest
      let equals ← expect (.text "=") (·.isOperator ["="]) name.rest
      let bounds ← range reuse equals.rest
      let word ← expectKeyword "do" bounds.rest
      let body ← required .statement word.rest (statement word.rest)
      return some ((name.andThen (equals.andThen (bounds.andThen (word.andThen body)))).map
        fun t => .marked .forStmt name.value [bounds.value, t]).cons
    else if first.isKeyword "return" then
      let tail ← returnTail reuse first rest
      return some tail.cons
    else if first.isKeyword "break" then
      let semicolon ← expectSymbol ";" rest
      return some (semicolon.map fun _ => .marked .breakStmt first []).cons
    else expressionStatement reuse (first :: rest)
termination_by 4 * ts.length
decreasing_by all_goals grind

def elseBranch (ts : List Token) : Except Unexpected (Read (List Tree) (ts.length + 1)) := do
  match eat? (·.isKeyword "else") ts with
  | none => return .nothing [] ts
  | some word =>
    let no ← required .statement word.rest (statement word.rest)
    return ((word.andThen no).map ([·])).maybe
termination_by 4 * ts.length
decreasing_by all_goals grind

def blockTail (brace : Token) (ts : List Token) : Except Unexpected (Read Tree ts.length) := do
  let declarations ← localDeclarations reuse ts
  let body ← statements declarations.rest
  return (declarations.maybeThen body).map
    fun items => .marked .compoundStmt brace (declarations.value ++ items)
termination_by 4 * ts.length + 2
decreasing_by all_goals grind

def statements (ts : List Token) : Except Unexpected (Read (List Tree) ts.length) :=
  match ts with
  | [] => .error ⟨.text "\x7d", none⟩
  | first :: rest => do
    if first.isSymbol "\x7d" then
      return .nothing [] rest
    else
      let next ← required .statement (first :: rest) (statement (first :: rest))
      let more ← statements next.rest
      return (next.andThen more).map (next.value :: ·)
termination_by 4 * ts.length + 1
decreasing_by all_goals grind

end

def block (ts : List Token) : Outcome ts.length := do
  match eat? (·.isSymbol "\x7b") ts with
  | none => return none
  | some brace =>
    let tail ← blockTail reuse brace.value brace.rest
    return some (brace.andThen tail)

end StackCompiler.Grammar
