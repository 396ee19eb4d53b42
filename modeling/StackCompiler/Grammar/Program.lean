import StackCompiler.Grammar.Statement
import StackCompiler.Token.Cursor

/-!
Whole sources: one or more declarations of variables and functions.

    program  := (declaration | function)+
    function := [type] name "(" parameters ")" block
-/

set_option autoImplicit false
namespace StackCompiler

namespace Grammar

variable (reuse : Bool)

def functionTail (result : List Tree) (ts : List Token) : Except Unexpected (Read Tree ts.length) := do
  let name ← expectIdentifier ts
  let paren ← expectSymbol "(" name.rest
  let parms ← parameters paren.rest
  let close ← expectSymbol ")" parms.rest
  let body ← required (.text "\x7b") close.rest (block reuse close.rest)
  return (name.andThen (paren.andThen (parms.maybeThen (close.andThen body)))).map
    fun block => .marked .funDecl name.value (result ++ [parms.value, block])

/-- An opening parenthesis behind the name marks a function. -/
def declaration (ts : List Token) : Outcome ts.length := do
  match eat? isTypeName ts with
  | some type =>
    if startsCall type.rest then
      let tail ← functionTail reuse [.marked .typeSpec type.value []] type.rest
      return some (type.andThen tail)
    else
      varDeclaration reuse ts
  | none =>
    if startsCall ts then
      let tail ← functionTail reuse [] ts
      return some tail
    else
      return none

def declarations (ts : List Token) : Except Unexpected (List Tree) := do
  if ts.isEmpty then
    return []
  else
    let first ← required .declaration ts (declaration reuse ts)
    let more ← declarations first.rest
    return first.value :: more
termination_by ts.length
decreasing_by grind

def program (ts : List Token) : Except Unexpected Tree := do
  match ← declarations reuse ts with
  | [] => .error ⟨.declaration, none⟩
  | list => return .inner .program list

end Grammar

/-- The number of the last line of a source; an empty source counts as one line. -/
def lastLine (source : String) : Nat :=
  match (Text.lines source.toList).length with
  | 0 => 1
  | count => count

/-- The tree of a source, read with or without `reuse` of locations. -/
def parseWith (reuse : Bool) (source : String) : Except Diagnostic Tree :=
  match Grammar.program reuse (tokenize source) with
  | .ok tree => .ok tree
  | .error u => .error (u.diagnostic (lastLine source))

def parse (source : String) : Except Diagnostic Tree :=
  parseWith true source

end StackCompiler
