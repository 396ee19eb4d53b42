import StackCompiler.Grammar.Expression

/-!
Declarations of variables and the parameters of functions.

    declaration := [static] type declarator ("," declarator)* ";"
    declarator  := name ["[" number "]"] [":" simple expression]
    parameters  := [group (";" group)*]
    group       := type parameter ("," parameter)*
    parameter   := name ["[" "]"]
-/

set_option autoImplicit false
namespace StackCompiler.Grammar

def isTypeName (t : Token) : Bool :=
  t.kind == .keyword && ["int", "bool", "char", "string"].contains t.lexeme

variable (reuse : Bool)

def declaredName (ts : List Token) : Except Unexpected (Read Tree ts.length) := do
  let name ← expectIdentifier ts
  match eat? (·.isSymbol "[") name.rest with
  | none => return name.map (.marked .varDeclId · [])
  | some bracket =>
    let length ← expect .arrayLength (·.kind == .number) bracket.rest
    let close ← expectSymbol "]" length.rest
    return (name.andThen (bracket.andThen (length.andThen close))).map
      fun _ => .marked .varDeclId name.value [.marked .constant length.value []]

def declarator (ts : List Token) : Except Unexpected (Read Tree ts.length) := do
  let name ← declaredName ts
  match eat? (·.isSymbol ":") name.rest with
  | none => return name.map fun id => .inner .varDeclInit [id]
  | some colon =>
    let init ← required .initializer colon.rest (simpleExpression reuse colon.rest)
    return (name.andThen (colon.andThen init)).map fun t => .inner .varDeclInit [name.value, t]

def declarators (ts : List Token) : Except Unexpected (Read (List Tree) ts.length) := do
  let first ← declarator reuse ts
  match eat? (·.isSymbol ",") first.rest with
  | some comma =>
    let more ← declarators comma.rest
    return (first.andThen (comma.andThen more)).map (first.value :: ·)
  | none =>
    let close ← expectSymbol ";" first.rest
    return (first.andThen close).map fun _ => [first.value]
termination_by ts.length
decreasing_by grind

def varDeclaration (ts : List Token) : Outcome ts.length := do
  match eat? isTypeName ts with
  | none => return none
  | some type =>
    let list ← declarators reuse type.rest
    return some ((type.andThen list).map
      fun inits => .inner .varDecl (.marked .typeSpec type.value [] :: inits))

def localDeclaration (ts : List Token) : Outcome ts.length := do
  match eat? (·.isKeyword "static") ts with
  | none => varDeclaration reuse ts
  | some static =>
    let type ← expect .typeName isTypeName static.rest
    let list ← declarators reuse type.rest
    return some ((static.andThen (type.andThen list)).map fun inits =>
      .inner .varDecl (.marked .static static.value [] :: .marked .typeSpec type.value [] :: inits))

def localDeclarations (ts : List Token) :
    Except Unexpected (Read (List Tree) (ts.length + 1)) := do
  match ← localDeclaration reuse ts with
  | none => return .nothing [] ts
  | some first =>
    let more ← localDeclarations first.rest
    return ((first.andMaybe more).map (first.value :: ·)).maybe
termination_by ts.length
decreasing_by grind

def parameter (ts : List Token) : Except Unexpected (Read Tree ts.length) := do
  let name ← expectIdentifier ts
  match eat? (·.isSymbol "[") name.rest with
  | none => return name.map (.marked .parmId · [])
  | some bracket =>
    let close ← expectSymbol "]" bracket.rest
    return (name.andThen (bracket.andThen close)).map
      fun _ => .marked .parmId name.value [.marked .arrayMarker bracket.value []]

def parameterList (ts : List Token) : Except Unexpected (Read (List Tree) ts.length) := do
  let first ← parameter ts
  match eat? (·.isSymbol ",") first.rest with
  | none => return first.map ([·])
  | some comma =>
    let more ← parameterList comma.rest
    return (first.andThen (comma.andThen more)).map (first.value :: ·)
termination_by ts.length
decreasing_by grind

def parameterGroup (ts : List Token) : Except Unexpected (Read Tree ts.length) := do
  let type ← expect .parameterType isTypeName ts
  let names ← parameterList type.rest
  return (type.andThen names).map
    fun ids => .inner .parmTypeList (.marked .typeSpec type.value [] :: ids)

def parameterGroups (ts : List Token) : Except Unexpected (Read (List Tree) ts.length) := do
  let first ← parameterGroup ts
  match eat? (·.isSymbol ";") first.rest with
  | none => return first.map ([·])
  | some semicolon =>
    let more ← parameterGroups semicolon.rest
    return (first.andThen (semicolon.andThen more)).map (first.value :: ·)
termination_by ts.length
decreasing_by grind

def parameters (ts : List Token) : Except Unexpected (Read Tree (ts.length + 1)) := do
  match eat? (·.isSymbol ")") ts with
  | some _ => return .nothing (.inner .parms []) ts
  | none =>
    let groups ← parameterGroups ts
    return (groups.map (.inner .parms)).maybe

end StackCompiler.Grammar
