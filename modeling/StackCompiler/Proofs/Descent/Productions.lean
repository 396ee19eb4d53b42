import StackCompiler.Grammar.Program

/-!
The descent of the parser, call by call.

Here the productions share a stream and move it. An alternative that does not apply puts the stream back where
it was, and a location found in the memo moves it ahead. No production is defined by recursion. The body of each
is an activity that ends, fails, or asks for another production and goes on with whatever is answered, and a
loop asks for itself. A run need not exist: whether the parser ends is a question about these bodies.
-/

set_option autoImplicit false
namespace StackCompiler.Grammar.Descent

/-- A production yields a tree or declines, yields a tree, or yields a list of trees. -/
inductive Shape where
  | optional
  | single
  | list

@[reducible] def Shape.Result : Shape → Type
  | optional => Option Tree
  | single => Tree
  | list => List Tree

/-- The productions. The lists are the loops; asking for one again is their next round. -/
inductive Production : Shape → Type where
  | program : Production .single
  | declarations : Production .list
  | declaration : Production .optional
  | varDeclaration : Production .optional
  | localDeclaration : Production .optional
  | localDeclarations : Production .list
  | declarators : Production .list
  | declarator : Production .single
  | declaredName : Production .single
  | function : Production .optional
  | parameters : Production .single
  | parameterGroups : Production .list
  | parameterGroup : Production .single
  | parameterList : Production .list
  | statement : Production .optional
  | statements : Production .list
  | block : Production .optional
  | ifStatement : Production .optional
  | whileStatement : Production .optional
  | forStatement : Production .optional
  | returnStatement : Production .optional
  | breakStatement : Production .optional
  | expressionStatement : Production .optional
  | expression : Production .optional
  | assignment : Production .optional
  | chain (level : Level) : Production .optional
  | links (level : Level) : Production .list
  | negation : Production .optional
  | comparison : Production .optional
  | unary : Production .optional
  | factor : Production .optional
  | paren : Production .optional
  | call : Production .optional
  | argumentList : Production .list
  | constant : Production .optional
  | location : Production .optional

/-- The last location read, with the tokens at whose front it was read and those behind it. -/
structure Note where
  start : List Token
  tree : Tree
  behind : List Token

structure State where
  ahead : List Token
  memo : Option Note

/-- What a body does: it ends, fails, or asks for a production and goes on with the answer. -/
inductive Act (α : Type) where
  | done (result : α) (s : State)
  | fail (u : Unexpected)
  | ask {k : Shape} (p : Production k) (s : State) (next : k.Result → State → Act α)

def Act.bind {α β : Type} : Act α → (α → State → Act β) → Act β
  | done a s, f => f a s
  | fail u, _ => .fail u
  | ask p s next, f => .ask p s fun r s' => (next r s').bind f

def Body (α : Type) : Type :=
  State → Act α

instance : Monad Body where
  pure a := fun s => .done a s
  bind b f := fun s => (b s).bind f

/-! Steps of a body. -/

def perform {k : Shape} (p : Production k) : Body k.Result := fun s =>
  .ask p s .done

def upcoming : Body (List Token) := fun s =>
  .done s.ahead s

def eat? (p : Token → Bool) : Body (Option Token) := fun s =>
  match s.ahead with
  | [] => .done none s
  | t :: ts => if p t then .done (some t) { s with ahead := ts } else .done none s

def stop {α : Type} (e : Expectation) : Body α := fun s =>
  .fail ⟨e, s.ahead.head?⟩

def expect (e : Expectation) (p : Token → Bool) : Body Token := do
  match ← eat? p with
  | some t => return t
  | none => stop e

def expectSymbol (text : String) : Body Token :=
  expect (.text text) (·.isSymbol text)

def expectKeyword (word : String) : Body Token :=
  expect (.text word) (·.isKeyword word)

def expectIdentifier : Body Token :=
  expect .identifier Token.isIdentifier

def required (e : Expectation) (p : Production .optional) : Body Tree := do
  match ← perform p with
  | some t => return t
  | none => stop e

/-- Puts the stream back if the alternative does not apply. The memo stays as it was left. -/
def attempt {α : Type} (alternative : Body (Option α)) : Body (Option α) := fun s =>
  (alternative s).bind fun found s' =>
    match found with
    | some a => .done (some a) s'
    | none => .done none { s' with ahead := s.ahead }

def firstOf : List (Production .optional) → Body (Option Tree)
  | [] => pure none
  | p :: more => do
    match ← attempt (perform p) with
    | some t => return some t
    | none => firstOf more

def opening (p : Token → Bool) (rest : Token → Body Tree) : Body (Option Tree) := do
  match ← eat? p with
  | none => return none
  | some t =>
    let tree ← rest t
    return some tree

/-- Takes the memo out if it was left where the stream stands, and moves the stream behind it. -/
def remembered : Body (Option Tree) := fun s =>
  match s.memo with
  | none => .done none s
  | some note => if note.start = s.ahead then .done (some note.tree) ⟨note.behind, none⟩ else .done none s

def remember (start : List Token) (tree : Tree) : Body Unit := fun s =>
  .done () { s with memo := some ⟨start, tree, s.ahead⟩ }

/-! The bodies of the productions. -/

namespace Bodies

def program : Body Tree := do
  match ← perform .declarations with
  | [] => stop .declaration
  | list => return .inner .program list

def declarations : Body (List Tree) := do
  match ← upcoming with
  | [] => return []
  | _ =>
    let first ← required .declaration .declaration
    let more ← perform .declarations
    return first :: more

/-- A `(` behind the name marks a function. -/
def declaration : Body (Option Tree) := do
  match ← upcoming with
  | [] => return none
  | type :: ts =>
    if isTypeName type then
      if startsCall ts then perform .function else perform .varDeclaration
    else if startsCall (type :: ts) then perform .function
    else return none

def declarationTail (type : Token) : Body Tree := do
  let inits ← perform .declarators
  return .inner .varDecl (.marked .typeSpec type [] :: inits)

def staticTail (static : Token) : Body Tree := do
  let type ← expect .typeName isTypeName
  let inits ← perform .declarators
  return .inner .varDecl (.marked .static static [] :: .marked .typeSpec type [] :: inits)

def varDeclaration : Body (Option Tree) :=
  attempt (opening isTypeName declarationTail)

def localDeclaration : Body (Option Tree) :=
  attempt do
    match ← eat? (·.isKeyword "static") with
    | some static =>
      let tree ← staticTail static
      return some tree
    | none => opening isTypeName declarationTail

def localDeclarations : Body (List Tree) := do
  match ← perform .localDeclaration with
  | none => return []
  | some first =>
    let more ← perform .localDeclarations
    return first :: more

def declarators : Body (List Tree) := do
  let first ← perform .declarator
  match ← eat? (·.isSymbol ",") with
  | some _ =>
    let more ← perform .declarators
    return first :: more
  | none =>
    let _ ← expectSymbol ";"
    return [first]

def declarator : Body Tree := do
  let name ← perform .declaredName
  match ← eat? (·.isSymbol ":") with
  | none => return .inner .varDeclInit [name]
  | some _ =>
    let init ← required .initializer (.chain .or)
    return .inner .varDeclInit [name, init]

def declaredName : Body Tree := do
  let name ← expectIdentifier
  match ← eat? (·.isSymbol "[") with
  | none => return .marked .varDeclId name []
  | some _ =>
    let length ← expect .arrayLength (·.kind == .number)
    let _ ← expectSymbol "]"
    return .marked .varDeclId name [.marked .constant length []]

def functionTail (result : List Tree) (name : Token) : Body Tree := do
  let parms ← perform .parameters
  let _ ← expectSymbol ")"
  let block ← required (.text "\x7b") .block
  return .marked .funDecl name (result ++ [parms, block])

def functionBehind (result : List Tree) : Body (Option Tree) := do
  match ← eat? Token.isIdentifier with
  | none => return none
  | some name =>
    match ← eat? (·.isSymbol "(") with
    | none => return none
    | some _ =>
      let tree ← functionTail result name
      return some tree

def function : Body (Option Tree) :=
  attempt do
    match ← eat? isTypeName with
    | some type => functionBehind [.marked .typeSpec type []]
    | none => functionBehind []

def parameters : Body Tree := do
  match (← upcoming).head?.any (·.isSymbol ")") with
  | true => return .inner .parms []
  | false =>
    let groups ← perform .parameterGroups
    return .inner .parms groups

def parameterGroups : Body (List Tree) := do
  let first ← perform .parameterGroup
  match ← eat? (·.isSymbol ";") with
  | none => return [first]
  | some _ =>
    let more ← perform .parameterGroups
    return first :: more

def parameterGroup : Body Tree := do
  let type ← expect .parameterType isTypeName
  let names ← perform .parameterList
  return .inner .parmTypeList (.marked .typeSpec type [] :: names)

def parameter : Body Tree := do
  let name ← expectIdentifier
  match ← eat? (·.isSymbol "[") with
  | none => return .marked .parmId name []
  | some bracket =>
    let _ ← expectSymbol "]"
    return .marked .parmId name [.marked .arrayMarker bracket []]

def parameterList : Body (List Tree) := do
  let first ← parameter
  match ← eat? (·.isSymbol ",") with
  | none => return [first]
  | some _ =>
    let more ← perform .parameterList
    return first :: more

def statement : Body (Option Tree) :=
  firstOf [.block, .ifStatement, .whileStatement, .forStatement, .returnStatement, .breakStatement,
    .expressionStatement]

/-- Statements up to the closing brace; the end of input is missed as that brace. -/
def statements : Body (List Tree) := do
  match ← eat? (·.isSymbol "\x7d") with
  | some _ => return []
  | none =>
    match ← upcoming with
    | [] => stop (.text "\x7d")
    | _ =>
      let next ← required .statement .statement
      let more ← perform .statements
      return next :: more

def blockTail (brace : Token) : Body Tree := do
  let declarations ← perform .localDeclarations
  let statements ← perform .statements
  return .marked .compoundStmt brace (declarations ++ statements)

def block : Body (Option Tree) :=
  opening (·.isSymbol "\x7b") blockTail

def elseBranch : Body (List Tree) := do
  match ← eat? (·.isKeyword "else") with
  | none => return []
  | some _ =>
    let no ← required .statement .statement
    return [no]

def ifTail (word : Token) : Body Tree := do
  let condition ← required .condition (.chain .or)
  let _ ← expectKeyword "then"
  let yes ← required .statement .statement
  let no ← elseBranch
  return .marked .ifStmt word (condition :: yes :: no)

def ifStatement : Body (Option Tree) :=
  opening (·.isKeyword "if") ifTail

def whileTail (word : Token) : Body Tree := do
  let condition ← required .condition (.chain .or)
  let _ ← expectKeyword "do"
  let body ← required .statement .statement
  return .marked .whileStmt word [condition, body]

def whileStatement : Body (Option Tree) :=
  opening (·.isKeyword "while") whileTail

def rangeStep : Body (List Tree) := do
  match ← eat? (·.isKeyword "by") with
  | none => return []
  | some _ =>
    let step ← required .rangeStep (.chain .or)
    return [step]

def rangeEnd : Body (List Tree) := do
  match ← eat? (·.isKeyword "to") with
  | none => return []
  | some _ =>
    let stop ← required .rangeEnd (.chain .or)
    let step ← rangeStep
    return stop :: step

def range : Body Tree := do
  let start ← required .rangeStart (.chain .or)
  let more ← rangeEnd
  return .inner .iterRange (start :: more)

def forTail (_word : Token) : Body Tree := do
  let name ← expectIdentifier
  let _ ← expect (.text "=") (·.isOperator ["="])
  let bounds ← range
  let _ ← expectKeyword "do"
  let body ← required .statement .statement
  return .marked .forStmt name [bounds, body]

def forStatement : Body (Option Tree) :=
  opening (·.isKeyword "for") forTail

def returnTail (word : Token) : Body Tree := do
  match ← eat? (·.isSymbol ";") with
  | some _ => return .marked .returnStmt word []
  | none =>
    let value ← required .expression .expression
    let _ ← expectSymbol ";"
    return .marked .returnStmt word [value]

def returnStatement : Body (Option Tree) :=
  opening (·.isKeyword "return") returnTail

def breakTail (word : Token) : Body Tree := do
  let _ ← expectSymbol ";"
  return .marked .breakStmt word []

def breakStatement : Body (Option Tree) :=
  opening (·.isKeyword "break") breakTail

def expressionStatement : Body (Option Tree) := do
  match ← eat? (·.isSymbol ";") with
  | some semicolon => return some (.marked .expStmt semicolon [])
  | none =>
    match ← perform .expression with
    | none => return none
    | some value =>
      let semicolon ← expectSymbol ";"
      return some (.marked .expStmt semicolon [value])

def expression : Body (Option Tree) :=
  firstOf [.assignment, .chain .or]

def assignmentTail (target : Tree) : Body (Option Tree) := do
  match ← eat? isAssignment with
  | some op =>
    let value ← required .expression .expression
    return some (.marked .assign op [target, value])
  | none =>
    match ← eat? isStep with
    | some op => return some (.marked .incDec op [target])
    | none => return none

def assignment : Body (Option Tree) :=
  attempt do
    match ← perform .location with
    | none => return none
    | some target => assignmentTail target

def operand : Level → Production .optional
  | .or => .chain .and
  | .and => .negation
  | .minMax => .chain .sum
  | .sum => .chain .mul
  | .mul => .unary

def chain (level : Level) : Body (Option Tree) :=
  attempt do
    match ← perform (operand level) with
    | none => return none
    | some first =>
      let more ← perform (.links level)
      return some (level.chainTree first more)

def links (level : Level) : Body (List Tree) := do
  match ← eat? level.accepts with
  | none => return []
  | some op =>
    let next ← required (.operandAfter op.lexeme) (operand level)
    let more ← perform (.links level)
    return .marked .operator op [] :: next :: more

def negation : Body (Option Tree) := do
  match ← eat? isNegation with
  | none => perform .comparison
  | some op =>
    let inner ← required (.operandAfter "not") .negation
    return some (.marked .notExp op [inner])

def comparison : Body (Option Tree) :=
  attempt do
    match ← perform (.chain .minMax) with
    | none => return none
    | some left =>
      match ← eat? isRelational with
      | none => return some left
      | some op =>
        let right ← required (.operandAfter op.lexeme) (.chain .minMax)
        return some (.inner .relExp [left, .marked .operator op [], right])

def unary : Body (Option Tree) := do
  match ← eat? isUnary with
  | none => perform .factor
  | some op =>
    let inner ← required (.operandAfter op.lexeme) .unary
    return some (.marked .unaryExp op [inner])

def factor : Body (Option Tree) :=
  firstOf [.paren, .call, .constant, .location]

def parenTail (paren : Token) : Body Tree := do
  let inner ← required .expression .expression
  let _ ← expectSymbol ")"
  return .marked .paren paren [inner]

def paren : Body (Option Tree) :=
  opening (·.isSymbol "(") parenTail

def arguments : Body (List Tree) := do
  match ← eat? (·.isSymbol ")") with
  | some _ => return []
  | none => perform .argumentList

def callTail : Body Tree := do
  let name ← expectIdentifier
  let _ ← expectSymbol "("
  let args ← arguments
  return .marked .call name args

def call : Body (Option Tree) := do
  match startsCall (← upcoming) with
  | false => return none
  | true =>
    let tree ← callTail
    return some tree

def argumentList : Body (List Tree) := do
  let first ← required .argument .expression
  match ← eat? (·.isSymbol ",") with
  | some _ =>
    let more ← perform .argumentList
    return first :: more
  | none =>
    let _ ← expectSymbol ")"
    return [first]

def constant : Body (Option Tree) :=
  opening isConstant fun t => pure (.marked .constant t [])

def locationTail (name : Token) : Body Tree := do
  match ← eat? (·.isSymbol "[") with
  | none => return .marked .mutable name []
  | some _ =>
    let index ← required .index .expression
    let _ ← expectSymbol "]"
    return .marked .mutable name [index]

def freshLocation (start : List Token) : Body (Option Tree) :=
  opening Token.isIdentifier fun name => do
    let tree ← locationTail name
    remember start tree
    return tree

def location : Body (Option Tree) := do
  match ← remembered with
  | some tree => return some tree
  | none => freshLocation (← upcoming)

end Bodies

def body : {k : Shape} → Production k → Body k.Result
  | _, .program => Bodies.program
  | _, .declarations => Bodies.declarations
  | _, .declaration => Bodies.declaration
  | _, .varDeclaration => Bodies.varDeclaration
  | _, .localDeclaration => Bodies.localDeclaration
  | _, .localDeclarations => Bodies.localDeclarations
  | _, .declarators => Bodies.declarators
  | _, .declarator => Bodies.declarator
  | _, .declaredName => Bodies.declaredName
  | _, .function => Bodies.function
  | _, .parameters => Bodies.parameters
  | _, .parameterGroups => Bodies.parameterGroups
  | _, .parameterGroup => Bodies.parameterGroup
  | _, .parameterList => Bodies.parameterList
  | _, .statement => Bodies.statement
  | _, .statements => Bodies.statements
  | _, .block => Bodies.block
  | _, .ifStatement => Bodies.ifStatement
  | _, .whileStatement => Bodies.whileStatement
  | _, .forStatement => Bodies.forStatement
  | _, .returnStatement => Bodies.returnStatement
  | _, .breakStatement => Bodies.breakStatement
  | _, .expressionStatement => Bodies.expressionStatement
  | _, .expression => Bodies.expression
  | _, .assignment => Bodies.assignment
  | _, .chain level => Bodies.chain level
  | _, .links level => Bodies.links level
  | _, .negation => Bodies.negation
  | _, .comparison => Bodies.comparison
  | _, .unary => Bodies.unary
  | _, .factor => Bodies.factor
  | _, .paren => Bodies.paren
  | _, .call => Bodies.call
  | _, .argumentList => Bodies.argumentList
  | _, .constant => Bodies.constant
  | _, .location => Bodies.location

/-! Runs, which need not exist, and the calls made on the way. -/

/-- The activity ends, with its result and the state it leaves or with a failure. What it asks for is
answered by a run of the body asked for. -/
inductive Runs : {α : Type} → Act α → Except Unexpected (α × State) → Prop where
  | done {α : Type} (a : α) (s : State) : Runs (.done a s) (.ok (a, s))
  | fail {α : Type} (u : Unexpected) : Runs (.fail u : Act α) (.error u)
  | answered {α : Type} {k : Shape} {p : Production k} {s s' : State} {r : k.Result}
      {next : k.Result → State → Act α} {outcome : Except Unexpected (α × State)}
      (asked : Runs (body p s) (.ok (r, s'))) (onwards : Runs (next r s') outcome) :
      Runs (.ask p s next) outcome
  | failed {α : Type} {k : Shape} {p : Production k} {s : State} {u : Unexpected}
      {next : k.Result → State → Act α} (asked : Runs (body p s) (.error u)) :
      Runs (.ask p s next) (.error u)

structure Visit where
  shape : Shape
  production : Production shape
  state : State

/-- The activity asks for a production, at once or behind the answers it gets before. -/
inductive Asks {α : Type} : Act α → Visit → Prop where
  | here {k : Shape} {p : Production k} {s : State} {next : k.Result → State → Act α} :
      Asks (.ask p s next) ⟨k, p, s⟩
  | later {k : Shape} {p : Production k} {s s' : State} {r : k.Result} {next : k.Result → State → Act α}
      {v : Visit} (asked : Runs (body p s) (.ok (r, s'))) (onwards : Asks (next r s') v) :
      Asks (.ask p s next) v

namespace Visit

def start {k : Shape} (p : Production k) (source : String) : Visit :=
  ⟨k, p, ⟨tokenize source, none⟩⟩

def Returns (v : Visit) (outcome : Except Unexpected (v.shape.Result × State)) : Prop :=
  Runs (body v.production v.state) outcome

/-- One production calls another, or a loop goes into its next round. -/
def Calls (v w : Visit) : Prop :=
  Asks (body v.production v.state) w

inductive Reaches (v : Visit) : Visit → Prop where
  | start : Reaches v v
  | call {w x : Visit} (before : Reaches v w) (calls : w.Calls x) : Reaches v x

end Visit

/-- The order of the productions that start at one place: each calls only lower ones there. -/
def Production.rank : {k : Shape} → Production k → Nat
  | _, .program => 3
  | _, .declarations => 2
  | _, .declaration => 1
  | _, .localDeclarations => 1
  | _, .declarators => 2
  | _, .declarator => 1
  | _, .parameters => 2
  | _, .parameterGroups => 1
  | _, .statements => 13
  | _, .statement => 12
  | _, .expressionStatement => 11
  | _, .argumentList => 11
  | _, .expression => 10
  | _, .assignment => 1
  | _, .chain .or => 9
  | _, .chain .and => 8
  | _, .negation => 7
  | _, .comparison => 6
  | _, .chain .minMax => 5
  | _, .chain .sum => 4
  | _, .chain .mul => 3
  | _, .unary => 2
  | _, .factor => 1
  | _, _ => 0

def measure {k : Shape} (p : Production k) (ahead : List Token) : Nat :=
  16 * ahead.length + p.rank

def Visit.measure (v : Visit) : Nat :=
  Descent.measure v.production v.state.ahead

/-- An activity has no more than one outcome. -/
theorem Runs.unique {α : Type} {act : Act α} {first second : Except Unexpected (α × State)}
    (h : Runs act first) (h' : Runs act second) : first = second := by
  induction h with
  | done a s => cases h'; rfl
  | fail u => cases h'; rfl
  | answered asked onwards ihAsked ihOnwards =>
    cases h' with
    | answered asked' onwards' =>
      obtain ⟨rfl, rfl⟩ := Prod.mk.inj (Except.ok.inj (ihAsked asked'))
      exact ihOnwards onwards'
    | failed asked' => cases ihAsked asked'
  | failed asked ih =>
    cases h' with
    | answered asked' onwards' => cases ih asked'
    | failed asked' =>
      cases ih asked'
      rfl

end StackCompiler.Grammar.Descent
