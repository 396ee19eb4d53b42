import StackCompiler.Lowering.Declaration

/-!
Statements to code with labels and jumps. Labels are numbered from zero in every function body, and on
their own in the code that sets up static variables.
-/

set_option autoImplicit false
namespace StackCompiler.Lowering

/-- Code under construction, with the first label that it does not use yet. -/
structure Segment where
  code : Code
  nextLabel : Label
  deriving DecidableEq, Inhabited

namespace Segment

def empty : Segment :=
  ⟨[], 0⟩

def append (s : Segment) (setup : Setup) : Segment :=
  ⟨s.code ++ setup.code s.nextLabel, s.nextLabel + setup.labels⟩

end Segment

/-- The open scopes, the setup of static variables so far, and the next label of the function body. -/
structure BodyState where
  scopes : ScopeChain
  staticInit : Segment
  nextLabel : Label
  deriving DecidableEq, Inhabited

/-- Computations in a function body. As with scopes, a failure keeps the state reached. -/
abbrev BodyM := EStateM Diagnostic BodyState

instance : MonadLift ScopeM BodyM where
  monadLift m s :=
    match m s.scopes with
    | .ok a scopes => .ok a { s with scopes }
    | .error e scopes => .error e { s with scopes }

/-- Runs in a scope of its own, which is left also after a failure. -/
def inScope {α : Type} (kind : ScopeKind) (m : BodyM α) : BodyM α := fun s =>
  match m { s with scopes := s.scopes.enter kind } with
  | .ok a s' => .ok a { s' with scopes := s'.scopes.exit s.scopes.depth }
  | .error e s' => .error e { s' with scopes := s'.scopes.exit s.scopes.depth }

def freshLabels (n : Nat) : BodyM Label :=
  modifyGet fun s => (s.nextLabel, { s with nextLabel := s.nextLabel + n })

/-- Where a statement stands: the result type of its function, and the label behind the innermost loop
around it. -/
structure Context where
  result : Ty
  loopExit : Option Label
  deriving DecidableEq, Inhabited

/-- Adds the setup of a variable to the code it belongs to: static variables are set up before any
function runs, others where they are declared. -/
def install (storage : Storage) (setup : Setup) : BodyM Code := do
  if storage = .static then
    modify fun s => { s with staticInit := s.staticInit.append setup }
    return []
  else
    let label ← freshLabels setup.labels
    return setup.code label

variable (table : FunctionTable)

def declarators (base : Ty) (storage : Storage) (hoisted : Bool) : List Tree → BodyM Code
  | [] => return []
  | node :: rest => do
    let setup ← declarator table base storage hoisted node
    let code ← install storage setup
    let more ← declarators base storage hoisted rest
    return code ++ more

/-- A declaration; what it yields is the code that runs in its place. -/
def declaration (node : Tree) : BodyM Code := do
  let depth := (← get).scopes.depth
  let storage := storageOf depth node
  let base ← baseType node
  declarators table base storage (storage = .static && depth ≠ 1)
    (node.children.filter fun c => c.tag == .varDeclInit)

def valueOf (ty : Ty) (t : Tree) : ScopeM Code := do
  let typed ← expression table t
  expectValue typed.ty ty t.line
  return typed.code

/-- A value that an expression statement leaves is dropped; an assignment leaves none. -/
def expressionStatement : List Tree → ScopeM Code
  | [] => return []
  | t :: _ =>
    match t.tag with
    | .assign => return (← assignment table t false t.children).code
    | .incDec => return (← step table t false t.children).code
    | _ => do
      let typed ← expression table t
      match typed.ty with
      | .operator | .value .void => return typed.code
      | .value _ => return typed.code ++ [.pop]

def returnStatement (t : Tree) (result : Ty) : List Tree → ScopeM Code
  | [] => do
    require (result = .void) (.typeMismatch result.name Ty.void.name t.line)
    return [.return]
  | value :: _ => do
    let typed ← expression table value
    expectValue typed.ty result t.line
    return typed.code ++ [.return]

def valueOf? (ty : Ty) : Option Tree → ScopeM (Option Code)
  | none => return none
  | some t => some <$> valueOf table ty t

/-- The head of a `for` statement: the code that sets counter, bound and step, and what the loop needs
of them. -/
structure Range where
  counter : Place
  bound : Place
  step : Instr
  code : Code
  deriving DecidableEq, Inhabited

/-- Start, end and step are evaluated in this order, once each. Without an end the bound is the start,
without a step it is one. -/
def range (counter : Place) (bounds : Tree) : ScopeM Range := do
  let start ← valueOf table .int (← bounds.child 0)
  let stop ← valueOf? table .int bounds.children[1]?
  let step ← valueOf? table .int bounds.children[2]?
  let bound ← reserveTemp .int
  let code := match stop with
    | some stop => start ++ .store counter :: stop ++ [.store bound]
    | none => start ++ [.dup, .store bound, .store counter]
  match step with
  | none => return ⟨counter, bound, .pushInt 1, code⟩
  | some step =>
    let temp ← reserveTemp .int
    return ⟨counter, bound, .load temp, code ++ step ++ [.store temp]⟩

def counterOf (t : Tree) : ScopeM Place := do
  let symbol ← resolve t
  expectType symbol.ty .int t.line
  return symbol.place

/-- A loop jumps to its test first. The three labels from `label` on stand before the body, before the
test and behind the loop; `advance` runs between body and test. -/
def loopCode (label : Label) (body advance test : Code) : Code :=
  [.jump (label + 1), .label label] ++ body ++ advance ++ .label (label + 1) :: test
    ++ [.jumpIfTrue label, .label (label + 2)]

def Range.advance (r : Range) : Code :=
  [.load r.counter, r.step, .add, .store r.counter]

def Range.test (r : Range) : Code :=
  [.load r.counter, .load r.bound, .le]

mutual

def statement (ctx : Context) : Tree → BodyM Code
  | ⟨tag, token, children⟩ =>
    let t : Tree := ⟨tag, token, children⟩
    match tag with
    | .compoundStmt => inScope .block (blockItems ctx children)
    | .expStmt => expressionStatement table children
    | .ifStmt => ifStatement ctx t children
    | .whileStmt => whileStatement ctx t children
    | .forStmt => forStatement ctx t children
    | .returnStmt => returnStatement table t ctx.result children
    | .breakStmt =>
      match ctx.loopExit with
      | some exit => return [.jump exit]
      | none => throw (.breakOutsideLoop t.line)
    | other => throw (t.malformed s!"{other.name} is not a statement")
termination_by structural t => t

def blockItems (ctx : Context) : List Tree → BodyM Code
  | [] => return []
  | item :: rest => do
    let code ← if item.tag = .varDecl then declaration table item else statement ctx item
    let more ← blockItems ctx rest
    return code ++ more
termination_by structural children => children

def ifStatement (ctx : Context) (t : Tree) : List Tree → BodyM Code
  | [] => throw (t.missing 0)
  | test :: rest => do
    let condition ← valueOf table .bool test
    match rest with
    | [] => throw (t.missing 1)
    | [yes] =>
      let done ← freshLabels 1
      let yes ← statement ctx yes
      return condition ++ .jumpIfFalse done :: yes ++ [.label done]
    | yes :: no :: _ =>
      let otherwise ← freshLabels 2
      let done := otherwise + 1
      let yes ← statement ctx yes
      let no ← statement ctx no
      return condition ++ .jumpIfFalse otherwise :: yes ++ [.jump done, .label otherwise] ++ no
        ++ [.label done]
termination_by structural children => children

def whileStatement (ctx : Context) (t : Tree) : List Tree → BodyM Code
  | [] => throw (t.missing 0)
  | test :: rest => do
    let condition ← valueOf table .bool test
    match rest with
    | [] => throw (t.missing 1)
    | body :: _ =>
      let label ← freshLabels 3
      let body ← statement { ctx with loopExit := some (label + 2) } body
      return loopCode label body [] condition
termination_by structural children => children

def forStatement (ctx : Context) (t : Tree) (children : List Tree) : BodyM Code := do
  let counter ← counterOf t
  match children with
  | [] => throw (t.missing 0)
  | bounds :: rest =>
    let r ← range table counter bounds
    match rest with
    | [] => throw (t.missing 1)
    | body :: _ =>
      let label ← freshLabels 3
      let body ← statement { ctx with loopExit := some (label + 2) } body
      return r.code ++ loopCode label body r.advance r.test
termination_by structural children

end

end StackCompiler.Lowering
