import StackCompiler.Image
import StackCompiler.Text
import StackCompiler.Tree

/-!
What the lowering of expressions, statements and declarations shares: the pair of code and type, checks
of types, literals and operators.

Lowering runs on the open scopes and may fail. A failure keeps the scopes as they are at that point, so
slots taken before it stay taken.
-/

set_option autoImplicit false
namespace StackCompiler.Lowering

abbrev ScopeM := EStateM Diagnostic ScopeChain

instance {σ : Type} : MonadLift (Except Diagnostic) (EStateM Diagnostic σ) where
  monadLift
    | .ok a => pure a
    | .error e => throw e

structure Typed where
  ty : OperandType
  code : Code
  deriving DecidableEq, Inhabited

def Typed.value (ty : Ty) (code : Code) : Typed :=
  ⟨.value ty, code⟩

def reserveTemp (ty : Ty) : ScopeM Place :=
  modifyGet fun c => c.reserveTemp ty

def reserve (ty : Ty) (storage : Storage) : ScopeM Place :=
  modifyGet fun c =>
    let (slot, c) := c.reserve ty storage
    (⟨storage, slot⟩, c)

def declare (name : String) (ty : Ty) (storage : Storage) (length : Option Nat) (line : Nat) :
    ScopeM Place := do
  let (slot, c) ← (← get).declare name ty storage length line
  set c
  return ⟨storage, slot⟩

def resolve (t : Tree) : ScopeM Symbol := do
  let name ← t.lexeme
  match (← get).resolve? name with
  | some symbol => return symbol
  | none => throw (.undeclaredName name t.line)

def require (condition : Prop) [Decidable condition] (otherwise : Diagnostic) :
    Except Diagnostic Unit :=
  if condition then .ok () else .error otherwise

/-- Requires a value of one type; an operator is no value. -/
def expectValue (found : OperandType) (expected : Ty) (line : Nat) : Except Diagnostic Unit :=
  require (found = .value expected) (.typeMismatch expected.name found.name line)

def expectType (found expected : Ty) (line : Nat) : Except Diagnostic Unit :=
  require (found = expected) (.typeMismatch expected.name found.name line)

def elementType (symbol : Symbol) (line : Nat) : Except Diagnostic Ty :=
  match symbol.ty with
  | .array element => .ok element
  | ty => .error (.typeMismatch "array" ty.name line)

def typeOf (spec : Tree) : Except Diagnostic Ty := do
  let word ← spec.lexeme
  match Ty.ofKeyword? word with
  | some ty => return ty
  | none => throw (spec.malformed s!"'{word}' is not a type")

def arrayLength (t : Tree) : Except Diagnostic Int32 := do
  let lexeme ← t.lexeme
  match Text.readWord? lexeme with
  | some n => return n
  | none => throw (.invalidConstant lexeme t.line)

def unquote? : List Char → Option (List Char)
  | '"' :: rest => if rest.getLast? = some '"' then some rest.dropLast else none
  | _ => none

def literal? (token : Token) : Option (Instr × Ty) :=
  match token.kind with
  | .number => (Text.readWord? token.lexeme).map fun n => (.pushInt n, .int)
  | .character => token.lexeme.toList[1]?.map fun c => (.pushChar c, .char)
  | .string => (unquote? token.lexeme.toList).map fun s => (.pushString (String.ofList s), .string)
  | .keyword =>
    if token.lexeme = "true" then some (.pushBool true, .bool)
    else if token.lexeme = "false" then some (.pushBool false, .bool)
    else none
  | _ => none

def constant (t : Tree) : Except Diagnostic Typed :=
  match t.token with
  | none => .error (t.malformed "constant without token")
  | some token =>
    match literal? token with
    | some (push, ty) => .ok (.value ty [push])
    | none => .error (.invalidConstant token.lexeme token.line)

def binaryInstr? : String → Option Instr
  | "or" | "||" => some .or
  | "and" | "&&" => some .and
  | ":>:" => some .max
  | ":<:" => some .min
  | "+" => some .add
  | "-" => some .sub
  | "*" => some .mul
  | "/" => some .div
  | "%" => some .rem
  | "==" => some .eq
  | "!=" => some .ne
  | "<" => some .lt
  | "<=" => some .le
  | ">" => some .gt
  | ">=" => some .ge
  | _ => none

def binaryOperator (t : Tree) : Except Diagnostic Instr := do
  let lexeme ← t.lexeme
  match binaryInstr? lexeme with
  | some op => return op
  | none => throw (t.malformed s!"unknown operator '{lexeme}'")

/-- What an assignment operator does with the old value: nothing, or one instruction. -/
def assignmentOperator (t : Tree) : Except Diagnostic (Option Instr) := do
  match ← t.lexeme with
  | "=" => return none
  | "+=" => return some .add
  | "-=" => return some .sub
  | "*=" => return some .mul
  | "/=" => return some .div
  | other => throw (t.malformed s!"unknown assignment '{other}'")

/-- The instruction of `++` or `--`, applied to the old value and one. -/
def stepOperator (t : Tree) : Except Diagnostic Instr := do
  match ← t.lexeme with
  | "++" => return .add
  | "--" => return .sub
  | other => throw (t.malformed s!"unknown operator '{other}'")

def unaryOperator (t : Tree) (operand : OperandType) : Except Diagnostic Instr := do
  match ← t.lexeme with
  | "-" => do
    expectValue operand .int t.line
    return .neg
  | "?" => do
    expectValue operand .int t.line
    return .random
  | "*" =>
    match operand with
    | .value (.array _) => return .length
    | _ => throw (.typeMismatch "array" operand.name t.line)
  | other => throw (t.malformed s!"unknown unary operator '{other}'")

/-- Equality is defined on scalars, order on int and char, and both sides have one type. -/
def checkComparison (op : Instr) (left right : OperandType) (line : Nat) : Except Diagnostic Unit :=
  let equality := op = .eq ∨ op = .ne
  let defined := left.value?.any fun ty => if equality then ty.isScalar else ty.isOrdered
  if defined then
    require (right = left) (.typeMismatch left.name right.name line)
  else
    .error (.typeMismatch (if equality then "scalar" else "int or char") left.name line)

/-- The type of a parameter: brackets behind its name make it an array. -/
def parameterType (base : Ty) (id : Tree) : Ty :=
  if (id.find? .arrayMarker).isSome then .array base else base

def parameterGroup (group : Tree) : Except Diagnostic (List (Tree × Ty)) := do
  let base ← typeOf (← group.child 0)
  return (group.children.drop 1).map fun id => (id, parameterType base id)

def parameterGroups : List Tree → Except Diagnostic (List (Tree × Ty))
  | [] => return []
  | group :: rest => do
    let first ← parameterGroup group
    let more ← parameterGroups rest
    return first ++ more

def parameters (decl : Tree) : Except Diagnostic (List (Tree × Ty)) :=
  match decl.find? .parms with
  | none => .error (decl.malformed "function without parameter list")
  | some parms => parameterGroups parms.children

end StackCompiler.Lowering
