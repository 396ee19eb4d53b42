import StackCompiler.Lowering.Expression

/-!
Declarations of variables. A declarator takes its slot and yields a `Setup`, which says what has to run
to set the variable up; the code of a setup depends only on the first of the labels it may use.
-/

set_option autoImplicit false
namespace StackCompiler.Lowering

/-- An initial value for all elements of an array, and the slots for the value and the running index. -/
structure Fill where
  value : Code
  valueTemp : Place
  indexTemp : Place
  deriving DecidableEq, Inhabited

inductive Setup where
  /-- A scalar without initial value needs no code. -/
  | nothing
  | scalar (place : Place) (value : Code)
  | array (place : Place) (element : Ty) (length : Int32) (fill : Option Fill)
  deriving DecidableEq, Inhabited

/-- Stores one value, evaluated once, at every index from zero up to `length`. -/
def Fill.code (fill : Fill) (array : Place) (element : Ty) (length : Int32) (label : Label) : Code :=
  let body := label
  let test := label + 1
  fill.value ++
    [.store fill.valueTemp,
     .pushInt 0, .store fill.indexTemp,
     .jump test,
     .label body,
     .load array, .load fill.indexTemp, .load fill.valueTemp, .storeElem element,
     .load fill.indexTemp, .pushInt 1, .add, .store fill.indexTemp,
     .label test,
     .load fill.indexTemp, .pushInt length, .lt, .jumpIfTrue body]

namespace Setup

def code (label : Label) : Setup → Code
  | nothing => []
  | scalar place value => value ++ [.store place]
  | array place element length none => [.pushInt length, .newArray element, .store place]
  | array place element length (some fill) =>
    [.pushInt length, .newArray element, .store place] ++ fill.code place element length label

def labels : Setup → Nat
  | array _ _ _ (some _) => 2
  | _ => 0

end Setup

structure Declarator where
  name : String
  line : Nat
  length : Option Int32
  value : Option Code
  deriving DecidableEq, Inhabited

variable (table : FunctionTable)

/-- The initial value of a declarator. With `hoisted` it runs before any function does, and so must not
read the frame of one. -/
def initialValue (name : String) (base : Ty) (hoisted : Bool) : Option Tree → ScopeM (Option Code)
  | none => return none
  | some init => do
    let typed ← expression table init
    expectValue typed.ty base init.line
    require (!(hoisted && typed.code.any Instr.readsFrame)) (.frameReadInStatic name init.line)
    return some typed.code

/-- The length of a declared array; a name alone declares a scalar. -/
def declaredLength (id : Tree) : Except Diagnostic (Option Int32) :=
  match id.children with
  | [] => .ok none
  | length :: _ => some <$> arrayLength length

/-- Reads a declarator. The declared name is not yet in scope here. -/
def readDeclarator (base : Ty) (hoisted : Bool) (node : Tree) : ScopeM Declarator := do
  let id ← node.child 0
  let name ← id.lexeme
  let length ← declaredLength id
  let value ← initialValue table name base hoisted node.children[1]?
  return ⟨name, id.line, length, value⟩

/-- Declares the variable, and takes the temporaries that setting it up needs. The length kept with the
symbol is never negative in a source. A tree that no source has may give a negative one; it is kept as zero,
not as its bits read without a sign, and nothing reads it back. -/
def Declarator.declare (d : Declarator) (base : Ty) (storage : Storage) : ScopeM Setup := do
  match d.length with
  | none =>
    let place ← Lowering.declare d.name base storage none d.line
    match d.value with
    | none => return .nothing
    | some value => return .scalar place value
  | some length =>
    let place ← Lowering.declare d.name (.array base) storage (some length.toInt.toNat) d.line
    match d.value with
    | none => return .array place base length none
    | some value =>
      let valueTemp ← reserve base storage
      let indexTemp ← reserve .int storage
      return .array place base length (some ⟨value, valueTemp, indexTemp⟩)

def declarator (base : Ty) (storage : Storage) (hoisted : Bool) (node : Tree) : ScopeM Setup := do
  let d ← readDeclarator table base hoisted node
  d.declare base storage

def baseType (node : Tree) : Except Diagnostic Ty :=
  match node.find? .typeSpec with
  | some spec => typeOf spec
  | none => .error (node.malformed "declaration without type")

/-- File-scope variables are static, and so are those declared `static`. -/
def storageOf (depth : Nat) (node : Tree) : Storage :=
  if depth = 1 ∨ (node.find? .static).isSome then .static else .local

end StackCompiler.Lowering
