import StackCompiler.Lowering.Basic

/-!
Expressions to code. Operands come left to right, a chain folds to the left, and the code of every part
is checked against its context before it is joined to the rest.
-/

set_option autoImplicit false
namespace StackCompiler.Lowering

/-- Something that can be assigned to: a variable, or with `index` an element of an array. `ty` is the
type of the value it holds. -/
structure Target where
  place : Place
  ty : Ty
  index : Option Code
  deriving DecidableEq, Inhabited

namespace Target

/-- The end of a store into an element, with array, index and value on the stack. With `keep` the value
stays on the stack, by way of a temporary. -/
def storeElement (element : Ty) (keep : Bool) : ScopeM Code := do
  if keep then
    let temp ← reserveTemp element
    return [.dup, .store temp, .storeElem element, .load temp]
  else
    return [.storeElem element]

/-- Stores `value`. With `op` the old value is read first and joined to `value` by `op`; the index is
then kept in a temporary, for it is needed twice and evaluated once. With `keep` the stored value stays
on the stack. -/
def assign (target : Target) (value : Code) (op : Option Instr) (keep : Bool) : ScopeM Code := do
  let load := Instr.load target.place
  match target.index, op with
  | none, none => return value ++ (if keep then [.dup] else []) ++ [.store target.place]
  | none, some op =>
    return load :: value ++ op :: (if keep then [.dup] else []) ++ [.store target.place]
  | some index, none =>
    let finish ← storeElement target.ty keep
    return load :: index ++ value ++ finish
  | some index, some op =>
    let temp ← reserveTemp .int
    let finish ← storeElement target.ty keep
    return index ++ [.store temp, load, .load temp, load, .load temp, .loadElem target.ty]
      ++ value ++ op :: finish

end Target

def printableType (found : OperandType) (line : Nat) : Except Diagnostic Ty :=
  match found with
  | .value ty => if ty.isScalar then .ok ty else .error (.typeMismatch "printable value" ty.name line)
  | .operator => .error (.typeMismatch "printable value" found.name line)

/-- A printable value as an object; a string is one already. -/
def boxed (ty : Ty) (code : Code) : Code :=
  if ty = .string then code else code ++ [.box ty]

def callee (table : FunctionTable) (name : String) (count line : Nat) :
    Except Diagnostic Signature :=
  match table.lookup? name with
  | none => .error (.unknownFunction name line)
  | some signature =>
    if count = signature.parameters.length then .ok signature
    else .error (.arityMismatch name signature.parameters.length count line)

variable (table : FunctionTable)

mutual

def expression : Tree → ScopeM Typed
  | ⟨tag, token, children⟩ =>
    let t : Tree := ⟨tag, token, children⟩
    match tag with
    | .constant => constant t
    | .mutable => location t children
    | .paren => parenthesized t children
    | .call => do
      let name ← t.lexeme
      if name = "print" then
        print t children
      else if name = "put" then
        require (!children.isEmpty) (.arityMismatch name 1 0 t.line)
        let code ← putArguments children
        return .value .void code
      else
        let signature ← callee table name children.length t.line
        let code ← arguments signature.parameters children
        return .value signature.result (code ++ [.call signature.handle])
    | .operator => return ⟨.operator, []⟩
    | .simpleExp | .andExp => chain t .bool children
    | .minMaxExp | .sumExp | .mulExp => chain t .int children
    | .relExp => comparison t children
    | .notExp => negation t children
    | .unaryExp => unary t children
    | .assign => assignment t true children
    | .incDec => step t true children
    | other => throw (t.malformed s!"{other.name} is not an expression")
termination_by structural t => t

def location (t : Tree) : List Tree → ScopeM Typed
  | [] => do
    let symbol ← resolve t
    return .value symbol.ty [.load symbol.place]
  | index :: _ => do
    let symbol ← resolve t
    let element ← elementType symbol t.line
    let position ← expression index
    expectValue position.ty .int index.line
    return .value element (.load symbol.place :: position.code ++ [.loadElem element])
termination_by structural children => children

def parenthesized (t : Tree) : List Tree → ScopeM Typed
  | [] => throw (t.missing 0)
  | inner :: _ => expression inner
termination_by structural children => children

/-- Operands of type `required` joined by operators, which are applied from the left. -/
def chain (t : Tree) (required : Ty) : List Tree → ScopeM Typed
  | [] => throw (t.missing 0)
  | first :: rest => do
    let operand ← expression first
    expectValue operand.ty required t.line
    let links ← chainLinks required none rest
    return .value required (operand.code ++ links)
termination_by structural children => children

/-- The chain behind its first operand. `pending` is the operator that waits for an operand; of several
the last one counts, and one at the end has no effect. -/
def chainLinks (required : Ty) (pending : Option Instr) : List Tree → ScopeM Code
  | [] => return []
  | next :: rest => do
    let operand ← expression next
    require (operand.ty.matchesType required)
      (.typeMismatch required.name operand.ty.name next.line)
    match operand.ty, pending with
    | .operator, _ =>
      let op ← binaryOperator next
      chainLinks required (some op) rest
    | .value _, some op =>
      let links ← chainLinks required none rest
      return operand.code ++ op :: links
    | .value _, none => throw (next.malformed "operand without operator")
termination_by structural children => children

def comparison (t : Tree) : List Tree → ScopeM Typed
  | [] => throw (t.missing 0)
  | first :: rest => do
    let left ← expression first
    match rest with
    | [] => throw (t.missing 1)
    | operator :: rest =>
      let op ← binaryOperator operator
      match rest with
      | [] => throw (t.missing 2)
      | second :: _ =>
        let right ← expression second
        checkComparison op left.ty right.ty operator.line
        return .value .bool (left.code ++ right.code ++ [op])
termination_by structural children => children

def negation (t : Tree) : List Tree → ScopeM Typed
  | [] => throw (t.missing 0)
  | inner :: _ => do
    let operand ← expression inner
    expectValue operand.ty .bool t.line
    return .value .bool (operand.code ++ [.not])
termination_by structural children => children

def unary (t : Tree) : List Tree → ScopeM Typed
  | [] => throw (t.missing 0)
  | inner :: _ => do
    let operand ← expression inner
    let op ← unaryOperator t operand.ty
    return .value .int (operand.code ++ [op])
termination_by structural children => children

def target : Tree → ScopeM Target
  | ⟨tag, token, children⟩ => do
    let t : Tree := ⟨tag, token, children⟩
    require (tag = .mutable) (.invalidTarget t.line)
    let symbol ← resolve t
    match children with
    | [] => return ⟨symbol.place, symbol.ty, none⟩
    | index :: _ =>
      let element ← elementType symbol t.line
      let position ← expression index
      expectValue position.ty .int index.line
      return ⟨symbol.place, element, some position.code⟩
termination_by structural t => t

def assignment (t : Tree) (keep : Bool) : List Tree → ScopeM Typed
  | [] => throw (t.missing 0)
  | first :: rest => do
    let target ← target first
    match rest with
    | [] => throw (t.missing 1)
    | second :: _ =>
      let value ← expression second
      expectValue value.ty target.ty t.line
      let op ← assignmentOperator t
      require (op.isNone ∨ target.ty = .int) (.typeMismatch Ty.int.name target.ty.name t.line)
      let code ← target.assign value.code op keep
      return .value target.ty code
termination_by structural children => children

def step (t : Tree) (keep : Bool) : List Tree → ScopeM Typed
  | [] => throw (t.missing 0)
  | first :: _ => do
    let target ← target first
    expectType target.ty .int t.line
    let op ← stepOperator t
    let code ← target.assign [.pushInt 1] (some op) keep
    return .value .int code
termination_by structural children => children

def arguments (types : List Ty) : List Tree → ScopeM Code
  | [] => return []
  | first :: rest =>
    match types with
    | [] => return []
    | ty :: types => do
      let argument ← expression first
      expectValue argument.ty ty first.line
      let code ← arguments types rest
      return argument.code ++ code
termination_by structural children => children

/-- `print` of one value, or of a format string and the values for it. -/
def print (t : Tree) : List Tree → ScopeM Typed
  | [] => throw (.arityMismatch "print" 1 0 t.line)
  | first :: rest => do
    let head ← expression first
    let ty ← printableType head.ty first.line
    if rest.isEmpty then
      return .value .void (boxed ty head.code ++ [.print])
    else
      require (ty = .string) (.invalidPrintArguments t.line)
      let values ← printArguments rest
      return .value .void (head.code ++ values ++ [.printFormatted rest.length])
termination_by structural children => children

def printArguments : List Tree → ScopeM Code
  | [] => return []
  | first :: rest => do
    let argument ← expression first
    let ty ← printableType argument.ty first.line
    let code ← printArguments rest
    return boxed ty argument.code ++ code
termination_by structural children => children

/-- The arguments of `put`: a word of the input is read into each of them. -/
def putArguments : List Tree → ScopeM Code
  | [] => return []
  | first :: rest => do
    let target ← target first
    require target.ty.isScalar (.typeMismatch "scalar" target.ty.name first.line)
    let code ← target.assign [.read target.ty] none false
    let more ← putArguments rest
    return code ++ more
termination_by structural children => children

end

end StackCompiler.Lowering
