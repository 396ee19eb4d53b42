import StackCompiler.Signature
import StackCompiler.Text
import StackCompiler.Tree
import StackCompiler.Proofs.Semantics.Machine

/-!
Expressions evaluated by recursion over their trees. Operands are evaluated from left to right, a chain
is folded to the left, and no operator skips its right operand. The instructions of the machine stand
for the operators, under the same interpretation; which one stands for which operator, and what a literal
means, is written down here and not taken from the code generator.
-/

set_option autoImplicit false
namespace StackCompiler

abbrev Eval (V W α : Type) := StateT (Memory V W) Option α

namespace Eval

variable {V W α : Type}

def read (place : Place) : Eval V W V := fun m =>
  some (m.cell place, m)

def write (place : Place) (v : V) : Eval V W Unit := fun m =>
  some ((), m.set place v)

def present (x : Option α) : Eval V W α := fun m =>
  x.map fun a => (a, m)

@[simp] theorem present_some (a : α) : (present (some a) : Eval V W α) = pure a := rfl

def value (ev : Eval V W (Option V)) : Eval V W V := do
  present (← ev)

end Eval

open Eval

/-- The type of a literal shows by the kind of its token. -/
def literalType? (token : Token) : Option Ty :=
  match token.kind with
  | .number => some .int
  | .character => some .char
  | .string => some .string
  | .keyword => some .bool
  | _ => none

def staticType (table : FunctionTable) (scope : String → Option Symbol) : Tree → Option Ty
  | ⟨.constant, some token, _⟩ => literalType? token
  | ⟨.mutable, some name, []⟩ => (scope name.lexeme).map Symbol.ty
  | ⟨.mutable, some name, _⟩ => (scope name.lexeme).bind fun symbol => symbol.ty.element?
  | ⟨.paren, _, [inner]⟩ => staticType table scope inner
  | ⟨.assign, _, [target, _]⟩ => staticType table scope target
  | ⟨.call, some name, _⟩ =>
    if isIntrinsic name.lexeme then some .void else (table.lookup? name.lexeme).map Signature.result
  | ⟨.simpleExp, _, _⟩ | ⟨.andExp, _, _⟩ | ⟨.notExp, _, _⟩ | ⟨.relExp, _, _⟩ => some .bool
  | ⟨.minMaxExp, _, _⟩ | ⟨.sumExp, _, _⟩ | ⟨.mulExp, _, _⟩ | ⟨.unaryExp, _, _⟩ | ⟨.incDec, _, _⟩ =>
    some .int
  | _ => none
termination_by structural t => t

def operatorInstr? : String → Option Instr
  | "+" => some .add
  | "-" => some .sub
  | "*" => some .mul
  | "/" => some .div
  | "%" => some .rem
  | ":>:" => some .max
  | ":<:" => some .min
  | "==" => some .eq
  | "!=" => some .ne
  | "<" => some .lt
  | "<=" => some .le
  | ">" => some .gt
  | ">=" => some .ge
  | "and" | "&&" => some .and
  | "or" | "||" => some .or
  | _ => none

def unaryInstr? : String → Option Instr
  | "-" => some .neg
  | "?" => some .random
  | "*" => some .length
  | _ => none

/-- What an assignment or step operator does with the old value. -/
def updateInstr? : String → Option (Option Instr)
  | "=" => some none
  | "+=" | "++" => some (some .add)
  | "-=" | "--" => some (some .sub)
  | "*=" => some (some .mul)
  | "/=" => some (some .div)
  | _ => none

namespace Interpretation

variable {V W : Type} (I : Interpretation V W)

/-- The value of a literal. Characters and strings are written with their quotes. -/
def literal (token : Token) : Option V :=
  match token.kind, token.lexeme.toList with
  | .number, _ => (Text.readWord? token.lexeme).map I.int
  | .character, _ :: c :: _ => some (I.char c)
  | .string, opening :: text =>
    if opening = '"' ∧ text.getLast? = some '"' then some (I.string (String.ofList text.dropLast)) else none
  | .keyword, _ =>
    if token.lexeme = "true" then some (I.bool true)
    else if token.lexeme = "false" then some (I.bool false)
    else none
  | _, _ => none

variable (table : FunctionTable) (scope : String → Option Symbol)

def perform (instr : Instr) (operands : List V) : Eval V W (Option V) :=
  I.apply table.signatures instr operands

def printable (t : Tree) (v : V) : Eval V W V := do
  match ← present (staticType table scope t) with
  | .string => return v
  | ty => value (I.perform table (.box ty) [v])

mutual

def eval : Tree → Eval V W (Option V)
  | ⟨tag, token, children⟩ =>
    match tag, token, children with
    | .constant, some token, [] => do
      let v ← present (I.literal token)
      return some v
    | .mutable, some name, [] => do
      let symbol ← present (scope name.lexeme)
      let v ← read symbol.place
      return some v
    | .mutable, some name, [index] => do
      let symbol ← present (scope name.lexeme)
      let element ← present symbol.ty.element?
      let array ← read symbol.place
      let i ← value (eval index)
      I.perform table (.loadElem element) [array, i]
    | .paren, _, [inner] => eval inner
    | .simpleExp, _, first :: links | .andExp, _, first :: links | .minMaxExp, _, first :: links
    | .sumExp, _, first :: links | .mulExp, _, first :: links => do
      let v ← value (eval first)
      let result ← evalLinks v links
      return some result
    | .relExp, _, [left, operator, right] => do
      let l ← value (eval left)
      let r ← value (eval right)
      let op ← present (operator.token.bind fun token => operatorInstr? token.lexeme)
      I.perform table op [l, r]
    | .notExp, _, [operand] => do
      let v ← value (eval operand)
      I.perform table .not [v]
    | .unaryExp, some token, [operand] => do
      let v ← value (eval operand)
      let op ← present (unaryInstr? token.lexeme)
      I.perform table op [v]
    | .assign, some token, [target, source] => do
      let op ← present (updateInstr? token.lexeme)
      let v ← evalStore op (value (eval source)) target
      return some v
    | .incDec, some token, [target] => do
      let op ← present (updateInstr? token.lexeme)
      let v ← evalStore op (pure (I.int 1)) target
      return some v
    | .call, some name, args =>
      if name.lexeme = "print" then
        evalPrint args
      else if name.lexeme = "put" then
        evalPut args
      else do
        let callee ← present (table.lookup? name.lexeme)
        let values ← evalArguments args
        I.perform table (.call callee.handle) values
    | _, _, _ => failure
termination_by structural t => t

/-- The operators of a chain, applied to the value on their left one after the other. -/
def evalLinks (left : V) : List Tree → Eval V W V
  | [] => return left
  | operator :: rest =>
    match rest with
    | [] => failure
    | operand :: rest => do
      let right ← value (eval operand)
      let op ← present (operator.token.bind fun token => operatorInstr? token.lexeme)
      let result ← value (I.perform table op [left, right])
      evalLinks result rest
termination_by structural children => children

/-- Stores a value and yields it. An element's index is evaluated once, the old value is read before the
new one is computed. -/
def evalStore (op : Option Instr) (source : Eval V W V) : Tree → Eval V W V
  | ⟨_, token, children⟩ => do
    let name ← present token
    let symbol ← present (scope name.lexeme)
    match children, op with
    | [], none => do
      let v ← source
      write symbol.place v
      return v
    | [], some op => do
      let old ← read symbol.place
      let v ← source
      let new ← value (I.perform table op [old, v])
      write symbol.place new
      return new
    | index :: _, none => do
      let element ← present symbol.ty.element?
      let array ← read symbol.place
      let i ← value (eval index)
      let v ← source
      let _ ← I.perform table (.storeElem element) [array, i, v]
      return v
    | index :: _, some op => do
      let element ← present symbol.ty.element?
      let i ← value (eval index)
      let array ← read symbol.place
      let old ← value (I.perform table (.loadElem element) [array, i])
      let v ← source
      let new ← value (I.perform table op [old, v])
      let _ ← I.perform table (.storeElem element) [array, i, new]
      return new
termination_by structural t => t

def evalArguments : List Tree → Eval V W (List V)
  | [] => return []
  | first :: rest => do
    let v ← value (eval first)
    let values ← evalArguments rest
    return v :: values
termination_by structural children => children

def evalPrint : List Tree → Eval V W (Option V)
  | [] => failure
  | first :: rest => do
    let v ← value (eval first)
    match rest with
    | [] => do
      let shown ← I.printable table scope first v
      I.perform table .print [shown]
    | rest => do
      let values ← evalPrinted rest
      I.perform table (.printFormatted rest.length) (v :: values)
termination_by structural children => children

def evalPrinted : List Tree → Eval V W (List V)
  | [] => return []
  | first :: rest => do
    let v ← value (eval first)
    let shown ← I.printable table scope first v
    let values ← evalPrinted rest
    return shown :: values
termination_by structural children => children

def evalPut : List Tree → Eval V W (Option V)
  | [] => return none
  | first :: rest => do
    let ty ← present (staticType table scope first)
    let _ ← evalStore none (value (I.perform table (.read ty) [])) first
    evalPut rest
termination_by structural children => children

end

end Interpretation

end StackCompiler
