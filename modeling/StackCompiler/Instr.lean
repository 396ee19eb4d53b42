import StackCompiler.Scope

/-!
Instructions of the stack machine. They work on an operand stack and on static, local and argument
slots. A jump names a label, which may be placed anywhere in the same code.
-/

set_option autoImplicit false
namespace StackCompiler

abbrev Label := Nat

inductive Instr where
  | pushInt (value : Int32)
  | pushBool (value : Bool)
  | pushChar (value : Char)
  | pushString (value : String)
  | loadStatic (slot : Nat)
  | storeStatic (slot : Nat)
  | loadLocal (slot : Nat)
  | storeLocal (slot : Nat)
  | loadArg (slot : Nat)
  | storeArg (slot : Nat)
  /-- Pops a length. -/
  | newArray (element : Ty)
  /-- Pops an index and an array. -/
  | loadElem (element : Ty)
  /-- Pops a value, an index and an array. -/
  | storeElem (element : Ty)
  | add
  | sub
  | mul
  | div
  | rem
  | max
  | min
  | neg
  | and
  | or
  | not
  | eq
  | ne
  | gt
  | lt
  | ge
  | le
  | length
  /-- Pops `n` and pushes a random int from 0 to `n - 1`. -/
  | random
  | dup
  | pop
  | call (handle : Nat)
  | return
  | jump (target : Label)
  | jumpIfFalse (target : Label)
  | jumpIfTrue (target : Label)
  | label (name : Label)
  /-- Wraps a scalar into an object that can be printed. -/
  | box (scalar : Ty)
  | print
  /-- Pops `args` objects and, below them, the format string. -/
  | printFormatted (args : Nat)
  /-- Reads one word of the input as a value of the type. -/
  | read (scalar : Ty)
  deriving DecidableEq, Inhabited

abbrev Code := List Instr

namespace Instr

def load : Place → Instr
  | ⟨.static, slot⟩ => loadStatic slot
  | ⟨.local, slot⟩ => loadLocal slot
  | ⟨.arg, slot⟩ => loadArg slot

def store : Place → Instr
  | ⟨.static, slot⟩ => storeStatic slot
  | ⟨.local, slot⟩ => storeLocal slot
  | ⟨.arg, slot⟩ => storeArg slot

def target? : Instr → Option Label
  | jump target | jumpIfFalse target | jumpIfTrue target => some target
  | _ => none

def placed? : Instr → Option Label
  | label name => some name
  | _ => none

def isTerminator : Instr → Bool
  | .return | jump _ => true
  | _ => false

/-- Reads a local variable or an argument of the running function. -/
def readsFrame : Instr → Bool
  | loadLocal _ | loadArg _ => true
  | _ => false

end Instr

end StackCompiler
