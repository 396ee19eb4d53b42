import StackCompiler.Instr
import StackCompiler.Signature

/-!
Program images: what a source compiles to.
-/

set_option autoImplicit false
namespace StackCompiler

/-- A compiled function. `locals` gives the type of every local slot. -/
structure Routine where
  signature : Signature
  locals : List Ty
  code : Code
  deriving DecidableEq, Inhabited

def insertAscending (n : Nat) : List Nat → List Nat
  | [] => [n]
  | m :: ms =>
    if n < m then n :: m :: ms else if n = m then m :: ms else m :: insertAscending n ms

/-- The labels that some instruction jumps to and none places, ascending. -/
def Code.unresolved (code : Code) : List Label :=
  let placed := code.filterMap Instr.placed?
  let missing := (code.filterMap Instr.target?).filter fun l => !placed.contains l
  missing.foldr insertAscending []

/-- `staticInit` runs once before everything else; it sets up the static slots. -/
structure Image where
  functions : List Routine
  statics : List Ty
  staticInit : Code
  deriving DecidableEq, Inhabited

namespace Image

def routine? (image : Image) (name : String) : Option Routine :=
  image.functions.find? fun routine => routine.signature.name == name

def entryPoint? (image : Image) : Option Signature :=
  (image.routine? "main").map Routine.signature

end Image

end StackCompiler
