import StackCompiler.Diagnostic
import StackCompiler.Ty

/-!
Functions by name: their result and parameter types, and the handle that a call refers to.
-/

set_option autoImplicit false
namespace StackCompiler

structure Signature where
  name : String
  result : Ty
  parameters : List Ty
  handle : Nat
  deriving DecidableEq, Inhabited

/-- Names with a meaning of their own, which no function may take. -/
def intrinsics : List String :=
  ["print", "put"]

def isIntrinsic (name : String) : Bool :=
  intrinsics.contains name

/-- The declared functions in order; a handle is a position in it. -/
structure FunctionTable where
  signatures : List Signature
  deriving DecidableEq, Inhabited

namespace FunctionTable

def empty : FunctionTable :=
  ⟨[]⟩

def lookup? (table : FunctionTable) (name : String) : Option Signature :=
  table.signatures.find? fun signature => signature.name == name

def declare (table : FunctionTable) (name : String) (result : Ty) (parameters : List Ty)
    (line : Nat) : Except Diagnostic (Nat × FunctionTable) :=
  if isIntrinsic name || (table.lookup? name).isSome then
    .error (.duplicateFunction name line)
  else
    let handle := table.signatures.length
    .ok (handle, ⟨table.signatures ++ [⟨name, result, parameters, handle⟩]⟩)

end FunctionTable

end StackCompiler
