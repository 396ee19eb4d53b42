/-!
Types of variables, parameters and results, and the type an operand of an operator chain has.
-/

set_option autoImplicit false
namespace StackCompiler

/-- Declared types. `void` is a result type only. The length of an array belongs to its symbol, so
`int a[10]` and a parameter `int a[]` have one type. -/
inductive Ty where
  | int
  | bool
  | char
  | string
  | void
  | array (element : Ty)
  deriving DecidableEq, Inhabited

namespace Ty

def name : Ty → String
  | int => "int"
  | bool => "bool"
  | char => "char"
  | string => "string"
  | void => "void"
  | array element => element.name ++ "[]"

/-- The type a type keyword stands for. There is no keyword for `void` and none for arrays. -/
def ofKeyword? : String → Option Ty
  | "int" => some int
  | "bool" => some bool
  | "char" => some char
  | "string" => some string
  | _ => none

def element? : Ty → Option Ty
  | array element => some element
  | _ => none

def isArray : Ty → Bool
  | array _ => true
  | _ => false

def isScalar : Ty → Bool
  | int | bool | char | string => true
  | void | array _ => false

def isOrdered : Ty → Bool
  | int | char => true
  | _ => false

end Ty

/-- What a node of an operator chain yields: a value, or nothing but the mark of a bare operator. -/
inductive OperandType where
  | value (ty : Ty)
  | operator
  deriving DecidableEq, Inhabited

namespace OperandType

def name : OperandType → String
  | value ty => ty.name
  | operator => "operator"

def value? : OperandType → Option Ty
  | value ty => some ty
  | operator => none

/-- An operator is exempt from the type its chain requires. -/
def matchesType (found : OperandType) (required : Ty) : Bool :=
  match found with
  | value ty => ty == required
  | operator => true

end OperandType

end StackCompiler
