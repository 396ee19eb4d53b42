import StackCompiler.Image

/-!
Program images as JSON, laid out with two blanks of indentation a level and one element a line.
-/

set_option autoImplicit false
namespace StackCompiler

/-- The JSON values that images are made of; numbers are integers. -/
inductive Json where
  | bool (value : Bool)
  | number (value : Int)
  | string (value : String)
  | array (items : List Json)
  | object (fields : List (String × Json))
  deriving Inhabited

namespace Json

def hexDigits (n : Nat) : List Char :=
  let digits := Nat.toDigits 16 n
  List.replicate (4 - digits.length) '0' ++ digits

/-- Only quotes, backslashes and control characters below the space are escaped. -/
def escape (c : Char) : List Char :=
  if c = '"' ∨ c = '\\' then ['\\', c]
  else if c = '\x08' then ['\\', 'b']
  else if c = '\t' then ['\\', 't']
  else if c = '\n' then ['\\', 'n']
  else if c = '\x0c' then ['\\', 'f']
  else if c = '\r' then ['\\', 'r']
  else if c < ' ' then ['\\', 'u'] ++ hexDigits c.toNat
  else [c]

def quote (s : String) : String :=
  String.ofList ('"' :: s.toList.flatMap escape ++ ['"'])

def indent (depth : Nat) : String :=
  String.ofList (List.replicate (2 * depth) ' ')

/-- Lines between brackets, one level deeper than the brackets; nothing between them if there are none. -/
def enclose (opening closing : String) (depth : Nat) (items : List String) : String :=
  if items.isEmpty then
    opening ++ closing
  else
    opening ++ "\n" ++ ",\n".intercalate (items.map (indent (depth + 1) ++ ·)) ++ "\n"
      ++ indent depth ++ closing

mutual

def pretty (depth : Nat) : Json → String
  | bool value => if value then "true" else "false"
  | number value => toString value
  | string value => quote value
  | array items => enclose "[" "]" depth (prettyItems (depth + 1) items)
  | object fields => enclose "\x7b" "\x7d" depth (prettyFields (depth + 1) fields)
termination_by structural json => json

def prettyItems (depth : Nat) : List Json → List String
  | [] => []
  | item :: rest => item.pretty depth :: prettyItems depth rest
termination_by structural items => items

def prettyFields (depth : Nat) : List (String × Json) → List String
  | [] => []
  | (key, value) :: rest => (quote key ++ ": " ++ value.pretty depth) :: prettyFields depth rest
termination_by structural fields => fields

end

end Json

def Ty.toJson : Ty → Json
  | int => .string "Int"
  | bool => .string "Bool"
  | char => .string "Char"
  | string => .string "String"
  | void => .string "Void"
  | array element => .object [("Array", element.toJson)]

def typesJson (types : List Ty) : Json :=
  .array (types.map Ty.toJson)

def Instr.toJson : Instr → Json
  | pushInt value => .object [("PushInt", .number value.toInt)]
  | pushBool value => .object [("PushBool", .bool value)]
  | pushChar value => .object [("PushChar", .string (String.singleton value))]
  | pushString value => .object [("PushString", .string value)]
  | loadStatic slot => .object [("LoadStatic", .number slot)]
  | storeStatic slot => .object [("StoreStatic", .number slot)]
  | loadLocal slot => .object [("LoadLocal", .number slot)]
  | storeLocal slot => .object [("StoreLocal", .number slot)]
  | loadArg slot => .object [("LoadArg", .number slot)]
  | storeArg slot => .object [("StoreArg", .number slot)]
  | newArray element => .object [("NewArray", element.toJson)]
  | loadElem element => .object [("LoadElem", element.toJson)]
  | storeElem element => .object [("StoreElem", element.toJson)]
  | add => .string "Add"
  | sub => .string "Sub"
  | mul => .string "Mul"
  | div => .string "Div"
  | rem => .string "Rem"
  | max => .string "Max"
  | min => .string "Min"
  | neg => .string "Neg"
  | and => .string "And"
  | or => .string "Or"
  | not => .string "Not"
  | eq => .string "Eq"
  | ne => .string "Ne"
  | gt => .string "Gt"
  | lt => .string "Lt"
  | ge => .string "Ge"
  | le => .string "Le"
  | length => .string "Length"
  | random => .string "Random"
  | dup => .string "Dup"
  | pop => .string "Pop"
  | call handle => .object [("Call", .number handle)]
  | .return => .string "Return"
  | jump target => .object [("Jump", .number target)]
  | jumpIfFalse target => .object [("JumpIfFalse", .number target)]
  | jumpIfTrue target => .object [("JumpIfTrue", .number target)]
  | label name => .object [("Label", .number name)]
  | box scalar => .object [("Box", scalar.toJson)]
  | print => .string "Print"
  | printFormatted args => .object [("PrintFormatted", .object [("args", .number args)])]
  | read scalar => .object [("Read", scalar.toJson)]

def codeJson (code : Code) : Json :=
  .array (code.map Instr.toJson)

def Signature.toJson (s : Signature) : Json :=
  .object [("name", .string s.name), ("return_type", s.result.toJson),
    ("param_types", typesJson s.parameters), ("handle", .number s.handle)]

def Routine.toJson (r : Routine) : Json :=
  .object [("signature", r.signature.toJson), ("locals", typesJson r.locals),
    ("instructions", codeJson r.code)]

def Image.toJson (image : Image) : Json :=
  .object [("functions", .array (image.functions.map Routine.toJson)),
    ("statics", typesJson image.statics), ("static_init", codeJson image.staticInit)]

end StackCompiler
