import StackCompiler.Image
import StackCompiler.Text
import StackCompiler.Text.Printable

/-!
The listing of a program image: one instruction a line, for people to read.
-/

set_option autoImplicit false
namespace StackCompiler

def labelName (l : Label) : String :=
  s!"L{l}"

variable (printable : Char → Bool)

def Instr.textWith : Instr → String
  | pushInt value => s!"push.i {value.toInt}"
  | pushBool value => s!"push.b {value}"
  | pushChar value => "push.c " ++ Text.quoteChar printable value
  | pushString value => "push.s " ++ Text.quoteString printable value
  | loadStatic slot => s!"load.static {slot}"
  | storeStatic slot => s!"store.static {slot}"
  | loadLocal slot => s!"load.local {slot}"
  | storeLocal slot => s!"store.local {slot}"
  | loadArg slot => s!"load.arg {slot}"
  | storeArg slot => s!"store.arg {slot}"
  | newArray element => s!"newarr {element.name}"
  | loadElem element => s!"load.elem {element.name}"
  | storeElem element => s!"store.elem {element.name}"
  | add => "add"
  | sub => "sub"
  | mul => "mul"
  | div => "div"
  | rem => "rem"
  | max => "max"
  | min => "min"
  | neg => "neg"
  | and => "and"
  | or => "or"
  | not => "not"
  | eq => "eq"
  | ne => "ne"
  | gt => "gt"
  | lt => "lt"
  | ge => "ge"
  | le => "le"
  | length => "len"
  | random => "rand"
  | dup => "dup"
  | pop => "pop"
  | call handle => s!"call #{handle}"
  | .return => "ret"
  | jump target => s!"jump {labelName target}"
  | jumpIfFalse target => s!"jump.false {labelName target}"
  | jumpIfTrue target => s!"jump.true {labelName target}"
  | label name => s!"{labelName name}:"
  | box scalar => s!"box {scalar.name}"
  | print => "print"
  | printFormatted args => s!"print.fmt {args}"
  | read scalar => s!"read {scalar.name}"

def Instr.text : Instr → String :=
  textWith Text.isPrintable

def slotLines (directive : String) (types : List Ty) : List String :=
  types.mapIdx fun slot ty => s!"    .{directive} {slot}: {ty.name}"

namespace Image

/-- Labels stand further left than instructions. A call shows the name of the function at its handle. -/
def instrLine (image : Image) (instr : Instr) : String :=
  match instr with
  | .label _ => "  " ++ instr.textWith printable
  | .call handle =>
    match image.functions[handle]? with
    | some callee => "    call " ++ callee.signature.name
    | none => "    " ++ instr.textWith printable
  | _ => "    " ++ instr.textWith printable

def codeLines (image : Image) (code : Code) : List String :=
  code.map (image.instrLine printable)

def routineLines (image : Image) (routine : Routine) : List String :=
  let s := routine.signature
  let parameters := ", ".intercalate (s.parameters.map Ty.name)
  ["fn " ++ s.name ++ "(" ++ parameters ++ ") -> " ++ s.result.name ++ " \x7b"]
    ++ slotLines "local" routine.locals ++ image.codeLines printable routine.code ++ ["\x7d", ""]

/-- The section on static slots is left out when it would be empty. -/
def staticLines (image : Image) : List String :=
  if image.statics.isEmpty && image.staticInit.isEmpty then
    []
  else
    [".statics \x7b"] ++ slotLines "static" image.statics ++ image.codeLines printable image.staticInit
      ++ ["\x7d", ""]

def headLines (image : Image) : List String :=
  s!"; Functions: {image.functions.length}" ::
    (image.entryPoint?.toList.map fun entry => "; Entry: " ++ entry.name) ++ [""]

def listingLines (image : Image) : List String :=
  image.headLines ++ image.staticLines printable ++ image.functions.flatMap (image.routineLines printable)

def listingWith (image : Image) : String :=
  String.join ((image.listingLines printable).map (· ++ "\n"))

def listing (image : Image) : String :=
  image.listingWith Text.isPrintable

end Image

end StackCompiler
