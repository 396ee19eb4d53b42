/-!
The command line. Arguments are read from the left and the first mistake ends the reading; `--version`
and `--help` answer at once. Options may stand before or after the file. The word `check` in place of a
file starts the command of that name, which takes one file and no options; behind `--` every argument
is a file.
-/

set_option autoImplicit false
namespace StackCompiler.Command

inductive Format where
  | listing
  | json
  deriving DecidableEq, Inhabited

def Format.ofName? : String → Option Format
  | "listing" => some .listing
  | "json" => some .json
  | _ => none

structure Options where
  input : Option String
  output : Option String
  format : Option Format
  tokens : Bool
  deriving DecidableEq, Inhabited

namespace Options

def empty : Options :=
  ⟨none, none, none, false⟩

/-- A file name, which is given once and is not empty. -/
def setInput (o : Options) (path : String) : Option Options :=
  if o.input.isSome || path.isEmpty then none else some { o with input := some path }

def setOutput (o : Options) (path : String) : Option Options :=
  if o.output.isSome || path.isEmpty then none else some { o with output := some path }

def setFormat (o : Options) (name : String) : Option Options :=
  if o.format.isSome then none
  else (Format.ofName? name).map fun format => { o with format := some format }

def setTokens (o : Options) : Option Options :=
  if o.tokens then none else some { o with tokens := true }

end Options

inductive Request where
  | compile (options : Options)
  | check (path : String)
  | version
  | help
  deriving DecidableEq, Inhabited

/-- The parts of an argument before and behind its first equals sign. -/
def splitValue (arg : List Char) : String × Option String :=
  let name := String.ofList (arg.takeWhile (· != '='))
  match arg.dropWhile (· != '=') with
  | [] => (name, none)
  | _ :: value => (name, some (String.ofList value))

/-- Arguments that start with a hyphen are options; a hyphen alone is a file. -/
def looksLikeOption (arg : String) : Bool :=
  match arg.toList with
  | '-' :: _ :: _ => true
  | _ => false

/-- Files only, as they stand behind `--`. -/
def readFiles (o : Options) : List String → Option Request
  | [] => some (.compile o)
  | arg :: rest => (o.setInput arg).bind fun o => readFiles o rest

def readCheck (path : Option String) : List String → Option Request
  | [] => path.map .check
  | arg :: rest =>
    if arg = "--" then
      match path, rest with
      | none, [file] => if file.isEmpty then none else some (.check file)
      | some file, [] => some (.check file)
      | _, _ => none
    else if arg = "-h" || arg = "--help" then some .help
    else if looksLikeOption arg || path.isSome || arg.isEmpty then none
    else readCheck (some arg) rest

/-- What one argument leads to: an answer at once, further options, or options once the value of the
next argument is put in. -/
inductive Step where
  | answer (request : Request)
  | options (o : Options)
  | value (put : String → Option Options)

def longOption (o : Options) : String × Option String → Option Step
  | ("output", some value) => (o.setOutput value).map .options
  | ("output", none) => some (.value o.setOutput)
  | ("emit", some value) => (o.setFormat value).map .options
  | ("emit", none) => some (.value o.setFormat)
  | ("tokens", none) => o.setTokens.map .options
  | ("version", none) => some (.answer .version)
  | ("help", none) => some (.answer .help)
  | _ => none

/-- Options by their letters. A value may follow its letter directly or behind an equals sign. -/
def shortOption (o : Options) : List Char → Option Step
  | ['o'] => some (.value o.setOutput)
  | 'o' :: '=' :: value => (o.setOutput (String.ofList value)).map .options
  | 'o' :: value => (o.setOutput (String.ofList value)).map .options
  | 'V' :: _ => some (.answer .version)
  | 'h' :: _ => some (.answer .help)
  | _ => none

def readOption (o : Options) (arg : String) : Option Step :=
  match arg.toList with
  | '-' :: '-' :: name => longOption o (splitValue name)
  | '-' :: letters => shortOption o letters
  | _ => none

def readHelp : List String → Option Request
  | [] | ["check"] | ["help"] => some .help
  | _ => none

/-- Reads all arguments. `pending` waits for the value of an option. -/
def read (o : Options) (pending : Option (String → Option Options)) : List String → Option Request
  | [] => if pending.isSome then none else some (.compile o)
  | arg :: rest =>
    match pending with
    | some put =>
      if looksLikeOption arg then none
      else (put arg).bind fun o => read o none rest
    | none =>
      if arg = "--" then readFiles o rest
      else if looksLikeOption arg then
        match readOption o arg with
        | none => none
        | some (.answer request) => some request
        | some (.options o) => read o none rest
        | some (.value put) => read o (some put) rest
      else if arg = "check" then readCheck none rest
      else if arg = "help" then readHelp rest
      else (o.setInput arg).bind fun o => read o none rest

def request? (args : List String) : Option Request :=
  read .empty none args

end StackCompiler.Command
