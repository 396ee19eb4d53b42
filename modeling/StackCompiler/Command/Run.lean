import StackCompiler.Command.Arguments
import StackCompiler.Command.Files
import StackCompiler.Json
import StackCompiler.Listing
import StackCompiler.Lowering.Program

/-!
Running a command line: compiling a file to a listing or to JSON, or only checking it.
-/

set_option autoImplicit false
namespace StackCompiler.Command

structure Response where
  code : UInt32
  out : String
  err : String
  deriving DecidableEq, Inhabited

namespace Response

def success (out : String) : Response :=
  ⟨0, out, ""⟩

def failure (problem : String) (out : String) : Response :=
  ⟨1, out, s!"error: {problem}\n"⟩

end Response

def versionText : String :=
  "cmc 0.1.0\n"

def usageText : String :=
  "Usage: cmc [OPTIONS] [FILE] [COMMAND]\n"

def helpText : String :=
  "C-minus compiler - lowers C-minus source to stack machine instructions\n\n" ++ usageText ++
  "\nCommands:\n" ++
  "  check  Check a source file for errors without writing output\n" ++
  "  help   Print this message or the help of the given subcommand(s)\n" ++
  "\nArguments:\n" ++
  "  [FILE]  Input source file\n" ++
  "\nOptions:\n" ++
  "  -o, --output <FILE>  Output file (stdout if omitted)\n" ++
  "      --emit <EMIT>    Output format [default: listing] [possible values: listing, json]\n" ++
  "      --tokens         Print the token stream before compiling\n" ++
  "  -h, --help           Print help\n" ++
  "  -V, --version        Print version\n"

/-- One token a line, behind its line number in four columns. -/
def tokenLine (t : Token) : String :=
  let number := toString t.line
  String.ofList (List.replicate (4 - number.length) ' ') ++ number ++ "  " ++ t.describe ++ "\n"

def tokenLines (source : String) : String :=
  String.join ((tokenize source).map tokenLine)

def Format.render (image : Image) : Format → String
  | listing => image.listing
  | json => image.toJson.pretty 0

def readProblem (path : String) (e : FileError) : String :=
  s!"failed to read {path}: {e.message}"

def compileProblem (path : String) (d : Diagnostic) : String :=
  s!"in {path}: {d.message}"

variable {m : Type → Type} [Monad m] (files : Files m)

/-- Compiles a file. The tokens are printed even if the source is then rejected. -/
def compileFile (path : String) (options : Options) : m Response := do
  match ← files.readText path with
  | .error e => return .failure (readProblem path e) ""
  | .ok source =>
    let tokens := if options.tokens then tokenLines source else ""
    match compile source with
    | .error d => return .failure (compileProblem path d) tokens
    | .ok image =>
      let text := (options.format.getD .listing).render image
      match options.output with
      | none => return .success (tokens ++ text)
      | some target =>
        match ← files.write target text with
        | .ok () => return .success tokens
        | .error e => return .failure s!"failed to write {target}: {e.message}" tokens

def checkFile (path : String) : m Response := do
  match ← files.readText path with
  | .error e => return .failure (readProblem path e) ""
  | .ok source =>
    match compile source with
    | .error d => return .failure (compileProblem path d) ""
    | .ok image =>
      return .success
        s!"{path}: ok ({image.functions.length} functions, {image.statics.length} static slots)\n"

def noInput : Response :=
  ⟨1, "", "error: no input file specified\nUsage: cmc <FILE> or cmc check <FILE>\n"⟩

/-- Code 2 says that the command line itself is wrong. -/
def usageError : Response :=
  ⟨2, "", "error: invalid arguments\n\n" ++ usageText ++ "\nFor more information, try '--help'.\n"⟩

def run (args : List String) : m Response :=
  match request? args with
  | none => return usageError
  | some .version => return .success versionText
  | some .help => return .success helpText
  | some (.check path) => checkFile files path
  | some (.compile options) =>
    match options.input with
    | none => return noInput
    | some path => compileFile files path options

end StackCompiler.Command
