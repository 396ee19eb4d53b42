import StackCompiler.Command.Run

/-!
The program: a command line over the files of the system.
-/

set_option autoImplicit false

open StackCompiler.Command

namespace StackCompiler.Command

def FileError.ofNumber (number : UInt32) (description : String) : FileError :=
  match number.toNat with
  | 2 => .notFound
  | 20 => .notDirectory
  | 21 => .isDirectory
  | 36 => .nameTooLong
  | n => .other s!"{description} (os error {n})"

def FileError.ofSystem : IO.Error → FileError
  | .noFileOrDirectory _ n text | .interrupted _ n text | .alreadyExists _ n text
  | .invalidArgument _ n text | .permissionDenied _ n text | .resourceExhausted _ n text
  | .inappropriateType _ n text | .noSuchThing _ n text | .otherError n text
  | .resourceBusy n text | .resourceVanished n text | .unsupportedOperation n text
  | .hardwareFault n text | .unsatisfiedConstraints n text | .illegalOperation n text
  | .protocolError n text | .timeExpired n text => .ofNumber n text
  | e => .other (toString e)

def attempt {α : Type} (action : IO α) : IO (Except FileError α) := do
  try
    return .ok (← action)
  catch e =>
    return .error (FileError.ofSystem e)

def systemFiles : Files IO where
  read path := attempt (IO.FS.readBinFile path)
  write path text := attempt (IO.FS.writeFile path text)

end StackCompiler.Command

def main (args : List String) : IO UInt32 := do
  let response ← run systemFiles args
  IO.print response.out
  IO.eprint response.err
  return response.code
