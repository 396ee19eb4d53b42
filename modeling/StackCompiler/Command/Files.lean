/-!
Files as a command sees them, by path and content. A command runs over any way to reach files; the one
given here is a working directory held in memory.

A path is followed part by part. Empty parts and a single point stay in place, two points lead to the
directory above, and all parts but the last have to be directories.
-/

set_option autoImplicit false
namespace StackCompiler.Command

inductive FileError where
  | notFound
  | notDirectory
  | isDirectory
  | nameTooLong
  | invalidText
  | other (description : String)
  deriving DecidableEq, Inhabited

def FileError.message : FileError → String
  | notFound => "No such file or directory (os error 2)"
  | notDirectory => "Not a directory (os error 20)"
  | isDirectory => "Is a directory (os error 21)"
  | nameTooLong => "File name too long (os error 36)"
  | invalidText => "stream did not contain valid UTF-8"
  | other description => description

structure Files (m : Type → Type) where
  read : String → m (Except FileError ByteArray)
  write : String → String → m (Except FileError Unit)

/-- The text of a file, which has to be UTF-8. -/
def Files.readText {m : Type → Type} [Monad m] (files : Files m) (path : String) :
    m (Except FileError String) := do
  match ← files.read path with
  | .error e => return .error e
  | .ok bytes =>
    match String.fromUTF8? bytes with
    | some text => return .ok text
    | none => return .error .invalidText

structure Path where
  absolute : Bool
  parts : List String
  trailing : Bool
  deriving DecidableEq, Inhabited

namespace Path

/-- Paths of 4096 bytes and more are refused as they are. -/
def ofString (path : String) : Except FileError Path :=
  if path.utf8ByteSize < 4096 then
    .ok ⟨path.toList.head? = some '/', (path.splitOn "/").filter (· != ""),
      path.toList.getLast? = some '/'⟩
  else
    .error .nameTooLong

end Path

/-- A working directory without subdirectories: names and contents. The directories around it are there
but hold no files. -/
structure Directory where
  entries : List (String × ByteArray)

namespace Directory

inductive Spot where
  | working
  | outside
  deriving DecidableEq, Inhabited

inductive Node where
  | directory (spot : Spot)
  | file (content : ByteArray)
  | absent

def empty : Directory :=
  ⟨[]⟩

def find? (d : Directory) (name : String) : Option ByteArray :=
  d.entries.lookup name

def insert (d : Directory) (name : String) (content : ByteArray) : Directory :=
  ⟨(name, content) :: d.entries.filter fun entry => entry.1 != name⟩

/-- Names have at most 255 bytes. -/
def node (d : Directory) (spot : Spot) (name : String) : Except FileError Node :=
  if name = "." then .ok (.directory spot)
  else if name = ".." then .ok (.directory .outside)
  else if 255 < name.utf8ByteSize then .error .nameTooLong
  else
    match spot, d.find? name with
    | .working, some content => .ok (.file content)
    | _, _ => .ok .absent

def walk (d : Directory) (spot : Spot) : List String → Except FileError Spot
  | [] => .ok spot
  | name :: rest => do
    match ← d.node spot name with
    | .directory spot => d.walk spot rest
    | .file _ => throw .notDirectory
    | .absent => throw .notFound

def parent (d : Directory) (path : Path) : Except FileError (Option (Spot × String)) := do
  let spot ← d.walk (if path.absolute then .outside else .working) path.parts.dropLast
  return path.parts.getLast?.map fun name => (spot, name)

def read (d : Directory) (path : String) : Except FileError ByteArray := do
  let path ← Path.ofString path
  match ← d.parent path with
  | none => throw .isDirectory
  | some (spot, name) =>
    match ← d.node spot name with
    | .directory _ => throw .isDirectory
    | .absent => throw .notFound
    | .file content => if path.trailing then throw .notDirectory else return content

/-- Writes a file, new or not. A name with a slash behind it cannot be one of a file. What is written
outside the working directory is not kept. -/
def write (d : Directory) (path text : String) : Except FileError Directory := do
  let path ← Path.ofString path
  match ← d.parent path with
  | none => throw .isDirectory
  | some (spot, name) =>
    if path.trailing then
      throw .isDirectory
    else
      match ← d.node spot name with
      | .directory _ => throw .isDirectory
      | .file _ | .absent => return if spot = .working then d.insert name text.toUTF8 else d

def files : Files (StateM Directory) where
  read path := do return (← get).read path
  write path text := do
    match (← get).write path text with
    | .ok d => do
      set d
      return .ok ()
    | .error e => return .error e

end Directory

end StackCompiler.Command
