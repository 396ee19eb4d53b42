import StackCompiler.Grammar.Program
import StackCompiler.Lowering.Statement

/-!
Functions and whole programs. A session keeps what one declaration leaves for the next: the file scope,
the declared functions and the setup of static variables. It stays usable after a failure.
-/

set_option autoImplicit false
namespace StackCompiler

open Lowering

structure Session where
  scopes : ScopeChain
  functions : FunctionTable
  staticInit : Segment
  deriving DecidableEq, Inhabited

abbrev SessionM := EStateM Diagnostic Session

namespace Session

def empty : Session :=
  ⟨.empty, .empty, .empty⟩

def inBody {α : Type} (m : BodyM α) : SessionM α := fun s =>
  match m ⟨s.scopes, s.staticInit, 0⟩ with
  | .ok a b => .ok a { s with scopes := b.scopes, staticInit := b.staticInit }
  | .error e b => .error e { s with scopes := b.scopes, staticInit := b.staticInit }

/-- The declared result type of a function, `void` if none is written. -/
def resultType (decl : Tree) : Except Diagnostic Ty :=
  match decl.find? .typeSpec with
  | some spec => typeOf spec
  | none => .ok .void

def register (decl : Tree) : SessionM Unit := do
  let result ← resultType decl
  let parms ← parameters decl
  let name ← decl.lexeme
  let (_, functions) ← (← get).functions.declare name result (parms.map Prod.snd) decl.line
  modify fun s => { s with functions }

def registerAll : List Tree → SessionM Unit
  | [] => return ()
  | decl :: rest => do
    if decl.tag = .funDecl then
      register decl
      registerAll rest
    else
      registerAll rest

/-- What a function returns when control reaches its end. -/
def defaultValue : Ty → Code
  | .int => [.pushInt 0]
  | .bool => [.pushBool false]
  | .char => [.pushChar '\x00']
  | .string => [.pushString ""]
  | .void | .array _ => []

def closeBody (result : Ty) (code : Code) : Code :=
  if code.getLast? = some .return then code else code ++ defaultValue result ++ [.return]

def declareParameters : List (Tree × Ty) → ScopeM Unit
  | [] => return ()
  | (id, ty) :: rest => do
    let name ← id.lexeme
    let _ ← declare name ty .arg none id.line
    declareParameters rest

/-- The code of a function, in the scope of the function: its parameters and the declarations at the
head of its body share that scope. -/
def functionBody (table : FunctionTable) (result : Ty) (decl : Tree) : BodyM Code := do
  let parms ← parameters decl
  declareParameters parms
  match decl.find? .compoundStmt with
  | none => throw (decl.malformed "function without body")
  | some body =>
    let code ← blockItems table ⟨result, none⟩ body.children
    return closeBody result code

def functionFrame (table : FunctionTable) (result : Ty) (decl : Tree) : BodyM (Code × List Ty) :=
  inScope .function do
    let code ← functionBody table result decl
    return (code, (← get).scopes.locals)

def routine (decl : Tree) : SessionM Routine := do
  let name ← decl.lexeme
  let functions := (← get).functions
  match functions.lookup? name with
  | none => throw (.unknownFunction name decl.line)
  | some signature =>
    let (code, locals) ← inBody (functionFrame functions signature.result decl)
    return ⟨signature, locals, code⟩

def routines : List Tree → SessionM (List Routine)
  | [] => return []
  | decl :: rest =>
    match decl.tag with
    | .varDecl => do
      let _ ← inBody (declaration (← get).functions decl)
      routines rest
    | .funDecl => do
      let first ← routine decl
      let more ← routines rest
      return first :: more
    | other => throw (decl.malformed s!"{other.name} is not a declaration")

/-- Compiles a program. All functions are registered first, so that calls may go forward. -/
def compileProgram (program : Tree) : SessionM Image := do
  require (program.tag = .program) (program.malformed "expected a program")
  registerAll program.children
  let functions ← routines program.children
  let s ← get
  set { s with staticInit := Segment.empty }
  return ⟨functions, s.scopes.statics, s.staticInit.code⟩

def ensureRegistered (name : String) (decl : Tree) : SessionM Unit := do
  match (← get).functions.lookup? name with
  | some _ => return ()
  | none => register decl

/-- Compiles one function, registered if need be. Yields its code and the registered result type. -/
def compileFunction (decl : Tree) : SessionM (Code × Ty) := do
  let name ← decl.lexeme
  ensureRegistered name decl
  let r ← routine decl
  return (r.code, r.signature.result)

end Session

def compile (source : String) : Except Diagnostic Image := do
  let program ← parse source
  match Session.compileProgram program Session.empty with
  | .ok image _ => return image
  | .error e _ => throw e

end StackCompiler
