/-!
Diagnostics: why a source, a tree or a file is rejected, and the text that says so.
-/

set_option autoImplicit false
namespace StackCompiler

/-- The cause of a rejection, with the source line it is reported on. -/
inductive Diagnostic where
  | unexpected (expected found : String) (line : Nat)
  | undeclaredName (name : String) (line : Nat)
  | duplicateDeclaration (name : String) (line : Nat)
  | duplicateFunction (name : String) (line : Nat)
  | typeMismatch (expected found : String) (line : Nat)
  | arityMismatch (name : String) (expected found : Nat) (line : Nat)
  | unknownFunction (name : String) (line : Nat)
  | invalidTarget (line : Nat)
  | breakOutsideLoop (line : Nat)
  | invalidConstant (lexeme : String) (line : Nat)
  | invalidPrintArguments (line : Nat)
  | frameReadInStatic (name : String) (line : Nat)
  | malformedTree (problem : String) (line : Nat)
  | inputOutput (problem : String)
  deriving DecidableEq, Inhabited

namespace Diagnostic

/-- Only a failure of input or output has no line. -/
def line? : Diagnostic → Option Nat
  | unexpected _ _ line | undeclaredName _ line | duplicateDeclaration _ line
  | duplicateFunction _ line | typeMismatch _ _ line | arityMismatch _ _ _ line
  | unknownFunction _ line | invalidTarget line | breakOutsideLoop line | invalidConstant _ line
  | invalidPrintArguments line | frameReadInStatic _ line | malformedTree _ line => some line
  | inputOutput _ => none

def problem : Diagnostic → String
  | unexpected expected found _ => s!"syntax error: expected {expected}, got {found}"
  | undeclaredName name _ => s!"undeclared name: {name}"
  | duplicateDeclaration name _ => s!"duplicate declaration: {name}"
  | duplicateFunction name _ => s!"duplicate function: {name}"
  | typeMismatch expected found _ => s!"type mismatch: expected {expected}, got {found}"
  | arityMismatch name expected found _ =>
    s!"wrong number of arguments to {name}: expected {expected}, got {found}"
  | unknownFunction name _ => s!"unknown function: {name}"
  | invalidTarget _ => "argument of put must be a variable or array element"
  | breakOutsideLoop _ => "break outside of a loop"
  | invalidConstant lexeme _ => s!"invalid constant: {lexeme}"
  | invalidPrintArguments _ => "print with several arguments needs a leading string format"
  | frameReadInStatic name _ =>
    s!"initializer of static {name} reads a local variable or parameter"
  | malformedTree problem _ => s!"malformed syntax tree: {problem}"
  | inputOutput problem => problem

def message (d : Diagnostic) : String :=
  match d.line? with
  | some line => s!"line {line}: {d.problem}"
  | none => s!"IO error: {d.problem}"

end Diagnostic

end StackCompiler
