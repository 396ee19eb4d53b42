import StackCompiler.Tree

/-!
Renaming of variables in a tree. Declarations are numbered in the order of the source, and a renaming
gives each a new name by its number. An occurrence of a name takes the new name of the declaration that
it refers to: the innermost scope that has declared the name so far decides, and in it the latest
declaration. Calls are no occurrences, for functions have names of their own.
-/

set_option autoImplicit false
namespace StackCompiler

/-- The declarations in scope, by name and number: the innermost scope first, in it the latest first. -/
structure Bindings where
  innermost : List (String × Nat)
  enclosing : List (List (String × Nat))
  next : Nat
  deriving DecidableEq

namespace Bindings

def start : Bindings :=
  ⟨[], [], 0⟩

def enter (b : Bindings) : Bindings :=
  ⟨[], b.innermost :: b.enclosing, b.next⟩

/-- Behind a scope that ends with `inner`. No number is used twice. -/
def leave (b inner : Bindings) : Bindings :=
  { b with next := inner.next }

def bind (b : Bindings) (name : String) : Bindings :=
  ⟨(name, b.next) :: b.innermost, b.enclosing, b.next + 1⟩

def scopes (b : Bindings) : List (List (String × Nat)) :=
  b.innermost :: b.enclosing

def find? (b : Bindings) (name : String) : Option Nat :=
  (b.scopes.flatten.find? fun entry => entry.1 == name).map Prod.snd

end Bindings

/-- New names for variables, by the number and the name of the declaration. Of the allowed names, two that
differ stay different unless one declaration had them both. -/
structure Renaming where
  rename : Nat → String → String
  allowed : String → Bool
  apart : ∀ {x x' : String} {k k' : Nat}, allowed x = true → allowed x' = true →
    rename k x = rename k' x' → x = x' ∨ k = k'

namespace Renaming

def same : Renaming where
  rename _ name := name
  allowed _ := true
  apart _ _ h := .inl h

/-- Declaration number `d` gets a name that is used for nothing else. -/
def single (d : Nat) (fresh : String) : Renaming where
  rename k name := if k = d then fresh else name
  allowed name := name != fresh
  apart {x x' k k'} hx hx' h := by
    rw [bne_iff_ne] at hx hx'
    by_cases hk : k = d <;> by_cases hk' : k' = d
    · exact .inr (hk.trans hk'.symm)
    · rw [if_pos hk, if_neg hk'] at h
      exact absurd h.symm hx'
    · rw [if_neg hk, if_pos hk'] at h
      exact absurd h hx
    · rw [if_neg hk, if_neg hk'] at h
      exact .inl h

variable (r : Renaming) (b : Bindings)

def use (name : String) : String :=
  match b.find? name with
  | some k => r.rename k name
  | none => name

def useToken (token : Token) : Token :=
  { token with lexeme := r.use b token.lexeme }

def declare (t : Tree) : Tree × Bindings :=
  match t.token with
  | some token =>
    ({ t with token := some { token with lexeme := r.rename b.next token.lexeme } }, b.bind token.lexeme)
  | none => (t, b)

end Renaming

namespace Tree

mutual

/-- Renames the variables in an expression, or in whatever declares none. -/
def renameUses (r : Renaming) (b : Bindings) : Tree → Tree
  | ⟨tag, token, children⟩ =>
    ⟨tag, if tag = .mutable then token.map (r.useToken b) else token, renameUsesIn r b children⟩
termination_by structural t => t

def renameUsesIn (r : Renaming) (b : Bindings) : List Tree → List Tree
  | [] => []
  | t :: rest => t.renameUses r b :: renameUsesIn r b rest
termination_by structural ts => ts

end

/-- The parts of a declarator: its initial value does not see its name. -/
def renameDeclarator (r : Renaming) (b : Bindings) : List Tree → List Tree × Bindings
  | [] => ([], b)
  | id :: inits => ((r.declare b id).1 :: renameUsesIn r b inits, (r.declare b id).2)

mutual

/-- Renames the variables in a tree, and yields the bindings behind it. -/
def rename (r : Renaming) (b : Bindings) : Tree → Tree × Bindings
  | ⟨tag, token, children⟩ =>
    match tag with
    | .varDeclId | .parmId => r.declare b ⟨tag, token, children⟩
    | .varDeclInit =>
      let inner := renameDeclarator r b children
      (⟨tag, token, inner.1⟩, inner.2)
    | .program | .varDecl | .parms | .parmTypeList | .ifStmt | .whileStmt =>
      let inner := renameAll r b children
      (⟨tag, token, inner.1⟩, inner.2)
    | .forStmt =>
      let inner := renameAll r b children
      (⟨tag, token.map (r.useToken b), inner.1⟩, inner.2)
    | .compoundStmt =>
      let inner := renameAll r b.enter children
      (⟨tag, token, inner.1⟩, b.leave inner.2)
    | .funDecl =>
      let inner := renameFunction r b.enter children
      (⟨tag, token, inner.1⟩, b.leave inner.2)
    | _ => (renameUses r b ⟨tag, token, children⟩, b)
termination_by structural t => t

def renameAll (r : Renaming) (b : Bindings) : List Tree → List Tree × Bindings
  | [] => ([], b)
  | t :: rest =>
    let first := t.rename r b
    let more := renameAll r first.2 rest
    (first.1 :: more.1, more.2)
termination_by structural ts => ts

/-- The parts of a function: what its body declares belongs to the scope of the parameters. -/
def renameFunction (r : Renaming) (b : Bindings) : List Tree → List Tree × Bindings
  | [] => ([], b)
  | ⟨.compoundStmt, token, items⟩ :: rest =>
    let first := renameAll r b items
    let more := renameFunction r first.2 rest
    (⟨.compoundStmt, token, first.1⟩ :: more.1, more.2)
  | part :: rest =>
    let first := part.rename r b
    let more := renameFunction r first.2 rest
    (first.1 :: more.1, more.2)
termination_by structural ts => ts

end

/-- The tree with variable number `d` renamed, wherever it is declared or used. -/
def renameVariable (d : Nat) (fresh : String) (t : Tree) : Tree :=
  (t.rename (.single d fresh) .start).1

end Tree

end StackCompiler
