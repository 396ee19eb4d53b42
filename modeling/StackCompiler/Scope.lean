import StackCompiler.Diagnostic
import StackCompiler.Ty

/-!
Nested scopes and the slots of variables.

Static slots are numbered over the whole program. Local and argument slots restart at zero in every
function; a block goes on where the scope around it stands and hands its local counter back when it is
left, so that every local of a function has a slot of its own.
-/

set_option autoImplicit false
namespace StackCompiler

/-- Where a variable lives. File-scope variables and `static` locals share the static slots. -/
inductive Storage where
  | static
  | local
  | arg
  deriving DecidableEq, Inhabited

structure Place where
  storage : Storage
  slot : Nat
  deriving DecidableEq, Inhabited

structure Symbol where
  name : String
  ty : Ty
  place : Place
  length : Option Nat
  line : Nat
  deriving DecidableEq, Inhabited

inductive ScopeKind where
  | file
  | function
  | block
  deriving DecidableEq, Inhabited

/-- The names of one scope, the latest first, and the next free slots of its frame. -/
structure Scope where
  kind : ScopeKind
  symbols : List Symbol
  nextLocal : Nat
  nextArg : Nat
  deriving DecidableEq, Inhabited

namespace Scope

def lookup? (s : Scope) (name : String) : Option Symbol :=
  s.symbols.find? fun symbol => symbol.name == name

def bind (s : Scope) (symbol : Symbol) : Scope :=
  { s with symbols := symbol :: s.symbols }

/-- The scope around a block, once the block `inner` is left. Other scopes hand nothing back. -/
def resume (outer inner : Scope) : Scope :=
  if inner.kind = .block ∧ outer.nextLocal < inner.nextLocal then
    { outer with nextLocal := inner.nextLocal }
  else
    outer

end Scope

/-- The open scopes, never none, with the types of all static slots and of the current local slots. -/
structure ScopeChain where
  innermost : Scope
  enclosing : List Scope
  statics : List Ty
  locals : List Ty
  deriving DecidableEq, Inhabited

namespace ScopeChain

def empty : ScopeChain :=
  ⟨⟨.file, [], 0, 0⟩, [], [], []⟩

def depth (c : ScopeChain) : Nat :=
  c.enclosing.length + 1

/-- Opens a scope. The depth before it is the handle to leave it with. -/
def enter (c : ScopeChain) (kind : ScopeKind) : ScopeChain :=
  match kind with
  | .block =>
    { c with
      innermost := ⟨.block, [], c.innermost.nextLocal, c.innermost.nextArg⟩
      enclosing := c.innermost :: c.enclosing }
  | .function | .file =>
    { c with
      innermost := ⟨kind, [], 0, 0⟩
      enclosing := c.innermost :: c.enclosing
      locals := [] }

/-- Leaves scopes until `depth` are open, but never the last one. -/
def leave (depth : Nat) (inner : Scope) : List Scope → Scope × List Scope
  | [] => (inner, [])
  | outer :: more =>
    if depth < more.length + 2 then leave depth (outer.resume inner) more else (inner, outer :: more)

def exit (c : ScopeChain) (handle : Nat) : ScopeChain :=
  let (innermost, enclosing) := leave handle c.innermost c.enclosing
  { c with innermost, enclosing }

/-- The symbol a name denotes here: the innermost scope that declares it decides. -/
def resolve? (c : ScopeChain) (name : String) : Option Symbol :=
  (c.innermost :: c.enclosing).findSome? fun scope => scope.lookup? name

def reserveStatic (c : ScopeChain) (ty : Ty) : Nat × ScopeChain :=
  (c.statics.length, { c with statics := c.statics ++ [ty] })

/-- Takes the next local slot. Its type is written over one left by an earlier use of the slot. -/
def reserveLocal (c : ScopeChain) (ty : Ty) : Nat × ScopeChain :=
  let slot := c.innermost.nextLocal
  (slot,
    { c with
      innermost := { c.innermost with nextLocal := slot + 1 }
      locals := if slot < c.locals.length then c.locals.set slot ty else c.locals ++ [ty] })

def reserveArg (c : ScopeChain) : Nat × ScopeChain :=
  let slot := c.innermost.nextArg
  (slot, { c with innermost := { c.innermost with nextArg := slot + 1 } })

def reserve (c : ScopeChain) (ty : Ty) : Storage → Nat × ScopeChain
  | .static => c.reserveStatic ty
  | .local => c.reserveLocal ty
  | .arg => c.reserveArg

/-- A slot without a name: static at file scope, local elsewhere. -/
def reserveTemp (c : ScopeChain) (ty : Ty) : Place × ScopeChain :=
  let storage : Storage := if c.depth = 1 then .static else .local
  let (slot, c) := c.reserve ty storage
  (⟨storage, slot⟩, c)

def declare (c : ScopeChain) (name : String) (ty : Ty) (storage : Storage) (length : Option Nat)
    (line : Nat) : Except Diagnostic (Nat × ScopeChain) :=
  if (c.innermost.lookup? name).isSome then
    .error (.duplicateDeclaration name line)
  else
    let (slot, c) := c.reserve ty storage
    .ok (slot, { c with innermost := c.innermost.bind ⟨name, ty, ⟨storage, slot⟩, length, line⟩ })

end ScopeChain

end StackCompiler
