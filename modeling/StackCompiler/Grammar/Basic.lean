import StackCompiler.Tree

/-!
Reading a token list from the front. A production either yields a tree and the tokens behind it,
declines without having read anything, or fails at the first token that cannot be right.
-/

set_option autoImplicit false
namespace StackCompiler

namespace Grammar

inductive Expectation where
  | text (lexeme : String)
  | identifier
  | declaration
  | typeName
  | initializer
  | arrayLength
  | parameterType
  | statement
  | condition
  | rangeStart
  | rangeEnd
  | rangeStep
  | expression
  | operandAfter (operator : String)
  | argument
  | index
  deriving DecidableEq, Inhabited

def Expectation.describe : Expectation → String
  | text lexeme => s!"'{lexeme}'"
  | identifier => "identifier"
  | declaration => "declaration"
  | typeName => "type name"
  | initializer => "initializer expression"
  | arrayLength => "array length"
  | parameterType => "parameter type"
  | statement => "statement"
  | condition => "condition"
  | rangeStart => "range start"
  | rangeEnd => "range end"
  | rangeStep => "range step"
  | expression => "expression"
  | operandAfter operator => s!"operand after '{operator}'"
  | argument => "argument"
  | index => "index expression"

/-- The grammar asks for one thing and finds another token, or the end of input. -/
structure Unexpected where
  expected : Expectation
  found : Option Token
  deriving DecidableEq, Inhabited

/-- The end of input is reported on the last line of the source. -/
def Unexpected.diagnostic (u : Unexpected) (lastLine : Nat) : Diagnostic :=
  match u.found with
  | some t => .unexpected u.expected.describe s!"'{t.lexeme}'" t.line
  | none => .unexpected u.expected.describe "end of input" lastLine

/-- A value read from the front of some tokens, and the tokens behind it, fewer than `n`. -/
@[ext]
structure Read (α : Type) (n : Nat) where
  value : α
  rest : List Token
  shorter : rest.length < n

theorem Read.rest_length {α : Type} {n : Nat} (r : Read α n) : r.rest.length < n :=
  r.shorter

grind_pattern Read.rest_length => r.rest

namespace Read

def map {α β : Type} {n : Nat} (f : α → β) (r : Read α n) : Read β n :=
  ⟨f r.value, r.rest, r.shorter⟩

/-- What is read behind `r`, as read from where `r` began. -/
def andThen {α β : Type} {n : Nat} (r : Read α n) (s : Read β r.rest.length) : Read β n :=
  ⟨s.value, s.rest, Nat.lt_trans s.shorter r.shorter⟩

def andMaybe {α β : Type} {n : Nat} (r : Read α n) (s : Read β (r.rest.length + 1)) : Read β n :=
  ⟨s.value, s.rest, Nat.lt_of_le_of_lt (Nat.le_of_lt_succ s.shorter) r.shorter⟩

def maybeThen {α β : Type} {n : Nat} (r : Read α (n + 1)) (s : Read β r.rest.length) : Read β n :=
  ⟨s.value, s.rest, Nat.lt_of_lt_of_le s.shorter (Nat.le_of_lt_succ r.shorter)⟩

def maybe {α : Type} {n : Nat} (r : Read α n) : Read α (n + 1) :=
  ⟨r.value, r.rest, Nat.lt_succ_of_lt r.shorter⟩

def nothing {α : Type} (value : α) (ts : List Token) : Read α (ts.length + 1) :=
  ⟨value, ts, Nat.lt_succ_self _⟩

def cons {α : Type} {first : Token} {ts : List Token} (r : Read α ts.length) :
    Read α (first :: ts).length :=
  ⟨r.value, r.rest, Nat.lt_succ_of_lt r.shorter⟩

@[simp] theorem value_map {α β : Type} {n : Nat} (f : α → β) (r : Read α n) :
    (r.map f).value = f r.value := rfl

@[simp] theorem rest_map {α β : Type} {n : Nat} (f : α → β) (r : Read α n) :
    (r.map f).rest = r.rest := rfl

@[simp] theorem value_andThen {α β : Type} {n : Nat} (r : Read α n) (s : Read β r.rest.length) :
    (r.andThen s).value = s.value := rfl

@[simp] theorem rest_andThen {α β : Type} {n : Nat} (r : Read α n) (s : Read β r.rest.length) :
    (r.andThen s).rest = s.rest := rfl

end Read

/-- What a production makes of `n` tokens: a tree, or nothing because it does not apply here. -/
abbrev Outcome (n : Nat) :=
  Except Unexpected (Option (Read Tree n))

def eat? (p : Token → Bool) : (ts : List Token) → Option (Read Token ts.length)
  | [] => none
  | t :: ts => if p t then some (.nothing t ts) else none

def expect (e : Expectation) (p : Token → Bool) (ts : List Token) :
    Except Unexpected (Read Token ts.length) :=
  match eat? p ts with
  | some r => .ok r
  | none => .error ⟨e, ts.head?⟩

def expectSymbol (symbol : String) : (ts : List Token) → Except Unexpected (Read Token ts.length) :=
  expect (.text symbol) (·.isSymbol symbol)

def expectKeyword (word : String) : (ts : List Token) → Except Unexpected (Read Token ts.length) :=
  expect (.text word) (·.isKeyword word)

def expectIdentifier : (ts : List Token) → Except Unexpected (Read Token ts.length) :=
  expect .identifier Token.isIdentifier

def required (e : Expectation) (ts : List Token) (o : Outcome ts.length) :
    Except Unexpected (Read Tree ts.length) :=
  match o with
  | .ok (some r) => .ok r
  | .ok none => .error ⟨e, ts.head?⟩
  | .error u => .error u

end Grammar

end StackCompiler
