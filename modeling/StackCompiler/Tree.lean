import StackCompiler.Diagnostic
import StackCompiler.Token

/-!
Syntax trees. A node is a tag, perhaps a token, and its children in order. The grammar gives every tag
one shape:

| tag | token | children |
|---|---|---|
| `program` | | `varDecl` or `funDecl`, one or more |
| `varDecl` | | `static`?, `typeSpec`, `varDeclInit`+ |
| `static` | `static` | |
| `typeSpec` | type keyword | |
| `varDeclInit` | | `varDeclId`, initializer? |
| `varDeclId` | name | array length as a `constant`? |
| `funDecl` | name | `typeSpec`?, `parms`, `compoundStmt` |
| `parms` | | `parmTypeList`* |
| `parmTypeList` | | `typeSpec`, `parmId`+ |
| `parmId` | name | `arrayMarker`? |
| `compoundStmt` | opening brace | `varDecl`*, statements |
| `expStmt` | `;` | expression? |
| `ifStmt` | `if` | condition, statement, statement? |
| `whileStmt` | `while` | condition, statement |
| `forStmt` | name | `iterRange`, statement |
| `iterRange` | | start, then end?, then step? |
| `returnStmt` | `return` | expression? |
| `breakStmt` | `break` | |
| `assign` | assignment operator | `mutable`, expression |
| `incDec` | `++` or `--` | `mutable` |
| `simpleExp` `andExp` `minMaxExp` `sumExp` `mulExp` | | operand, (`operator`, operand)+ |
| `relExp` | | operand, `operator`, operand |
| `notExp` | `not` or `!` | operand |
| `unaryExp` | unary operator | operand |
| `paren` | `(` | expression |
| `call` | name | arguments |
| `constant` | literal | |
| `mutable` | name | index? |

A chain of one operand is that operand. Trees of other shapes exist too; the queries below answer on
all of them.
-/

set_option autoImplicit false
namespace StackCompiler

inductive Tag where
  | program
  | varDecl
  | static
  | typeSpec
  | varDeclInit
  | varDeclId
  | funDecl
  | parms
  | parmTypeList
  | parmId
  | arrayMarker
  | compoundStmt
  | expStmt
  | ifStmt
  | whileStmt
  | forStmt
  | iterRange
  | returnStmt
  | breakStmt
  | assign
  | incDec
  | simpleExp
  | andExp
  | notExp
  | relExp
  | minMaxExp
  | sumExp
  | mulExp
  | unaryExp
  | operator
  | paren
  | call
  | constant
  | mutable
  deriving DecidableEq, Inhabited

namespace Tag

def all : List Tag :=
  [program, varDecl, static, typeSpec, varDeclInit, varDeclId, funDecl, parms, parmTypeList, parmId,
   arrayMarker, compoundStmt, expStmt, ifStmt, whileStmt, forStmt, iterRange, returnStmt, breakStmt,
   assign, incDec, simpleExp, andExp, notExp, relExp, minMaxExp, sumExp, mulExp, unaryExp, operator,
   paren, call, constant, mutable]

def name : Tag → String
  | program => "Program"
  | varDecl => "VarDecl"
  | static => "Static"
  | typeSpec => "TypeSpec"
  | varDeclInit => "VarDeclInit"
  | varDeclId => "VarDeclId"
  | funDecl => "FunDecl"
  | parms => "Parms"
  | parmTypeList => "ParmTypeList"
  | parmId => "ParmId"
  | arrayMarker => "ArrayMarker"
  | compoundStmt => "CompoundStmt"
  | expStmt => "ExpStmt"
  | ifStmt => "IfStmt"
  | whileStmt => "WhileStmt"
  | forStmt => "ForStmt"
  | iterRange => "IterRange"
  | returnStmt => "ReturnStmt"
  | breakStmt => "BreakStmt"
  | assign => "Assign"
  | incDec => "IncDec"
  | simpleExp => "SimpleExp"
  | andExp => "AndExp"
  | notExp => "NotExp"
  | relExp => "RelExp"
  | minMaxExp => "MinMaxExp"
  | sumExp => "SumExp"
  | mulExp => "MulExp"
  | unaryExp => "UnaryExp"
  | operator => "Operator"
  | paren => "Paren"
  | call => "Call"
  | constant => "Constant"
  | mutable => "Mutable"

def ofName? (name : String) : Option Tag :=
  all.find? fun tag => tag.name == name

end Tag

structure Tree where
  tag : Tag
  token : Option Token
  children : List Tree
  deriving Inhabited

namespace Tree

def inner (tag : Tag) (children : List Tree) : Tree :=
  ⟨tag, none, children⟩

def marked (tag : Tag) (token : Token) (children : List Tree) : Tree :=
  ⟨tag, some token, children⟩

/-- The line of the node's own token, else that of its first child, else zero. -/
def line : Tree → Nat
  | ⟨_, some token, _⟩ => token.line
  | ⟨_, none, []⟩ => 0
  | ⟨_, none, first :: _⟩ => first.line
termination_by structural t => t

def malformed (t : Tree) (problem : String) : Diagnostic :=
  .malformedTree problem t.line

def missing (t : Tree) (i : Nat) : Diagnostic :=
  t.malformed s!"{t.tag.name} has no child {i}"

def child (t : Tree) (i : Nat) : Except Diagnostic Tree :=
  match t.children[i]? with
  | some c => .ok c
  | none => .error (t.missing i)

def lexeme (t : Tree) : Except Diagnostic String :=
  match t.token with
  | some token => .ok token.lexeme
  | none => .error (t.malformed s!"{t.tag.name} carries no token")

def find? (t : Tree) (tag : Tag) : Option Tree :=
  t.children.find? fun c => c.tag == tag

mutual

def size : Tree → Nat
  | ⟨_, _, children⟩ => 1 + sizes children

def sizes : List Tree → Nat
  | [] => 0
  | t :: ts => t.size + sizes ts

end

end Tree

end StackCompiler
