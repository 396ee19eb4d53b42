/-!
Tokens: the kinds, the reserved words, the operators and the punctuation of the language.
-/

set_option autoImplicit false
namespace StackCompiler

inductive Kind where
  | keyword
  | identifier
  | number
  | character
  | string
  | operator
  | symbol
  /-- A character that starts no lexeme; the grammar has no place for it. -/
  | bad
  deriving DecidableEq, Inhabited

def Kind.name : Kind → String
  | keyword => "keyword"
  | identifier => "identifier"
  | number => "number"
  | character => "character"
  | string => "string"
  | operator => "operator"
  | symbol => "symbol"
  | bad => "bad token"

/-- The lexeme of a character or string constant includes its quotes; lines count from one. -/
structure Token where
  kind : Kind
  lexeme : String
  line : Nat
  deriving DecidableEq, Inhabited

namespace Token

/-- The reserved words, among them the truth values, which are therefore never identifiers. -/
def keywords : List String :=
  ["static", "int", "bool", "char", "string", "if", "then", "else", "while", "do", "for", "to",
   "by", "return", "break", "and", "or", "not", "true", "false"]

/-- The operators of two and three characters, the longest first. -/
def longOperators : List String :=
  [":>:", ":<:", "==", "!=", "<=", ">=", "+=", "-=", "*=", "/=", "++", "--", "&&", "||"]

def charOperators : List Char :=
  ['=', '<', '>', '+', '-', '*', '/', '%', '?', '!']

def symbols : List Char :=
  ['(', ')', '[', ']', '\x7b', '\x7d', ';', ',', ':']

def isKeywordText (word : String) : Bool :=
  keywords.contains word

def hasText (t : Token) (kind : Kind) (lexeme : String) : Bool :=
  t.kind == kind && t.lexeme == lexeme

def isKeyword (t : Token) (word : String) : Bool :=
  t.hasText .keyword word

def isSymbol (t : Token) (symbol : String) : Bool :=
  t.hasText .symbol symbol

def isOperator (t : Token) (operators : List String) : Bool :=
  t.kind == .operator && operators.contains t.lexeme

def isIdentifier (t : Token) : Bool :=
  t.kind == .identifier

def describe (t : Token) : String :=
  s!"{t.kind.name} '{t.lexeme}'"

end Token

end StackCompiler
