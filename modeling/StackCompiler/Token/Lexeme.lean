import StackCompiler.Token

/-!
The lexeme at the front of a line. `classify c rest` says what kind of token the character `c` starts
when `rest` follows it, and how many characters of `rest` belong to that token: as many as any rule
allows. The first character always belongs to it.
-/

set_option autoImplicit false
namespace StackCompiler.Token

def isWordStart (c : Char) : Bool :=
  c.isAlpha || c == '_'

def isWordChar (c : Char) : Bool :=
  c.isAlphanum || c == '_'

def wordKind (word : List Char) : Kind :=
  if isKeywordText (String.ofList word) then .keyword else .identifier

/-- Characters after the first digit of a number: digits, then a point and digits if both are there. -/
def numberTail (rest : List Char) : Nat :=
  let whole := rest.takeWhile Char.isDigit
  match rest.dropWhile Char.isDigit with
  | '.' :: d :: more =>
    if d.isDigit then whole.length + 2 + (more.takeWhile Char.isDigit).length else whole.length
  | _ => whole.length

/-- A quote, one character that is no quote, a quote; otherwise the first quote stands alone. -/
def characterTail : List Char → Kind × Nat
  | c :: '\'' :: _ => if c = '\'' then (.bad, 0) else (.character, 2)
  | _ => (.bad, 0)

/-- Up to the next double quote of the line, which may be missing. -/
def stringTail (rest : List Char) : Kind × Nat :=
  let inside := rest.takeWhile (· != '"')
  if inside.length < rest.length then (.string, inside.length + 1) else (.bad, 0)

def longOperator? (text : List Char) : Option String :=
  longOperators.find? fun op => op.toList.isPrefixOf text

/-- An operator of several characters wins over a symbol or operator of one. -/
def punctuationTail (c : Char) (rest : List Char) : Kind × Nat :=
  match longOperator? (c :: rest) with
  | some op => (.operator, op.length - 1)
  | none =>
    if symbols.contains c then (.symbol, 0)
    else if charOperators.contains c then (.operator, 0)
    else (.bad, 0)

def classify (c : Char) (rest : List Char) : Kind × Nat :=
  if isWordStart c then
    let tail := rest.takeWhile isWordChar
    (wordKind (c :: tail), tail.length)
  else if c.isDigit then (.number, numberTail rest)
  else if c = '\'' then characterTail rest
  else if c = '"' then stringTail rest
  else punctuationTail c rest

end StackCompiler.Token
