/-!
Text as the compiler reads and writes it: the lines of a source, decimal numerals of 32-bit words, and
quoted characters and strings.
-/

set_option autoImplicit false
namespace StackCompiler.Text

/-! Lines. One carriage return directly before a line feed belongs to the line's end, any other is a
character of the line. -/

/-- The lines of a text, without their ends. A line feed at the very end opens no further line. -/
def lines : List Char → List (List Char)
  | [] => []
  | '\n' :: rest => [] :: lines rest
  | '\r' :: '\n' :: rest => [] :: lines rest
  | c :: rest =>
    match lines rest with
    | [] => [[c]]
    | line :: more => (c :: line) :: more

/-! Numerals: at most one sign, then at least one ASCII digit. -/

def digitsValue (digits : List Char) : Nat :=
  digits.foldl (fun n d => 10 * n + (d.toNat - '0'.toNat)) 0

def splitSign : List Char → Bool × List Char
  | '-' :: digits => (true, digits)
  | '+' :: digits => (false, digits)
  | digits => (false, digits)

def readInt? (numeral : List Char) : Option Int :=
  let (negative, digits) := splitSign numeral
  if digits ≠ [] ∧ digits.all Char.isDigit then
    let n : Int := digitsValue digits
    some (if negative then -n else n)
  else
    none

/-- The word a numeral denotes; `none` for other text and for numbers that do not fit. -/
def readWord? (numeral : String) : Option Int32 :=
  (readInt? numeral.toList).bind fun n =>
    if Int32.minValue.toInt ≤ n ∧ n ≤ Int32.maxValue.toInt then some (Int32.ofInt n) else none

/-! Quoted characters and strings. A backslash, the enclosing quote and the usual control characters are
written with a backslash, every other character that is not `printable` by its code point, the rest as
itself. -/

def codePoint (c : Char) : List Char :=
  "\\u\x7b".toList ++ Nat.toDigits 16 c.toNat ++ ['\x7d']

variable (printable : Char → Bool)

def escape (quote c : Char) : List Char :=
  if c = quote ∨ c = '\\' then ['\\', c]
  else if c = '\x00' then ['\\', '0']
  else if c = '\t' then ['\\', 't']
  else if c = '\n' then ['\\', 'n']
  else if c = '\r' then ['\\', 'r']
  else if printable c then [c]
  else codePoint c

def quoteWith (quote : Char) (text : List Char) : String :=
  String.ofList (quote :: text.flatMap (escape printable quote) ++ [quote])

def quoteChar (c : Char) : String :=
  quoteWith printable '\'' [c]

def quoteString (s : String) : String :=
  quoteWith printable '"' s.toList

end StackCompiler.Text
