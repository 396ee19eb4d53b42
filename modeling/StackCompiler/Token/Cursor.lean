import StackCompiler.Text
import StackCompiler.Token.Lexeme

/-!
Reading positions. A cursor holds the part of the source that is still ahead, so looking ahead and
going back are uses of an earlier cursor. Blanks and comments between tokens are skipped line by line;
a block comment may stay open over the end of a line.
-/

set_option autoImplicit false
namespace StackCompiler

/-- `ahead` starts with the unread part of the current line and is empty past the last line. `line`
counts the lines before the current one. -/
structure Cursor where
  line : Nat
  inComment : Bool
  ahead : List (List Char)
  deriving DecidableEq, Inhabited

namespace Cursor

def start (source : String) : Cursor :=
  ⟨0, false, Text.lines source.toList⟩

def isBlank (c : Char) : Bool :=
  c == ' ' || c == '\t' || c == '\r'

/-- Skips blanks and comments within one line, given whether a block comment is open. What is left
starts with a token, or is empty; then the first result says whether a comment is still open. -/
def skipInLine : Bool → List Char → Bool × List Char
  | open?, [] => (open?, [])
  | true, '*' :: '/' :: rest => skipInLine false rest
  | true, _ :: rest => skipInLine true rest
  | false, '/' :: '/' :: _ => (false, [])
  | false, '/' :: '*' :: rest => skipInLine true rest
  | false, c :: rest => if isBlank c then skipInLine false rest else (false, c :: rest)

def skipLines (line : Nat) (open? : Bool) : List (List Char) → Cursor
  | [] => ⟨line, open?, []⟩
  | first :: more =>
    match skipInLine open? first with
    | (open?, []) => skipLines (line + 1) open? more
    | (open?, text) => ⟨line, open?, text :: more⟩

def skipTrivia (c : Cursor) : Cursor :=
  skipLines c.line c.inComment c.ahead

def read (c : Cursor) : Option Token × Cursor :=
  match c.ahead with
  | (first :: rest) :: more =>
    let (kind, tail) := Token.classify first rest
    (some ⟨kind, String.ofList (first :: rest.take tail), c.line + 1⟩,
      { c with ahead := rest.drop tail :: more })
  | _ => (none, c)

/-- The next token and the position behind it; at the end, the position past the last line. -/
def next (c : Cursor) : Option Token × Cursor :=
  c.skipTrivia.read

def peek (c : Cursor) : (k : Nat) → Option Token
  | 0 => c.next.1
  | k + 1 => if c.next.1.isSome then c.next.2.peek k else none

/-- The number of the current line, at the end that of the last line, and never zero. -/
def lineNumber (c : Cursor) : Nat :=
  if c.ahead = [] ∧ c.line ≠ 0 then c.line else c.line + 1

/-- The number of characters in lines, every line counted as one more. -/
def volume : List (List Char) → Nat
  | [] => 0
  | text :: more => text.length + 1 + volume more

theorem skipInLine_length (open? : Bool) (text : List Char) :
    (skipInLine open? text).2.length ≤ text.length := by
  fun_induction skipInLine open? text with
  | case1 open? => exact Nat.le_refl _
  | case2 rest ih => simp only [List.length_cons]; omega
  | case3 c rest _ ih => simp only [List.length_cons]; omega
  | case4 rest => exact Nat.zero_le _
  | case5 rest ih => simp only [List.length_cons]; omega
  | case6 c rest _ _ _ ih => simp only [List.length_cons]; omega
  | case7 c rest => exact Nat.le_refl _

theorem skipLines_volume (line : Nat) (open? : Bool) (ahead : List (List Char)) :
    volume (skipLines line open? ahead).ahead ≤ volume ahead := by
  fun_induction skipLines line open? ahead with
  | case1 line open? => exact Nat.le_refl _
  | case2 line open? first more open' h ih =>
    simp only [volume]
    omega
  | case3 line open? first more open' text _ h =>
    have hle := skipInLine_length open? first
    simp only [h] at hle
    simp only [volume]
    omega

theorem read_volume {c c' : Cursor} {t : Token} (h : c.read = (some t, c')) :
    volume c'.ahead < volume c.ahead := by
  unfold read at h
  split at h
  next first rest more heq =>
    obtain ⟨-, rfl⟩ := Prod.mk.injEq .. ▸ h
    simp only [heq, volume, List.length_cons, List.length_drop]
    omega
  next => simp at h

/-- A token takes at least one character. -/
theorem next_volume {c c' : Cursor} {t : Token} (h : c.next = (some t, c')) :
    volume c'.ahead < volume c.ahead :=
  Nat.lt_of_lt_of_le (read_volume h) (skipLines_volume c.line c.inComment c.ahead)

def tokens (c : Cursor) : List Token :=
  match _ : c.next with
  | (some t, c') => t :: c'.tokens
  | (none, _) => []
termination_by volume c.ahead
decreasing_by exact next_volume (by assumption)

/-- The position past the last line, where every further reading stays. -/
def finish (c : Cursor) : Cursor :=
  match _ : c.next with
  | (some _, c') => c'.finish
  | (none, c') => c'
termination_by volume c.ahead
decreasing_by exact next_volume (by assumption)

end Cursor

def tokenize (source : String) : List Token :=
  (Cursor.start source).tokens

end StackCompiler
