import StackCompiler.Proofs.Grammar.Spelling
import StackCompiler.Proofs.Token.Partition

/-!
The words of a text, read off its characters one after the other. The text is cut into lines before it
is read, but a line feed counts as a blank and a carriage return before it too, so that the words of a
text follow from those of its rest, in a comment and outside.
-/

set_option autoImplicit false
namespace StackCompiler

open Token (LongestMatch)

def Text.toLineEnd (text : List Char) : List Char :=
  text.takeWhile (· != '\n')

theorem Text.toLineEnd_front (text : List Char) : toLineEnd text <+: text :=
  List.takeWhile_prefix _

theorem Text.mem_toLineEnd {c : Char} {text : List Char} (h : c ∈ toLineEnd text) :
    (c != '\n') = true :=
  List.mem_takeWhile_imp (p := fun c => c != '\n') h

/-! Lines, character by character. -/

namespace Text

def firstLine (text : List Char) : List Char :=
  (lines text).headD []

def otherLines (text : List Char) : List (List Char) :=
  (lines text).tail

@[simp] theorem lines_lineFeed (text : List Char) : lines ('\n' :: text) = [] :: lines text := by
  rw [lines]

theorem lines_carriageReturn (text : List Char) : lines ('\r' :: '\n' :: text) = lines ('\n' :: text) := by
  rw [lines, lines]

theorem lines_cons {c : Char} {text : List Char} (hc : c ≠ '\n')
    (hend : c = '\r' → text.head? ≠ some '\n') :
    lines (c :: text) = (c :: firstLine text) :: otherLines text := by
  rw [lines.eq_def]
  split
  next => contradiction
  next heq =>
    cases heq
    exact absurd rfl hc
  next heq =>
    cases heq
    exact absurd rfl (hend rfl)
  next heq =>
    cases heq
    unfold firstLine otherLines
    split
    next hnil => rw [hnil]; rfl
    next hcons => rw [hcons]; rfl

theorem firstLine_cons {c : Char} {text : List Char} (hc : c ≠ '\n')
    (hend : c = '\r' → text.head? ≠ some '\n') : firstLine (c :: text) = c :: firstLine text := by
  rw [firstLine, lines_cons hc hend, List.headD_cons]

theorem otherLines_cons {c : Char} (hc : c ≠ '\n') (text : List Char) :
    otherLines (c :: text) = otherLines text := by
  by_cases hend : c = '\r' ∧ text.head? = some '\n'
  · obtain ⟨rfl, hhead⟩ := hend
    obtain ⟨more, rfl⟩ := List.head?_eq_some_iff.1 hhead
    rw [otherLines, lines_carriageReturn, otherLines]
  · rw [otherLines, lines_cons hc fun h h' => hend ⟨h, h'⟩, List.tail_cons]

theorem otherLines_append {inside : List Char} (h : '\n' ∉ inside) (text : List Char) :
    otherLines (inside ++ text) = otherLines text := by
  induction inside with
  | nil => rfl
  | cons c inside ih =>
    rw [List.mem_cons, not_or] at h
    rw [List.cons_append, otherLines_cons (Ne.symm h.1), ih h.2]

/-- The first line ends where the text says, or a carriage return earlier. -/
theorem firstLine_front (text : List Char) : firstLine text <+: toLineEnd text := by
  induction text with
  | nil => exact List.nil_prefix
  | cons c text ih =>
    by_cases hc : c = '\n'
    · subst hc
      exact List.nil_prefix
    by_cases hend : c = '\r' ∧ text.head? = some '\n'
    · obtain ⟨rfl, hhead⟩ := hend
      obtain ⟨more, rfl⟩ := List.head?_eq_some_iff.1 hhead
      rw [firstLine, lines_carriageReturn, lines_lineFeed]
      exact List.nil_prefix
    · rw [firstLine_cons hc fun h h' => hend ⟨h, h'⟩, toLineEnd,
        List.takeWhile_cons_of_pos (by simpa using hc)]
      exact List.cons_prefix_cons.2 ⟨rfl, ih⟩

theorem firstLine_append {lexeme : List Char} (h : '\n' ∉ lexeme) (hlast : lexeme.getLast? ≠ some '\r')
    (text : List Char) : firstLine (lexeme ++ text) = lexeme ++ firstLine text := by
  induction lexeme with
  | nil => rfl
  | cons c lexeme ih =>
    rw [List.mem_cons, not_or] at h
    have hend : c = '\r' → (lexeme ++ text).head? ≠ some '\n' := by
      rintro rfl
      cases lexeme with
      | nil => exact absurd rfl hlast
      | cons d lexeme => simpa using fun hd : d = '\n' => h.2 (by simp [hd])
    have hlast' : lexeme.getLast? ≠ some '\r' := by
      cases lexeme with
      | nil => simp
      | cons d lexeme => simpa using hlast
    rw [List.cons_append, firstLine_cons (Ne.symm h.1) hend, ih h.2 hlast', List.cons_append]

end Text

open Text

/-! The words of a text do not depend on the number of its first line. -/

/-- Positions with the same text ahead, in lines of perhaps different numbers. -/
structure SameText (c c' : Cursor) : Prop where
  comment : c.inComment = c'.inComment
  ahead : c.ahead = c'.ahead

theorem sameText_skipLines (n m : Nat) (open? : Bool) (lines : List (List Char)) :
    SameText (Cursor.skipLines n open? lines) (Cursor.skipLines m open? lines) := by
  induction lines generalizing n m open? with
  | nil => exact ⟨rfl, rfl⟩
  | cons first more ih =>
    rw [Cursor.skipLines, Cursor.skipLines]
    split
    next => exact ih _ _ _
    next => exact ⟨rfl, rfl⟩

namespace SameText

variable {c c' : Cursor}

theorem skipTrivia (h : SameText c c') : SameText c.skipTrivia c'.skipTrivia := by
  rw [Cursor.skipTrivia, Cursor.skipTrivia, h.comment, h.ahead]
  exact sameText_skipLines _ _ _ _

theorem read (h : SameText c c') :
    c.read.1.map Token.word = c'.read.1.map Token.word ∧ SameText c.read.2 c'.read.2 := by
  obtain ⟨n, open?, lines⟩ := c
  obtain ⟨m, open', lines'⟩ := c'
  obtain ⟨hcomment, hahead⟩ := h
  cases hcomment
  cases hahead
  match lines with
  | [] => exact ⟨rfl, rfl, rfl⟩
  | [] :: more => exact ⟨rfl, rfl, rfl⟩
  | (d :: text) :: more => exact ⟨rfl, rfl, rfl⟩

theorem words (h : SameText c c') : c.tokens.map Token.word = c'.tokens.map Token.word := by
  induction c using Cursor.tokens.induct generalizing c' with
  | case1 c t d hnext ih =>
    obtain ⟨hword, hsame⟩ := h.skipTrivia.read
    change c.next.1.map Token.word = c'.next.1.map Token.word at hword
    change SameText c.next.2 c'.next.2 at hsame
    rw [hnext] at hword hsame
    obtain ⟨t', ht', hword⟩ := Option.map_eq_some_iff.1 hword.symm
    have hnext' : c'.next = (some t', c'.next.2) := by rw [← ht']
    rw [Cursor.tokens, hnext, Cursor.tokens, hnext', List.map_cons, List.map_cons, hword, ih hsame]
  | case2 c d hnext =>
    obtain ⟨hword, -⟩ := h.skipTrivia.read
    change c.next.1.map Token.word = c'.next.1.map Token.word at hword
    rw [hnext] at hword
    have hnext' : c'.next = (none, c'.next.2) := by rw [← Option.map_eq_none_iff.1 hword.symm]
    rw [Cursor.tokens, hnext, Cursor.tokens, hnext']

end SameText

/-- The words of a text, given whether a comment is open at its start. -/
def wordsOf (open? : Bool) (text : List Char) : List Word :=
  (Cursor.tokens ⟨0, open?, firstLine text :: otherLines text⟩).map Token.word

theorem words_lines (n : Nat) (open? : Bool) (text : List Char) :
    (Cursor.tokens ⟨n, open?, lines text⟩).map Token.word = wordsOf open? text := by
  rw [wordsOf, firstLine, otherLines]
  cases lines text with
  | nil =>
    rw [Cursor.tokens_nil, ← Cursor.tokens_nil 1 open?]
    exact congrArg (List.map Token.word) (Cursor.tokens_congr (Cursor.skipLines_nil 0 open? []).symm)
  | cons first more => exact SameText.words ⟨rfl, rfl⟩

theorem words_tokenize (source : String) :
    (tokenize source).map Token.word = wordsOf false source.toList :=
  words_lines 0 false source.toList

/-! How the words of a text follow from those of its rest. -/

theorem wordsOf_lineFeed (open? : Bool) (text : List Char) :
    wordsOf open? ('\n' :: text) = wordsOf open? text := by
  rw [← words_lines 1 open? text]
  exact congrArg (List.map Token.word) (Cursor.tokens_congr (Cursor.skipLines_nil 0 open? (lines text)))

theorem wordsOf_carriageReturn (open? : Bool) (text : List Char) :
    wordsOf open? ('\r' :: '\n' :: text) = wordsOf open? ('\n' :: text) := by
  rw [wordsOf, firstLine, otherLines, lines_carriageReturn]
  rfl

/-- A character that is skipped within its line. -/
theorem wordsOf_skip {c : Char} {text : List Char} {open? open' : Bool} (hc : c ≠ '\n')
    (hend : c = '\r' → text.head? ≠ some '\n')
    (h : Cursor.skipInLine open? (c :: firstLine text) = Cursor.skipInLine open' (firstLine text)) :
    wordsOf open? (c :: text) = wordsOf open' text := by
  rw [wordsOf, firstLine_cons hc hend, otherLines_cons hc]
  exact congrArg (List.map Token.word) (Cursor.tokens_congr (Cursor.skipLines_congr h 0 _))

theorem wordsOf_blank {c : Char} (h : c = ' ' ∨ c = '\t' ∨ c = '\r' ∨ c = '\n') (text : List Char) :
    wordsOf false (c :: text) = wordsOf false text := by
  by_cases hc : c = '\n'
  · rw [hc, wordsOf_lineFeed]
  have hblank : c = ' ' ∨ c = '\t' ∨ c = '\r' := by simpa [hc] using h
  by_cases hend : c = '\r' ∧ text.head? = some '\n'
  · obtain ⟨rfl, hhead⟩ := hend
    obtain ⟨more, rfl⟩ := List.head?_eq_some_iff.1 hhead
    exact wordsOf_carriageReturn _ more
  · exact wordsOf_skip hc (fun h h' => hend ⟨h, h'⟩) (Cursor.skipInLine_blank hblank _)

theorem wordsOf_openComment (text : List Char) :
    wordsOf false ('/' :: '*' :: text) = wordsOf true text := by
  rw [wordsOf, firstLine_cons (by decide) (by simp), firstLine_cons (by decide) (by simp),
    otherLines_cons (by decide), otherLines_cons (by decide)]
  exact congrArg (List.map Token.word) (Cursor.tokens_congr (Cursor.skipLines_congr rfl 0 _))

theorem wordsOf_closeComment (text : List Char) :
    wordsOf true ('*' :: '/' :: text) = wordsOf false text := by
  rw [wordsOf, firstLine_cons (by decide) (by simp), firstLine_cons (by decide) (by simp),
    otherLines_cons (by decide), otherLines_cons (by decide)]
  exact congrArg (List.map Token.word) (Cursor.tokens_congr (Cursor.skipLines_congr rfl 0 _))

theorem firstLine_head {c : Char} {text : List Char} (h : (firstLine text).head? = some c) :
    text.head? = some c := by
  obtain ⟨more, hmore⟩ := List.head?_eq_some_iff.1 h
  obtain ⟨after, hafter⟩ := firstLine_front text
  obtain ⟨rest, hrest⟩ := List.takeWhile_prefix (l := text) (· != '\n')
  rw [hmore] at hafter
  rw [toLineEnd] at hafter
  rw [← hrest, ← hafter]
  rfl

theorem wordsOf_inComment {c : Char} {text : List Char} (h : c = '*' → text.head? ≠ some '/') :
    wordsOf true (c :: text) = wordsOf true text := by
  by_cases hc : c = '\n'
  · rw [hc, wordsOf_lineFeed]
  by_cases hend : c = '\r' ∧ text.head? = some '\n'
  · obtain ⟨rfl, hhead⟩ := hend
    obtain ⟨more, rfl⟩ := List.head?_eq_some_iff.1 hhead
    exact wordsOf_carriageReturn _ more
  · refine wordsOf_skip hc (fun h h' => hend ⟨h, h'⟩) (Cursor.skipInLine_comment ?_)
    exact fun hstar hslash => h hstar (firstLine_head hslash)

theorem wordsOf_comment {inside : List Char} (h : Unclosed (inside ++ ['*'])) (text : List Char) :
    wordsOf true (inside ++ '*' :: '/' :: text) = wordsOf false text := by
  induction inside with
  | nil => exact wordsOf_closeComment text
  | cons c inside ih =>
    rw [List.cons_append, unclosed_cons_iff] at h
    have hhead : c = '*' → (inside ++ '*' :: '/' :: text).head? ≠ some '/' := by
      cases inside with
      | nil => simp
      | cons d inside => simpa using h.1
    rw [List.cons_append, wordsOf_inComment hhead, ih h.2]

theorem wordsOf_blockComment {inside : List Char} (h : Unclosed (inside ++ ['*'])) (text : List Char) :
    wordsOf false ('/' :: '*' :: (inside ++ '*' :: '/' :: text)) = wordsOf false text := by
  rw [wordsOf_openComment, wordsOf_comment h]

theorem firstLine_of_lineEnd {text : List Char} (h : text = [] ∨ text.head? = some '\n') :
    firstLine text = [] := by
  rcases h with rfl | hhead
  · rfl
  · obtain ⟨more, rfl⟩ := List.head?_eq_some_iff.1 hhead
    rw [firstLine, lines_lineFeed]
    rfl

theorem wordsOf_lineComment {inside text : List Char} (h : '\n' ∉ inside)
    (hend : text = [] ∨ text.head? = some '\n') :
    wordsOf false ('/' :: '/' :: (inside ++ text)) = wordsOf false text := by
  rw [wordsOf, wordsOf, firstLine_cons (by decide) (by simp), firstLine_cons (by decide) (by simp),
    otherLines_cons (by decide), otherLines_cons (by decide), otherLines_append h, firstLine_of_lineEnd hend]
  exact congrArg (List.map Token.word) (Cursor.tokens_congr (Cursor.skipLines_congr rfl 0 _))

theorem StartsTrivia.mono {text text' : List Char} (h : StartsTrivia text) (hle : text <+: text') :
    StartsTrivia text' := by
  rcases h with ⟨c, hc, hblank⟩ | h | h
  · obtain ⟨more, rfl⟩ := List.head?_eq_some_iff.1 hc
    obtain ⟨after, rfl⟩ := hle
    exact .inl ⟨c, rfl, hblank⟩
  · exact .inr (.inl (h.trans hle))
  · exact .inr (.inr (h.trans hle))

theorem Token.LongestMatch.last_ne {text rest : List Char} {kind : Kind} {lexeme : List Char}
    (h : LongestMatch text kind lexeme) (start : ¬ StartsTrivia (lexeme ++ rest)) :
    lexeme.getLast? ≠ some '\r' := by
  cases h with
  | lexeme valid => exact valid.last_ne (.inr (.inr rfl))
  | bad =>
    intro hlast
    cases hlast
    exact start (.inl ⟨'\r', rfl, .inr (.inr rfl)⟩)

theorem wordsOf_token {kind : Kind} {lexeme text : List Char} (start : ¬ StartsTrivia (lexeme ++ text))
    (longest : LongestMatch (toLineEnd (lexeme ++ text)) kind lexeme) :
    wordsOf false (lexeme ++ text) = ⟨kind, String.ofList lexeme⟩ :: wordsOf false text := by
  have hline : '\n' ∉ lexeme := by
    intro hmem
    have hne := mem_toLineEnd (longest.front.subset hmem)
    simp at hne
  have hfirst := firstLine_append hline (longest.last_ne start) text
  have hle : firstLine (lexeme ++ text) <+: toLineEnd (lexeme ++ text) := firstLine_front _
  have hlongest : LongestMatch (lexeme ++ firstLine text) kind lexeme := by
    rw [hfirst] at hle
    have hfront : lexeme <+: lexeme ++ firstLine text := List.prefix_append _ _
    exact longest.mono hfront hle
  have hstart : ¬ StartsTrivia (lexeme ++ firstLine text) := by
    rw [← hfirst]
    exact fun h => start (h.mono (hle.trans (toLineEnd_front _)))
  rw [wordsOf, hfirst, otherLines_append hline, Cursor.tokens_token hstart hlongest]
  rfl

end StackCompiler
