import StackCompiler.Proofs.Token.LongestMatch
import StackCompiler.Token.Cursor

/-!
A source is divided into trivia and tokens. `Divides n lines pieces` says how the characters of some
lines, the first of them with the number `n`, fall into pieces: blanks, comments, and at every other
place the longest match. Reading tokens one by one yields the tokens of this division.
-/

set_option autoImplicit false
namespace StackCompiler

open Token (LongestMatch)

inductive Piece where
  | trivia (text : List Char)
  | token (t : Token)

namespace Piece

def text : Piece → List Char
  | trivia text => text
  | token t => t.lexeme.toList

def token? : Piece → Option Token
  | trivia _ => none
  | token t => some t

end Piece

def Unclosed (text : List Char) : Prop :=
  ¬ ['*', '/'] <:+: text

def StartsTrivia (text : List Char) : Prop :=
  (∃ c ∈ text.head?, c = ' ' ∨ c = '\t' ∨ c = '\r') ∨ ['/', '/'] <+: text ∨ ['/', '*'] <+: text

inductive Divides : Nat → List (List Char) → List Piece → Prop where
  | done {n : Nat} : Divides n [] []
  | nextLine {n : Nat} {more : List (List Char)} {pieces : List Piece}
      (rest : Divides (n + 1) more pieces) : Divides n ([] :: more) pieces
  | blank {n : Nat} {c : Char} {text : List Char} {more : List (List Char)} {pieces : List Piece}
      (isBlank : c = ' ' ∨ c = '\t' ∨ c = '\r') (rest : Divides n (text :: more) pieces) :
      Divides n ((c :: text) :: more) (.trivia [c] :: pieces)
  | lineComment {n : Nat} {text : List Char} {more : List (List Char)} {pieces : List Piece}
      (rest : Divides (n + 1) more pieces) :
      Divides n (('/' :: '/' :: text) :: more) (.trivia ('/' :: '/' :: text) :: pieces)
  /-- The comment takes `inside`, the rest of its first line and further lines, and ends in the line
  behind them, at the first `*/`. -/
  | blockComment {n : Nat} {first last text : List Char} {lines inside more : List (List Char)}
      {pieces : List Piece}
      (split : first :: lines = inside ++ (last ++ '*' :: '/' :: text) :: more)
      (unclosed : ∀ line ∈ inside, Unclosed line) (closing : Unclosed (last ++ ['*']))
      (rest : Divides (n + inside.length) (text :: more) pieces) :
      Divides n (('/' :: '*' :: first) :: lines)
        (.trivia ('/' :: '*' :: inside.flatten ++ last ++ ['*', '/']) :: pieces)
  | openComment {n : Nat} {first : List Char} {lines : List (List Char)}
      (unclosed : ∀ line ∈ first :: lines, Unclosed line) :
      Divides n (('/' :: '*' :: first) :: lines) [.trivia ('/' :: '*' :: first ++ lines.flatten)]
  | token {n : Nat} {kind : Kind} {lexeme text : List Char} {more : List (List Char)}
      {pieces : List Piece} (start : ¬ StartsTrivia (lexeme ++ text))
      (longest : LongestMatch (lexeme ++ text) kind lexeme) (rest : Divides n (text :: more) pieces) :
      Divides n ((lexeme ++ text) :: more) (.token ⟨kind, String.ofList lexeme, n⟩ :: pieces)

theorem unclosed_cons_iff {c : Char} {text : List Char} :
    Unclosed (c :: text) ↔ (c = '*' → text.head? ≠ some '/') ∧ Unclosed text := by
  unfold Unclosed
  rw [List.infix_cons_iff, not_or, List.cons_prefix_cons, not_and]
  refine and_congr_left' ?_
  constructor
  · rintro h rfl hhead
    obtain ⟨more, rfl⟩ := List.head?_eq_some_iff.1 hhead
    exact h rfl ⟨more, rfl⟩
  · rintro h rfl ⟨more, rfl⟩
    exact h rfl rfl

/-- A text ends a comment nowhere, or at a first place. -/
theorem unclosed_or_split (text : List Char) :
    Unclosed text ∨ ∃ last rest, text = last ++ '*' :: '/' :: rest ∧ Unclosed (last ++ ['*']) := by
  induction text with
  | nil => exact .inl (by simp [Unclosed])
  | cons c text ih =>
    by_cases hclose : c = '*' ∧ text.head? = some '/'
    · obtain ⟨rfl, hhead⟩ := hclose
      obtain ⟨rest, rfl⟩ := List.head?_eq_some_iff.1 hhead
      exact .inr ⟨[], rest, rfl, by simp [Unclosed, List.infix_cons_iff]⟩
    have hhead : c = '*' → text.head? ≠ some '/' := by
      rintro hc hhead
      exact hclose ⟨hc, hhead⟩
    rcases ih with hnone | ⟨last, rest, rfl, hlast⟩
    · exact .inl (unclosed_cons_iff.2 ⟨hhead, hnone⟩)
    · refine .inr ⟨c :: last, rest, rfl, unclosed_cons_iff.2 ⟨?_, hlast⟩⟩
      cases last with
      | nil => simp
      | cons d last => simpa using hhead

namespace Cursor

/-! Skipping trivia, in one line and over several. -/

/-- Within a comment, a character that does not end it is skipped. -/
theorem skipInLine_comment {c : Char} {text : List Char} (h : c = '*' → text.head? ≠ some '/') :
    skipInLine true (c :: text) = skipInLine true text := by
  rw [skipInLine.eq_def]
  split
  next => contradiction
  next heq =>
    cases heq
    exact absurd rfl (h rfl)
  next heq =>
    cases heq
    rfl
  next => contradiction
  next => contradiction
  next => contradiction

theorem skipInLine_unclosed {text : List Char} (h : Unclosed text) :
    skipInLine true text = (true, []) := by
  induction text with
  | nil => rfl
  | cons c text ih =>
    rw [unclosed_cons_iff] at h
    rw [skipInLine_comment h.1, ih h.2]

/-- A comment ends at the first place where it can. -/
theorem skipInLine_closed {last : List Char} (h : Unclosed (last ++ ['*'])) (text : List Char) :
    skipInLine true (last ++ '*' :: '/' :: text) = skipInLine false text := by
  induction last with
  | nil => rfl
  | cons c last ih =>
    rw [List.cons_append, unclosed_cons_iff] at h
    have hhead : c = '*' → (last ++ '*' :: '/' :: text).head? ≠ some '/' := by
      cases last with
      | nil => simp
      | cons d last => simpa using h.1
    rw [List.cons_append, skipInLine_comment hhead, ih h.2]

theorem skipInLine_blank {c : Char} (h : c = ' ' ∨ c = '\t' ∨ c = '\r') (text : List Char) :
    skipInLine false (c :: text) = skipInLine false text := by
  rcases h with rfl | rfl | rfl <;> rfl

/-- Nothing is skipped in front of a token. -/
theorem skipInLine_token {c : Char} {text : List Char} (h : ¬ StartsTrivia (c :: text)) :
    skipInLine false (c :: text) = (false, c :: text) := by
  have hblank : isBlank c = false := by
    rw [Bool.eq_false_iff]
    intro hc
    refine h (.inl ⟨c, rfl, ?_⟩)
    simpa [isBlank, or_assoc] using hc
  rw [skipInLine.eq_def]
  split
  next => contradiction
  next => contradiction
  next => contradiction
  next heq =>
    cases heq
    exact absurd (.inr (.inl ⟨_, rfl⟩)) h
  next heq =>
    cases heq
    exact absurd (.inr (.inr ⟨_, rfl⟩)) h
  next heq =>
    cases heq
    rw [if_neg (by simp [hblank])]

theorem skipLines_congr {open? open' : Bool} {text text' : List Char}
    (h : skipInLine open? text = skipInLine open' text') (n : Nat) (more : List (List Char)) :
    skipLines n open? (text :: more) = skipLines n open' (text' :: more) := by
  rw [skipLines, skipLines, h]

theorem skipLines_nil (n : Nat) (open? : Bool) (more : List (List Char)) :
    skipLines n open? ([] :: more) = skipLines (n + 1) open? more := by
  rw [skipLines, skipInLine]

theorem skipLines_unclosed {inside : List (List Char)} (h : ∀ line ∈ inside, Unclosed line) (n : Nat)
    (more : List (List Char)) :
    skipLines n true (inside ++ more) = skipLines (n + inside.length) true more := by
  induction inside generalizing n with
  | nil => rfl
  | cons line inside ih =>
    have hline : skipInLine true line = skipInLine true [] := skipInLine_unclosed (h line (by simp))
    rw [List.cons_append, skipLines_congr hline, skipLines_nil, ih fun line hmem => h line (by simp [hmem]),
      List.length_cons, Nat.add_assoc, Nat.add_comm 1]

/-! Tokens from a position on. -/

theorem tokens_congr {c c' : Cursor} (h : c.skipTrivia = c'.skipTrivia) : c.tokens = c'.tokens := by
  have hnext : c.next = c'.next := by rw [next, next, h]
  rw [tokens, tokens, hnext]

theorem tokens_nil (n : Nat) (open? : Bool) : tokens ⟨n, open?, []⟩ = [] := by
  rw [tokens]
  rfl

theorem read_longest {kind : Kind} {lexeme text : List Char}
    (h : LongestMatch (lexeme ++ text) kind lexeme) (n : Nat) (open? : Bool) (more : List (List Char)) :
    read ⟨n, open?, (lexeme ++ text) :: more⟩ =
      (some ⟨kind, String.ofList lexeme, n + 1⟩, ⟨n, open?, text :: more⟩) := by
  obtain ⟨c, tail, rfl⟩ := List.exists_cons_of_ne_nil h.ne_nil
  obtain ⟨hkind, htake⟩ := (Token.classify_longest c (tail ++ text)).unique h
  have htail := (List.cons.inj htake).2
  have hdrop := List.take_append_drop (Token.classify c (tail ++ text)).2 (tail ++ text)
  rw [htail] at hdrop
  simp only [read, List.cons_append, hkind, htail, List.append_cancel_left hdrop]

theorem tokens_token {kind : Kind} {lexeme text : List Char} (start : ¬ StartsTrivia (lexeme ++ text))
    (longest : LongestMatch (lexeme ++ text) kind lexeme) (n : Nat) (more : List (List Char)) :
    tokens ⟨n, false, (lexeme ++ text) :: more⟩ =
      ⟨kind, String.ofList lexeme, n + 1⟩ :: tokens ⟨n, false, text :: more⟩ := by
  have hskip : skipTrivia ⟨n, false, (lexeme ++ text) :: more⟩ = ⟨n, false, (lexeme ++ text) :: more⟩ := by
    obtain ⟨c, tail, rfl⟩ := List.exists_cons_of_ne_nil longest.ne_nil
    rw [List.cons_append] at start ⊢
    rw [skipTrivia, skipLines, skipInLine_token start]
  have hnext : next ⟨n, false, (lexeme ++ text) :: more⟩ =
      (some ⟨kind, String.ofList lexeme, n + 1⟩, ⟨n, false, text :: more⟩) := by
    rw [next, hskip, read_longest longest]
  rw [tokens, hnext]

end Cursor

/-! The tokens read are those of the division. -/

theorem Divides.tokens {m : Nat} {lines : List (List Char)} {pieces : List Piece}
    (h : Divides m lines pieces) {n : Nat} (hm : m = n + 1) :
    Cursor.tokens ⟨n, false, lines⟩ = pieces.filterMap Piece.token? := by
  induction h generalizing n with
  | done => exact Cursor.tokens_nil n false
  | nextLine _ ih =>
    rw [← ih (congrArg (· + 1) hm)]
    exact Cursor.tokens_congr (Cursor.skipLines_nil n false _)
  | blank isBlank _ ih =>
    rw [List.filterMap_cons_none rfl, ← ih hm]
    exact Cursor.tokens_congr (Cursor.skipLines_congr (Cursor.skipInLine_blank isBlank _) n _)
  | lineComment _ ih =>
    rw [List.filterMap_cons_none rfl, ← ih (congrArg (· + 1) hm)]
    exact Cursor.tokens_congr rfl
  | @blockComment m first last text lines inside more pieces split unclosed closing _ ih =>
    rw [List.filterMap_cons_none rfl, ← ih (n := n + inside.length) (by omega)]
    apply Cursor.tokens_congr
    calc Cursor.skipLines n false (('/' :: '*' :: first) :: lines)
        = Cursor.skipLines n true (first :: lines) := Cursor.skipLines_congr rfl n lines
      _ = Cursor.skipLines (n + inside.length) true ((last ++ '*' :: '/' :: text) :: more) := by
        rw [split, Cursor.skipLines_unclosed unclosed]
      _ = Cursor.skipLines (n + inside.length) false (text :: more) :=
        Cursor.skipLines_congr (Cursor.skipInLine_closed closing text) _ more
  | @openComment m first lines unclosed =>
    refine (Cursor.tokens_congr ?_).trans (Cursor.tokens_nil (n + (first :: lines).length) true)
    calc Cursor.skipLines n false (('/' :: '*' :: first) :: lines)
        = Cursor.skipLines n true (first :: lines) := Cursor.skipLines_congr rfl n lines
      _ = Cursor.skipLines (n + (first :: lines).length) true [] := by
        rw [← Cursor.skipLines_unclosed unclosed, List.append_nil]
  | token start longest _ ih =>
    rw [Cursor.tokens_token start longest, ih hm, hm]
    rfl

theorem Divides.text {n : Nat} {lines : List (List Char)} {pieces : List Piece}
    (h : Divides n lines pieces) : pieces.flatMap Piece.text = lines.flatten := by
  induction h with
  | done => rfl
  | nextLine _ ih => simpa using ih
  | blank _ _ ih => simpa [Piece.text] using ih
  | lineComment _ ih => simp [Piece.text, ih]
  | blockComment split _ _ _ ih =>
    have hflat := congrArg List.flatten split
    simp only [List.flatten_cons, List.flatten_append, List.append_assoc, List.cons_append] at hflat ih ⊢
    simp [Piece.text, ih, hflat]
  | openComment => simp [Piece.text]
  | token _ _ _ ih => simpa [Piece.text] using ih

/-! Every source can be divided. -/

/-- A comment that is open at some line is closed in a line behind it, or in none. -/
theorem unclosed_or_closing (lines : List (List Char)) :
    (∀ line ∈ lines, Unclosed line) ∨ ∃ inside last text more,
      lines = inside ++ (last ++ '*' :: '/' :: text) :: more ∧ (∀ line ∈ inside, Unclosed line) ∧
        Unclosed (last ++ ['*']) := by
  induction lines with
  | nil => exact .inl (by simp)
  | cons line lines ih =>
    rcases unclosed_or_split line with hline | ⟨last, text, rfl, hlast⟩
    · rcases ih with hlines | ⟨inside, last, text, more, rfl, hinside, hlast⟩
      · exact .inl (List.forall_mem_cons.2 ⟨hline, hlines⟩)
      · exact .inr ⟨line :: inside, last, text, more, rfl, List.forall_mem_cons.2 ⟨hline, hinside⟩, hlast⟩
    · exact .inr ⟨[], last, text, lines, rfl, by simp, hlast⟩

theorem volume_append (lines more : List (List Char)) :
    Cursor.volume (lines ++ more) = Cursor.volume lines + Cursor.volume more := by
  induction lines with
  | nil => simp [Cursor.volume]
  | cons line lines ih => simp only [List.cons_append, Cursor.volume, ih, Nat.add_assoc]

theorem exists_divides (n : Nat) (lines : List (List Char)) : ∃ pieces, Divides n lines pieces := by
  -- Every piece leaves less to divide, also where it takes only the end of a line.
  induction hsize : Cursor.volume lines using Nat.strongRecOn generalizing n lines with
  | ind size ih =>
    subst hsize
    match lines with
    | [] => exact ⟨[], .done⟩
    | [] :: more =>
      obtain ⟨pieces, h⟩ := ih (Cursor.volume more) (by simp [Cursor.volume]) (n + 1) more rfl
      exact ⟨pieces, .nextLine h⟩
    | (c :: text) :: more =>
      by_cases hstart : StartsTrivia (c :: text)
      · rcases hstart with ⟨d, hd, hblank⟩ | ⟨text, hcomment⟩ | ⟨first, hcomment⟩
        · cases hd
          obtain ⟨pieces, h⟩ := ih _ (by simp [Cursor.volume]) n (text :: more) rfl
          exact ⟨_, .blank hblank h⟩
        · obtain ⟨pieces, h⟩ := ih (Cursor.volume more) (by simp [Cursor.volume]) (n + 1) more rfl
          rw [← hcomment]
          exact ⟨_, .lineComment h⟩
        · rw [← hcomment] at ih ⊢
          rcases unclosed_or_closing (first :: more) with hnone |
            ⟨inside, last, text, after, hsplit, hinside, hlast⟩
          · exact ⟨_, .openComment hnone⟩
          · have hvolume := congrArg Cursor.volume hsplit
            simp only [volume_append, Cursor.volume, List.length_append, List.length_cons] at hvolume
            obtain ⟨pieces, h⟩ := ih (Cursor.volume (text :: after)) (by simp [Cursor.volume]; omega)
              (n + inside.length) (text :: after) rfl
            exact ⟨_, .blockComment hsplit hinside hlast h⟩
      · have hlongest := Token.classify_longest c text
        have hsplit : c :: text = (c :: text.take (Token.classify c text).2) ++
            text.drop (Token.classify c text).2 := by
          rw [List.cons_append, List.take_append_drop]
        have hshorter : Cursor.volume (text.drop (Token.classify c text).2 :: more) <
            Cursor.volume ((c :: text) :: more) := by
          simp only [Cursor.volume, List.length_cons, List.length_drop]
          omega
        obtain ⟨pieces, h⟩ := ih _ hshorter n (text.drop (Token.classify c text).2 :: more) rfl
        rw [hsplit] at hstart hlongest ⊢
        exact ⟨_, .token hstart hlongest h⟩

/-- The tokens of a source are those of a division of its lines into trivia and longest matches, in which
no character is lost; every source has one, and it decides the tokens. -/
theorem tokenize_iff_divides (source : String) (tokens : List Token) :
    tokenize source = tokens ↔ ∃ pieces, Divides 1 (Text.lines source.toList) pieces ∧
      pieces.flatMap Piece.text = (Text.lines source.toList).flatten ∧
      pieces.filterMap Piece.token? = tokens := by
  constructor
  · rintro rfl
    obtain ⟨pieces, h⟩ := exists_divides 1 (Text.lines source.toList)
    exact ⟨pieces, h, h.text, (h.tokens rfl).symm⟩
  · rintro ⟨pieces, h, -, rfl⟩
    exact h.tokens rfl

end StackCompiler
