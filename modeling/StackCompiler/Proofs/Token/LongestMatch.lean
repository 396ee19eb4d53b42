import Mathlib.Data.List.TakeWhile
import Mathlib.Tactic.SplitIfs
import StackCompiler.Token.Lexeme

/-!
The lexemes of the language as sets of texts, and the longest lexeme at the front of a line. The
first character of a lexeme decides which rules can apply to it, so that `classify`, which looks at
that character first, still finds the longest match over all rules.
-/

set_option autoImplicit false
namespace StackCompiler.Token

/-- The texts that are tokens of a kind. No text is a bad token: that is a character in front of which
none of these stands. -/
inductive IsLexeme : Kind → List Char → Prop where
  | keyword {first : Char} {rest : List Char} (start : first.isAlpha = true ∨ first = '_')
      (inside : ∀ c ∈ rest, c.isAlphanum = true ∨ c = '_')
      (reserved : String.ofList (first :: rest) ∈ keywords) : IsLexeme .keyword (first :: rest)
  | identifier {first : Char} {rest : List Char} (start : first.isAlpha = true ∨ first = '_')
      (inside : ∀ c ∈ rest, c.isAlphanum = true ∨ c = '_')
      (free : String.ofList (first :: rest) ∉ keywords) : IsLexeme .identifier (first :: rest)
  | whole {digits : List Char} (nonempty : digits ≠ []) (all : ∀ d ∈ digits, d.isDigit = true) :
      IsLexeme .number digits
  | fraction {digits decimals : List Char} (nonempty : digits ≠ [])
      (all : ∀ d ∈ digits, d.isDigit = true) (nonempty' : decimals ≠ [])
      (all' : ∀ d ∈ decimals, d.isDigit = true) : IsLexeme .number (digits ++ '.' :: decimals)
  | character {c : Char} (plain : c ≠ '\'') : IsLexeme .character ['\'', c, '\'']
  | string {inside : List Char} (plain : '"' ∉ inside) : IsLexeme .string ('"' :: (inside ++ ['"']))
  | longOperator {text : List Char} (listed : String.ofList text ∈ longOperators) :
      IsLexeme .operator text
  | charOperator {c : Char} (listed : c ∈ charOperators) : IsLexeme .operator [c]
  | symbol {c : Char} (listed : c ∈ symbols) : IsLexeme .symbol [c]

/-- The token at the front of a text: the longest lexeme there, or else one bad character. -/
inductive LongestMatch (text : List Char) : Kind → List Char → Prop where
  | lexeme {kind : Kind} {lexeme : List Char} (valid : IsLexeme kind lexeme) (front : lexeme <+: text)
      (longest : ∀ kind' other, IsLexeme kind' other → other <+: text → other.length ≤ lexeme.length) :
      LongestMatch text kind lexeme
  | bad {c : Char} {rest : List Char} (first : text = c :: rest)
      (none : ∀ kind' other, IsLexeme kind' other → ¬ other <+: text) : LongestMatch text .bad [c]

/-! What may follow the first character of a lexeme. -/

/-- Digits, or digits and a point between which and the end there is at least one digit. -/
def IsNumberTail (tail : List Char) : Prop :=
  (∀ d ∈ tail, d.isDigit = true) ∨
    ∃ digits decimals, tail = digits ++ '.' :: decimals ∧ (∀ d ∈ digits, d.isDigit = true) ∧
      decimals ≠ [] ∧ ∀ d ∈ decimals, d.isDigit = true

def IsPunctuation (c : Char) (kind : Kind) (tail : List Char) : Prop :=
  (kind = .operator ∧ String.ofList (c :: tail) ∈ longOperators) ∨
    (kind = .operator ∧ tail = [] ∧ c ∈ charOperators) ∨ (kind = .symbol ∧ tail = [] ∧ c ∈ symbols)

def IsTail (c : Char) (kind : Kind) (tail : List Char) : Prop :=
  if isWordStart c then kind = wordKind (c :: tail) ∧ ∀ x ∈ tail, isWordChar x = true
  else if c.isDigit then kind = .number ∧ IsNumberTail tail
  else if c = '\'' then kind = .character ∧ ∃ d, d ≠ '\'' ∧ tail = [d, '\'']
  else if c = '"' then kind = .string ∧ ∃ inside, '"' ∉ inside ∧ tail = inside ++ ['"']
  else IsPunctuation c kind tail

theorem isWordStart_iff (c : Char) : isWordStart c = true ↔ c.isAlpha = true ∨ c = '_' := by
  simp [isWordStart]

theorem isWordChar_iff (c : Char) : isWordChar c = true ↔ c.isAlphanum = true ∨ c = '_' := by
  simp [isWordChar]

theorem isDigit_not_wordStart {c : Char} (h : c.isDigit = true) : isWordStart c = false := by
  rw [Bool.eq_false_iff, ne_eq, isWordStart_iff]
  rintro (hc | rfl)
  · have hnine : c.val.toNat ≤ 57 := (Char.isDigit_iff_toNat.1 h).2
    rcases Bool.or_eq_true_iff.1 hc with hupper | hlower
    · have : 65 ≤ c.val.toNat := UInt32.le_iff_toNat_le.1 (of_decide_eq_true hupper).1
      omega
    · have : 97 ≤ c.val.toNat :=
        UInt32.le_iff_toNat_le.1 (of_decide_eq_true (Bool.and_eq_true_iff.1 hlower).1)
      omega
  · exact absurd h (by decide)

/-- A character that starts neither a word nor a number nor a constant in quotes. -/
def IsPlain (c : Char) : Prop :=
  isWordStart c = false ∧ c.isDigit = false ∧ c ≠ '\'' ∧ c ≠ '"'

instance : DecidablePred IsPlain :=
  fun c => inferInstanceAs (Decidable (isWordStart c = false ∧ c.isDigit = false ∧ c ≠ '\'' ∧ c ≠ '"'))

-- The tables are run through with `List.all`: a quantifier over `Char` may be decided over all characters.

theorem longOperator_plain {c : Char} {tail : List Char}
    (h : String.ofList (c :: tail) ∈ longOperators) : IsPlain c := by
  have hall : longOperators.all (fun op => op.toList.head?.all (IsPlain ·)) = true := by decide
  have hop := List.all_eq_true.1 hall _ h
  rw [String.toList_ofList, List.head?_cons, Option.all_some] at hop
  exact of_decide_eq_true hop

theorem punctuation_plain {c : Char} (h : c ∈ charOperators ∨ c ∈ symbols) : IsPlain c := by
  have hall : (charOperators ++ symbols).all (IsPlain ·) = true := by decide
  exact of_decide_eq_true (List.all_eq_true.1 hall c (List.mem_append.2 h))

theorem symbol_not_operator {c : Char} (h : c ∈ symbols) :
    String.ofList [c] ∉ longOperators ∧ c ∉ charOperators := by
  have hall : symbols.all (fun x => String.ofList [x] ∉ longOperators ∧ x ∉ charOperators) = true := by
    decide
  exact of_decide_eq_true (List.all_eq_true.1 hall c h)

theorem isTail_plain_iff {c : Char} {kind : Kind} {tail : List Char} (hc : IsPlain c) :
    IsTail c kind tail ↔ IsPunctuation c kind tail := by
  obtain ⟨hword, hdigit, hquote, hdouble⟩ := hc
  simp [IsTail, hword, hdigit, hquote, hdouble]

theorem isTail_of_digit {c : Char} {tail : List Char} (hc : c.isDigit = true)
    (h : IsNumberTail tail) : IsTail c .number tail := by
  simpa [IsTail, isDigit_not_wordStart hc, hc] using h

theorem isLexeme_word {c : Char} {kind : Kind} {tail : List Char} (hc : isWordStart c = true) :
    kind = wordKind (c :: tail) ∧ (∀ x ∈ tail, isWordChar x = true) → IsLexeme kind (c :: tail) := by
  rintro ⟨rfl, hall⟩
  have hstart := (isWordStart_iff c).1 hc
  have hinside : ∀ x ∈ tail, x.isAlphanum = true ∨ x = '_' := fun x hx => (isWordChar_iff x).1 (hall x hx)
  unfold wordKind isKeywordText
  split
  next hword => exact .keyword hstart hinside (by simpa using hword)
  next hword => exact .identifier hstart hinside (by simpa using hword)

theorem isLexeme_number {c : Char} {tail : List Char} (hc : c.isDigit = true) (h : IsNumberTail tail) :
    IsLexeme .number (c :: tail) := by
  rcases h with hall | ⟨digits, decimals, rfl, hall, hne, hall'⟩
  · exact .whole (by simp) (by simpa [hc] using hall)
  · exact @IsLexeme.fraction (c :: digits) decimals (by simp) (by simpa [hc] using hall) hne hall'

/-- The first character of a lexeme decides what may follow. -/
theorem isLexeme_cons_iff {c : Char} {kind : Kind} {tail : List Char} :
    IsLexeme kind (c :: tail) ↔ IsTail c kind tail := by
  constructor
  · intro h
    generalize htext : c :: tail = text at h
    cases h with
    | keyword start inside reserved =>
      cases htext
      have hkeyword : wordKind (c :: tail) = .keyword := by
        rw [wordKind, isKeywordText, if_pos (List.contains_iff_mem.2 reserved)]
      rw [IsTail, if_pos ((isWordStart_iff c).2 start), hkeyword]
      exact ⟨rfl, fun x hx => (isWordChar_iff x).2 (inside x hx)⟩
    | identifier start inside free =>
      cases htext
      have hfree : wordKind (c :: tail) = .identifier := by
        rw [wordKind, isKeywordText, if_neg (by rwa [List.contains_iff_mem])]
      rw [IsTail, if_pos ((isWordStart_iff c).2 start), hfree]
      exact ⟨rfl, fun x hx => (isWordChar_iff x).2 (inside x hx)⟩
    | whole nonempty all =>
      subst htext
      exact isTail_of_digit (all c (by simp)) (.inl fun d hd => all d (by simp [hd]))
    | @fraction digits decimals nonempty all nonempty' all' =>
      obtain ⟨d, digits, rfl⟩ := List.exists_cons_of_ne_nil nonempty
      cases htext
      exact isTail_of_digit (all c (by simp))
        (.inr ⟨digits, decimals, rfl, fun d hd => all d (by simp [hd]), nonempty', all'⟩)
    | @character d plain =>
      cases htext
      exact ⟨rfl, d, plain, rfl⟩
    | @string inside plain =>
      cases htext
      exact ⟨rfl, inside, plain, rfl⟩
    | longOperator listed =>
      subst htext
      exact (isTail_plain_iff (longOperator_plain listed)).2 (.inl ⟨rfl, listed⟩)
    | charOperator listed =>
      cases htext
      exact (isTail_plain_iff (punctuation_plain (.inl listed))).2 (.inr (.inl ⟨rfl, rfl, listed⟩))
    | symbol listed =>
      cases htext
      exact (isTail_plain_iff (punctuation_plain (.inr listed))).2 (.inr (.inr ⟨rfl, rfl, listed⟩))
  · unfold IsTail
    split
    next hword => exact isLexeme_word hword
    split
    next hdigit =>
      rintro ⟨rfl, h⟩
      exact isLexeme_number hdigit h
    split
    next hquote =>
      rintro ⟨rfl, d, hd, rfl⟩
      exact hquote ▸ .character hd
    split
    next hdouble =>
      rintro ⟨rfl, inside, hinside, rfl⟩
      exact hdouble ▸ .string hinside
    next =>
      rintro (⟨rfl, h⟩ | ⟨rfl, rfl, h⟩ | ⟨rfl, rfl, h⟩)
      · exact .longOperator h
      · exact .charOperator h
      · exact .symbol h

theorem IsLexeme.ne_nil {kind : Kind} {text : List Char} (h : IsLexeme kind text) : text ≠ [] := by
  rintro rfl
  generalize htext : ([] : List Char) = text at h
  cases h with
  | whole nonempty => exact nonempty htext.symm
  | longOperator listed =>
    subst htext
    revert listed
    decide
  | fraction => simp at htext
  | _ => cases htext

/-- The spelling of a token decides its kind. -/
theorem IsLexeme.kind_unique {kind kind' : Kind} {text : List Char} (h : IsLexeme kind text)
    (h' : IsLexeme kind' text) : kind = kind' := by
  obtain ⟨c, tail, rfl⟩ := List.exists_cons_of_ne_nil h.ne_nil
  rw [isLexeme_cons_iff] at h h'
  unfold IsTail at h h'
  split_ifs at h h'
  · exact h.1.trans h'.1.symm
  · exact h.1.trans h'.1.symm
  · exact h.1.trans h'.1.symm
  · exact h.1.trans h'.1.symm
  rcases h with ⟨rfl, h⟩ | ⟨rfl, rfl, h⟩ | ⟨rfl, rfl, h⟩
  · rcases h' with ⟨rfl, -⟩ | ⟨rfl, -⟩ | ⟨rfl, rfl, h'⟩
    · rfl
    · rfl
    · exact absurd h (symbol_not_operator h').1
  · rcases h' with ⟨rfl, -⟩ | ⟨rfl, -⟩ | ⟨rfl, -, h'⟩
    · rfl
    · rfl
    · exact absurd h (symbol_not_operator h').2
  · rcases h' with ⟨rfl, h'⟩ | ⟨rfl, -, h'⟩ | ⟨rfl, -⟩
    · exact absurd h' (symbol_not_operator h).1
    · exact absurd h' (symbol_not_operator h).2
    · rfl

theorem LongestMatch.unique {text : List Char} {kind kind' : Kind} {lexeme lexeme' : List Char}
    (h : LongestMatch text kind lexeme) (h' : LongestMatch text kind' lexeme') :
    kind = kind' ∧ lexeme = lexeme' := by
  cases h with
  | lexeme valid front longest =>
    cases h' with
    | lexeme valid' front' longest' =>
      have hlength := Nat.le_antisymm (longest' _ _ valid front) (longest _ _ valid' front')
      have hsame : lexeme = lexeme' :=
        (List.prefix_of_prefix_length_le front front' (Nat.le_of_eq hlength)).eq_of_length hlength
      subst hsame
      exact ⟨valid.kind_unique valid', rfl⟩
    | bad first none => exact absurd front (none _ _ valid)
  | bad first none =>
    cases h' with
    | lexeme valid' front' => exact absurd front' (none _ _ valid')
    | bad first' none' =>
      rw [first] at first'
      cases first'
      exact ⟨rfl, rfl⟩

theorem LongestMatch.ne_nil {text : List Char} {kind : Kind} {lexeme : List Char}
    (h : LongestMatch text kind lexeme) : lexeme ≠ [] := by
  cases h with
  | lexeme valid => exact valid.ne_nil
  | bad => simp

/-! `classify` finds the longest match. -/

/-- It is enough to compare what follows the first character. -/
theorem LongestMatch.of_tail {c : Char} {rest : List Char} {kind : Kind} {tail : List Char}
    (valid : IsTail c kind tail) (front : tail <+: rest)
    (longest : ∀ kind' other, IsTail c kind' other → other <+: rest → other.length ≤ tail.length) :
    LongestMatch (c :: rest) kind (c :: tail) := by
  refine .lexeme (isLexeme_cons_iff.2 valid) (List.cons_prefix_cons.2 ⟨rfl, front⟩) ?_
  intro kind' other hother hfront
  obtain ⟨d, tail', rfl⟩ := List.exists_cons_of_ne_nil hother.ne_nil
  obtain ⟨rfl, htail⟩ := List.cons_prefix_cons.1 hfront
  exact Nat.succ_le_succ (longest kind' tail' (isLexeme_cons_iff.1 hother) htail)

theorem LongestMatch.of_no_tail {c : Char} {rest : List Char}
    (none : ∀ kind other, IsTail c kind other → ¬ other <+: rest) :
    LongestMatch (c :: rest) .bad [c] := by
  refine .bad rfl ?_
  intro kind other hother hfront
  obtain ⟨d, tail, rfl⟩ := List.exists_cons_of_ne_nil hother.ne_nil
  obtain ⟨rfl, htail⟩ := List.cons_prefix_cons.1 hfront
  exact none kind tail (isLexeme_cons_iff.1 hother) htail

theorem length_le_takeWhile {p : Char → Bool} {text rest : List Char} (hfront : text <+: rest)
    (hall : ∀ c ∈ text, p c = true) : text.length ≤ (rest.takeWhile p).length := by
  obtain ⟨more, rfl⟩ := hfront
  rw [List.takeWhile_append_of_pos hall, List.length_append]
  exact Nat.le_add_right _ _

theorem take_eq_of_front {n : Nat} {text rest : List Char} (hfront : text <+: rest)
    (hn : n = text.length) : rest.take n = text := by
  rw [hn]
  exact (List.prefix_iff_eq_take.1 hfront).symm

/-- A number with a point at the front of a text shows where the digits of the text end. -/
theorem digits_of_fraction {digits decimals rest : List Char} (hall : ∀ d ∈ digits, d.isDigit = true)
    (hfront : digits ++ '.' :: decimals <+: rest) :
    rest.takeWhile Char.isDigit = digits ∧
      ∃ more, rest.dropWhile Char.isDigit = '.' :: (decimals ++ more) := by
  obtain ⟨more, rfl⟩ := hfront
  have hpoint : ¬ Char.isDigit '.' = true := by decide
  rw [List.append_assoc, List.takeWhile_append_of_pos hall, List.dropWhile_append_of_pos hall,
    List.cons_append, List.takeWhile_cons_of_neg hpoint, List.dropWhile_cons_of_neg hpoint]
  exact ⟨List.append_nil digits, more, rfl⟩

theorem take_numberTail {rest more : List Char} {d : Char}
    (hdrop : rest.dropWhile Char.isDigit = '.' :: d :: more) (hd : d.isDigit = true) :
    rest.take (numberTail rest) =
      rest.takeWhile Char.isDigit ++ '.' :: d :: more.takeWhile Char.isDigit := by
  apply take_eq_of_front
  · obtain ⟨after, hafter⟩ := List.takeWhile_prefix (l := more) Char.isDigit
    refine ⟨after, ?_⟩
    rw [List.append_assoc, List.cons_append, List.cons_append, hafter, ← hdrop,
      List.takeWhile_append_dropWhile]
  · simp only [numberTail, hdrop, hd, if_true, List.length_append, List.length_cons]
    omega

theorem longest_number {c : Char} (hc : c.isDigit = true) (rest : List Char) :
    LongestMatch (c :: rest) .number (c :: rest.take (numberTail rest)) := by
  have hothers : ∀ kind' other, IsTail c kind' other → IsNumberTail other := by
    intro kind' other h
    simp only [IsTail, isDigit_not_wordStart hc, hc, if_true] at h
    exact h.2
  have hdigits : ∀ d ∈ rest.takeWhile Char.isDigit, d.isDigit = true :=
    fun d hd => List.mem_takeWhile_imp hd
  by_cases hpoint : ∃ d more, rest.dropWhile Char.isDigit = '.' :: d :: more ∧ d.isDigit = true
  · obtain ⟨d, more, hdrop, hd⟩ := hpoint
    have hdecimals : ∀ x ∈ d :: more.takeWhile Char.isDigit, x.isDigit = true :=
      List.forall_mem_cons.2 ⟨hd, fun x hx => List.mem_takeWhile_imp hx⟩
    have htake := take_numberTail hdrop hd
    rw [htake]
    refine .of_tail (isTail_of_digit hc (.inr ⟨_, _, rfl, hdigits, by simp, hdecimals⟩)) ?_ ?_
    · rw [← htake]
      exact List.take_prefix _ _
    · intro kind' other hother hfront
      rcases hothers kind' other hother with hall | ⟨digits, decimals, rfl, hall, hne, hall'⟩
      · exact (length_le_takeWhile hfront hall).trans (by simp)
      · obtain ⟨hsame, after, hafter⟩ := digits_of_fraction hall hfront
        rw [hdrop] at hafter
        have hlength := length_le_takeWhile ⟨after, (List.cons.inj hafter).2.symm⟩ hall'
        rw [List.takeWhile_cons_of_pos hd] at hlength
        simp only [hsame, List.length_append, List.length_cons] at hlength ⊢
        omega
  · have hcount : numberTail rest = (rest.takeWhile Char.isDigit).length := by
      unfold numberTail
      split
      next d more hdrop => rw [if_neg fun hd => hpoint ⟨d, more, hdrop, hd⟩]
      next => rfl
    have hfront := List.takeWhile_prefix (l := rest) Char.isDigit
    rw [take_eq_of_front hfront hcount]
    refine .of_tail (isTail_of_digit hc (.inl hdigits)) hfront ?_
    intro kind' other hother hfront
    rcases hothers kind' other hother with hall | ⟨digits, decimals, rfl, hall, hne, hall'⟩
    · exact length_le_takeWhile hfront hall
    · obtain ⟨-, after, hafter⟩ := digits_of_fraction hall hfront
      obtain ⟨d, decimals, rfl⟩ := List.exists_cons_of_ne_nil hne
      exact absurd ⟨d, _, hafter, hall' d (by simp)⟩ hpoint

theorem longest_word {c : Char} (hc : isWordStart c = true) (rest : List Char) :
    LongestMatch (c :: rest) (wordKind (c :: rest.takeWhile isWordChar))
      (c :: rest.takeWhile isWordChar) := by
  have hfront := List.takeWhile_prefix (l := rest) isWordChar
  refine .of_tail ?_ hfront ?_
  · rw [IsTail, if_pos hc]
    exact ⟨rfl, fun x hx => List.mem_takeWhile_imp hx⟩
  · intro kind' other hother hfront
    rw [IsTail, if_pos hc] at hother
    exact length_le_takeWhile hfront hother.2

theorem longest_character (rest : List Char) :
    LongestMatch ('\'' :: rest) (characterTail rest).1 ('\'' :: rest.take (characterTail rest).2) := by
  have hothers : ∀ kind' other, IsTail '\'' kind' other → ∃ d, d ≠ '\'' ∧ other = [d, '\''] :=
    fun kind' other h => h.2
  unfold characterTail
  split
  next d more =>
    split
    next hd =>
      refine .of_no_tail ?_
      intro kind' other hother hfront
      obtain ⟨x, hx, rfl⟩ := hothers kind' other hother
      exact hx ((List.cons_prefix_cons.1 hfront).1.trans hd)
    next hd =>
      refine .of_tail ⟨rfl, d, hd, rfl⟩ ⟨more, rfl⟩ ?_
      intro kind' other hother hfront
      obtain ⟨x, -, rfl⟩ := hothers kind' other hother
      exact Nat.le_refl 2
  next hnone =>
    refine .of_no_tail ?_
    intro kind' other hother hfront
    obtain ⟨x, -, rfl⟩ := hothers kind' other hother
    obtain ⟨more, rfl⟩ := hfront
    exact hnone x more rfl

/-- A string at the front of a text ends at the first quote. -/
theorem takeWhile_of_string {inside rest : List Char} (hplain : '"' ∉ inside)
    (hfront : inside ++ ['"'] <+: rest) :
    rest.takeWhile (· != '"') = inside ∧ inside.length < rest.length := by
  obtain ⟨more, rfl⟩ := hfront
  have hall : ∀ c ∈ inside, (c != '"') = true := by
    intro c hc
    simpa using fun h : c = '"' => hplain (h ▸ hc)
  rw [List.append_assoc, List.takeWhile_append_of_pos hall]
  simp

theorem quoted_front {rest : List Char} (h : (rest.takeWhile (· != '"')).length < rest.length) :
    rest.takeWhile (· != '"') ++ ['"'] <+: rest := by
  induction rest with
  | nil => cases h
  | cons c rest ih =>
    by_cases hc : c = '"'
    · subst hc
      exact ⟨rest, rfl⟩
    · rw [List.takeWhile_cons_of_pos (by simpa using hc)] at h ⊢
      exact List.cons_prefix_cons.2 ⟨rfl, ih (by simpa using h)⟩

theorem longest_string (rest : List Char) :
    LongestMatch ('"' :: rest) (stringTail rest).1 ('"' :: rest.take (stringTail rest).2) := by
  have hothers : ∀ kind' other, IsTail '"' kind' other →
      ∃ inside, '"' ∉ inside ∧ other = inside ++ ['"'] :=
    fun kind' other h => h.2
  unfold stringTail
  dsimp only
  split
  next hlt =>
    have hplain : '"' ∉ rest.takeWhile (· != '"') := by
      intro hmem
      have hne := List.mem_takeWhile_imp hmem
      simp at hne
    rw [take_eq_of_front (quoted_front hlt) (by simp)]
    refine .of_tail ⟨rfl, _, hplain, rfl⟩ (quoted_front hlt) ?_
    intro kind' other hother hfront
    obtain ⟨inside, hplain', rfl⟩ := hothers kind' other hother
    rw [(takeWhile_of_string hplain' hfront).1]
  next hge =>
    refine .of_no_tail ?_
    intro kind' other hother hfront
    obtain ⟨inside, hplain, rfl⟩ := hothers kind' other hother
    obtain ⟨hsame, hlt⟩ := takeWhile_of_string hplain hfront
    exact hge (hsame ▸ hlt)

/-- Of the operators in front of a text, the first of the list is the longest. -/
theorem longOperator_longest {text : List Char} {op other : String} (h : longOperator? text = some op)
    (listed : other ∈ longOperators) (hfront : other.toList <+: text) : other.length ≤ op.length := by
  have hsorted : longOperators.Pairwise fun a b => b.length ≤ a.length := by decide
  obtain ⟨-, before, after, hlist, hbefore⟩ := List.find?_eq_some_iff_append.1 h
  rw [hlist] at listed hsorted
  rcases List.mem_append.1 listed with hmem | hmem
  · have hnot := hbefore other hmem
    have hstarts := List.isPrefixOf_iff_prefix.2 hfront
    simp [hstarts] at hnot
  · rcases List.mem_cons.1 hmem with rfl | hmem
    · exact Nat.le_refl _
    · exact List.rel_of_pairwise_cons (List.pairwise_append.1 hsorted).2.1 hmem

theorem longest_punctuation {c : Char} (hc : IsPlain c) (rest : List Char) :
    LongestMatch (c :: rest) (punctuationTail c rest).1
      (c :: rest.take (punctuationTail c rest).2) := by
  unfold punctuationTail
  split
  next op hop =>
    have hlisted := List.mem_of_find?_eq_some hop
    have hfront : op.toList.isPrefixOf (c :: rest) = true :=
      List.find?_some (p := fun op : String => op.toList.isPrefixOf (c :: rest)) hop
    have hne : op.toList ≠ [] := (@IsLexeme.longOperator op.toList (by simpa using hlisted)).ne_nil
    obtain ⟨d, tail, htext⟩ := List.exists_cons_of_ne_nil hne
    rw [htext, List.isPrefixOf_iff_prefix] at hfront
    obtain ⟨rfl, htail⟩ := List.cons_prefix_cons.1 hfront
    have hlength : op.length = tail.length + 1 := by rw [← String.length_toList, htext, List.length_cons]
    rw [take_eq_of_front htail (by simp [hlength])]
    refine .of_tail ((isTail_plain_iff hc).2 (.inl ⟨rfl, ?_⟩)) htail ?_
    · rw [← htext, String.ofList_toList]
      exact hlisted
    · intro kind' other hother hfront'
      rcases (isTail_plain_iff hc).1 hother with ⟨-, hother⟩ | ⟨-, rfl, -⟩ | ⟨-, rfl, -⟩
      · have hle := longOperator_longest hop hother
          (by rw [String.toList_ofList]; exact List.cons_prefix_cons.2 ⟨rfl, hfront'⟩)
        rw [hlength, String.length_ofList, List.length_cons] at hle
        exact Nat.le_of_succ_le_succ hle
      · exact Nat.zero_le _
      · exact Nat.zero_le _
  next hnone =>
    have hothers : ∀ kind' other, IsTail c kind' other → other <+: rest →
        other = [] ∧ (c ∈ charOperators ∨ c ∈ symbols) := by
      intro kind' other hother hfront
      rcases (isTail_plain_iff hc).1 hother with ⟨-, hother⟩ | ⟨-, rfl, h⟩ | ⟨-, rfl, h⟩
      · have hnot := List.find?_eq_none.1 hnone _ hother
        rw [String.toList_ofList, List.isPrefixOf_iff_prefix] at hnot
        exact absurd (List.cons_prefix_cons.2 ⟨rfl, hfront⟩) hnot
      · exact ⟨rfl, .inl h⟩
      · exact ⟨rfl, .inr h⟩
    have hshort : ∀ kind' other, IsTail c kind' other → other <+: rest → other.length ≤ 0 := by
      intro kind' other hother hfront
      rw [(hothers kind' other hother hfront).1]
      exact Nat.le_refl 0
    split
    next hsymbol =>
      exact .of_tail ((isTail_plain_iff hc).2 (.inr (.inr ⟨rfl, rfl, by simpa using hsymbol⟩)))
        List.nil_prefix hshort
    next hsymbol =>
    split
    next hchar =>
      exact .of_tail ((isTail_plain_iff hc).2 (.inr (.inl ⟨rfl, rfl, by simpa using hchar⟩)))
        List.nil_prefix hshort
    next hchar =>
      refine .of_no_tail ?_
      intro kind' other hother hfront
      rcases (hothers kind' other hother hfront).2 with h | h
      · exact hchar (by simpa using h)
      · exact hsymbol (by simpa using h)

theorem classify_longest (c : Char) (rest : List Char) :
    LongestMatch (c :: rest) (classify c rest).1 (c :: rest.take (classify c rest).2) := by
  unfold classify
  split
  next hword =>
    dsimp only
    have hfront := List.takeWhile_prefix (l := rest) isWordChar
    rw [take_eq_of_front hfront rfl]
    exact longest_word hword rest
  next hword =>
  split
  next hdigit => exact longest_number hdigit rest
  next hdigit =>
  split
  next hquote => exact hquote ▸ longest_character rest
  next hquote =>
  split
  next hdouble => exact hdouble ▸ longest_string rest
  next hdouble =>
    exact longest_punctuation ⟨by simpa using hword, by simpa using hdigit, hquote, hdouble⟩ rest

/-! Where a lexeme ends. -/

theorem LongestMatch.front {text : List Char} {kind : Kind} {lexeme : List Char}
    (h : LongestMatch text kind lexeme) : lexeme <+: text := by
  cases h with
  | lexeme _ front => exact front
  | bad first => exact ⟨_, first.symm⟩

/-- A longest match stays one if less follows. -/
theorem LongestMatch.mono {text text' : List Char} {kind : Kind} {lexeme : List Char}
    (h : LongestMatch text kind lexeme) (hfront : lexeme <+: text') (hle : text' <+: text) :
    LongestMatch text' kind lexeme := by
  cases h with
  | lexeme valid _ longest =>
    exact .lexeme valid hfront fun kind' other hother hother' => longest kind' other hother (hother'.trans hle)
  | bad _ none =>
    obtain ⟨rest, rfl⟩ := hfront
    exact .bad rfl fun kind' other hother hother' => none kind' other hother (hother'.trans hle)

theorem not_mem_of_blank {c : Char} {text : List Char} (hc : c = ' ' ∨ c = '\t' ∨ c = '\r')
    (h : ' ' ∉ text ∧ '\t' ∉ text ∧ '\r' ∉ text) : c ∉ text := by
  rcases hc with rfl | rfl | rfl
  · exact h.1
  · exact h.2.1
  · exact h.2.2

/-- No lexeme ends in a blank, though a string or a character constant may hold one. -/
theorem IsLexeme.last_ne {kind : Kind} {text : List Char} {c : Char} (h : IsLexeme kind text)
    (hc : c = ' ' ∨ c = '\t' ∨ c = '\r') : text.getLast? ≠ some c := by
  intro hlast
  have hmem := List.mem_of_getLast? hlast
  have hstart : ¬ (c.isAlpha = true ∨ c = '_') := by rcases hc with rfl | rfl | rfl <;> decide
  have hinside : ¬ (c.isAlphanum = true ∨ c = '_') := by rcases hc with rfl | rfl | rfl <;> decide
  have hdigit : ¬ c.isDigit = true := by rcases hc with rfl | rfl | rfl <;> decide
  cases h with
  | keyword start inside =>
    rcases List.mem_cons.1 hmem with rfl | hmem
    · exact hstart start
    · exact hinside (inside _ hmem)
  | identifier start inside =>
    rcases List.mem_cons.1 hmem with rfl | hmem
    · exact hstart start
    · exact hinside (inside _ hmem)
  | whole _ all => exact hdigit (all _ hmem)
  | fraction _ all _ all' =>
    simp only [List.mem_append, List.mem_cons] at hmem
    rcases hmem with hmem | rfl | hmem
    · exact hdigit (all _ hmem)
    · exact absurd hc (by decide)
    · exact hdigit (all' _ hmem)
  | character =>
    cases hlast
    simp at hc
  | string =>
    rw [← List.cons_append, List.getLast?_concat] at hlast
    cases hlast
    exact absurd hc (by decide)
  | longOperator listed =>
    have hall : ∀ op ∈ longOperators, ' ' ∉ op.toList ∧ '\t' ∉ op.toList ∧ '\r' ∉ op.toList := by decide
    exact not_mem_of_blank hc (hall _ listed) (by simpa using hmem)
  | charOperator listed =>
    cases hlast
    exact not_mem_of_blank hc (by decide) listed
  | symbol listed =>
    cases hlast
    exact not_mem_of_blank hc (by decide) listed

/-- A lexeme that goes on behind another one adds no blank to it. -/
theorem IsLexeme.extension {kind kind' : Kind} {lexeme more : List Char} (h : IsLexeme kind lexeme)
    (h' : IsLexeme kind' (lexeme ++ more)) : ' ' ∉ more := by
  obtain ⟨c, tail, rfl⟩ := List.exists_cons_of_ne_nil h.ne_nil
  rw [isLexeme_cons_iff] at h
  rw [List.cons_append, isLexeme_cons_iff] at h'
  intro hmem
  unfold IsTail at h h'
  split_ifs at h h'
  · exact absurd (h'.2 ' ' (by simp [hmem])) (by decide)
  · rcases h'.2 with hdigits | ⟨digits, decimals, htail, hdigits, -, hdecimals⟩
    · exact absurd (hdigits _ (List.mem_append_right tail hmem)) (by decide)
    · have hnumber : ' ' ∈ digits ++ '.' :: decimals := htail ▸ List.mem_append_right tail hmem
      simp only [List.mem_append, List.mem_cons] at hnumber
      rcases hnumber with hnumber | hnumber | hnumber
      · exact absurd (hdigits _ hnumber) (by decide)
      · exact absurd hnumber (by decide)
      · exact absurd (hdecimals _ hnumber) (by decide)
  · obtain ⟨-, d, -, rfl⟩ := h
    obtain ⟨-, d', -, htail⟩ := h'
    simp at htail
    simp [htail.2] at hmem
  · obtain ⟨-, inside, hplain, rfl⟩ := h
    obtain ⟨-, inside', hplain', htail⟩ := h'
    have hinside := (takeWhile_of_string hplain ⟨more, htail⟩).1.symm.trans
      (takeWhile_of_string hplain' (List.prefix_refl _)).1
    rw [hinside, List.append_right_eq_self] at htail
    simp [htail] at hmem
  · have hall : ∀ op ∈ longOperators, ' ' ∉ op.toList := by decide
    rcases h' with ⟨-, hlisted⟩ | ⟨-, hnil, -⟩ | ⟨-, hnil, -⟩
    · exact hall _ hlisted (by simp [hmem])
    · simp [(List.append_eq_nil_iff.1 hnil).2] at hmem
    · simp [(List.append_eq_nil_iff.1 hnil).2] at hmem

end StackCompiler.Token
