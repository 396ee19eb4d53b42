import StackCompiler.Proofs.Token.Partition

/-!
Reading positions as line numbers and columns. A position points into the lines of a source, and the
characters at it are fetched by their indices. An index or a range that is not inside its line has no value,
and the loop that skips trivia has a result only if it ends. Behind any front part of a line the fetches have
values all the same: they are those that the kinds of lexemes are read from.
-/

set_option autoImplicit false
namespace StackCompiler

/-! A lexeme ends in its line. -/

theorem Token.numberTail_length (rest : List Char) : numberTail rest ≤ rest.length := by
  have hsplit := congrArg List.length (List.takeWhile_append_dropWhile (p := Char.isDigit) (l := rest))
  rw [List.length_append] at hsplit
  unfold numberTail
  split
  next d more htail =>
    have hmore := (List.takeWhile_prefix (l := more) Char.isDigit).length_le
    rw [htail, List.length_cons, List.length_cons] at hsplit
    dsimp only
    split <;> omega
  next =>
    dsimp only
    omega

theorem Token.punctuationTail_length (c : Char) (rest : List Char) :
    (punctuationTail c rest).2 ≤ rest.length := by
  unfold punctuationTail longOperator?
  split
  next op hop =>
    have hfront := List.find?_some hop
    have hlength := (List.isPrefixOf_iff_prefix.1 hfront).length_le
    rw [String.length_toList, List.length_cons] at hlength
    exact Nat.sub_le_of_le_add hlength
  next => split_ifs <;> exact Nat.zero_le _

theorem Token.classify_length (c : Char) (rest : List Char) : (classify c rest).2 ≤ rest.length := by
  unfold classify
  split_ifs
  · exact (List.takeWhile_prefix isWordChar).length_le
  · exact numberTail_length rest
  · unfold characterTail
    split
    next => split_ifs <;> simp
    next => exact Nat.zero_le _
  · unfold stringTail
    dsimp only
    split_ifs <;> omega
  · exact punctuationTail_length c rest

structure Position where
  line : Nat
  column : Nat
  inComment : Bool
  deriving DecidableEq

namespace Position

/-! Access to the characters of a line. -/

def slice (row : List Char) (first last : Nat) : Option (List Char) :=
  if first ≤ last ∧ last ≤ row.length then some ((row.drop first).take (last - first)) else none

def runLength (row : List Char) (first : Nat) (p : Char → Bool) : Option Nat := do
  let text ← slice row first row.length
  return (text.takeWhile p).length

def numberLength (row : List Char) (first : Nat) : Option Nat := do
  let whole ← runLength row first Char.isDigit
  if row[first + whole]? = some '.' ∧ row[first + whole + 1]?.any Char.isDigit then
    let decimals ← runLength row (first + whole + 1) Char.isDigit
    return whole + 1 + decimals
  else
    return whole

def operatorAt (row : List Char) (first : Nat) : List String → Option (Option Nat)
  | [] => some none
  | op :: ops =>
    if first + op.length ≤ row.length then do
      let text ← slice row first (first + op.length)
      if op.toList = text then return some op.length else operatorAt row first ops
    else
      operatorAt row first ops

/-- The kind and the length of the lexeme that starts at an index, where the character `c` stands. -/
def lexemeAt (row : List Char) (first : Nat) (c : Char) : Option (Kind × Nat) :=
  if Token.isWordStart c then do
    let length ← runLength row first Token.isWordChar
    let word ← slice row first (first + length)
    return (Token.wordKind word, length)
  else if c.isDigit then do
    let length ← numberLength row first
    return (.number, length)
  else if c = '\'' then
    match row[first + 1]?, row[first + 2]? with
    | some d, some '\'' => some (if d = '\'' then (.bad, 1) else (.character, 3))
    | _, _ => some (.bad, 1)
  else if c = '"' then do
    let rest ← slice row (first + 1) row.length
    match rest.findIdx? (· == '"') with
    | some offset => return (.string, offset + 2)
    | none => return (.bad, 1)
  else do
    match ← operatorAt row first Token.longOperators with
    | some length => return (.operator, length)
    | none =>
      if Token.symbols.contains c then
        return (.symbol, 1)
      else
        match ← operatorAt row first (Token.charOperators.map String.singleton) with
        | some length => return (.operator, length)
        | none => return (.bad, 1)

def closingAmong (row : List Char) : List Nat → Option (Option Nat)
  | [] => some none
  | i :: is => do
    let c ← row[i]?
    if c = '*' then
      let d ← row[i + 1]?
      if d = '/' then return some i else closingAmong row is
    else
      closingAmong row is

def closingAt (row : List Char) (first : Nat) : Option (Option Nat) :=
  closingAmong row (List.range' first (row.length - 1 - first))

/-! Scanning from a position. -/

def start : Position :=
  ⟨0, 0, false⟩

def nextLine (p : Position) : Position :=
  ⟨p.line + 1, 0, p.inComment⟩

/-- What one round of the loop that skips trivia comes to. -/
inductive Round where
  | atEnd
  | atToken
  | on (p : Position)
  deriving DecidableEq

variable (lines : List (List Char))

/-- A round outside of comments, by the next two characters of the line as far as there are any. -/
def codeRound (p : Position) : Option Char → Option Char → Round
  | none, _ => .on p.nextLine
  | some '/', some '/' => .on p.nextLine
  | some '/', some '*' => .on ⟨p.line, p.column + 2, true⟩
  | some c, _ => if Cursor.isBlank c then .on ⟨p.line, p.column + 1, false⟩ else .atToken

def commentRound (p : Position) : Option Nat → Round
  | some i => .on ⟨p.line, i + 2, false⟩
  | none => .on p.nextLine

def round (p : Position) : Option Round :=
  match lines[p.line]? with
  | none => some .atEnd
  | some row =>
    if p.inComment then (closingAt row p.column).map (commentRound p)
    else some (codeRound p row[p.column]? row[p.column + 1]?)

inductive Skips : Position → Bool → Position → Prop where
  | atEnd {p : Position} (here : round lines p = some .atEnd) : Skips p false p
  | atToken {p : Position} (here : round lines p = some .atToken) : Skips p true p
  | on {p q r : Position} {found : Bool} (here : round lines p = some (.on q)) (rest : Skips q found r) :
      Skips p found r

def readAt (p : Position) : Option (Token × Position) := do
  let row ← lines[p.line]?
  let c ← row[p.column]?
  let (kind, length) ← lexemeAt row p.column c
  let lexeme ← slice row p.column (p.column + length)
  return (⟨kind, String.ofList lexeme, p.line + 1⟩, { p with column := p.column + length })

inductive Scans : Position → Option Token → Position → Prop where
  | atEnd {p q : Position} (skip : Skips lines p false q) : Scans p none q
  | token {p q r : Position} {t : Token} (skip : Skips lines p true q)
      (read : readAt lines q = some (t, r)) : Scans p (some t) r

def cursor (p : Position) : Cursor :=
  ⟨p.line, p.inComment, (lines.drop p.line).modifyHead (List.drop p.column)⟩

def Before (p q : Position) : Prop :=
  p.line < q.line ∨ p.line = q.line ∧ p.column < q.column

def Inside (p : Position) : Prop :=
  ∃ row, lines[p.line]? = some row ∧ p.column ≤ row.length

/-! Fetching characters behind a front part of a line. -/

section Fetching

variable (front text : List Char)

theorem slice_behind {i j : Nat} (hij : i ≤ j) (hj : j ≤ text.length) :
    slice (front ++ text) (front.length + i) (front.length + j) = some ((text.drop i).take (j - i)) := by
  have hbounds : front.length + i ≤ front.length + j ∧ front.length + j ≤ (front ++ text).length := by
    rw [List.length_append]
    omega
  rw [slice, if_pos hbounds, List.drop_length_add_append, Nat.add_sub_add_left]

theorem slice_rest {i : Nat} (hi : i ≤ text.length) :
    slice (front ++ text) (front.length + i) (front ++ text).length = some (text.drop i) := by
  have hslice := slice_behind front text hi (Nat.le_refl text.length)
  rw [List.length_append, hslice, List.take_of_length_le (by simp)]

theorem getElem?_behind (i : Nat) : (front ++ text)[front.length + i]? = text[i]? := by
  rw [List.getElem?_append_right (by omega), Nat.add_sub_cancel_left]

theorem runLength_behind {i : Nat} (hi : i ≤ text.length) (p : Char → Bool) :
    runLength (front ++ text) (front.length + i) p = some ((text.drop i).takeWhile p).length := by
  rw [runLength, slice_rest front text hi]
  rfl

theorem numberLength_behind {c : Char} (hc : c.isDigit = true) (rest : List Char) :
    numberLength (front ++ c :: rest) front.length = some (Token.numberTail rest + 1) := by
  have hrun := runLength_behind front (c :: rest) (Nat.zero_le _) Char.isDigit
  rw [Nat.add_zero, List.drop_zero, List.takeWhile_cons_of_pos hc, List.length_cons] at hrun
  rw [numberLength, hrun, Token.numberTail]
  have hrest := (List.takeWhile_append_dropWhile (p := Char.isDigit) (l := rest)).symm
  generalize rest.takeWhile Char.isDigit = whole at hrest hrun ⊢
  generalize rest.dropWhile Char.isDigit = tail at hrest ⊢
  subst hrest
  -- Behind the digits stands `tail`: a point and further digits, or something else.
  have hpoint : ∀ i, (front ++ c :: (whole ++ tail))[front.length + (whole.length + 1) + i]? = tail[i]? := by
    intro i
    rw [Nat.add_assoc, getElem?_behind, Nat.add_right_comm, List.getElem?_cons_succ,
      List.getElem?_append_right (by omega), Nat.add_sub_cancel_left]
  have hhere := hpoint 0
  rw [Nat.add_zero] at hhere
  simp only [Option.bind_eq_bind, Option.bind_some, hhere, hpoint 1]
  cases tail with
  | nil => simp
  | cons x tail =>
    by_cases hx : x = '.'
    · subst hx
      cases tail with
      | nil => simp
      | cons d more =>
        by_cases hd : d.isDigit = true
        · have hdecimals := runLength_behind front (c :: (whole ++ '.' :: d :: more)) (i := whole.length + 2)
            (by simp) Char.isDigit
          have hdrop : (c :: (whole ++ '.' :: d :: more)).drop (whole.length + 2) = d :: more := by
            rw [List.drop_succ_cons, List.drop_length_add_append]
            rfl
          rw [hdrop, List.takeWhile_cons_of_pos hd, List.length_cons] at hdecimals
          have hindex : front.length + (whole.length + 1) + 1 = front.length + (whole.length + 2) := by omega
          simp [hd, hindex, hdecimals]
          omega
        · simp [hd]
    · simp [hx]

theorem operatorAt_behind (ops : List String) :
    operatorAt (front ++ text) front.length ops =
      some ((ops.find? fun op => op.toList.isPrefixOf text).map String.length) := by
  induction ops with
  | nil => rfl
  | cons op ops ih =>
    rw [operatorAt, ih, ← String.length_toList]
    by_cases hlong : op.toList.length ≤ text.length
    · have hslice := slice_behind front text (Nat.zero_le _) hlong
      rw [Nat.add_zero, Nat.sub_zero, List.drop_zero] at hslice
      rw [if_pos (by simpa using hlong), hslice, Option.bind_eq_bind, Option.bind_some]
      by_cases hop : op.toList = text.take op.toList.length
      · have hfront : op.toList <+: text := List.prefix_iff_eq_take.2 hop
        rw [if_pos hop, List.find?_cons_of_pos (by simpa using hfront), Option.map_some,
          String.length_toList]
        rfl
      · have hfront : ¬ op.toList <+: text := fun h => hop (List.prefix_iff_eq_take.1 h)
        rw [if_neg hop, List.find?_cons_of_neg (by simpa using hfront)]
    · have hfront : ¬ op.toList <+: text := fun h => hlong h.length_le
      rw [if_neg (by simpa using hlong), List.find?_cons_of_neg (by simpa using hfront)]

theorem charOperatorAt_behind (c : Char) (rest : List Char) (ops : List Char) :
    operatorAt (front ++ c :: rest) front.length (ops.map String.singleton) =
      some (if ops.contains c then some 1 else none) := by
  rw [operatorAt_behind]
  induction ops with
  | nil => rfl
  | cons op ops ih =>
    rw [Option.some_inj] at ih
    rw [List.map_cons]
    by_cases hop : op = c
    · simp [hop]
    · rw [List.find?_cons_of_neg (by simpa using hop), ih]
      simp [Ne.symm hop]

theorem findIdx?_quote (rest : List Char) :
    rest.findIdx? (· == '"') =
      if (rest.takeWhile (· != '"')).length < rest.length then some (rest.takeWhile (· != '"')).length
      else none := by
  induction rest with
  | nil => rfl
  | cons c rest ih =>
    rw [List.findIdx?_cons, ih]
    by_cases hc : c = '"'
    · simp [hc]
    · simp only [hc, beq_iff_eq, ↓reduceIte, bne_iff_ne, ne_eq, not_false_eq_true,
        List.takeWhile_cons_of_pos, List.length_cons, Nat.add_lt_add_iff_right]
      split_ifs <;> rfl

theorem lexemeAt_behind (c : Char) (rest : List Char) :
    lexemeAt (front ++ c :: rest) front.length c =
      some ((Token.classify c rest).1, (Token.classify c rest).2 + 1) := by
  have hindex : ∀ i, (front ++ c :: rest)[front.length + (i + 1)]? = rest[i]? := by
    intro i
    rw [getElem?_behind, List.getElem?_cons_succ]
  unfold lexemeAt Token.classify
  by_cases hword : Token.isWordStart c = true
  · have hinside : Token.isWordChar c = true := by
      rw [Token.isWordStart_iff] at hword
      rw [Token.isWordChar_iff, Char.isAlphanum, Bool.or_eq_true]
      exact hword.imp_left Or.inl
    have hrun := runLength_behind front (c :: rest) (Nat.zero_le _) Token.isWordChar
    rw [Nat.add_zero, List.drop_zero, List.takeWhile_cons_of_pos hinside, List.length_cons] at hrun
    have hslice := slice_behind front (c :: rest) (Nat.zero_le ((rest.takeWhile Token.isWordChar).length + 1))
      (by simpa using (List.takeWhile_prefix Token.isWordChar).length_le)
    rw [Nat.add_zero, List.drop_zero, Nat.sub_zero, List.take_succ_cons,
      ← List.prefix_iff_eq_take.1 (List.takeWhile_prefix Token.isWordChar)] at hslice
    rw [if_pos hword, if_pos hword, hrun, Option.bind_eq_bind, Option.bind_some, hslice]
    rfl
  rw [if_neg hword, if_neg hword]
  by_cases hdigit : c.isDigit = true
  · rw [if_pos hdigit, if_pos hdigit, numberLength_behind front hdigit]
    rfl
  rw [if_neg hdigit, if_neg hdigit]
  by_cases hsingle : c = '\''
  · rw [if_pos hsingle, if_pos hsingle, hindex 0, hindex 1]
    match rest with
    | [] => rfl
    | [d] => rfl
    | d :: e :: more =>
      by_cases he : e = '\''
      · subst he
        by_cases hd : d = '\'' <;> simp [Token.characterTail, hd]
      · simp [Token.characterTail, he]
  rw [if_neg hsingle, if_neg hsingle]
  by_cases hdouble : c = '"'
  · have hslice := slice_rest front (c :: rest) (i := 1) (by simp)
    rw [List.drop_succ_cons, List.drop_zero] at hslice
    rw [if_pos hdouble, if_pos hdouble, hslice, Option.bind_eq_bind, Option.bind_some, findIdx?_quote,
      Token.stringTail]
    split_ifs <;> rfl
  rw [if_neg hdouble, if_neg hdouble, operatorAt_behind, charOperatorAt_behind, Token.punctuationTail,
    Token.longOperator?]
  cases hlong : Token.longOperators.find? fun op => op.toList.isPrefixOf (c :: rest) with
  | some op =>
    have hpositive : ∀ op ∈ Token.longOperators, 0 < op.length := by decide
    have hop := hpositive op (List.mem_of_find?_eq_some hlong)
    simp [Nat.sub_add_cancel hop]
  | none =>
    by_cases hsymbol : c ∈ Token.symbols
    · simp [hsymbol]
    · by_cases hchar : c ∈ Token.charOperators <;> simp [hsymbol, hchar]

/-- The search for the end of a comment looks at no character behind the last one of the line. -/
theorem closingAt_behind :
    (Unclosed text ∧ closingAt (front ++ text) front.length = some none) ∨
      ∃ last rest, text = last ++ '*' :: '/' :: rest ∧ Unclosed (last ++ ['*']) ∧
        closingAt (front ++ text) front.length = some (some (front.length + last.length)) := by
  induction text generalizing front with
  | nil => exact .inl ⟨by simp [Unclosed], by simp [closingAt, closingAmong]⟩
  | cons c text ih =>
    cases text with
    | nil => exact .inl ⟨by simp [Unclosed, List.infix_cons_iff], by simp [closingAt, closingAmong]⟩
    | cons d text =>
      have hcount : (front ++ c :: d :: text).length - 1 - front.length = text.length + 1 := by
        simp only [List.length_append, List.length_cons]
        omega
      have hfirst := getElem?_behind front (c :: d :: text) 0
      have hsecond := getElem?_behind front (c :: d :: text) 1
      by_cases hclose : c = '*' ∧ d = '/'
      · obtain ⟨rfl, rfl⟩ := hclose
        refine .inr ⟨[], text, rfl, by simp [Unclosed, List.infix_cons_iff], ?_⟩
        rw [closingAt, hcount, List.range'_succ, closingAmong]
        simp_all
      -- The search goes on behind `c`.
      have hrest : closingAmong (front ++ c :: d :: text) (List.range' (front.length + 1) text.length) =
          closingAt (front ++ [c] ++ d :: text) (front ++ [c]).length := by
        have hcount' : (front ++ [c] ++ d :: text).length - 1 - (front ++ [c]).length = text.length := by
          simp only [List.length_append, List.length_cons, List.length_nil]
          omega
        rw [closingAt, hcount', List.append_assoc, List.length_append]
        rfl
      have hgoes : ∀ result, closingAt (front ++ [c] ++ d :: text) (front ++ [c]).length = some result →
          closingAt (front ++ c :: d :: text) front.length = some result := by
        intro result hresult
        rw [closingAt, hcount, List.range'_succ, closingAmong, hrest, hresult]
        by_cases hstar : c = '*'
        · have hslash : d ≠ '/' := fun h => hclose ⟨hstar, h⟩
          simp_all
        · simp_all
      have hhead : c = '*' → (d :: text).head? ≠ some '/' := by
        rintro rfl h
        exact hclose ⟨rfl, by simpa using h⟩
      rcases ih (front ++ [c]) with ⟨hunclosed, hnone⟩ | ⟨last, rest, hsplit, hlast, hsome⟩
      · exact .inl ⟨unclosed_cons_iff.2 ⟨hhead, hunclosed⟩, hgoes _ hnone⟩
      · refine .inr ⟨c :: last, rest, by rw [hsplit, List.cons_append], unclosed_cons_iff.2 ⟨?_, hlast⟩, ?_⟩
        · rw [hsplit] at hhead
          cases last with
          | nil => simp
          | cons e last => simpa using hhead
        · rw [hgoes _ hsome, List.length_append, List.length_cons, List.length_cons, List.length_nil]
          simp only [Option.some_inj]
          omega

end Fetching

theorem closingAt_drop (row : List Char) (column : Nat) :
    (Unclosed (row.drop column) ∧ closingAt row column = some none) ∨
      ∃ last rest, row.drop column = last ++ '*' :: '/' :: rest ∧ Unclosed (last ++ ['*']) ∧
        closingAt row column = some (some (column + last.length)) := by
  by_cases hcolumn : column ≤ row.length
  · have hsearch := closingAt_behind (row.take column) (row.drop column)
    rwa [List.take_append_drop, List.length_take, Nat.min_eq_left hcolumn] at hsearch
  · have hnone : row.length - 1 - column = 0 := by omega
    refine .inl ⟨?_, by rw [closingAt, hnone]; rfl⟩
    rw [List.drop_eq_nil_of_le (by omega)]
    simp [Unclosed]

end Position

end StackCompiler
