import StackCompiler.Proofs.Token.Words

/-!
Tokens written out again, one to a line. In its source a token is the longest match in front of a text
that has further characters behind it; on a line of its own it ends the line, and only blanks may stand
around it. It is read back all the same: what could be read instead of it would have to end in a blank.
-/

set_option autoImplicit false
namespace StackCompiler

open Token (IsLexeme LongestMatch)

/-! Blanks behind a token. -/

/-- No lexeme reaches into the blanks behind a text. -/
theorem Token.IsLexeme.front_of_blanks {kind : Kind} {text lexeme blanks : List Char}
    (h : IsLexeme kind text) (hblanks : ∀ c ∈ blanks, c = ' ' ∨ c = '\t')
    (hfront : text <+: lexeme ++ blanks) : text <+: lexeme := by
  have hprefix : lexeme <+: lexeme ++ blanks := ⟨blanks, rfl⟩
  rcases Nat.le_total text.length lexeme.length with hle | hle
  · exact List.prefix_of_prefix_length_le hfront hprefix hle
  · obtain ⟨more, rfl⟩ := List.prefix_of_prefix_length_le hprefix hfront hle
    rcases more.eq_nil_or_concat with rfl | ⟨init, c, rfl⟩
    · exact ⟨[], by simp⟩
    · have hmem : c ∈ blanks := ((List.prefix_append_right_inj lexeme).1 hfront).subset (by simp)
      have hlast : (lexeme ++ init.concat c).getLast? = some c := by
        rw [List.concat_eq_append, ← List.append_assoc, List.getLast?_concat]
      exact absurd hlast (h.last_ne ((hblanks c hmem).imp_right .inl))

theorem Token.LongestMatch.append_blanks {kind : Kind} {lexeme blanks : List Char}
    (h : LongestMatch lexeme kind lexeme) (hblanks : ∀ c ∈ blanks, c = ' ' ∨ c = '\t') :
    LongestMatch (lexeme ++ blanks) kind lexeme := by
  generalize hsame : lexeme = text at h ⊢
  cases h with
  | lexeme valid _ longest =>
    refine .lexeme valid ⟨blanks, rfl⟩ ?_
    intro kind' other hother hfront
    exact longest kind' other hother (hother.front_of_blanks hblanks hfront)
  | @bad c rest first none =>
    have hfirst : [c] ++ blanks = c :: blanks := rfl
    refine .bad hfirst ?_
    intro kind' other hother hfront
    exact none kind' other hother (hother.front_of_blanks hblanks hfront)

/-- A sign that opens a comment does not reach into blanks either. -/
theorem opening_of_blanks {c : Char} {lexeme blanks : List Char} (hc : c = '/' ∨ c = '*')
    (hne : lexeme ≠ []) (hblanks : ∀ c ∈ blanks, c = ' ' ∨ c = '\t')
    (h : ['/', c] <+: lexeme ++ blanks) : ['/', c] <+: lexeme := by
  obtain ⟨d, tail, rfl⟩ := List.exists_cons_of_ne_nil hne
  obtain ⟨rfl, htail⟩ := List.cons_prefix_cons.1 h
  cases tail with
  | nil =>
    have hmem : c ∈ blanks := htail.subset (by simp)
    rcases hblanks c hmem with rfl | rfl <;> exact absurd hc (by decide)
  | cons e tail =>
    obtain ⟨rfl, -⟩ := List.cons_prefix_cons.1 htail
    exact ⟨tail, rfl⟩

theorem StartsTrivia.of_blanks {lexeme blanks : List Char} (hne : lexeme ≠ [])
    (hblanks : ∀ c ∈ blanks, c = ' ' ∨ c = '\t') (h : StartsTrivia (lexeme ++ blanks)) :
    StartsTrivia lexeme := by
  rcases h with ⟨c, hc, hblank⟩ | h | h
  · obtain ⟨d, tail, rfl⟩ := List.exists_cons_of_ne_nil hne
    exact .inl ⟨c, hc, hblank⟩
  · exact .inr (.inl (opening_of_blanks (.inl rfl) hne hblanks h))
  · exact .inr (.inr (opening_of_blanks (.inr rfl) hne hblanks h))

/-! Tokens that are read back from their own text. -/

/-- The lexeme on its own is neither skipped nor read as something else, and it fits in a line. -/
structure Token.Isolated (t : Token) : Prop where
  start : ¬ StartsTrivia t.lexeme.toList
  longest : LongestMatch t.lexeme.toList t.kind t.lexeme.toList
  inLine : '\n' ∉ t.lexeme.toList

theorem Divides.isolated {n : Nat} {lines : List (List Char)} {pieces : List Piece}
    (h : Divides n lines pieces) (hlines : ∀ line ∈ lines, '\n' ∉ line) :
    ∀ t ∈ pieces.filterMap Piece.token?, t.Isolated := by
  induction h with
  | done => simp
  | nextLine _ ih => exact ih fun line hmem => hlines line (by simp [hmem])
  | blank _ _ ih =>
    rw [List.forall_mem_cons] at hlines
    exact ih (List.forall_mem_cons.2 ⟨fun hmem => hlines.1 (by simp [hmem]), hlines.2⟩)
  | lineComment _ ih => exact ih fun line hmem => hlines line (by simp [hmem])
  | @blockComment n first last text lines inside more pieces split _ _ _ ih =>
    -- What is left is the end of one of the lines, and the lines behind it.
    have hrest : ∀ line ∈ (last ++ '*' :: '/' :: text) :: more, '\n' ∉ line := by
      intro line hmem
      have hline : line ∈ first :: lines := split ▸ List.mem_append_right inside hmem
      rw [List.forall_mem_cons] at hlines
      rcases List.mem_cons.1 hline with rfl | hline
      · exact fun hfeed => hlines.1 (by simp [hfeed])
      · exact hlines.2 line hline
    rw [List.forall_mem_cons] at hrest
    exact ih (List.forall_mem_cons.2 ⟨fun hmem => hrest.1 (by simp [hmem]), hrest.2⟩)
  | openComment => simp [Piece.token?]
  | @token n kind lexeme text more pieces start longest _ ih =>
    rw [List.forall_mem_cons] at hlines
    have hhere : (⟨kind, String.ofList lexeme, n⟩ : Token).Isolated := by
      constructor <;> simp only [String.toList_ofList]
      · exact fun h => start (h.mono ⟨text, rfl⟩)
      · have hself := List.prefix_refl lexeme
        exact longest.mono hself ⟨text, rfl⟩
      · exact fun hmem => hlines.1 (by simp [hmem])
    have hrest := ih (List.forall_mem_cons.2 ⟨fun hmem => hlines.1 (by simp [hmem]), hlines.2⟩)
    exact List.forall_mem_cons.2 ⟨hhere, hrest⟩

theorem Text.lines_inLine (text : List Char) : ∀ line ∈ lines text, '\n' ∉ line := by
  fun_induction lines text with
  | case1 => simp
  | case2 rest ih => simpa using ih
  | case3 rest ih => simpa using ih
  | case4 c rest hc hend hnil ih => simpa using Ne.symm hc
  | case5 c rest hc hend line more hcons ih =>
    rw [hcons, List.forall_mem_cons] at ih
    refine List.forall_mem_cons.2 ⟨?_, ih.2⟩
    simpa using ⟨Ne.symm hc, ih.1⟩

theorem isolated_of_mem_tokenize {source : String} {t : Token} (h : t ∈ tokenize source) : t.Isolated := by
  obtain ⟨pieces, hdivides⟩ := exists_divides 1 (Text.lines source.toList)
  have htokens : tokenize source = pieces.filterMap Piece.token? := hdivides.tokens rfl
  rw [htokens] at h
  exact hdivides.isolated (Text.lines_inLine source.toList) t h

/-! Reading them back. -/

namespace Cursor

theorem tokens_blanks {blanks : List Char} (h : ∀ c ∈ blanks, c = ' ' ∨ c = '\t') (n : Nat)
    (text : List Char) (more : List (List Char)) :
    tokens ⟨n, false, (blanks ++ text) :: more⟩ = tokens ⟨n, false, text :: more⟩ := by
  induction blanks with
  | nil => rfl
  | cons c blanks ih =>
    rw [List.forall_mem_cons] at h
    have hskip := skipLines_congr (skipInLine_blank (h.1.imp_right .inl) (blanks ++ text)) n more
    rw [← ih h.2]
    exact tokens_congr hskip

/-- A line that holds one token and blanks gives that token. -/
theorem tokens_lexemeLine {t : Token} (h : t.Isolated) {before after : List Char}
    (hbefore : ∀ c ∈ before, c = ' ' ∨ c = '\t') (hafter : ∀ c ∈ after, c = ' ' ∨ c = '\t') (n : Nat)
    (more : List (List Char)) :
    tokens ⟨n, false, (before ++ t.lexeme.toList ++ after) :: more⟩ =
      { t with line := n + 1 } :: tokens ⟨n + 1, false, more⟩ := by
  have hstart : ¬ StartsTrivia (t.lexeme.toList ++ after) :=
    fun htrivia => h.start (htrivia.of_blanks h.longest.ne_nil hafter)
  have hrest : tokens ⟨n, false, after :: more⟩ = tokens ⟨n + 1, false, more⟩ := by
    rw [← List.append_nil after, tokens_blanks hafter]
    exact tokens_congr (skipLines_nil n false more)
  rw [List.append_assoc, tokens_blanks hbefore, tokens_token hstart (h.longest.append_blanks hafter), hrest,
    String.ofList_toList]

theorem tokens_column {ts : List Token} (h : ∀ t ∈ ts, t.Isolated) (n : Nat) :
    tokens ⟨n, false, ts.map fun t => t.lexeme.toList⟩ =
      ts.mapIdx fun k t => { t with line := n + k + 1 } := by
  induction ts generalizing n with
  | nil => exact tokens_nil n false
  | cons t ts ih =>
    rw [List.forall_mem_cons] at h
    have hnone : ∀ c ∈ ([] : List Char), c = ' ' ∨ c = '\t' := by simp
    have hline := tokens_lexemeLine h.1 hnone hnone n (ts.map fun t => t.lexeme.toList)
    rw [List.nil_append, List.append_nil] at hline
    rw [List.map_cons, hline, ih h.2, List.mapIdx_cons]
    simp only [Nat.add_zero, Nat.add_right_comm n 1, Nat.add_assoc]

end Cursor

namespace Text

theorem lines_eq_cons {text : List Char} (h : text ≠ []) :
    lines text = firstLine text :: otherLines text := by
  obtain ⟨c, text, rfl⟩ := List.exists_cons_of_ne_nil h
  by_cases hc : c = '\n'
  · rw [hc, firstLine, otherLines, lines_lineFeed]
    rfl
  by_cases hend : c = '\r' ∧ text.head? = some '\n'
  · obtain ⟨rfl, hhead⟩ := hend
    obtain ⟨more, rfl⟩ := List.head?_eq_some_iff.1 hhead
    rw [firstLine, otherLines, lines_carriageReturn, lines_lineFeed]
    rfl
  · rw [firstLine, otherLines, lines_cons hc fun h h' => hend ⟨h, h'⟩]
    rfl

theorem firstLine_inLine {text : List Char} (h : '\n' ∉ text) : firstLine text = text := by
  induction text with
  | nil => rfl
  | cons c text ih =>
    rw [List.mem_cons, not_or] at h
    have hend : text.head? ≠ some '\n' := fun hhead => h.2 (List.mem_of_head? hhead)
    rw [firstLine_cons (Ne.symm h.1) fun _ => hend, ih h.2]

theorem lines_of_inLine {text : List Char} (hne : text ≠ []) (h : '\n' ∉ text) : lines text = [text] := by
  have hother := otherLines_append h []
  rw [List.append_nil] at hother
  rw [lines_eq_cons hne, firstLine_inLine h, hother]
  rfl

/-- A text that could stand in a line, whatever follows it. -/
structure IsLine (text : List Char) : Prop where
  ne_nil : text ≠ []
  inLine : '\n' ∉ text
  last : text.getLast? ≠ some '\r'

theorem IsLine.lines_append {line : List Char} (h : IsLine line) (text : List Char) :
    lines (line ++ text) = (line ++ firstLine text) :: otherLines text := by
  have hne : line ++ text ≠ [] := by simp [h.ne_nil]
  rw [lines_eq_cons hne, firstLine_append h.inLine h.last, otherLines_append h.inLine]

theorem lines_intercalate {column : List (List Char)} (h : ∀ line ∈ column, IsLine line) :
    lines (['\n'].intercalate column) = column := by
  match column with
  | [] => rfl
  | [line] =>
    have hline := h line (by simp)
    rw [List.intercalate_singleton, lines_of_inLine hline.ne_nil hline.inLine]
  | line :: next :: column =>
    rw [List.forall_mem_cons] at h
    rw [List.intercalate_cons_cons, List.append_assoc, h.1.lines_append, firstLine, otherLines,
      List.singleton_append, lines_lineFeed, lines_intercalate h.2, List.headD_cons, List.tail_cons,
      List.append_nil]

end Text

theorem Token.Isolated.isLine {t : Token} (h : t.Isolated) : Text.IsLine t.lexeme.toList := by
  have hstart : ¬ StartsTrivia (t.lexeme.toList ++ []) := by
    rw [List.append_nil]
    exact h.start
  exact ⟨h.longest.ne_nil, h.inLine, h.longest.last_ne hstart⟩

/-- The lexemes of a source, written one to a line, give its tokens again, each on the line of its own
number. So each of them alone gives one token of its kind, also with spaces and tabs around it. -/
theorem tokenize_lexemes (source : String) :
    tokenize ("\n".intercalate ((tokenize source).map Token.lexeme)) =
        (tokenize source).mapIdx (fun k t => { t with line := k + 1 }) ∧
      ∀ t ∈ tokenize source, ∀ before after : String,
        (∀ c ∈ before.toList ++ after.toList, c = ' ' ∨ c = '\t') →
          tokenize (before ++ t.lexeme ++ after) = [⟨t.kind, t.lexeme, 1⟩] := by
  have hisolated : ∀ t ∈ tokenize source, t.Isolated := fun t => isolated_of_mem_tokenize
  constructor
  · have hlines : ∀ line ∈ (tokenize source).map fun t => t.lexeme.toList, Text.IsLine line :=
      List.forall_mem_map.2 fun t hmem => (hisolated t hmem).isLine
    have hcolumn := Cursor.tokens_column hisolated 0
    rw [← Text.lines_intercalate hlines] at hcolumn
    have htext : ("\n".intercalate ((tokenize source).map Token.lexeme)).toList =
        ['\n'].intercalate ((tokenize source).map fun t => t.lexeme.toList) := by
      rw [String.toList_intercalate, List.map_map]
      rfl
    rw [tokenize, Cursor.start, htext, hcolumn]
    simp only [Nat.zero_add]
  · intro t hmem before after hblanks
    have hinLine : '\n' ∉ before.toList ++ t.lexeme.toList ++ after.toList := by
      have hfeed : '\n' ∉ before.toList ++ after.toList := fun hfeed => absurd (hblanks _ hfeed) (by decide)
      have hlexeme := (hisolated t hmem).inLine
      simp only [List.mem_append, not_or] at hfeed ⊢
      exact ⟨⟨hfeed.1, hlexeme⟩, hfeed.2⟩
    have hline : Text.lines (before ++ t.lexeme ++ after).toList =
        [before.toList ++ t.lexeme.toList ++ after.toList] := by
      rw [String.toList_append, String.toList_append]
      exact Text.lines_of_inLine (by simp [(hisolated t hmem).longest.ne_nil]) hinLine
    rw [List.forall_mem_append] at hblanks
    rw [tokenize, Cursor.start, hline, Cursor.tokens_lexemeLine (hisolated t hmem) hblanks.1 hblanks.2,
      Cursor.tokens_nil]

/-- On lines of their own the signs of a division and a product open no comment, and a quote without
its partner does not make a character of the blanks around it. -/
theorem tokenize_lexemes_signs :
    tokenize "/\n*\n'" = [⟨.operator, "/", 1⟩, ⟨.operator, "*", 2⟩, ⟨.bad, "'", 3⟩] ∧
      tokenize ("\t" ++ "'" ++ " ") = [⟨.bad, "'", 1⟩] := by
  have htokens : tokenize "/ *'" = [⟨.operator, "/", 1⟩, ⟨.operator, "*", 1⟩, ⟨.bad, "'", 1⟩] := by
    decide +kernel
  obtain ⟨hcolumn, halone⟩ := tokenize_lexemes "/ *'"
  rw [htokens] at hcolumn halone
  exact ⟨hcolumn, halone ⟨.bad, "'", 1⟩ (by simp) "\t" " " (by simp)⟩

end StackCompiler
