import StackCompiler.Proofs.Token.Lookahead
import StackCompiler.Proofs.Token.Positions
import StackCompiler.Proofs.Token.Relexing

/-!
Scanning by positions ends and stays inside the lines. Every round of the loop that skips trivia leaves less text
in front of the position, from wherever the loop is entered, so that it stops at a token or behind the last
line. What is read there is what the cursor reads that holds the same text.
-/

set_option autoImplicit false
namespace StackCompiler

namespace Position

/-! Rounds of the loop. -/

theorem cursor_of_line {lines : List (List Char)} {p : Position} {row : List Char}
    (h : lines[p.line]? = some row) :
    p.cursor lines = ⟨p.line, p.inComment, row.drop p.column :: lines.drop (p.line + 1)⟩ := by
  obtain ⟨hlt, rfl⟩ := List.getElem?_eq_some_iff.1 h
  rw [cursor, List.drop_eq_getElem_cons hlt, List.modifyHead_cons]

theorem cursor_of_end {lines : List (List Char)} {p : Position} (h : lines.length ≤ p.line) :
    p.cursor lines = ⟨p.line, p.inComment, []⟩ := by
  rw [cursor, List.drop_eq_nil_of_le h, List.modifyHead_nil]

theorem cursor_nextLine (lines : List (List Char)) (p : Position) :
    p.nextLine.cursor lines = ⟨p.line + 1, p.inComment, lines.drop (p.line + 1)⟩ := by
  rw [cursor, nextLine]
  cases lines.drop (p.line + 1) <;> simp

inductive Round.Sound (lines : List (List Char)) (p : Position) : Round → Prop where
  | atEnd (past : lines.length ≤ p.line) : Sound lines p .atEnd
  | atToken {row text : List Char} {c : Char} (here : lines[p.line]? = some row)
      (ahead : row.drop p.column = c :: text) (mode : p.inComment = false)
      (start : ¬ StartsTrivia (c :: text)) : Sound lines p .atToken
  | on {q : Position} (same : (q.cursor lines).skipTrivia = (p.cursor lines).skipTrivia)
      (less : Cursor.volume (q.cursor lines).ahead < Cursor.volume (p.cursor lines).ahead)
      (before : p.Before q) : Sound lines p (.on q)

section Round

variable {lines : List (List Char)} {p : Position} {row : List Char}

theorem nextLine_sound (here : lines[p.line]? = some row)
    (hskip : Cursor.skipInLine p.inComment (row.drop p.column) = (p.inComment, [])) :
    Round.Sound lines p (.on p.nextLine) := by
  have hcursor := cursor_of_line here
  have hnext := cursor_nextLine lines p
  have hnil : Cursor.skipInLine p.inComment [] = (p.inComment, []) := by rw [Cursor.skipInLine]
  refine .on ?_ ?_ (.inl (Nat.lt_succ_self _))
  · rw [hcursor, hnext, Cursor.skipTrivia, Cursor.skipTrivia, Cursor.skipLines_congr (hskip.trans hnil.symm),
      Cursor.skipLines_nil]
  · rw [hcursor, hnext]
    simp only [Cursor.volume]
    omega

/-- Within a line a round goes on behind what it skips. -/
theorem further_sound (skipped : List Char) {text : List Char} {mode : Bool}
    (here : lines[p.line]? = some row)
    (ahead : row.drop p.column = skipped ++ text) (nonempty : 0 < skipped.length)
    (hskip : Cursor.skipInLine p.inComment (skipped ++ text) = Cursor.skipInLine mode text) :
    Round.Sound lines p (.on ⟨p.line, p.column + skipped.length, mode⟩) := by
  have hcursor := cursor_of_line here
  have hfurther := cursor_of_line (p := ⟨p.line, p.column + skipped.length, mode⟩) here
  rw [ahead] at hcursor
  rw [← List.drop_drop, ahead, List.drop_left] at hfurther
  refine .on ?_ ?_ (.inr ⟨rfl, Nat.lt_add_of_pos_right nonempty⟩)
  · rw [hcursor, hfurther]
    exact Cursor.skipLines_congr hskip.symm p.line _
  · rw [hcursor, hfurther]
    simp only [Cursor.volume, List.length_append]
    omega

theorem commentRound_sound (here : lines[p.line]? = some row) (mode : p.inComment = true) :
    ∃ found, closingAt row p.column = some found ∧ Round.Sound lines p (commentRound p found) := by
  rcases closingAt_drop row p.column with ⟨hunclosed, hnone⟩ | ⟨last, rest, hahead, hlast, hsome⟩
  · refine ⟨none, hnone, nextLine_sound here ?_⟩
    rw [mode, Cursor.skipInLine_unclosed hunclosed]
  · have hskip : Cursor.skipInLine p.inComment (last ++ ['*', '/'] ++ rest) = Cursor.skipInLine false rest := by
      rw [mode, List.append_assoc]
      exact Cursor.skipInLine_closed hlast rest
    have hfurther := further_sound _ here (by simpa using hahead) (by simp) hskip
    refine ⟨_, hsome, ?_⟩
    rwa [List.length_append, ← Nat.add_assoc] at hfurther

theorem codeRound_sound (here : lines[p.line]? = some row) (mode : p.inComment = false) :
    Round.Sound lines p (codeRound p row[p.column]? row[p.column + 1]?) := by
  have hfirst : row[p.column]? = (row.drop p.column)[0]? := by rw [List.getElem?_drop, Nat.add_zero]
  have hsecond : row[p.column + 1]? = (row.drop p.column)[1]? := by rw [List.getElem?_drop]
  rw [hfirst, hsecond]
  cases hahead : row.drop p.column with
  | nil => exact nextLine_sound here (by rw [hahead, mode]; rfl)
  | cons c text =>
    by_cases hslash : c = '/' ∧ text.head? = some '/'
    · obtain ⟨rfl, hhead⟩ := hslash
      obtain ⟨more, rfl⟩ := List.head?_eq_some_iff.1 hhead
      exact nextLine_sound here (by rw [hahead, mode]; rfl)
    by_cases hstar : c = '/' ∧ text.head? = some '*'
    · obtain ⟨rfl, hhead⟩ := hstar
      obtain ⟨more, rfl⟩ := List.head?_eq_some_iff.1 hhead
      exact further_sound ['/', '*'] here hahead (by simp) (by rw [mode]; rfl)
    have hround : codeRound p (some c) text[0]? =
        if Cursor.isBlank c then .on ⟨p.line, p.column + 1, false⟩ else .atToken := by
      rw [← List.head?_eq_getElem?]
      unfold codeRound
      split <;> simp_all
    rw [List.getElem?_cons_zero, List.getElem?_cons_succ, hround]
    by_cases hblank : c = ' ' ∨ c = '\t' ∨ c = '\r'
    · rw [if_pos (by simpa [Cursor.isBlank, or_assoc] using hblank)]
      exact further_sound [c] here hahead (by simp)
        (by rw [mode]; exact Cursor.skipInLine_blank hblank text)
    · rw [if_neg (by simpa [Cursor.isBlank, or_assoc] using hblank)]
      refine .atToken here hahead mode ?_
      rintro (⟨d, hd, hblank'⟩ | ⟨more, hmore⟩ | ⟨more, hmore⟩)
      · exact hblank (Option.some_inj.1 hd ▸ hblank')
      · cases hmore
        exact hslash ⟨rfl, rfl⟩
      · cases hmore
        exact hstar ⟨rfl, rfl⟩

/-- Every round has a result: none of its accesses goes outside of the line. -/
theorem round_sound (lines : List (List Char)) (p : Position) :
    ∃ r, round lines p = some r ∧ Round.Sound lines p r := by
  cases hline : lines[p.line]? with
  | none => exact ⟨.atEnd, by rw [round, hline], .atEnd (List.getElem?_eq_none_iff.1 hline)⟩
  | some row =>
    cases hmode : p.inComment with
    | true =>
      obtain ⟨found, hfound, hsound⟩ := commentRound_sound hline hmode
      exact ⟨_, by simp [round, hline, hmode, hfound], hsound⟩
    | false => exact ⟨_, by simp [round, hline, hmode], codeRound_sound hline hmode⟩

end Round

/-! Whole scans. -/

section Scan

variable {lines : List (List Char)} {p q r : Position}

/-- What the loop ends with: the position where it stops, at a token or behind the lines. -/
structure Skipped (lines : List (List Char)) (p : Position) (found : Bool) (q : Position) : Prop where
  skips : Skips lines p found q
  same : (p.cursor lines).skipTrivia = (q.cursor lines).skipTrivia
  notBehind : p = q ∨ p.Before q
  stop : Round.Sound lines q (if found then .atToken else .atEnd)

theorem Before.trans (h : p.Before q) (h' : q.Before r) : p.Before r := by
  unfold Before at *
  omega

/-- The loop ends from every position, because every round leaves less text in front of it. -/
theorem exists_skipped (lines : List (List Char)) (p : Position) : ∃ found q, Skipped lines p found q := by
  induction hvolume : Cursor.volume (p.cursor lines).ahead using Nat.strong_induction_on generalizing p with
  | _ volume ih =>
    obtain ⟨round, hround, hsound⟩ := round_sound lines p
    cases round with
    | atEnd => exact ⟨false, p, .atEnd hround, rfl, .inl rfl, hsound⟩
    | atToken => exact ⟨true, p, .atToken hround, rfl, .inl rfl, hsound⟩
    | on next =>
      cases hsound with
      | on same less before =>
        obtain ⟨found, q, hrest⟩ := ih _ (hvolume ▸ less) next rfl
        refine ⟨found, q, .on hround hrest.skips, same.symm.trans hrest.same, .inr ?_, hrest.stop⟩
        rcases hrest.notBehind with rfl | hbefore
        · exact before
        · exact before.trans hbefore

theorem Skips.unique {found found' : Bool} {q' : Position} (h : Skips lines p found q)
    (h' : Skips lines p found' q') : found' = found ∧ q' = q := by
  induction h with
  | atEnd here => cases h' <;> simp_all
  | atToken here => cases h' <;> simp_all
  | on here _ ih =>
    cases h' with
    | atEnd here' => simp_all
    | atToken here' => simp_all
    | on here' rest' =>
      have hsame := here.symm.trans here'
      simp only [Option.some_inj, Round.on.injEq] at hsame
      exact ih (hsame ▸ rest')

theorem Scans.unique {found found' : Option Token} {q' : Position} (h : Scans lines p found q)
    (h' : Scans lines p found' q') : found' = found ∧ q' = q := by
  cases h with
  | atEnd skip =>
    cases h' with
    | atEnd skip' => exact ⟨rfl, (skip.unique skip').2⟩
    | token skip' _ => exact absurd (skip.unique skip').1 (by simp)
  | token skip read =>
    cases h' with
    | atEnd skip' => exact absurd (skip.unique skip').1 (by simp)
    | token skip' read' =>
      obtain ⟨-, rfl⟩ := skip.unique skip'
      have hsame := read.symm.trans read'
      simp_all

/-- Where the loop stops before a token, that token is read, with at least one character. -/
theorem exists_readAt (h : Round.Sound lines q .atToken) :
    ∃ t r, readAt lines q = some (t, r) ∧ (q.cursor lines).next = (some t, r.cursor lines) ∧
      t.lexeme ≠ "" ∧ q.Before r ∧ r.Inside lines := by
  cases h with
  | @atToken row text c here ahead mode start =>
    have hcursor := cursor_of_line here
    have hlength := Token.classify_length c text
    have hcolumn : q.column < row.length := by
      by_contra hend
      rw [List.drop_eq_nil_of_le (by omega)] at ahead
      contradiction
    have hfront : (row.take q.column).length = q.column := by
      rw [List.length_take, Nat.min_eq_left hcolumn.le]
    have hline : row.take q.column ++ c :: text = row := by rw [← ahead, List.take_append_drop]
    have hfirst : row[q.column]? = some c := by
      rw [← Nat.add_zero q.column, ← List.getElem?_drop, ahead, List.getElem?_cons_zero]
    have hlexeme := lexemeAt_behind (row.take q.column) c text
    have hslice := slice_behind (row.take q.column) (c :: text) (Nat.zero_le _) (Nat.succ_le_succ hlength)
    rw [hline, hfront] at hlexeme hslice
    rw [Nat.add_zero, Nat.sub_zero, List.drop_zero, List.take_succ_cons] at hslice
    rw [ahead, mode] at hcursor
    have hread : readAt lines q = some (⟨(Token.classify c text).1,
        String.ofList (c :: text.take (Token.classify c text).2), q.line + 1⟩,
        { q with column := q.column + ((Token.classify c text).2 + 1) }) := by
      simp only [readAt, here, hfirst, hlexeme, hslice, Option.bind_eq_bind, Option.bind_some]
      rfl
    have hbehind := cursor_of_line (p := { q with column := q.column + ((Token.classify c text).2 + 1) }) here
    rw [← List.drop_drop, ahead, List.drop_succ_cons] at hbehind
    refine ⟨_, _, hread, ?_, by simp, .inr ⟨rfl, by simp⟩, row, here, ?_⟩
    · rw [hbehind, hcursor, Cursor.next, Cursor.skipTrivia, Cursor.skipLines, Cursor.skipInLine_token start]
      dsimp only
      rw [mode]
      rfl
    · have htotal := congrArg List.length ahead
      simp only [List.length_drop, List.length_cons] at htotal ⊢
      omega

/-- A scan from any position has one result, and the cursor behind the position reads the same. -/
theorem exists_scan (lines : List (List Char)) (p : Position) :
    ∃ found q, Scans lines p found q ∧ (p.cursor lines).next = (found, q.cursor lines) ∧
      match found with
      | none => lines.length ≤ q.line
      | some t => t.lexeme ≠ "" ∧ p.Before q ∧ q.Inside lines := by
  obtain ⟨found, q, hskipped⟩ := exists_skipped lines p
  cases found with
  | false =>
    cases hskipped.stop with
    | atEnd past =>
      refine ⟨none, q, .atEnd hskipped.skips, ?_, past⟩
      rw [Cursor.next, hskipped.same, cursor_of_end past, Cursor.skipTrivia, Cursor.skipLines]
      rfl
  | true =>
    obtain ⟨t, r, hread, hnext, hlexeme, hbefore, hinside⟩ := exists_readAt hskipped.stop
    have hnext' : (p.cursor lines).next = (q.cursor lines).next := by
      rw [Cursor.next, Cursor.next, hskipped.same]
    refine ⟨some t, r, .token hskipped.skips hread, hnext'.trans hnext, hlexeme, ?_, hinside⟩
    rcases hskipped.notBehind with rfl | hpq
    · exact hbefore
    · exact hpq.trans hbefore

end Scan

/-! Cursors that a scanner can reach. -/

def Shown (lines : List (List Char)) (c : Cursor) : Prop :=
  ∃ p : Position, c = p.cursor lines ∧ (p.Inside lines ∨ lines.length ≤ p.line)

theorem shown_start (source : String) : Shown (Text.lines source.toList) (Cursor.start source) := by
  refine ⟨start, ?_, ?_⟩
  · rw [cursor, Cursor.start]
    cases Text.lines source.toList <;> rfl
  · cases hlines : Text.lines source.toList with
    | nil => exact .inr (Nat.le_refl _)
    | cons row more => exact .inl ⟨row, rfl, Nat.zero_le _⟩

theorem Shown.next {lines : List (List Char)} {c : Cursor} (h : Shown lines c) : Shown lines c.next.2 := by
  obtain ⟨p, rfl, -⟩ := h
  obtain ⟨found, q, -, hnext, hfound⟩ := exists_scan lines p
  refine ⟨q, by rw [hnext], ?_⟩
  cases found with
  | none => exact .inr hfound
  | some t => exact .inl hfound.2.2

theorem Shown.finish {lines : List (List Char)} {c : Cursor} (h : Shown lines c) : Shown lines c.finish := by
  induction c using Cursor.finish.induct with
  | case1 c t c' hnext ih =>
    have hc' := h.next
    rw [hnext] at hc'
    rw [Cursor.finish, hnext]
    exact ih hc'
  | case2 c c' hnext =>
    have hc' := h.next
    rw [hnext] at hc'
    rwa [Cursor.finish, hnext]

theorem shown_perform {lines : List (List Char)} {s : Scanner} (h : ∀ c ∈ s.cursor :: s.remembered, Shown lines c)
    (r : Request) : ∀ c ∈ (s.perform r).2.cursor :: (s.perform r).2.remembered, Shown lines c := by
  rw [List.forall_mem_cons] at h ⊢
  cases r with
  | next => exact ⟨h.1.next, h.2⟩
  | peek k => exact h
  | checkpoint =>
    refine ⟨h.1, fun c hc => ?_⟩
    rcases List.mem_append.1 hc with hc | hc
    · exact h.2 c hc
    · exact List.mem_singleton.1 hc ▸ h.1
  | restore n =>
    refine ⟨?_, h.2⟩
    change Shown lines (s.remembered[n]?.getD s.cursor)
    cases hn : s.remembered[n]? with
    | none => exact h.1
    | some c => exact h.2 c (List.mem_of_getElem? hn)
  | tokenize => exact ⟨h.1.finish, h.2⟩

theorem shown_replay {lines : List (List Char)} (rs : List Request) {s : Scanner}
    (h : ∀ c ∈ s.cursor :: s.remembered, Shown lines c) :
    Shown lines (replay Scanner.perform s rs).2.cursor := by
  induction rs generalizing s with
  | nil => exact h s.cursor (List.mem_cons_self ..)
  | cons r rs ih => exact ih (shown_perform h r)

end Position

/-! The number of tokens. -/

theorem Text.length_lines (text : List Char) : (lines text).flatten.length ≤ text.length := by
  fun_induction lines text with
  | case1 => exact Nat.le_refl _
  | case2 rest ih => simpa using ih.trans (Nat.le_succ _)
  | case3 rest ih =>
    simp only [List.flatten_cons, List.nil_append, List.length_cons]
    omega
  | case4 c rest => simp
  | case5 c rest hc hend row more hcons ih =>
    rw [hcons] at ih
    simpa using ih

theorem Piece.length_tokens {pieces : List Piece}
    (h : ∀ t ∈ pieces.filterMap token?, t.lexeme.toList ≠ []) :
    (pieces.filterMap token?).length ≤ (pieces.flatMap text).length := by
  induction pieces with
  | nil => exact Nat.le_refl _
  | cons piece pieces ih =>
    cases piece with
    | trivia text =>
      rw [List.filterMap_cons_none rfl] at h ⊢
      rw [List.flatMap_cons, List.length_append]
      exact (ih h).trans (Nat.le_add_left _ _)
    | token t =>
      have hcons : (token t :: pieces).filterMap token? = t :: pieces.filterMap token? := rfl
      rw [hcons, List.forall_mem_cons] at h
      have hlength := List.length_pos_iff.2 h.1
      rw [hcons, List.flatMap_cons, List.length_append, List.length_cons, Piece.text]
      have hrest := ih h.2
      omega

theorem length_tokenize (source : String) : (tokenize source).length ≤ source.length := by
  obtain ⟨pieces, hdivides⟩ := exists_divides 1 (Text.lines source.toList)
  have htokens : tokenize source = pieces.filterMap Piece.token? := hdivides.tokens rfl
  have hlexemes : ∀ t ∈ pieces.filterMap Piece.token?, t.lexeme.toList ≠ [] := by
    intro t hmem
    rw [← htokens] at hmem
    exact (isolated_of_mem_tokenize hmem).longest.ne_nil
  calc (tokenize source).length
      ≤ (pieces.flatMap Piece.text).length := htokens ▸ Piece.length_tokens hlexemes
    _ = (Text.lines source.toList).flatten.length := by rw [hdivides.text]
    _ ≤ source.toList.length := Text.length_lines source.toList
    _ = source.length := String.length_toList

/-- However a scanner came to its cursor, that cursor holds the text behind a position in the lines. A scan
from a position ends without an access outside of a line. It reads what the cursor reads: nothing, and then
it has passed the last line, or a token of at least one character, and then it stands further on in a line. -/
theorem scan_stays_in_lines (source : String) :
    let lines := Text.lines source.toList
    (∀ rs, Position.Shown lines (replay Scanner.perform (.start source) rs).2.cursor) ∧
      (∀ p : Position, ∃ found q, Position.Scans lines p found q ∧
        (∀ found' q', Position.Scans lines p found' q' → found' = found ∧ q' = q) ∧
        (p.cursor lines).next = (found, q.cursor lines) ∧
        match found with
        | none => lines.length ≤ q.line
        | some t => t.lexeme ≠ "" ∧ p.Before q ∧ q.Inside lines) ∧
      (tokenize source).length ≤ source.length := by
  intro lines
  refine ⟨fun rs => ?_, fun p => ?_, length_tokenize source⟩
  · apply Position.shown_replay rs
    simpa [Scanner.start] using Position.shown_start source
  · obtain ⟨found, q, hscans, hnext, hfound⟩ := Position.exists_scan lines p
    exact ⟨found, q, hscans, fun found' q' h => hscans.unique h, hnext, hfound⟩

end StackCompiler
