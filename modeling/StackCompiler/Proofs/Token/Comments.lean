import StackCompiler.Proofs.Token.Words

/-!
Comments do not change the words of a source. `Passes` reads a text from its start, line ends included,
as blanks, comments and tokens up to some place. A comment that is put in at such a place leaves every
word before it as it is, since no token reaches over a blank except to the end of its own quotes.
-/

set_option autoImplicit false
namespace StackCompiler

open Token (LongestMatch)
open Text (toLineEnd)

/-- Up to `rest` the text consists of blanks, line ends, comments and tokens, which are `words`. -/
inductive Passes : List Char → List Word → List Char → Prop where
  | here {rest : List Char} : Passes rest [] rest
  | blank {c : Char} {text rest : List Char} {words : List Word}
      (isBlank : c = ' ' ∨ c = '\t' ∨ c = '\r' ∨ c = '\n') (more : Passes text words rest) :
      Passes (c :: text) words rest
  | lineComment {inside text rest : List Char} {words : List Word} (oneLine : '\n' ∉ inside)
      (lineEnd : text = [] ∨ text.head? = some '\n') (more : Passes text words rest) :
      Passes ('/' :: '/' :: (inside ++ text)) words rest
  | blockComment {inside text rest : List Char} {words : List Word}
      (closing : Unclosed (inside ++ ['*'])) (more : Passes text words rest) :
      Passes ('/' :: '*' :: (inside ++ '*' :: '/' :: text)) words rest
  | token {kind : Kind} {lexeme text rest : List Char} {words : List Word}
      (start : ¬ StartsTrivia (lexeme ++ text))
      (longest : LongestMatch (toLineEnd (lexeme ++ text)) kind lexeme)
      (more : Passes text words rest) :
      Passes (lexeme ++ text) (⟨kind, String.ofList lexeme⟩ :: words) rest

/-- What follows `before` is in no token and in no comment. -/
def BetweenTokens (before rest : List Char) : Prop :=
  ∃ words, Passes (before ++ rest) words rest

/-- The end of `before` lies behind the opening of a block comment that is not closed there. -/
def InBlockComment (before rest : List Char) : Prop :=
  ∃ words inside, Passes (before ++ rest) words ('/' :: '*' :: (inside ++ rest)) ∧ Unclosed inside

theorem front_of_not_mem {text before after : List Char} {c : Char} (h : text <+: before ++ c :: after)
    (hc : c ∉ text) : text <+: before := by
  rcases Nat.lt_or_ge before.length text.length with hlt | hge
  · have hfront : before ++ [c] <+: text :=
      List.prefix_of_prefix_length_le ⟨after, by simp⟩ h (by simpa using Nat.succ_le_of_lt hlt)
    exact absurd (hfront.subset (by simp)) hc
  · exact List.prefix_of_prefix_length_le h ⟨_, rfl⟩ hge

/-- A token before a blank does not depend on what stands behind the blank. -/
theorem Token.LongestMatch.replaced {kind : Kind} {lexeme between rest tail : List Char}
    (h : LongestMatch (toLineEnd (lexeme ++ (between ++ rest))) kind lexeme) (hkind : kind ≠ .bad) :
    LongestMatch (toLineEnd (lexeme ++ (between ++ ' ' :: tail))) kind lexeme := by
  cases h with
  | bad => exact absurd rfl hkind
  | lexeme valid front longest =>
    have hline : ∀ c ∈ lexeme, (c != '\n') = true := fun c hc => Text.mem_toLineEnd (front.subset hc)
    simp only [toLineEnd, List.takeWhile_append_of_pos hline] at longest ⊢
    refine .lexeme valid ⟨_, rfl⟩ ?_
    intro kind' other hother hfront
    rcases Nat.le_total other.length lexeme.length with hle | hge
    · exact hle
    · -- A longer match adds no blank, so it ends before the replaced part and is one of the old text.
      have hlexeme := List.prefix_append lexeme ((between ++ ' ' :: tail).takeWhile (· != '\n'))
      obtain ⟨more, rfl⟩ := List.prefix_of_prefix_length_le hlexeme hfront hge
      have hmore := (List.prefix_append_right_inj lexeme).1 hfront
      have hbetween : more <+: between :=
        front_of_not_mem (hmore.trans (Text.toLineEnd_front _)) (valid.extension hother)
      have hmoreLine : ∀ c ∈ more, (c != '\n') = true := fun c hc => Text.mem_toLineEnd (hmore.subset hc)
      refine longest kind' _ hother ((List.prefix_append_right_inj lexeme).2 ?_)
      obtain ⟨after, rfl⟩ := hbetween
      rw [List.append_assoc, List.takeWhile_append_of_pos hmoreLine]
      exact ⟨_, rfl⟩

theorem not_startsTrivia_replaced {lexeme between rest tail : List Char} (hne : lexeme ≠ [])
    (h : ¬ StartsTrivia (lexeme ++ (between ++ rest))) :
    ¬ StartsTrivia (lexeme ++ (between ++ ' ' :: tail)) := by
  rw [← List.append_assoc] at h ⊢
  rintro (⟨c, hc, hblank⟩ | hcomment | hcomment)
  · obtain ⟨d, lexeme, rfl⟩ := List.exists_cons_of_ne_nil hne
    exact h (.inl ⟨c, hc, hblank⟩)
  · exact h (.inr (.inl ((front_of_not_mem hcomment (by decide)).trans ⟨rest, rfl⟩)))
  · exact h (.inr (.inr ((front_of_not_mem hcomment (by decide)).trans ⟨rest, rfl⟩)))

/-! A comment between tokens. -/

theorem Passes.suffix {text rest : List Char} {words : List Word} (h : Passes text words rest) :
    ∃ used, text = used ++ rest := by
  induction h with
  | here => exact ⟨[], rfl⟩
  | @blank c _ _ _ _ _ ih =>
    obtain ⟨used, rfl⟩ := ih
    exact ⟨c :: used, rfl⟩
  | @lineComment inside _ _ _ _ _ _ ih =>
    obtain ⟨used, rfl⟩ := ih
    exact ⟨'/' :: '/' :: (inside ++ used), by simp⟩
  | @blockComment inside _ _ _ _ _ ih =>
    obtain ⟨used, rfl⟩ := ih
    exact ⟨'/' :: '*' :: (inside ++ '*' :: '/' :: used), by simp⟩
  | @token _ lexeme _ _ _ _ _ _ ih =>
    obtain ⟨used, rfl⟩ := ih
    exact ⟨lexeme ++ used, by simp⟩

theorem Passes.words {text rest : List Char} {words : List Word} (h : Passes text words rest) :
    wordsOf false text = words ++ wordsOf false rest := by
  induction h with
  | here => rfl
  | blank isBlank _ ih => rw [wordsOf_blank isBlank, ih]
  | lineComment oneLine lineEnd _ ih => rw [wordsOf_lineComment oneLine lineEnd, ih]
  | blockComment closing _ ih => rw [wordsOf_blockComment closing, ih]
  | token start longest _ ih => rw [wordsOf_token start longest, ih, List.cons_append]

/-- What stands before a place between tokens has the same words whatever stands there instead, as long
as that begins with a blank. A line comment that runs up to the place has to absorb it. -/
theorem Passes.words_replaced {text rest tail : List Char} {words : List Word}
    (h : Passes text words rest) (noBad : ∀ word ∈ words, word.kind ≠ .bad)
    (absorbed : rest = [] ∨ rest.head? = some '\n' → ∀ inside, '\n' ∉ inside →
      wordsOf false ('/' :: '/' :: (inside ++ ' ' :: tail)) = wordsOf false (' ' :: tail))
    {used : List Char} (htext : text = used ++ rest) :
    wordsOf false (used ++ ' ' :: tail) = words ++ wordsOf false (' ' :: tail) := by
  induction h generalizing used with
  | here =>
    rw [List.append_left_eq_self.1 htext.symm]
    rfl
  | @blank c _ _ _ isBlank more ih =>
    obtain ⟨used', rfl⟩ := more.suffix
    rw [← List.cons_append] at htext
    obtain rfl := List.append_cancel_right htext
    rw [List.cons_append, wordsOf_blank isBlank, ih noBad absorbed rfl]
  | @lineComment inside _ _ _ oneLine lineEnd more ih =>
    obtain ⟨used', rfl⟩ := more.suffix
    rw [← List.append_assoc, ← List.cons_append, ← List.cons_append] at htext
    obtain rfl := List.append_cancel_right htext
    have hrest := ih noBad absorbed rfl
    cases used' with
    | nil => simpa using (absorbed lineEnd inside oneLine).trans hrest
    | cons c used' =>
      have hend : c :: used' ++ ' ' :: tail = [] ∨ (c :: used' ++ ' ' :: tail).head? = some '\n' := by
        simpa using lineEnd
      rw [← hrest]
      simpa using wordsOf_lineComment oneLine hend
  | @blockComment inside _ _ _ closing more ih =>
    obtain ⟨used', rfl⟩ := more.suffix
    have hused : used = '/' :: '*' :: (inside ++ '*' :: '/' :: used') :=
      List.append_cancel_right (htext.symm.trans (by simp))
    rw [hused, ← ih noBad absorbed rfl]
    simpa using wordsOf_blockComment closing (used' ++ ' ' :: tail)
  | @token kind lexeme _ _ _ start longest more ih =>
    obtain ⟨used', rfl⟩ := more.suffix
    rw [← List.append_assoc] at htext
    obtain rfl := List.append_cancel_right htext
    rw [List.forall_mem_cons] at noBad
    rw [List.append_assoc, wordsOf_token (not_startsTrivia_replaced longest.ne_nil start)
      (longest.replaced noBad.1), ih noBad.2 absorbed rfl, List.cons_append]

theorem Unclosed.append_star {text : List Char} (h : Unclosed text) : Unclosed (text ++ ['*']) := by
  induction text with
  | nil => simp [Unclosed, List.infix_cons_iff]
  | cons c text ih =>
    rw [unclosed_cons_iff] at h
    refine unclosed_cons_iff.2 ⟨?_, ih h.2⟩
    cases text with
    | nil => simp
    | cons d text => simpa using h.1

theorem wordsOf_replaced {before rest tail : List Char} {words : List Word}
    (h : Passes (before ++ rest) words rest)
    (noBad : ∀ word ∈ wordsOf false (before ++ rest), word.kind ≠ .bad)
    (absorbed : rest = [] ∨ rest.head? = some '\n' → ∀ inside, '\n' ∉ inside →
      wordsOf false ('/' :: '/' :: (inside ++ ' ' :: tail)) = wordsOf false (' ' :: tail))
    (same : wordsOf false (' ' :: tail) = wordsOf false rest) :
    wordsOf false (before ++ ' ' :: tail) = wordsOf false (before ++ rest) := by
  have hbad : ∀ word ∈ words, word.kind ≠ .bad := by
    rw [h.words] at noBad
    exact fun word hword => noBad word (List.mem_append_left _ hword)
  rw [h.words_replaced hbad absorbed rfl, same, h.words]

theorem wordsOf_blockCommented {before after comment : List Char} {words : List Word}
    (h : Passes (before ++ ' ' :: after) words (' ' :: after))
    (noBad : ∀ word ∈ wordsOf false (before ++ ' ' :: after), word.kind ≠ .bad)
    (hcomment : Unclosed comment) :
    wordsOf false (before ++ ' ' :: '/' :: '*' :: (comment ++ '*' :: '/' :: ' ' :: after)) =
      wordsOf false (before ++ ' ' :: after) := by
  refine wordsOf_replaced h noBad ?_ ?_
  · rintro (hnil | hhead)
    · cases hnil
    · simp at hhead
  · rw [wordsOf_blank (.inl rfl), wordsOf_blockComment hcomment.append_star]

theorem wordsOf_lineCommented {before after comment : List Char} {words : List Word}
    (h : Passes (before ++ '\n' :: after) words ('\n' :: after))
    (noBad : ∀ word ∈ wordsOf false (before ++ '\n' :: after), word.kind ≠ .bad)
    (hcomment : '\n' ∉ comment) :
    wordsOf false (before ++ ' ' :: '/' :: '/' :: (comment ++ '\n' :: after)) =
      wordsOf false (before ++ '\n' :: after) := by
  have hsame : wordsOf false (' ' :: '/' :: '/' :: (comment ++ '\n' :: after)) =
      wordsOf false ('\n' :: after) := by
    rw [wordsOf_blank (.inl rfl), wordsOf_lineComment hcomment (.inr rfl)]
  refine wordsOf_replaced h noBad ?_ hsame
  intro _ inside hinside
  have hline : '\n' ∉ inside ++ ' ' :: '/' :: '/' :: comment := by simp [hinside, hcomment]
  rw [hsame]
  simpa using @wordsOf_lineComment _ ('\n' :: after) hline (.inr rfl)

theorem noBad_wordsOf {source : String} (h : ∀ t ∈ tokenize source, t.kind ≠ .bad) :
    ∀ word ∈ wordsOf false source.toList, word.kind ≠ .bad := by
  rw [← words_tokenize, List.forall_mem_map]
  exact h

/-! A line feed ends no token and stands in no line comment. -/

theorem Passes.trans {text middle rest : List Char} {words more : List Word}
    (h : Passes text words middle) (h' : Passes middle more rest) : Passes text (words ++ more) rest := by
  induction h with
  | here => exact h'
  | blank isBlank _ ih => exact .blank isBlank (ih h')
  | lineComment oneLine lineEnd _ ih => exact .lineComment oneLine lineEnd (ih h')
  | blockComment closing _ ih => exact .blockComment closing (ih h')
  | token start longest _ ih => exact .token start longest (ih h')

/-- A place between tokens, or one in a block comment: all that can be said of a line feed. -/
def IsLinePlace (before rest : List Char) : Prop :=
  BetweenTokens before rest ∨ InBlockComment before rest

theorem Passes.isLinePlace {used before rest : List Char} {words : List Word}
    (h : Passes (used ++ (before ++ rest)) words (before ++ rest)) (h' : IsLinePlace before rest) :
    IsLinePlace (used ++ before) rest := by
  rcases h' with ⟨more, h'⟩ | ⟨more, inside, h', hinside⟩
  · exact .inl ⟨words ++ more, by rw [List.append_assoc]; exact h.trans h'⟩
  · exact .inr ⟨words ++ more, inside, by rw [List.append_assoc]; exact h.trans h', hinside⟩

theorem passes_token {c : Char} {text : List Char} (hc : c ≠ '\n') (start : ¬ StartsTrivia (c :: text)) :
    ∃ lexeme rest word, c :: text = lexeme ++ rest ∧ lexeme ≠ [] ∧ '\n' ∉ lexeme ∧
      Passes (lexeme ++ rest) [word] rest := by
  have hline : toLineEnd (c :: text) = c :: toLineEnd text := by
    rw [toLineEnd, List.takeWhile_cons_of_pos (by simpa using hc), toLineEnd]
  have hlongest := Token.classify_longest c (toLineEnd text)
  rw [← hline] at hlongest
  obtain ⟨rest, hrest⟩ := hlongest.front.trans (Text.toLineEnd_front _)
  have hplain : '\n' ∉ c :: (toLineEnd text).take (Token.classify c (toLineEnd text)).2 := by
    intro hmem
    have := Text.mem_toLineEnd (hlongest.front.subset hmem)
    simp at this
  rw [← hrest] at start hlongest
  exact ⟨_, rest, _, hrest.symm, hlongest.ne_nil, hplain, .token start hlongest .here⟩

theorem isLinePlace (before after : List Char) : IsLinePlace before ('\n' :: after) := by
  -- Each step passes one piece at the start of `before`, which a line feed behind it cannot be part of.
  induction hsize : before.length using Nat.strongRecOn generalizing before with
  | ind size ih =>
    subst hsize
    match before with
    | [] => exact .inl ⟨[], .here⟩
    | c :: before =>
      by_cases hblank : c = ' ' ∨ c = '\t' ∨ c = '\r' ∨ c = '\n'
      · have hpasses : Passes ([c] ++ (before ++ '\n' :: after)) [] (before ++ '\n' :: after) :=
          .blank hblank .here
        exact hpasses.isLinePlace (ih before.length (by simp) before rfl)
      by_cases hstart : StartsTrivia (c :: (before ++ '\n' :: after))
      · rcases hstart with ⟨d, hd, hd'⟩ | hcomment | hcomment
        · cases hd
          exact absurd (hd'.imp_right (.imp_right .inl)) hblank
        · obtain ⟨text, htext⟩ := @front_of_not_mem _ (c :: before) _ '\n' hcomment (by decide)
          rw [← htext] at ih ⊢
          by_cases hmem : '\n' ∈ text
          · obtain ⟨inside, more, rfl, hinside⟩ := List.eq_append_cons_of_mem hmem
            have hpasses : Passes ('/' :: '/' :: inside ++ ('\n' :: more ++ '\n' :: after)) []
                ('\n' :: more ++ '\n' :: after) := .lineComment hinside (.inr rfl) .here
            exact hpasses.isLinePlace (ih ('\n' :: more).length (by simp; omega) ('\n' :: more) rfl)
          · exact .inl ⟨[], .lineComment hmem (.inr rfl) .here⟩
        · obtain ⟨text, htext⟩ := @front_of_not_mem _ (c :: before) _ '\n' hcomment (by decide)
          rw [← htext] at ih ⊢
          rcases unclosed_or_split text with hnone | ⟨inside, more, rfl, hinside⟩
          · exact .inr ⟨[], text, .here, hnone⟩
          · have hpasses : Passes ('/' :: '*' :: (inside ++ ['*', '/']) ++ (more ++ '\n' :: after)) []
                (more ++ '\n' :: after) := by
              simpa using Passes.blockComment hinside (@Passes.here (more ++ '\n' :: after))
            simpa using hpasses.isLinePlace (ih more.length (by simp; omega) more rfl)
      · have hc : c ≠ '\n' := fun hc => hblank (.inr (.inr (.inr hc)))
        obtain ⟨lexeme, rest, word, hsplit, hne, hline, hpasses⟩ := passes_token hc hstart
        obtain ⟨more, hmore⟩ := @front_of_not_mem lexeme (c :: before) _ '\n' ⟨rest, hsplit.symm⟩ hline
        have hrest : rest = more ++ '\n' :: after := by
          rw [← List.cons_append, ← hmore, List.append_assoc] at hsplit
          exact (List.append_cancel_left hsplit).symm
        have hshort : more.length < (c :: before).length := by
          rw [← hmore, List.length_append]
          exact Nat.lt_add_of_pos_left (List.length_pos_iff.2 hne)
        subst hrest
        rw [← hmore]
        exact hpasses.isLinePlace (ih more.length hshort more rfl)

theorem InBlockComment.opened {before rest : List Char} (h : InBlockComment before rest) :
    ['/', '*'] <:+: before := by
  obtain ⟨words, inside, hpasses, _⟩ := h
  obtain ⟨used, hused⟩ := hpasses.suffix
  refine ⟨used, inside, (List.append_cancel_right (hused.trans ?_)).symm⟩
  simp

/-- In a source without bad tokens a block comment may stand for any blank between tokens, and a line
comment may be added to the end of any line that does not end in a block comment: the words stay. -/
theorem words_of_commented (before after comment : String) :
    ((∀ t ∈ tokenize (before ++ " " ++ after), t.kind ≠ .bad) →
      BetweenTokens before.toList (' ' :: after.toList) → Unclosed comment.toList →
      (tokenize (before ++ " /*" ++ comment ++ "*/ " ++ after)).map Token.word =
        (tokenize (before ++ " " ++ after)).map Token.word) ∧
    ((∀ t ∈ tokenize (before ++ "\n" ++ after), t.kind ≠ .bad) →
      ¬ InBlockComment before.toList ('\n' :: after.toList) → '\n' ∉ comment.toList →
      (tokenize (before ++ " //" ++ comment ++ "\n" ++ after)).map Token.word =
        (tokenize (before ++ "\n" ++ after)).map Token.word) := by
  constructor
  · rintro hbad ⟨words, hpasses⟩ hcomment
    have hnoBad := noBad_wordsOf hbad
    simp only [words_tokenize, String.toList_append, List.append_assoc] at hnoBad ⊢
    exact wordsOf_blockCommented hpasses hnoBad hcomment
  · intro hbad houtside hcomment
    have hnoBad := noBad_wordsOf hbad
    simp only [words_tokenize, String.toList_append, List.append_assoc] at hnoBad ⊢
    obtain ⟨words, hpasses⟩ := (isLinePlace before.toList after.toList).resolve_right houtside
    exact wordsOf_lineCommented hpasses hnoBad hcomment

/-- A block comment with a quote and line ends in it behind a string that looks like the opening of a
comment, and a line comment behind another one. -/
theorem words_of_commented_string :
    (tokenize ("\"/*\"" ++ " /*" ++ "\" // \n*" ++ "*/ " ++ "t")).map Token.word =
        (tokenize ("\"/*\"" ++ " " ++ "t")).map Token.word ∧
      (tokenize ("x // y" ++ " //" ++ " /* \"" ++ "\n" ++ "t")).map Token.word =
        (tokenize ("x // y" ++ "\n" ++ "t")).map Token.word := by
  constructor
  · refine (words_of_commented "\"/*\"" "t" "\" // \n*").1 ?_ ⟨[⟨.string, "\"/*\""⟩], ?_⟩ ?_
    · decide +kernel
    · have hlongest : LongestMatch "\"/*\" t".toList .string "\"/*\"".toList :=
        Token.classify_longest '"' "/*\" t".toList
      exact @Passes.token .string "\"/*\"".toList " t".toList _ _ (by simp [StartsTrivia]) hlongest .here
    · simp [Unclosed, List.infix_cons_iff]
  · refine (words_of_commented "x // y" "t" " /* \"").2 (by decide +kernel) ?_ (by decide)
    intro h
    exact absurd h.opened (by decide +kernel)

end StackCompiler
