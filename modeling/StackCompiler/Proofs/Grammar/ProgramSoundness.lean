import StackCompiler.Proofs.Grammar.ExpressionSoundness

/-!
What is read is derived: declarations, statements and whole programs.
-/

set_option autoImplicit false
namespace StackCompiler.Grammar

theorem declaredName_reads {ts : List Token} {r : Read Tree ts.length}
    (h : declaredName ts = .ok r) : Reads .declaredName ts [r.value] r.rest := by
  rw [declaredName, bind_eq_ok] at h
  obtain ⟨name, hname, h⟩ := h
  obtain ⟨hid, hts⟩ := expectIdentifier_eq_ok hname
  split at h
  next =>
    cases h
    exact ⟨[name.value], hts, .scalarName hid⟩
  next bracket hbracket =>
    obtain ⟨hopen, hrest⟩ := eat?_eq_some hbracket
    rw [bind_eq_ok] at h
    obtain ⟨length, hlength, h⟩ := h
    rw [bind_eq_ok] at h
    obtain ⟨close, hclose, h⟩ := h
    obtain ⟨hnumber, hrest'⟩ := expect_eq_ok hlength
    obtain ⟨hclosing, hend⟩ := expectSymbol_eq_ok hclose
    cases h
    refine ⟨[name.value, bracket.value, length.value, close.value], ?_,
      .arrayName hid ((Token.isSymbol_iff _ _).1 hopen) (by simpa using hnumber) hclosing⟩
    exact hts.trans (by simp [hrest, hrest', hend])

theorem parameter_reads {ts : List Token} {r : Read Tree ts.length} (h : parameter ts = .ok r) :
    Reads .parameter ts [r.value] r.rest := by
  rw [parameter, bind_eq_ok] at h
  obtain ⟨name, hname, h⟩ := h
  obtain ⟨hid, hts⟩ := expectIdentifier_eq_ok hname
  split at h
  next =>
    cases h
    exact ⟨[name.value], hts, .scalarParameter hid⟩
  next bracket hbracket =>
    obtain ⟨hopen, hrest⟩ := eat?_eq_some hbracket
    rw [bind_eq_ok] at h
    obtain ⟨close, hclose, h⟩ := h
    obtain ⟨hclosing, hend⟩ := expectSymbol_eq_ok hclose
    cases h
    refine ⟨[name.value, bracket.value, close.value], ?_,
      .arrayParameter hid ((Token.isSymbol_iff _ _).1 hopen) hclosing⟩
    exact hts.trans (by simp [hrest, hend])

theorem parameterList_reads {ts : List Token} {r : Read (List Tree) ts.length}
    (h : parameterList ts = .ok r) : Reads .parameterList ts r.value r.rest := by
  rw [parameterList, bind_eq_ok] at h
  obtain ⟨first, hfirst, h⟩ := h
  obtain ⟨used, hused, hd⟩ := parameter_reads hfirst
  split at h
  next =>
    cases h
    exact ⟨used, hused, .lastParameter hd⟩
  next comma hcomma =>
    obtain ⟨hsep, hrest⟩ := eat?_eq_some hcomma
    rw [bind_eq_ok] at h
    obtain ⟨more, hmore, h⟩ := h
    have hlt := Nat.lt_trans comma.shorter first.shorter
    obtain ⟨used', hused', hd'⟩ := parameterList_reads hmore
    cases h
    refine ⟨used ++ comma.value :: used', ?_, .parameter hd ((Token.isSymbol_iff _ _).1 hsep) hd'⟩
    exact hused.trans (by simp [hrest, hused'])
termination_by ts.length

theorem parameterGroup_reads {ts : List Token} {r : Read Tree ts.length}
    (h : parameterGroup ts = .ok r) : Reads .parameterGroup ts [r.value] r.rest := by
  rw [parameterGroup, bind_eq_ok] at h
  obtain ⟨type, htype, h⟩ := h
  rw [bind_eq_ok] at h
  obtain ⟨names, hnames, h⟩ := h
  obtain ⟨hname, hts⟩ := expect_eq_ok htype
  obtain ⟨used, hused, hd⟩ := parameterList_reads hnames
  cases h
  refine ⟨type.value :: used, ?_, .parameterGroup ((isTypeName_iff _).1 hname) hd⟩
  exact hts.trans (by simp [hused])

theorem parameterGroups_reads {ts : List Token} {r : Read (List Tree) ts.length}
    (h : parameterGroups ts = .ok r) : Reads .parameterGroups ts r.value r.rest := by
  rw [parameterGroups, bind_eq_ok] at h
  obtain ⟨first, hfirst, h⟩ := h
  obtain ⟨used, hused, hd⟩ := parameterGroup_reads hfirst
  split at h
  next =>
    cases h
    exact ⟨used, hused, .lastGroup hd⟩
  next semicolon hsemicolon =>
    obtain ⟨hsep, hrest⟩ := eat?_eq_some hsemicolon
    rw [bind_eq_ok] at h
    obtain ⟨more, hmore, h⟩ := h
    have hlt := Nat.lt_trans semicolon.shorter first.shorter
    obtain ⟨used', hused', hd'⟩ := parameterGroups_reads hmore
    cases h
    refine ⟨used ++ semicolon.value :: used', ?_, .group hd ((Token.isSymbol_iff _ _).1 hsep) hd'⟩
    exact hused.trans (by simp [hrest, hused'])
termination_by ts.length

theorem parameters_reads {ts : List Token} {r : Read Tree (ts.length + 1)}
    (h : parameters ts = .ok r) : Reads .parameters ts [r.value] r.rest := by
  rw [parameters] at h
  split at h
  next =>
    cases h
    exact ⟨[], rfl, .noParameters⟩
  next =>
    rw [bind_eq_ok] at h
    obtain ⟨groups, hgroups, h⟩ := h
    obtain ⟨used, hused, hd⟩ := parameterGroups_reads hgroups
    cases h
    exact ⟨used, hused, .parameters hd⟩

variable {reuse : Bool}

theorem simpleExpression_reads {ts : List Token} {r : Read Tree ts.length}
    (h : simpleExpression reuse ts = .ok (some r)) : Reads (.chain .or) ts [r.value] r.rest :=
  chain_reads (known_none reuse ts) h

theorem declarator_reads {ts : List Token} {r : Read Tree ts.length}
    (h : declarator reuse ts = .ok r) : Reads .declarator ts [r.value] r.rest := by
  rw [declarator, bind_eq_ok] at h
  obtain ⟨name, hname, h⟩ := h
  obtain ⟨used, hused, hd⟩ := declaredName_reads hname
  split at h
  next =>
    cases h
    exact ⟨used, hused, .uninitialized hd⟩
  next colon hcolon =>
    obtain ⟨hsep, hrest⟩ := eat?_eq_some hcolon
    rw [bind_eq_ok] at h
    obtain ⟨init, hinit, h⟩ := h
    obtain ⟨used', hused', hd'⟩ := simpleExpression_reads (required_eq_ok hinit)
    cases h
    refine ⟨used ++ colon.value :: used', ?_, .initialized hd ((Token.isSymbol_iff _ _).1 hsep) hd'⟩
    exact hused.trans (by simp [hrest, hused'])

theorem declarators_reads {ts : List Token} {r : Read (List Tree) ts.length}
    (h : declarators reuse ts = .ok r) :
    ∃ used semicolon, ts = used ++ semicolon :: r.rest ∧ Derives .declarators used r.value ∧
      semicolon.OneOf .symbol [";"] := by
  rw [declarators, bind_eq_ok] at h
  obtain ⟨first, hfirst, h⟩ := h
  obtain ⟨used, hused, hd⟩ := declarator_reads hfirst
  split at h
  next comma hcomma =>
    obtain ⟨hsep, hrest⟩ := eat?_eq_some hcomma
    rw [bind_eq_ok] at h
    obtain ⟨more, hmore, h⟩ := h
    have hlt := Nat.lt_trans comma.shorter first.shorter
    obtain ⟨used', semicolon, hend, hd', hsemicolon⟩ := declarators_reads hmore
    cases h
    refine ⟨used ++ comma.value :: used', semicolon, ?_,
      .declarator hd ((Token.isSymbol_iff _ _).1 hsep) hd', hsemicolon⟩
    exact hused.trans (by simp [hrest, hend])
  next =>
    rw [bind_eq_ok] at h
    obtain ⟨close, hclose, h⟩ := h
    obtain ⟨hsemicolon, hend⟩ := expectSymbol_eq_ok hclose
    cases h
    refine ⟨used, close.value, ?_, .lastDeclarator hd, hsemicolon⟩
    exact hused.trans (by simp [hend])
termination_by ts.length

theorem varDeclaration_reads {ts : List Token} {r : Read Tree ts.length}
    (h : varDeclaration reuse ts = .ok (some r)) : Reads .varDeclaration ts [r.value] r.rest := by
  rw [varDeclaration] at h
  split at h
  next => simp [pure_eq_ok] at h
  next type htype =>
    obtain ⟨hname, hts⟩ := eat?_eq_some htype
    rw [bind_eq_ok] at h
    obtain ⟨list, hlist, h⟩ := h
    obtain ⟨used, semicolon, hused, hd, hsemicolon⟩ := declarators_reads hlist
    cases h
    refine ⟨type.value :: used ++ [semicolon], ?_,
      .variableDeclaration ((isTypeName_iff _).1 hname) hd hsemicolon⟩
    exact hts.trans (by simp [hused])

theorem localDeclaration_reads {ts : List Token} {r : Read Tree ts.length}
    (h : localDeclaration reuse ts = .ok (some r)) : Reads .localDeclaration ts [r.value] r.rest := by
  rw [localDeclaration] at h
  split at h
  next =>
    obtain ⟨used, hused, hd⟩ := varDeclaration_reads h
    exact ⟨used, hused, .plainLocal hd⟩
  next static hstatic =>
    obtain ⟨hword, hts⟩ := eat?_eq_some hstatic
    rw [bind_eq_ok] at h
    obtain ⟨type, htype, h⟩ := h
    rw [bind_eq_ok] at h
    obtain ⟨list, hlist, h⟩ := h
    obtain ⟨hname, hrest⟩ := expect_eq_ok htype
    obtain ⟨used, semicolon, hused, hd, hsemicolon⟩ := declarators_reads hlist
    cases h
    refine ⟨static.value :: type.value :: used ++ [semicolon], ?_, .staticLocal
      ((Token.isKeyword_iff _ _).1 hword) ((isTypeName_iff _).1 hname) hd hsemicolon⟩
    exact hts.trans (by simp [hrest, hused])

theorem localDeclarations_reads {ts : List Token} {r : Read (List Tree) (ts.length + 1)}
    (h : localDeclarations reuse ts = .ok r) : Reads .localDeclarations ts r.value r.rest := by
  rw [localDeclarations, bind_eq_ok] at h
  obtain ⟨found, hfound, h⟩ := h
  cases found with
  | none =>
    cases h
    exact ⟨[], rfl, .noLocals⟩
  | some first =>
    obtain ⟨used, hused, hd⟩ := localDeclaration_reads hfound
    dsimp only at h
    rw [bind_eq_ok] at h
    obtain ⟨more, hmore, h⟩ := h
    have hlt := first.shorter
    obtain ⟨used', hused', hd'⟩ := localDeclarations_reads hmore
    cases h
    refine ⟨used ++ used', ?_, .locals hd hd'⟩
    exact hused.trans (by simp [hused', Read.andMaybe, Read.maybe])
termination_by ts.length

theorem range_reads {ts : List Token} {r : Read Tree ts.length} (h : range reuse ts = .ok r) :
    Reads .range ts [r.value] r.rest := by
  rw [range, bind_eq_ok] at h
  obtain ⟨start, hstart, h⟩ := h
  rw [bind_eq_ok] at h
  obtain ⟨more, hmore, h⟩ := h
  obtain ⟨used, hused, hd⟩ := simpleExpression_reads (required_eq_ok hstart)
  cases h
  rw [rangeEnd] at hmore
  split at hmore
  next =>
    cases hmore
    exact ⟨used, hused, .rangeStart hd⟩
  next word hword =>
    obtain ⟨hto, hrest⟩ := eat?_eq_some hword
    rw [Token.isKeyword_iff] at hto
    rw [bind_eq_ok] at hmore
    obtain ⟨stop, hstop, hmore⟩ := hmore
    rw [bind_eq_ok] at hmore
    obtain ⟨step, hstep, hmore⟩ := hmore
    obtain ⟨used', hused', hd'⟩ := simpleExpression_reads (required_eq_ok hstop)
    cases hmore
    rw [rangeStep] at hstep
    split at hstep
    next =>
      cases hstep
      refine ⟨used ++ word.value :: used', ?_, .rangeTo hd hto hd'⟩
      exact hused.trans (by simp [hrest, hused', Read.andMaybe, Read.maybe, Read.nothing])
    next byWord hby =>
      obtain ⟨hbyWord, hrest'⟩ := eat?_eq_some hby
      rw [bind_eq_ok] at hstep
      obtain ⟨stride, hstride, hstep⟩ := hstep
      obtain ⟨used'', hused'', hd''⟩ := simpleExpression_reads (required_eq_ok hstride)
      cases hstep
      refine ⟨used ++ word.value :: used' ++ byWord.value :: used'', ?_,
        .rangeBy hd hto hd' ((Token.isKeyword_iff _ _).1 hbyWord) hd''⟩
      exact hused.trans (by simp [hrest, hused', hrest', hused'', Read.andMaybe, Read.maybe])

/-- What holds of a statement read off the front of `ts`. An `if` that is still open has not met an
`else`, for it would have taken it. -/
def ReadsStatement (ts : List Token) (t : Tree) (rest : List Token) : Prop :=
  Reads .statement ts [t] rest ∧
    (endsOpen t = true → ∀ next, rest.head? = some next → next.isKeyword "else" = false)

theorem ReadsStatement.closed {ts : List Token} {t : Tree} {rest : List Token}
    (h : Reads .statement ts [t] rest) (hclosed : endsOpen t = false) : ReadsStatement ts t rest := by
  refine ⟨h, ?_⟩
  intro hopen
  rw [hclosed] at hopen
  simp at hopen

theorem expressionStatement_reads {ts : List Token} {r : Read Tree ts.length}
    (h : expressionStatement reuse ts = .ok (some r)) : ReadsStatement ts r.value r.rest := by
  rw [expressionStatement] at h
  split at h
  next semicolon hsemicolon =>
    obtain ⟨hend, hts⟩ := eat?_eq_some hsemicolon
    cases h
    exact .closed ⟨[semicolon.value], hts, .emptyStmt ((Token.isSymbol_iff _ _).1 hend)⟩ rfl
  next =>
    rw [bind_eq_ok] at h
    obtain ⟨found, hfound, h⟩ := h
    cases found with
    | none => simp [pure_eq_ok] at h
    | some value =>
      obtain ⟨used, hused, hd⟩ := expression_reads hfound
      dsimp only at h
      rw [bind_eq_ok] at h
      obtain ⟨semicolon, hsemicolon, h⟩ := h
      obtain ⟨hend, hrest⟩ := expectSymbol_eq_ok hsemicolon
      cases h
      refine .closed ⟨used ++ [semicolon.value], ?_, .expStmt hd hend⟩ rfl
      exact hused.trans (by simp [hrest])

theorem returnTail_reads {word : Token} {ts : List Token} {r : Read Tree ts.length}
    (hword : word.OneOf .keyword ["return"]) (h : returnTail reuse word ts = .ok r) :
    ReadsStatement (word :: ts) r.value r.rest := by
  rw [returnTail] at h
  split at h
  next semicolon hsemicolon =>
    obtain ⟨hend, hts⟩ := eat?_eq_some hsemicolon
    cases h
    refine .closed ⟨[word, semicolon.value], ?_,
      .returnPlain hword ((Token.isSymbol_iff _ _).1 hend)⟩ rfl
    exact congrArg (word :: ·) hts
  next =>
    rw [bind_eq_ok] at h
    obtain ⟨value, hvalue, h⟩ := h
    rw [bind_eq_ok] at h
    obtain ⟨semicolon, hsemicolon, h⟩ := h
    obtain ⟨used, hused, hd⟩ := expression_reads (required_eq_ok hvalue)
    obtain ⟨hend, hrest⟩ := expectSymbol_eq_ok hsemicolon
    cases h
    refine .closed ⟨word :: used ++ [semicolon.value], ?_, .returnValue hword hd hend⟩ rfl
    exact (congrArg (word :: ·) hused).trans (by simp [hrest])

theorem blockTail_closed {brace : Token} {ts : List Token} {r : Read Tree ts.length}
    (h : blockTail reuse brace ts = .ok r) : endsOpen r.value = false := by
  rw [blockTail, bind_eq_ok] at h
  obtain ⟨decls, -, h⟩ := h
  rw [bind_eq_ok] at h
  obtain ⟨body, -, h⟩ := h
  cases h
  rfl

mutual

theorem statement_reads {ts : List Token} {r : Read Tree ts.length}
    (h : statement reuse ts = .ok (some r)) : ReadsStatement ts r.value r.rest := by
  rw [statement.eq_def] at h
  match hts : ts, r, h with
  | [], r, h => simp at h
  | word :: rest, r, h =>
    dsimp only at h
    split at h
    next hbrace =>
      rw [bind_eq_ok] at h
      obtain ⟨body, hbody, h⟩ := h
      obtain ⟨used, hused, hd⟩ := blockTail_reads ((Token.isSymbol_iff _ _).1 hbrace) hbody
      have hclosed := blockTail_closed hbody
      cases h
      exact .closed ⟨used, hused, .compound hd⟩ hclosed
    next =>
    split at h
    next hif =>
      rw [bind_eq_ok] at h
      obtain ⟨condition, hcondition, h⟩ := h
      rw [bind_eq_ok] at h
      obtain ⟨thenWord, hthen, h⟩ := h
      rw [bind_eq_ok] at h
      obtain ⟨yes, hyes, h⟩ := h
      rw [bind_eq_ok] at h
      obtain ⟨no, hno, h⟩ := h
      rw [Token.isKeyword_iff] at hif
      obtain ⟨used, hused, hd⟩ := simpleExpression_reads (required_eq_ok hcondition)
      obtain ⟨hthenWord, hrest⟩ := expectKeyword_eq_ok hthen
      have hlt := Nat.lt_trans thenWord.shorter condition.shorter
      have hlt' := yes.shorter
      obtain ⟨⟨used', hused', hd'⟩, hopen⟩ := statement_reads (required_eq_ok hyes)
      cases h
      rcases elseBranch_reads hno with ⟨hnil, hnone, hhead⟩ | 
          ⟨elseWord, used'', t, hone, hno', helse, hd'', hopen'⟩
      · refine ⟨⟨word :: used ++ thenWord.value :: used', ?_, ?_⟩, ?_⟩
        · exact (congrArg (word :: ·) hused).trans
            (by simp [hrest, hused', Read.andMaybe, Read.cons, hnone])
        · simp only [Read.cons, Read.value_map, Read.value_andThen, Read.andMaybe, hnil]
          exact .ifThen hif hd hthenWord hd'
        · intro _
          simpa only [Read.cons, Read.rest_map, Read.rest_andThen, Read.andMaybe, hnone] using hhead
      · have hclosed : endsOpen yes.value = false := by
          apply Bool.eq_false_iff.2
          intro hcontra
          have hnot := hopen hcontra elseWord (by rw [hno']; rfl)
          rw [(Token.isKeyword_iff _ _).2 helse] at hnot
          simp at hnot
        refine ⟨⟨word :: used ++ thenWord.value :: used' ++ elseWord :: used'', ?_, ?_⟩, ?_⟩
        · exact (congrArg (word :: ·) hused).trans
            (by simp [hrest, hused', hno', Read.andMaybe, Read.cons])
        · simp only [Read.cons, Read.value_map, Read.value_andThen, Read.andMaybe, hone]
          exact .ifElse hif hd hthenWord hd' hclosed helse hd''
        · simp only [Read.cons, Read.value_map, Read.value_andThen, Read.rest_map, Read.rest_andThen,
            Read.andMaybe, hone]
          exact hopen'
    next =>
    split at h
    next hwhile =>
      rw [bind_eq_ok] at h
      obtain ⟨condition, hcondition, h⟩ := h
      rw [bind_eq_ok] at h
      obtain ⟨doWord, hdo, h⟩ := h
      rw [bind_eq_ok] at h
      obtain ⟨body, hbody, h⟩ := h
      obtain ⟨used, hused, hd⟩ := simpleExpression_reads (required_eq_ok hcondition)
      obtain ⟨hdoWord, hrest⟩ := expectKeyword_eq_ok hdo
      have hlt := Nat.lt_trans doWord.shorter condition.shorter
      obtain ⟨⟨used', hused', hd'⟩, hopen⟩ := statement_reads (required_eq_ok hbody)
      cases h
      refine ⟨⟨word :: used ++ doWord.value :: used', ?_,
        .whileDo ((Token.isKeyword_iff _ _).1 hwhile) hd hdoWord hd'⟩, hopen⟩
      exact (congrArg (word :: ·) hused).trans (by simp [hrest, hused', Read.cons])
    next =>
    split at h
    next hfor =>
      rw [bind_eq_ok] at h
      obtain ⟨name, hname, h⟩ := h
      rw [bind_eq_ok] at h
      obtain ⟨equals, hequals, h⟩ := h
      rw [bind_eq_ok] at h
      obtain ⟨bounds, hbounds, h⟩ := h
      rw [bind_eq_ok] at h
      obtain ⟨doWord, hdo, h⟩ := h
      rw [bind_eq_ok] at h
      obtain ⟨body, hbody, h⟩ := h
      obtain ⟨hid, hrest₀⟩ := expectIdentifier_eq_ok hname
      obtain ⟨heq, hrest⟩ := expect_eq_ok hequals
      obtain ⟨used, hused, hd⟩ := range_reads hbounds
      obtain ⟨hdoWord, hrest'⟩ := expectKeyword_eq_ok hdo
      have hlt := Nat.lt_trans doWord.shorter (Nat.lt_trans bounds.shorter
        (Nat.lt_trans equals.shorter name.shorter))
      obtain ⟨⟨used', hused', hd'⟩, hopen⟩ := statement_reads (required_eq_ok hbody)
      cases h
      refine ⟨⟨word :: name.value :: equals.value :: used ++ doWord.value :: used', ?_,
        .forDo ((Token.isKeyword_iff _ _).1 hfor) hid ((Token.isOperator_iff _ _).1 heq) hd hdoWord
          hd'⟩, hopen⟩
      exact (congrArg (word :: ·) hrest₀).trans (by simp [hrest, hused, hrest', hused', Read.cons])
    next =>
    split at h
    next hreturn =>
      rw [bind_eq_ok] at h
      obtain ⟨tail, htail, h⟩ := h
      cases h
      exact returnTail_reads ((Token.isKeyword_iff _ _).1 hreturn) htail
    next =>
    split at h
    next hbreak =>
      rw [bind_eq_ok] at h
      obtain ⟨semicolon, hsemicolon, h⟩ := h
      obtain ⟨hend, hrest⟩ := expectSymbol_eq_ok hsemicolon
      cases h
      refine .closed ⟨[word, semicolon.value], ?_,
        .breakLoop ((Token.isKeyword_iff _ _).1 hbreak) hend⟩ rfl
      exact congrArg (word :: ·) hrest
    next => exact expressionStatement_reads h
termination_by 4 * ts.length
decreasing_by all_goals (simp only [hts, List.length_cons]; omega)

theorem elseBranch_reads {ts : List Token} {r : Read (List Tree) (ts.length + 1)}
    (h : elseBranch reuse ts = .ok r) :
    (r.value = [] ∧ r.rest = ts ∧ ∀ next, ts.head? = some next → next.isKeyword "else" = false) ∨
      ∃ word used t, r.value = [t] ∧ ts = word :: used ++ r.rest ∧ word.OneOf .keyword ["else"] ∧
        Derives .statement used [t] ∧
        (endsOpen t = true → ∀ next, r.rest.head? = some next → next.isKeyword "else" = false) := by
  rw [elseBranch] at h
  split at h
  next hnone =>
    cases h
    refine .inl ⟨rfl, rfl, ?_⟩
    cases ts with
    | nil => simp
    | cons t ts =>
      intro next hnext
      cases hnext
      simpa [eat?] using hnone
  next word hword =>
    obtain ⟨helse, hts⟩ := eat?_eq_some hword
    rw [bind_eq_ok] at h
    obtain ⟨no, hno, h⟩ := h
    have hlt := word.shorter
    obtain ⟨⟨used, hused, hd⟩, hopen⟩ := statement_reads (required_eq_ok hno)
    cases h
    refine .inr ⟨word.value, used, no.value, rfl, ?_, (Token.isKeyword_iff _ _).1 helse, hd, hopen⟩
    exact hts.trans (by simp [hused, Read.maybe])
termination_by 4 * ts.length
decreasing_by all_goals omega

theorem blockTail_reads {brace : Token} {ts : List Token} {r : Read Tree ts.length}
    (hbrace : brace.OneOf .symbol ["\x7b"]) (h : blockTail reuse brace ts = .ok r) :
    Reads .block (brace :: ts) [r.value] r.rest := by
  rw [blockTail, bind_eq_ok] at h
  obtain ⟨decls, hdecls, h⟩ := h
  rw [bind_eq_ok] at h
  obtain ⟨body, hbody, h⟩ := h
  obtain ⟨used, hused, hd⟩ := localDeclarations_reads hdecls
  have hlt := Nat.le_of_lt_succ decls.shorter
  obtain ⟨used', close, hused', hd', hclose⟩ := statements_reads hbody
  cases h
  refine ⟨brace :: used ++ used' ++ [close], ?_, .block hbrace hd hd' hclose⟩
  exact (congrArg (brace :: ·) hused).trans (by simp [hused', Read.maybeThen])
termination_by 4 * ts.length + 2
decreasing_by all_goals omega

theorem statements_reads {ts : List Token} {r : Read (List Tree) ts.length}
    (h : statements reuse ts = .ok r) :
    ∃ used close, ts = used ++ close :: r.rest ∧ Derives .statements used r.value ∧
      close.OneOf .symbol ["\x7d"] := by
  rw [statements.eq_def] at h
  match hts : ts, r, h with
  | [], r, h => simp at h
  | first :: rest, r, h =>
    dsimp only at h
    split at h
    next hclose =>
      cases h
      exact ⟨[], first, rfl, .noStatements, (Token.isSymbol_iff _ _).1 hclose⟩
    next =>
      rw [bind_eq_ok] at h
      obtain ⟨next, hnext, h⟩ := h
      rw [bind_eq_ok] at h
      obtain ⟨more, hmore, h⟩ := h
      have hlt := next.shorter
      obtain ⟨⟨used, hused, hd⟩, -⟩ := statement_reads (required_eq_ok hnext)
      obtain ⟨used', close, hused', hd', hclose⟩ := statements_reads hmore
      cases h
      refine ⟨used ++ used', close, ?_, .statements hd hd', hclose⟩
      exact hused.trans (by simp [hused'])
termination_by 4 * ts.length + 1
decreasing_by all_goals (rw [hts]; omega)

end

theorem block_reads {ts : List Token} {r : Read Tree ts.length}
    (h : block reuse ts = .ok (some r)) : Reads .block ts [r.value] r.rest := by
  rw [block] at h
  split at h
  next => simp [pure_eq_ok] at h
  next brace hbrace =>
    obtain ⟨hopen, hts⟩ := eat?_eq_some hbrace
    rw [bind_eq_ok] at h
    obtain ⟨tail, htail, h⟩ := h
    obtain ⟨used, hused, hd⟩ := blockTail_reads ((Token.isSymbol_iff _ _).1 hopen) htail
    cases h
    exact ⟨used, hts.trans hused, hd⟩

/-- A function behind its result type: `result` holds the node of that type, if one is written. -/
theorem functionTail_reads {result : List Tree} {ts : List Token} {r : Read Tree ts.length}
    (h : functionTail reuse result ts = .ok r) :
    ∃ name opening closing us vs parms body, ts = name :: opening :: us ++ closing :: vs ++ r.rest ∧
      r.value = .marked .funDecl name (result ++ [parms, body]) ∧ name.kind = .identifier ∧
      opening.OneOf .symbol ["("] ∧ closing.OneOf .symbol [")"] ∧
      Derives .parameters us [parms] ∧ Derives .block vs [body] := by
  rw [functionTail, bind_eq_ok] at h
  obtain ⟨name, hname, h⟩ := h
  rw [bind_eq_ok] at h
  obtain ⟨paren, hparen, h⟩ := h
  rw [bind_eq_ok] at h
  obtain ⟨parms, hparms, h⟩ := h
  rw [bind_eq_ok] at h
  obtain ⟨close, hclose, h⟩ := h
  rw [bind_eq_ok] at h
  obtain ⟨body, hbody, h⟩ := h
  obtain ⟨hid, hts⟩ := expectIdentifier_eq_ok hname
  obtain ⟨hopen, hrest⟩ := expectSymbol_eq_ok hparen
  obtain ⟨us, hus, hparms'⟩ := parameters_reads hparms
  obtain ⟨hclosing, hrest'⟩ := expectSymbol_eq_ok hclose
  obtain ⟨vs, hvs, hbody'⟩ := block_reads (required_eq_ok hbody)
  cases h
  refine ⟨name.value, paren.value, close.value, us, vs, parms.value, body.value, ?_, rfl, hid, hopen,
    hclosing, hparms', hbody'⟩
  exact hts.trans (by simp [hrest, hus, hrest', hvs, Read.maybeThen])

theorem declaration_reads {ts : List Token} {r : Read Tree ts.length}
    (h : declaration reuse ts = .ok (some r)) : Reads .declaration ts [r.value] r.rest := by
  rw [declaration] at h
  split at h
  next type htype =>
    obtain ⟨hname, hts⟩ := eat?_eq_some htype
    split at h
    next =>
      rw [bind_eq_ok] at h
      obtain ⟨tail, htail, h⟩ := h
      obtain ⟨name, opening, closing, us, vs, parms, body, hrest, hvalue, hid, hopen, hclosing, hparms,
        hbody⟩ := functionTail_reads htail
      cases h
      refine ⟨type.value :: name :: opening :: us ++ closing :: vs, ?_, ?_⟩
      · exact hts.trans (by simp [hrest])
      · rw [Read.value_andThen, hvalue]
        exact .routine (.function ((isTypeName_iff _).1 hname) hid hopen hparms hclosing hbody)
    next =>
      obtain ⟨used, hused, hd⟩ := varDeclaration_reads h
      exact ⟨used, hused, .globals hd⟩
  next =>
    split at h
    next =>
      rw [bind_eq_ok] at h
      obtain ⟨tail, htail, h⟩ := h
      obtain ⟨name, opening, closing, us, vs, parms, body, hrest, hvalue, hid, hopen, hclosing, hparms,
        hbody⟩ := functionTail_reads htail
      cases h
      refine ⟨name :: opening :: us ++ closing :: vs, hrest, ?_⟩
      rw [hvalue]
      exact .routine (.procedure hid hopen hparms hclosing hbody)
    next => simp [pure_eq_ok] at h

theorem declarations_reads {ts : List Token} {list : List Tree}
    (h : declarations reuse ts = .ok list) :
    (ts = [] ∧ list = []) ∨ Derives .declarations ts list := by
  rw [declarations] at h
  split at h
  next hempty =>
    cases h
    exact .inl ⟨List.isEmpty_iff.1 hempty, rfl⟩
  next =>
    rw [bind_eq_ok] at h
    obtain ⟨first, hfirst, h⟩ := h
    rw [bind_eq_ok] at h
    obtain ⟨more, hmore, h⟩ := h
    have hlt := first.shorter
    obtain ⟨used, hused, hd⟩ := declaration_reads (required_eq_ok hfirst)
    cases h
    generalize first.value = decl at hd ⊢
    rcases declarations_reads hmore with ⟨hend, rfl⟩ | hd'
    · rw [hend, List.append_nil] at hused
      rw [hused]
      exact .inr (.lastDeclaration hd)
    · rw [hused]
      exact .inr (.declaration hd hd')
termination_by ts.length

/-- A token list that is read as a program derives it. -/
theorem derives_of_program {ts : List Token} {t : Tree} (h : program reuse ts = .ok t) :
    Derives .program ts [t] := by
  rw [program, bind_eq_ok] at h
  obtain ⟨list, hlist, h⟩ := h
  rcases declarations_reads hlist with ⟨-, rfl⟩ | hd
  · simp at h
  · split at h
    next => simp at h
    next =>
      cases h
      exact .program hd

theorem derives_of_parse {source : String} {t : Tree} (h : parse source = .ok t) :
    Derives .program (tokenize source) [t] := by
  unfold parse parseWith at h
  split at h
  next tree htree =>
    cases h
    exact derives_of_program htree
  next => simp at h

end StackCompiler.Grammar
