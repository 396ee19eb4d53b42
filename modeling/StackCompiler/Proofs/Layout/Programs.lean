import StackCompiler.Proofs.Layout.Expressions

/-!
Declarations, statements and whole sources that agree up to lines are read alike.
-/

set_option autoImplicit false
namespace StackCompiler

variable {L : Nat → Nat → Prop}

namespace Grammar

variable {reuse : Bool}

/-! Declarations and parameters. -/

theorem simpleExpression_alike {ts ts' : List Token} (h : AlikeTokens L ts ts') :
    AlikeOutcomes L (simpleExpression reuse ts) (simpleExpression reuse ts') :=
  chain_alike .or h .none

theorem declaredName_alike {ts ts' : List Token} (h : AlikeTokens L ts ts') :
    AlikeReads L (Tree.Alike L) (declaredName ts) (declaredName ts') := by
  refine (expectIdentifier_alike h).bind ?_
  intro name name' hname
  rcases eat?_alike (p := (·.isSymbol "[")) (fun _ _ => rfl) hname.rest with
    ⟨hno, hno'⟩ | ⟨bracket, bracket', hbracket, hbracket', hopen⟩
  · rw [hno, hno']
    exact .ok ⟨.leaf hname.value, hname.rest⟩
  · rw [hbracket, hbracket']
    refine (expect_alike _ (fun _ _ => rfl) hopen.rest).bind ?_
    intro length length' hlength
    refine (expectSymbol_alike _ hlength.rest).bind ?_
    intro close close' hclose
    exact .ok ⟨.of_marked hname.value (.cons (.leaf hlength.value) .nil), hclose.rest⟩

theorem declarator_alike {ts ts' : List Token} (h : AlikeTokens L ts ts') :
    AlikeReads L (Tree.Alike L) (declarator reuse ts) (declarator reuse ts') := by
  refine (declaredName_alike h).bind ?_
  intro name name' hname
  rcases eat?_alike (p := (·.isSymbol ":")) (fun _ _ => rfl) hname.rest with
    ⟨hno, hno'⟩ | ⟨colon, colon', hcolon, hcolon', halike⟩
  · rw [hno, hno']
    exact .ok ⟨.of_inner (.cons hname.value .nil), hname.rest⟩
  · rw [hcolon, hcolon']
    refine (required_alike _ halike.rest (simpleExpression_alike halike.rest)).bind ?_
    intro init init' hinit
    exact .ok ⟨.of_inner (.cons hname.value (.cons hinit.value .nil)), hinit.rest⟩

theorem declarators_alike {ts ts' : List Token} (h : AlikeTokens L ts ts') :
    AlikeReads L (AlikeTrees L) (declarators reuse ts) (declarators reuse ts') := by
  rw [declarators, declarators]
  refine (declarator_alike h).bind ?_
  intro first first' hfirst
  rcases eat?_alike (p := (·.isSymbol ",")) (fun _ _ => rfl) hfirst.rest with
    ⟨hno, hno'⟩ | ⟨comma, comma', hcomma, hcomma', halike⟩
  · rw [hno, hno']
    refine (expectSymbol_alike _ hfirst.rest).bind ?_
    intro close close' hclose
    exact .ok ⟨.cons hfirst.value .nil, hclose.rest⟩
  · rw [hcomma, hcomma']
    have hlt := Nat.lt_trans comma.shorter first.shorter
    refine (declarators_alike halike.rest).bind ?_
    intro more more' hmore
    exact .ok ⟨.cons hfirst.value hmore.value, hmore.rest⟩
termination_by ts.length

theorem varDeclaration_alike {ts ts' : List Token} (h : AlikeTokens L ts ts') :
    AlikeOutcomes L (varDeclaration reuse ts) (varDeclaration reuse ts') := by
  unfold varDeclaration
  rcases eat?_alike (p := isTypeName) (fun _ _ => rfl) h with
    ⟨hno, hno'⟩ | ⟨type, type', htype, htype', halike⟩
  · rw [hno, hno']
    exact .ok .none
  · rw [htype, htype']
    refine (declarators_alike halike.rest).bind ?_
    intro list list' hlist
    exact .ok (.some ⟨.of_inner (.cons (.leaf halike.value) hlist.value), hlist.rest⟩)

theorem localDeclaration_alike {ts ts' : List Token} (h : AlikeTokens L ts ts') :
    AlikeOutcomes L (localDeclaration reuse ts) (localDeclaration reuse ts') := by
  unfold localDeclaration
  rcases eat?_alike (p := (·.isKeyword "static")) (fun _ _ => rfl) h with
    ⟨hno, hno'⟩ | ⟨static, static', hstatic, hstatic', halike⟩
  · rw [hno, hno']
    exact varDeclaration_alike h
  · rw [hstatic, hstatic']
    refine (expect_alike _ (fun _ _ => rfl) halike.rest).bind ?_
    intro type type' htype
    refine (declarators_alike htype.rest).bind ?_
    intro list list' hlist
    exact .ok (.some
      ⟨.of_inner (.cons (.leaf halike.value) (.cons (.leaf htype.value) hlist.value)), hlist.rest⟩)

theorem localDeclarations_alike {ts ts' : List Token} (h : AlikeTokens L ts ts') :
    AlikeReads L (AlikeTrees L) (localDeclarations reuse ts) (localDeclarations reuse ts') := by
  rw [localDeclarations, localDeclarations]
  refine (localDeclaration_alike h).bind ?_
  intro found found' hfound
  cases hfound with
  | none => exact .ok ⟨.nil, h⟩
  | @some first first' hfirst =>
    have hlt := first.shorter
    refine (localDeclarations_alike hfirst.rest).bind ?_
    intro more more' hmore
    exact .ok ⟨.cons hfirst.value hmore.value, hmore.rest⟩
termination_by ts.length

theorem parameter_alike {ts ts' : List Token} (h : AlikeTokens L ts ts') :
    AlikeReads L (Tree.Alike L) (parameter ts) (parameter ts') := by
  refine (expectIdentifier_alike h).bind ?_
  intro name name' hname
  rcases eat?_alike (p := (·.isSymbol "[")) (fun _ _ => rfl) hname.rest with
    ⟨hno, hno'⟩ | ⟨bracket, bracket', hbracket, hbracket', hopen⟩
  · rw [hno, hno']
    exact .ok ⟨.leaf hname.value, hname.rest⟩
  · rw [hbracket, hbracket']
    refine (expectSymbol_alike _ hopen.rest).bind ?_
    intro close close' hclose
    exact .ok ⟨.of_marked hname.value (.cons (.leaf hopen.value) .nil), hclose.rest⟩

theorem parameterList_alike {ts ts' : List Token} (h : AlikeTokens L ts ts') :
    AlikeReads L (AlikeTrees L) (parameterList ts) (parameterList ts') := by
  rw [parameterList, parameterList]
  refine (parameter_alike h).bind ?_
  intro first first' hfirst
  rcases eat?_alike (p := (·.isSymbol ",")) (fun _ _ => rfl) hfirst.rest with
    ⟨hno, hno'⟩ | ⟨comma, comma', hcomma, hcomma', halike⟩
  · rw [hno, hno']
    exact .ok ⟨.cons hfirst.value .nil, hfirst.rest⟩
  · rw [hcomma, hcomma']
    have hlt := Nat.lt_trans comma.shorter first.shorter
    refine (parameterList_alike halike.rest).bind ?_
    intro more more' hmore
    exact .ok ⟨.cons hfirst.value hmore.value, hmore.rest⟩
termination_by ts.length

theorem parameterGroup_alike {ts ts' : List Token} (h : AlikeTokens L ts ts') :
    AlikeReads L (Tree.Alike L) (parameterGroup ts) (parameterGroup ts') := by
  refine (expect_alike _ (fun _ _ => rfl) h).bind ?_
  intro type type' htype
  refine (parameterList_alike htype.rest).bind ?_
  intro names names' hnames
  exact .ok ⟨.of_inner (.cons (.leaf htype.value) hnames.value), hnames.rest⟩

theorem parameterGroups_alike {ts ts' : List Token} (h : AlikeTokens L ts ts') :
    AlikeReads L (AlikeTrees L) (parameterGroups ts) (parameterGroups ts') := by
  rw [parameterGroups, parameterGroups]
  refine (parameterGroup_alike h).bind ?_
  intro first first' hfirst
  rcases eat?_alike (p := (·.isSymbol ";")) (fun _ _ => rfl) hfirst.rest with
    ⟨hno, hno'⟩ | ⟨semicolon, semicolon', hsemicolon, hsemicolon', halike⟩
  · rw [hno, hno']
    exact .ok ⟨.cons hfirst.value .nil, hfirst.rest⟩
  · rw [hsemicolon, hsemicolon']
    have hlt := Nat.lt_trans semicolon.shorter first.shorter
    refine (parameterGroups_alike halike.rest).bind ?_
    intro more more' hmore
    exact .ok ⟨.cons hfirst.value hmore.value, hmore.rest⟩
termination_by ts.length

theorem parameters_alike {ts ts' : List Token} (h : AlikeTokens L ts ts') :
    AlikeReads L (Tree.Alike L) (parameters ts) (parameters ts') := by
  unfold parameters
  rcases eat?_alike (p := (·.isSymbol ")")) (fun _ _ => rfl) h with
    ⟨hno, hno'⟩ | ⟨close, close', hclose, hclose', -⟩
  · rw [hno, hno']
    refine (parameterGroups_alike h).bind ?_
    intro groups groups' hgroups
    exact .ok ⟨.of_inner hgroups.value, hgroups.rest⟩
  · rw [hclose, hclose']
    exact .ok ⟨.of_inner .nil, h⟩

/-! Statements. -/

theorem rangeStep_alike {ts ts' : List Token} (h : AlikeTokens L ts ts') :
    AlikeReads L (AlikeTrees L) (rangeStep reuse ts) (rangeStep reuse ts') := by
  unfold rangeStep
  rcases eat?_alike (p := (·.isKeyword "by")) (fun _ _ => rfl) h with
    ⟨hno, hno'⟩ | ⟨word, word', hword, hword', halike⟩
  · rw [hno, hno']
    exact .ok ⟨.nil, h⟩
  · rw [hword, hword']
    refine (required_alike _ halike.rest (simpleExpression_alike halike.rest)).bind ?_
    intro step step' hstep
    exact .ok ⟨.cons hstep.value .nil, hstep.rest⟩

theorem rangeEnd_alike {ts ts' : List Token} (h : AlikeTokens L ts ts') :
    AlikeReads L (AlikeTrees L) (rangeEnd reuse ts) (rangeEnd reuse ts') := by
  unfold rangeEnd
  rcases eat?_alike (p := (·.isKeyword "to")) (fun _ _ => rfl) h with
    ⟨hno, hno'⟩ | ⟨word, word', hword, hword', halike⟩
  · rw [hno, hno']
    exact .ok ⟨.nil, h⟩
  · rw [hword, hword']
    refine (required_alike _ halike.rest (simpleExpression_alike halike.rest)).bind ?_
    intro stop stop' hstop
    refine (rangeStep_alike hstop.rest).bind ?_
    intro step step' hstep
    exact .ok ⟨.cons hstop.value hstep.value, hstep.rest⟩

theorem range_alike {ts ts' : List Token} (h : AlikeTokens L ts ts') :
    AlikeReads L (Tree.Alike L) (range reuse ts) (range reuse ts') := by
  refine (required_alike _ h (simpleExpression_alike h)).bind ?_
  intro start start' hstart
  refine (rangeEnd_alike hstart.rest).bind ?_
  intro more more' hmore
  exact .ok ⟨.of_inner (.cons hstart.value hmore.value), hmore.rest⟩

theorem expressionStatement_alike {ts ts' : List Token} (h : AlikeTokens L ts ts') :
    AlikeOutcomes L (expressionStatement reuse ts) (expressionStatement reuse ts') := by
  unfold expressionStatement
  rcases eat?_alike (p := (·.isSymbol ";")) (fun _ _ => rfl) h with
    ⟨hno, hno'⟩ | ⟨semicolon, semicolon', hsemicolon, hsemicolon', halike⟩
  · rw [hno, hno']
    refine (expression_alike h).bind ?_
    intro found found' hfound
    cases hfound with
    | none => exact .ok .none
    | @some value value' hvalue =>
      refine (expectSymbol_alike _ hvalue.rest).bind ?_
      intro semicolon semicolon' hsemicolon
      exact .ok (.some ⟨.of_marked hsemicolon.value (.cons hvalue.value .nil), hsemicolon.rest⟩)
  · rw [hsemicolon, hsemicolon']
    exact .ok (.some ⟨.leaf halike.value, halike.rest⟩)

theorem returnTail_alike {keyword keyword' : Token} (hkeyword : keyword.Alike L keyword')
    {ts ts' : List Token} (h : AlikeTokens L ts ts') :
    AlikeReads L (Tree.Alike L) (returnTail reuse keyword ts) (returnTail reuse keyword' ts') := by
  unfold returnTail
  rcases eat?_alike (p := (·.isSymbol ";")) (fun _ _ => rfl) h with
    ⟨hno, hno'⟩ | ⟨semicolon, semicolon', hsemicolon, hsemicolon', halike⟩
  · rw [hno, hno']
    refine (required_alike _ h (expression_alike h)).bind ?_
    intro value value' hvalue
    refine (expectSymbol_alike _ hvalue.rest).bind ?_
    intro semicolon semicolon' hsemicolon
    exact .ok ⟨.of_marked hkeyword (.cons hvalue.value .nil), hsemicolon.rest⟩
  · rw [hsemicolon, hsemicolon']
    exact .ok ⟨.leaf hkeyword, halike.rest⟩

mutual

theorem statement_alike {ts ts' : List Token} (h : AlikeTokens L ts ts') :
    AlikeOutcomes L (statement reuse ts) (statement reuse ts') := by
  cases h with
  | nil =>
    rw [statement]
    exact .ok .none
  | @cons first first' rest rest' hfirst hrest =>
    have hsymbol : first.isSymbol "\x7b" = first'.isSymbol "\x7b" :=
      IgnoresLine.eq (p := (·.isSymbol "\x7b")) (fun _ _ => rfl) hfirst
    have hword : ∀ word, first.isKeyword word = first'.isKeyword word := fun word =>
      IgnoresLine.eq (p := (·.isKeyword word)) (fun _ _ => rfl) hfirst
    rw [statement, statement, hsymbol]
    simp only [hword]
    split
    next =>
      refine (blockTail_alike hfirst hrest).bind ?_
      intro body body' hbody
      exact .ok (.some ⟨hbody.value, hbody.rest⟩)
    split
    next =>
      refine (required_alike _ hrest (simpleExpression_alike hrest)).bind ?_
      intro condition condition' hcondition
      refine (expectKeyword_alike _ hcondition.rest).bind ?_
      intro word word' hword
      have hlt := Nat.lt_trans word.shorter condition.shorter
      refine (required_alike _ hword.rest (statement_alike hword.rest)).bind ?_
      intro yes yes' hyes
      have hyeslt := yes.shorter
      refine (elseBranch_alike hyes.rest).bind ?_
      intro no no' hno
      exact .ok (.some
        ⟨.of_marked hfirst (.cons hcondition.value (.cons hyes.value hno.value)), hno.rest⟩)
    split
    next =>
      refine (required_alike _ hrest (simpleExpression_alike hrest)).bind ?_
      intro condition condition' hcondition
      refine (expectKeyword_alike _ hcondition.rest).bind ?_
      intro word word' hword
      have hlt := Nat.lt_trans word.shorter condition.shorter
      refine (required_alike _ hword.rest (statement_alike hword.rest)).bind ?_
      intro body body' hbody
      exact .ok (.some
        ⟨.of_marked hfirst (.cons hcondition.value (.cons hbody.value .nil)), hbody.rest⟩)
    split
    next =>
      refine (expectIdentifier_alike hrest).bind ?_
      intro name name' hname
      refine (expect_alike _ (fun _ _ => rfl) hname.rest).bind ?_
      intro equals equals' hequals
      refine (range_alike hequals.rest).bind ?_
      intro bounds bounds' hbounds
      refine (expectKeyword_alike _ hbounds.rest).bind ?_
      intro word word' hword
      have hlt := Nat.lt_trans word.shorter (Nat.lt_trans bounds.shorter
        (Nat.lt_trans equals.shorter name.shorter))
      refine (required_alike _ hword.rest (statement_alike hword.rest)).bind ?_
      intro body body' hbody
      exact .ok (.some
        ⟨.of_marked hname.value (.cons hbounds.value (.cons hbody.value .nil)), hbody.rest⟩)
    split
    next =>
      refine (returnTail_alike hfirst hrest).bind ?_
      intro tail tail' htail
      exact .ok (.some ⟨htail.value, htail.rest⟩)
    split
    next =>
      refine (expectSymbol_alike _ hrest).bind ?_
      intro semicolon semicolon' hsemicolon
      exact .ok (.some ⟨.leaf hfirst, hsemicolon.rest⟩)
    next => exact expressionStatement_alike (.cons hfirst hrest)
termination_by 4 * ts.length
decreasing_by all_goals simp only [List.length_cons] at *; omega

theorem elseBranch_alike {ts ts' : List Token} (h : AlikeTokens L ts ts') :
    AlikeReads L (AlikeTrees L) (elseBranch reuse ts) (elseBranch reuse ts') := by
  rw [elseBranch, elseBranch]
  rcases eat?_alike (p := (·.isKeyword "else")) (fun _ _ => rfl) h with
    ⟨hno, hno'⟩ | ⟨word, word', hword, hword', halike⟩
  · rw [hno, hno']
    exact .ok ⟨.nil, h⟩
  · rw [hword, hword']
    have hlt := word.shorter
    refine (required_alike _ halike.rest (statement_alike halike.rest)).bind ?_
    intro no no' hno
    exact .ok ⟨.cons hno.value .nil, hno.rest⟩
termination_by 4 * ts.length
decreasing_by omega

theorem blockTail_alike {brace brace' : Token} (hbrace : brace.Alike L brace') {ts ts' : List Token}
    (h : AlikeTokens L ts ts') :
    AlikeReads L (Tree.Alike L) (blockTail reuse brace ts) (blockTail reuse brace' ts') := by
  rw [blockTail, blockTail]
  refine (localDeclarations_alike h).bind ?_
  intro declarations declarations' hdeclarations
  have hle := declarations.shorter
  refine (statements_alike hdeclarations.rest).bind ?_
  intro body body' hbody
  exact .ok ⟨.of_marked hbrace (List.rel_append hdeclarations.value hbody.value), hbody.rest⟩
termination_by 4 * ts.length + 2
decreasing_by omega

theorem statements_alike {ts ts' : List Token} (h : AlikeTokens L ts ts') :
    AlikeReads L (AlikeTrees L) (statements reuse ts) (statements reuse ts') := by
  cases h with
  | nil =>
    rw [statements]
    exact .error ⟨rfl, .none⟩
  | @cons first first' rest rest' hfirst hrest =>
    have hsymbol : first.isSymbol "\x7d" = first'.isSymbol "\x7d" :=
      IgnoresLine.eq (p := (·.isSymbol "\x7d")) (fun _ _ => rfl) hfirst
    rw [statements, statements, hsymbol]
    split
    next => exact .ok ⟨.nil, hrest⟩
    next =>
      have hall : AlikeTokens L (first :: rest) (first' :: rest') := .cons hfirst hrest
      refine (required_alike _ hall (statement_alike hall)).bind ?_
      intro next next' hnext
      have hlt := next.shorter
      refine (statements_alike hnext.rest).bind ?_
      intro more more' hmore
      exact .ok ⟨.cons hnext.value hmore.value, hmore.rest⟩
termination_by 4 * ts.length + 1
decreasing_by all_goals simp only [List.length_cons] at *; omega

end

theorem block_alike {ts ts' : List Token} (h : AlikeTokens L ts ts') :
    AlikeOutcomes L (block reuse ts) (block reuse ts') := by
  unfold block
  rcases eat?_alike (p := (·.isSymbol "\x7b")) (fun _ _ => rfl) h with
    ⟨hno, hno'⟩ | ⟨brace, brace', hbrace, hbrace', halike⟩
  · rw [hno, hno']
    exact .ok .none
  · rw [hbrace, hbrace']
    refine (blockTail_alike halike.value halike.rest).bind ?_
    intro tail tail' htail
    exact .ok (.some ⟨htail.value, htail.rest⟩)

/-! Whole sources. -/

theorem functionTail_alike {result result' : List Tree} (hresult : AlikeTrees L result result')
    {ts ts' : List Token} (h : AlikeTokens L ts ts') :
    AlikeReads L (Tree.Alike L) (functionTail reuse result ts) (functionTail reuse result' ts') := by
  refine (expectIdentifier_alike h).bind ?_
  intro name name' hname
  refine (expectSymbol_alike _ hname.rest).bind ?_
  intro paren paren' hparen
  refine (parameters_alike hparen.rest).bind ?_
  intro parms parms' hparms
  refine (expectSymbol_alike _ hparms.rest).bind ?_
  intro close close' hclose
  refine (required_alike _ hclose.rest (block_alike hclose.rest)).bind ?_
  intro body body' hbody
  exact .ok ⟨.of_marked hname.value
    (List.rel_append hresult (.cons hparms.value (.cons hbody.value .nil))), hbody.rest⟩

theorem declaration_alike {ts ts' : List Token} (h : AlikeTokens L ts ts') :
    AlikeOutcomes L (declaration reuse ts) (declaration reuse ts') := by
  unfold declaration
  rcases eat?_alike (p := isTypeName) (fun _ _ => rfl) h with
    ⟨hno, hno'⟩ | ⟨type, type', htype, htype', halike⟩
  · rw [hno, hno', startsCall_alike h]
    dsimp only
    split
    next =>
      refine (functionTail_alike .nil h).bind ?_
      intro tail tail' htail
      exact .ok (.some htail)
    next => exact .ok .none
  · rw [htype, htype']
    dsimp only
    rw [startsCall_alike halike.rest]
    split
    next =>
      refine (functionTail_alike (.cons (.leaf halike.value) .nil) halike.rest).bind ?_
      intro tail tail' htail
      exact .ok (.some ⟨htail.value, htail.rest⟩)
    next => exact varDeclaration_alike h

theorem declarations_alike {ts ts' : List Token} (h : AlikeTokens L ts ts') :
    SameOutcome (Unexpected.Alike L) (AlikeTrees L) (declarations reuse ts) (declarations reuse ts') := by
  have hempty : ts.isEmpty = ts'.isEmpty := by cases h <;> rfl
  rw [declarations, declarations, hempty]
  split
  next => exact .ok .nil
  next =>
    refine (required_alike _ h (declaration_alike h)).bind ?_
    intro first first' hfirst
    have hlt := first.shorter
    refine (declarations_alike hfirst.rest).bind ?_
    intro more more' hmore
    exact .ok (.cons hfirst.value hmore)
termination_by ts.length

theorem program_alike {ts ts' : List Token} (h : AlikeTokens L ts ts') :
    SameOutcome (Unexpected.Alike L) (Tree.Alike L) (program reuse ts) (program reuse ts') := by
  refine (declarations_alike h).bind ?_
  intro list list' hlist
  cases hlist with
  | nil => exact .error ⟨rfl, .none⟩
  | cons first rest => exact .ok (.of_inner (.cons first rest))

end Grammar

end StackCompiler
