import StackCompiler.Proofs.Grammar.ExpressionCompleteness
import StackCompiler.Proofs.Grammar.ProgramSoundness

/-!
What is derived is read: declarations, statements and whole programs. Outside expressions the next
token decides, except that an `if` without `else` must not be followed by one.
-/

set_option autoImplicit false
namespace StackCompiler.Grammar

variable {reuse : Bool}

theorem simpleExpression_of_derives {ts : List Token} {t : Tree} (h : Derives (.chain .or) ts [t])
    {rest : List Token} (hrest : Follows 1 rest) :
    ∃ h, simpleExpression reuse (ts ++ rest) = .ok (some ⟨t, rest, h⟩) :=
  (h.completes t rest rfl hrest).1 none (known_none reuse _)

theorem expression_of_derives {ts : List Token} {t : Tree} (h : Derives .expression ts [t])
    {rest : List Token} (hrest : Follows 1 rest) :
    ∃ h, expression reuse (ts ++ rest) = .ok (some ⟨t, rest, h⟩) :=
  h.completes t rest rfl hrest

/-! Declarations of variables. -/

theorem declaredName_of_derives {ts : List Token} {t : Tree} (h : Derives .declaredName ts [t])
    {rest : List Token} (hrest : ∀ next, rest.head? = some next → next.isSymbol "[" = false) :
    ∃ h, declaredName (ts ++ rest) = .ok ⟨t, rest, h⟩ := by
  cases h with
  | scalarName isName =>
    rw [List.singleton_append, declaredName, expectIdentifier_cons isName, ok_bind]
    dsimp only [Read.nothing]
    rw [eat?_eq_none hrest]
    exact ⟨_, rfl⟩
  | arrayName isName isOpen isLength isClose =>
    rw [List.cons_append, List.cons_append, List.cons_append, List.singleton_append, declaredName,
      expectIdentifier_cons isName, ok_bind]
    dsimp only [Read.nothing]
    rw [eat?_cons ((Token.isSymbol_iff _ _).2 isOpen)]
    dsimp only [Read.nothing]
    rw [expect_cons _ (by simp [isLength]), ok_bind]
    dsimp only [Read.nothing]
    rw [expectSymbol_cons isClose, ok_bind]
    exact ⟨_, rfl⟩

theorem declarator_of_derives {ts : List Token} {t : Tree} (h : Derives .declarator ts [t])
    {sep : Token} (isSep : sep.OneOf .symbol [",", ";"]) (rest : List Token) :
    ∃ h, declarator reuse (ts ++ sep :: rest) = .ok ⟨t, sep :: rest, h⟩ := by
  cases h with
  | uninitialized name =>
    have hbracket : ∀ next, (sep :: rest).head? = some next → next.isSymbol "[" = false := by
      rintro next ⟨⟩
      exact isSep.not_hasText (by decide)
    have hcolon : ∀ next, (sep :: rest).head? = some next → next.isSymbol ":" = false := by
      rintro next ⟨⟩
      exact isSep.not_hasText (by decide)
    obtain ⟨hlt, hname⟩ := declaredName_of_derives name hbracket
    rw [declarator, hname, ok_bind]
    dsimp only
    rw [eat?_eq_none hcolon]
    exact ⟨_, rfl⟩
  | @initialized colon ts us id value name isColon init =>
    have hbracket : ∀ next, (colon :: (us ++ sep :: rest)).head? = some next →
        next.isSymbol "[" = false := by
      rintro next ⟨⟩
      exact isColon.not_hasText (by decide)
    obtain ⟨hlt, hname⟩ := declaredName_of_derives name hbracket
    obtain ⟨hlt', hinit⟩ : ∃ h, simpleExpression reuse (us ++ sep :: rest) =
        .ok (some ⟨value, sep :: rest, h⟩) :=
      simpleExpression_of_derives init (follows_of_symbol isSep (by decide) rest)
    rw [List.append_assoc, List.cons_append, declarator, hname, ok_bind]
    dsimp only
    rw [eat?_cons ((Token.isSymbol_iff _ _).2 isColon)]
    dsimp only [Read.nothing]
    rw [hinit, required_some, ok_bind]
    exact ⟨_, rfl⟩

/-- Membership in a class grows with the class. -/
theorem oneOf_mono {t : Token} {kind : Kind} {texts more : List String} (h : t.OneOf kind texts)
    (hsub : texts ⊆ more) : t.OneOf kind more :=
  ⟨h.1, hsub h.2⟩

theorem declarators_of_derives {p : Phrase} {ts : List Token} {inits : List Tree}
    (h : Derives p ts inits) (hp : p = .declarators) {semicolon : Token}
    (isEnd : semicolon.OneOf .symbol [";"]) (rest : List Token) :
    ∃ h, declarators reuse (ts ++ semicolon :: rest) = .ok ⟨inits, rest, h⟩ := by
  induction h with
  | lastDeclarator last =>
    obtain ⟨hlt, hlast⟩ : ∃ h, declarator reuse _ = .ok ⟨_, semicolon :: rest, h⟩ :=
      declarator_of_derives last (oneOf_mono isEnd (by simp)) rest
    have hcomma : ∀ next, (semicolon :: rest).head? = some next → next.isSymbol "," = false := by
      rintro next ⟨⟩
      exact isEnd.not_hasText (by decide)
    rw [declarators, hlast, ok_bind]
    dsimp only
    rw [eat?_eq_none hcomma]
    dsimp only
    rw [expectSymbol_cons isEnd, ok_bind]
    exact ⟨_, rfl⟩
  | @declarator comma ts us init inits first isComma _ _ ih =>
    obtain ⟨hlt', hmore⟩ := ih rfl
    obtain ⟨hlt, hfirst⟩ : ∃ h, Grammar.declarator reuse (ts ++ comma :: (us ++ semicolon :: rest)) =
        .ok ⟨init, comma :: (us ++ semicolon :: rest), h⟩ :=
      declarator_of_derives first (oneOf_mono isComma (by simp)) _
    rw [List.append_assoc, List.cons_append, declarators, hfirst, ok_bind]
    dsimp only
    rw [eat?_cons ((Token.isSymbol_iff _ _).2 isComma)]
    dsimp only [Read.nothing]
    rw [hmore, ok_bind]
    exact ⟨_, rfl⟩
  | _ => cases hp

theorem varDeclaration_of_derives {ts : List Token} {t : Tree} (h : Derives .varDeclaration ts [t])
    (rest : List Token) : ∃ h, varDeclaration reuse (ts ++ rest) = .ok (some ⟨t, rest, h⟩) := by
  cases h with
  | @variableDeclaration type semicolon ts inits isType list isEnd =>
    obtain ⟨hlt, hlist⟩ : ∃ h, declarators reuse (ts ++ semicolon :: rest) = .ok ⟨inits, rest, h⟩ :=
      declarators_of_derives list rfl isEnd rest
    rw [List.cons_append, List.cons_append, List.append_assoc, List.singleton_append, varDeclaration,
      eat?_cons ((isTypeName_iff _).2 isType)]
    dsimp only [Read.nothing]
    rw [hlist, ok_bind]
    exact ⟨_, rfl⟩

theorem varDeclaration_first {ts : List Token} {t : Tree} (h : Derives .varDeclaration ts [t]) :
    StartsWith isTypeName ts := by
  cases h with
  | variableDeclaration isType list isEnd => exact startsWith_cons ((isTypeName_iff _).2 isType) _

/-- A type name is no other keyword, and no name. -/
theorem isTypeName_not_static (t : Token) (h : isTypeName t = true) : t.isKeyword "static" = false :=
  ((isTypeName_iff t).1 h).not_hasText (by decide)

theorem localDeclaration_of_derives {ts : List Token} {t : Tree}
    (h : Derives .localDeclaration ts [t]) (rest : List Token) :
    ∃ h, localDeclaration reuse (ts ++ rest) = .ok (some ⟨t, rest, h⟩) := by
  cases h with
  | plainLocal decl =>
    rw [localDeclaration, ((varDeclaration_first decl).append rest).not_eat isTypeName_not_static]
    exact varDeclaration_of_derives decl rest
  | @staticLocal static type semicolon ts inits isStatic isType list isEnd =>
    obtain ⟨hlt, hlist⟩ : ∃ h, declarators reuse (ts ++ semicolon :: rest) = .ok ⟨inits, rest, h⟩ :=
      declarators_of_derives list rfl isEnd rest
    rw [List.cons_append, List.cons_append, List.cons_append, List.cons_append, List.append_assoc,
      List.singleton_append, localDeclaration, eat?_cons ((Token.isKeyword_iff _ _).2 isStatic)]
    dsimp only [Read.nothing]
    rw [expect_cons _ ((isTypeName_iff _).2 isType), ok_bind]
    dsimp only [Read.nothing]
    rw [hlist, ok_bind]
    exact ⟨_, rfl⟩

theorem localDeclarations_of_derives {p : Phrase} {ts : List Token} {decls : List Tree}
    (h : Derives p ts decls) (hp : p = .localDeclarations) {rest : List Token}
    (hstatic : eat? (·.isKeyword "static") rest = none) (htype : eat? isTypeName rest = none) :
    ∃ h, localDeclarations reuse (ts ++ rest) = .ok ⟨decls, rest, h⟩ := by
  induction h with
  | noLocals =>
    rw [List.nil_append, localDeclarations, localDeclaration, hstatic]
    dsimp only
    rw [varDeclaration, htype]
    exact ⟨_, rfl⟩
  | @locals ts us t decls first _ _ ih =>
    obtain ⟨hlt', hmore⟩ := ih rfl
    obtain ⟨hlt, hfirst⟩ : ∃ h, localDeclaration reuse (ts ++ (us ++ rest)) =
        .ok (some ⟨t, us ++ rest, h⟩) := localDeclaration_of_derives first _
    rw [List.append_assoc, localDeclarations, hfirst, ok_bind]
    dsimp only
    rw [hmore, ok_bind]
    exact ⟨_, rfl⟩
  | _ => cases hp

/-! Parameters. -/

theorem parameter_of_derives {ts : List Token} {t : Tree} (h : Derives .parameter ts [t])
    {rest : List Token} (hrest : ∀ next, rest.head? = some next → next.isSymbol "[" = false) :
    ∃ h, parameter (ts ++ rest) = .ok ⟨t, rest, h⟩ := by
  cases h with
  | scalarParameter isName =>
    rw [List.singleton_append, parameter, expectIdentifier_cons isName, ok_bind]
    dsimp only [Read.nothing]
    rw [eat?_eq_none hrest]
    exact ⟨_, rfl⟩
  | arrayParameter isName isOpen isClose =>
    rw [List.cons_append, List.cons_append, List.singleton_append, parameter,
      expectIdentifier_cons isName, ok_bind]
    dsimp only [Read.nothing]
    rw [eat?_cons ((Token.isSymbol_iff _ _).2 isOpen)]
    dsimp only [Read.nothing]
    rw [expectSymbol_cons isClose, ok_bind]
    exact ⟨_, rfl⟩

theorem parameterList_of_derives {p : Phrase} {ts : List Token} {ids : List Tree}
    (h : Derives p ts ids) (hp : p = .parameterList) {sep : Token}
    (isSep : sep.OneOf .symbol [";", ")"]) (rest : List Token) :
    ∃ h, parameterList (ts ++ sep :: rest) = .ok ⟨ids, sep :: rest, h⟩ := by
  induction h with
  | lastParameter last =>
    have hbracket : ∀ next, (sep :: rest).head? = some next → next.isSymbol "[" = false := by
      rintro next ⟨⟩
      exact isSep.not_hasText (by decide)
    have hcomma : ∀ next, (sep :: rest).head? = some next → next.isSymbol "," = false := by
      rintro next ⟨⟩
      exact isSep.not_hasText (by decide)
    obtain ⟨hlt, hlast⟩ := parameter_of_derives last hbracket
    rw [parameterList, hlast, ok_bind]
    dsimp only
    rw [eat?_eq_none hcomma]
    exact ⟨_, rfl⟩
  | @parameter comma ts us id ids first isComma _ _ ih =>
    have hbracket : ∀ next, (comma :: (us ++ sep :: rest)).head? = some next →
        next.isSymbol "[" = false := by
      rintro next ⟨⟩
      exact isComma.not_hasText (by decide)
    obtain ⟨hlt', hmore⟩ := ih rfl
    obtain ⟨hlt, hfirst⟩ := parameter_of_derives first hbracket
    rw [List.append_assoc, List.cons_append, parameterList, hfirst, ok_bind]
    dsimp only
    rw [eat?_cons ((Token.isSymbol_iff _ _).2 isComma)]
    dsimp only [Read.nothing]
    rw [hmore, ok_bind]
    exact ⟨_, rfl⟩
  | _ => cases hp

theorem parameterGroup_of_derives {ts : List Token} {t : Tree} (h : Derives .parameterGroup ts [t])
    {sep : Token} (isSep : sep.OneOf .symbol [";", ")"]) (rest : List Token) :
    ∃ h, parameterGroup (ts ++ sep :: rest) = .ok ⟨t, sep :: rest, h⟩ := by
  cases h with
  | parameterGroup isType list =>
    obtain ⟨hlt, hlist⟩ := parameterList_of_derives list rfl isSep rest
    rw [List.cons_append, parameterGroup, expect_cons _ ((isTypeName_iff _).2 isType), ok_bind]
    dsimp only [Read.nothing]
    rw [hlist, ok_bind]
    exact ⟨_, rfl⟩

theorem parameterGroups_of_derives {p : Phrase} {ts : List Token} {groups : List Tree}
    (h : Derives p ts groups) (hp : p = .parameterGroups) {close : Token}
    (isClose : close.OneOf .symbol [")"]) (rest : List Token) :
    ∃ h, parameterGroups (ts ++ close :: rest) = .ok ⟨groups, close :: rest, h⟩ := by
  induction h with
  | lastGroup last =>
    have hsemicolon : ∀ next, (close :: rest).head? = some next → next.isSymbol ";" = false := by
      rintro next ⟨⟩
      exact isClose.not_hasText (by decide)
    obtain ⟨hlt, hlast⟩ := parameterGroup_of_derives last (oneOf_mono isClose (by simp)) rest
    rw [parameterGroups, hlast, ok_bind]
    dsimp only
    rw [eat?_eq_none hsemicolon]
    exact ⟨_, rfl⟩
  | @group semicolon ts us group groups first isEnd _ _ ih =>
    obtain ⟨hlt', hmore⟩ := ih rfl
    obtain ⟨hlt, hfirst⟩ := parameterGroup_of_derives first (oneOf_mono isEnd (by simp))
      (us ++ close :: rest)
    rw [List.append_assoc, List.cons_append, parameterGroups, hfirst, ok_bind]
    dsimp only
    rw [eat?_cons ((Token.isSymbol_iff _ _).2 isEnd)]
    dsimp only [Read.nothing]
    rw [hmore, ok_bind]
    exact ⟨_, rfl⟩
  | _ => cases hp

theorem parameterGroups_first {ts : List Token} {groups : List Tree}
    (h : Derives .parameterGroups ts groups) : StartsWith isTypeName ts := by
  cases h with
  | lastGroup last =>
    cases last with
    | parameterGroup isType list => exact startsWith_cons ((isTypeName_iff _).2 isType) _
  | group first _ _ =>
    cases first with
    | parameterGroup isType list => exact startsWith_cons ((isTypeName_iff _).2 isType) _

theorem parameters_of_derives {ts : List Token} {t : Tree} (h : Derives .parameters ts [t])
    {close : Token} (isClose : close.OneOf .symbol [")"]) (rest : List Token) :
    ∃ h, parameters (ts ++ close :: rest) = .ok ⟨t, close :: rest, h⟩ := by
  cases h with
  | noParameters =>
    rw [List.nil_append, parameters, eat?_cons ((Token.isSymbol_iff _ _).2 isClose)]
    exact ⟨_, rfl⟩
  | parameters list =>
    have hclose : ∀ t, isTypeName t = true → t.isSymbol ")" = false :=
      fun t ht => ((isTypeName_iff t).1 ht).not_hasText (by decide)
    obtain ⟨hlt, hgroups⟩ := parameterGroups_of_derives list rfl isClose rest
    rw [parameters, ((parameterGroups_first list).append _).not_eat hclose]
    dsimp only
    rw [hgroups, ok_bind]
    exact ⟨_, rfl⟩

/-! Statements. -/

theorem range_of_derives {ts : List Token} {t : Tree} (h : Derives .range ts [t])
    {doWord : Token} (isDo : doWord.OneOf .keyword ["do"]) (rest : List Token) :
    ∃ h, range reuse (ts ++ doWord :: rest) = .ok ⟨t, doWord :: rest, h⟩ := by
  have hto : ∀ next, (doWord :: rest).head? = some next → next.isKeyword "to" = false := by
    rintro next ⟨⟩
    exact isDo.not_hasText (by decide)
  have hby : ∀ next, (doWord :: rest).head? = some next → next.isKeyword "by" = false := by
    rintro next ⟨⟩
    exact isDo.not_hasText (by decide)
  have hfollows := follows_of_keyword isDo (by decide) rest
  cases h with
  | rangeStart first =>
    obtain ⟨hlt, hfirst⟩ : ∃ h, simpleExpression reuse _ = .ok (some ⟨_, _, h⟩) :=
      simpleExpression_of_derives first hfollows
    rw [range, hfirst, required_some, ok_bind]
    dsimp only
    rw [rangeEnd, eat?_eq_none hto]
    exact ⟨_, rfl⟩
  | @rangeTo toWord ts us start stop first isTo last =>
    obtain ⟨hlt, hfirst⟩ : ∃ h, simpleExpression reuse (ts ++ toWord :: (us ++ doWord :: rest)) =
        .ok (some ⟨start, toWord :: (us ++ doWord :: rest), h⟩) :=
      simpleExpression_of_derives first (follows_of_keyword isTo (by decide) _)
    obtain ⟨hlt', hlast⟩ : ∃ h, simpleExpression reuse (us ++ doWord :: rest) =
        .ok (some ⟨stop, doWord :: rest, h⟩) := simpleExpression_of_derives last hfollows
    rw [List.append_assoc, List.cons_append, range, hfirst, required_some, ok_bind]
    dsimp only
    rw [rangeEnd, eat?_cons ((Token.isKeyword_iff _ _).2 isTo)]
    dsimp only [Read.nothing]
    rw [hlast, required_some, ok_bind]
    dsimp only
    rw [rangeStep, eat?_eq_none hby]
    exact ⟨_, rfl⟩
  | @rangeBy toWord byWord ts us vs start stop step first isTo last isBy stride =>
    obtain ⟨hlt, hfirst⟩ : ∃ h, simpleExpression reuse
        (ts ++ toWord :: (us ++ byWord :: (vs ++ doWord :: rest))) =
        .ok (some ⟨start, toWord :: (us ++ byWord :: (vs ++ doWord :: rest)), h⟩) :=
      simpleExpression_of_derives first (follows_of_keyword isTo (by decide) _)
    obtain ⟨hlt', hlast⟩ : ∃ h, simpleExpression reuse (us ++ byWord :: (vs ++ doWord :: rest)) =
        .ok (some ⟨stop, byWord :: (vs ++ doWord :: rest), h⟩) :=
      simpleExpression_of_derives last (follows_of_keyword isBy (by decide) _)
    obtain ⟨hlt'', hstride⟩ : ∃ h, simpleExpression reuse (vs ++ doWord :: rest) =
        .ok (some ⟨step, doWord :: rest, h⟩) := simpleExpression_of_derives stride hfollows
    rw [List.append_assoc, List.append_assoc, List.cons_append, List.cons_append, range, hfirst,
      required_some, ok_bind]
    dsimp only
    rw [rangeEnd, eat?_cons ((Token.isKeyword_iff _ _).2 isTo)]
    dsimp only [Read.nothing]
    rw [hlast, required_some, ok_bind]
    dsimp only
    rw [rangeStep, eat?_cons ((Token.isKeyword_iff _ _).2 isBy)]
    dsimp only [Read.nothing]
    rw [hstride, required_some, ok_bind]
    exact ⟨_, rfl⟩

def startsStatement (t : Token) : Bool :=
  startsExpression t || t.isSymbol "\x7b" || t.isSymbol ";" || t.isKeyword "if" ||
    t.isKeyword "while" || t.isKeyword "for" || t.isKeyword "return" || t.isKeyword "break"

/-- No statement starts with a symbol or a keyword that is missing from the list above. -/
theorem startsStatement_not (t : Token) (h : startsStatement t = true) :
    t.isSymbol "\x7d" = false ∧ t.isKeyword "else" = false ∧ t.isKeyword "static" = false ∧
      isTypeName t = false := by
  obtain ⟨kind, lexeme, line⟩ := t
  cases kind <;> simp_all [startsStatement, startsExpression, startsOperand, startsFactor, isNegation,
    isUnary, isConstant, isTypeName, Token.isSymbol, Token.isKeyword, Token.hasText,
    Token.isIdentifier, Token.isOperator]
  · simp only [or_assoc] at h
    rcases h with rfl | rfl | rfl | rfl | rfl | rfl | rfl | rfl <;> decide
  · simp only [or_assoc] at h
    rcases h with rfl | rfl | rfl <;> decide

/-- An expression statement is tried last, behind tokens that start no expression. -/
theorem startsExpression_not (t : Token) (h : startsExpression t = true) :
    t.isSymbol "\x7b" = false ∧ t.isKeyword "if" = false ∧ t.isKeyword "while" = false ∧
      t.isKeyword "for" = false ∧ t.isKeyword "return" = false ∧ t.isKeyword "break" = false := by
  obtain ⟨kind, lexeme, line⟩ := t
  cases kind <;> simp_all [startsExpression, startsOperand, startsFactor, isNegation, isUnary,
    isConstant, Token.isSymbol, Token.isKeyword, Token.hasText, Token.isIdentifier, Token.isOperator]
  rcases h with (rfl | rfl) | rfl <;> decide

theorem statement_first {ts : List Token} {t : Tree} (h : Derives .statement ts [t]) :
    StartsWith startsStatement ts := by
  cases h with
  | emptyStmt isEnd =>
    exact startsWith_cons (by simp [startsStatement, (Token.isSymbol_iff _ _).2 isEnd]) _
  | expStmt value _ =>
    exact (StartsWith.mono value.first fun t ht => by simp [startsStatement, ht]).append _
  | compound body =>
    cases body with
    | block isOpen _ _ _ =>
      exact startsWith_cons (by simp [startsStatement, (Token.isSymbol_iff _ _).2 isOpen]) _
  | ifThen isWord _ _ _ | ifElse isWord _ _ _ _ _ _ | whileDo isWord _ _ _ | forDo isWord _ _ _ _ _
  | returnPlain isWord _ | returnValue isWord _ _ | breakLoop isWord _ =>
    exact startsWith_cons (by simp [startsStatement, (Token.isKeyword_iff _ _).2 isWord]) _

/-- Where the statements of a block go on or end, no declaration follows and no `else`. -/
theorem statements_first {ts : List Token} {stmts : List Tree} (h : Derives .statements ts stmts)
    {close : Token} (isClose : close.OneOf .symbol ["\x7d"]) (rest : List Token) {next : Token}
    (hnext : (ts ++ close :: rest).head? = some next) :
    next.isKeyword "else" = false ∧ next.isKeyword "static" = false ∧ isTypeName next = false := by
  cases h with
  | noStatements =>
    cases hnext
    refine ⟨isClose.not_hasText (by decide), isClose.not_hasText (by decide), ?_⟩
    simp [isTypeName, isClose.1]
  | statements first more =>
    obtain ⟨token, us, rfl, hstarts⟩ := statement_first first
    cases hnext
    exact (startsStatement_not _ hstarts).2

variable (reuse)

def CompletesBody : Phrase → List Token → List Tree → Prop
  | .statement, ts, trees => ∀ t rest, trees = [t] →
    (endsOpen t = true → ∀ next, rest.head? = some next → next.isKeyword "else" = false) →
    ∃ h, statement reuse (ts ++ rest) = .ok (some ⟨t, rest, h⟩)
  | .statements, ts, trees => ∀ close rest, close.OneOf .symbol ["\x7d"] →
    ∃ h, statements reuse (ts ++ close :: rest) = .ok ⟨trees, rest, h⟩
  | .block, ts, trees => ∀ t, trees = [t] → ∃ brace us, ts = brace :: us ∧
    brace.OneOf .symbol ["\x7b"] ∧ ∀ rest, ∃ h, blockTail reuse brace (us ++ rest) = .ok ⟨t, rest, h⟩
  | _, _, _ => True

variable {reuse}

/-! The first token decides which form of statement is read. -/

theorem statement_of_expression {ts : List Token} (h : StartsWith startsExpression ts) :
    statement reuse ts = expressionStatement reuse ts := by
  obtain ⟨first, more, rfl, hstarts⟩ := h
  obtain ⟨h₁, h₂, h₃, h₄, h₅, h₆⟩ := startsExpression_not first hstarts
  rw [statement.eq_def]
  simp only [h₁, h₂, h₃, h₄, h₅, h₆, Bool.false_eq_true, if_false]

theorem statement_of_semicolon {semicolon : Token} (h : semicolon.OneOf .symbol [";"])
    (ts : List Token) :
    statement reuse (semicolon :: ts) = expressionStatement reuse (semicolon :: ts) := by
  obtain ⟨kind, lexeme, line⟩ := semicolon
  obtain ⟨rfl, h⟩ := h
  cases List.mem_singleton.1 h
  rw [statement.eq_def]
  rfl

theorem statement_of_brace {brace : Token} (h : brace.OneOf .symbol ["\x7b"]) (ts : List Token) :
    statement reuse (brace :: ts) =
      (blockTail reuse brace ts >>= fun body => pure (some body.cons)) := by
  rw [statement.eq_def]
  simp only [(Token.isSymbol_iff _ _).2 h, if_true]

theorem statement_of_if {word : Token} (h : word.OneOf .keyword ["if"]) (ts : List Token) :
    statement reuse (word :: ts) = (do
      let condition ← required .condition ts (simpleExpression reuse ts)
      let thenWord ← expectKeyword "then" condition.rest
      let yes ← required .statement thenWord.rest (statement reuse thenWord.rest)
      let no ← elseBranch reuse yes.rest
      return some ((condition.andThen (thenWord.andThen (yes.andMaybe no))).map
        fun other => .marked .ifStmt word (condition.value :: yes.value :: other)).cons) := by
  obtain ⟨kind, lexeme, line⟩ := word
  obtain ⟨rfl, h⟩ := h
  cases List.mem_singleton.1 h
  rw [statement.eq_def]
  rfl

theorem statement_of_while {word : Token} (h : word.OneOf .keyword ["while"]) (ts : List Token) :
    statement reuse (word :: ts) = (do
      let condition ← required .condition ts (simpleExpression reuse ts)
      let doWord ← expectKeyword "do" condition.rest
      let body ← required .statement doWord.rest (statement reuse doWord.rest)
      return some ((condition.andThen (doWord.andThen body)).map
        fun t => .marked .whileStmt word [condition.value, t]).cons) := by
  obtain ⟨kind, lexeme, line⟩ := word
  obtain ⟨rfl, h⟩ := h
  cases List.mem_singleton.1 h
  rw [statement.eq_def]
  rfl

theorem statement_of_for {word : Token} (h : word.OneOf .keyword ["for"]) (ts : List Token) :
    statement reuse (word :: ts) = (do
      let name ← expectIdentifier ts
      let equals ← expect (.text "=") (·.isOperator ["="]) name.rest
      let bounds ← range reuse equals.rest
      let doWord ← expectKeyword "do" bounds.rest
      let body ← required .statement doWord.rest (statement reuse doWord.rest)
      return some ((name.andThen (equals.andThen (bounds.andThen (doWord.andThen body)))).map
        fun t => .marked .forStmt name.value [bounds.value, t]).cons) := by
  obtain ⟨kind, lexeme, line⟩ := word
  obtain ⟨rfl, h⟩ := h
  cases List.mem_singleton.1 h
  rw [statement.eq_def]
  rfl

theorem statement_of_return {word : Token} (h : word.OneOf .keyword ["return"]) (ts : List Token) :
    statement reuse (word :: ts) =
      (returnTail reuse word ts >>= fun tail => pure (some tail.cons)) := by
  obtain ⟨kind, lexeme, line⟩ := word
  obtain ⟨rfl, h⟩ := h
  cases List.mem_singleton.1 h
  rw [statement.eq_def]
  rfl

theorem statement_of_break {word : Token} (h : word.OneOf .keyword ["break"]) (ts : List Token) :
    statement reuse (word :: ts) = (expectSymbol ";" ts >>= fun semicolon =>
      pure (some (semicolon.map fun _ => .marked .breakStmt word []).cons)) := by
  obtain ⟨kind, lexeme, line⟩ := word
  obtain ⟨rfl, h⟩ := h
  cases List.mem_singleton.1 h
  rw [statement.eq_def]
  rfl

theorem statements_of_statement {first : Token} (h : startsStatement first = true)
    (ts : List Token) :
    statements reuse (first :: ts) = (do
      let next ← required .statement (first :: ts) (statement reuse (first :: ts))
      let more ← statements reuse next.rest
      return (next.andThen more).map (next.value :: ·)) := by
  rw [statements.eq_def]
  simp only [(startsStatement_not first h).1, Bool.false_eq_true, if_false]

theorem completes_expStmt {semicolon : Token} {ts : List Token} {t : Tree}
    (value : Derives .expression ts [t]) (isEnd : semicolon.OneOf .symbol [";"]) :
    CompletesBody reuse .statement (ts ++ [semicolon]) [.marked .expStmt semicolon [t]] := by
  rintro _ rest ⟨⟩ -
  have hfirst : StartsWith startsExpression (ts ++ semicolon :: rest) := value.first.append _
  have hsemicolon : eat? (·.isSymbol ";") (ts ++ semicolon :: rest) = none :=
    hfirst.not_eat (startsExpression_not_symbol (by decide))
  obtain ⟨hlt, hvalue⟩ : ∃ h, expression reuse (ts ++ semicolon :: rest) =
      .ok (some ⟨t, semicolon :: rest, h⟩) :=
    expression_of_derives value (follows_of_symbol isEnd (by decide) rest)
  rw [List.append_assoc, List.singleton_append, statement_of_expression hfirst, expressionStatement,
    hsemicolon]
  dsimp only
  rw [hvalue, ok_bind]
  dsimp only
  rw [expectSymbol_cons isEnd, ok_bind]
  exact ⟨_, rfl⟩

theorem completes_emptyStmt {semicolon : Token} (isEnd : semicolon.OneOf .symbol [";"]) :
    CompletesBody reuse .statement [semicolon] [.marked .expStmt semicolon []] := by
  rintro _ rest ⟨⟩ -
  rw [List.singleton_append, statement_of_semicolon isEnd, expressionStatement,
    eat?_cons ((Token.isSymbol_iff _ _).2 isEnd)]
  exact ⟨_, rfl⟩

theorem completes_compound {ts : List Token} {t : Tree} (body : CompletesBody reuse .block ts [t]) :
    CompletesBody reuse .statement ts [t] := by
  rintro _ rest ⟨⟩ -
  obtain ⟨brace, us, rfl, isOpen, hread⟩ := body t rfl
  obtain ⟨hlt, htail⟩ := hread rest
  rw [List.cons_append, statement_of_brace isOpen, htail, ok_bind]
  exact ⟨_, rfl⟩

theorem completes_block {opening closing : Token} {ts us : List Token} {decls stmts : List Tree}
    (isOpen : opening.OneOf .symbol ["\x7b"]) (head : Derives .localDeclarations ts decls)
    (hstmts : Derives .statements us stmts) (body : CompletesBody reuse .statements us stmts)
    (isClose : closing.OneOf .symbol ["\x7d"]) :
    CompletesBody reuse .block (opening :: ts ++ us ++ [closing])
      [.marked .compoundStmt opening (decls ++ stmts)] := by
  rintro _ ⟨⟩
  refine ⟨opening, ts ++ us ++ [closing], rfl, isOpen, ?_⟩
  intro rest
  obtain ⟨hlt', hbody⟩ := body closing rest isClose
  obtain ⟨hlt, hdecls⟩ : ∃ h, localDeclarations reuse (ts ++ (us ++ closing :: rest)) =
      .ok ⟨decls, us ++ closing :: rest, h⟩ := localDeclarations_of_derives head rfl
    (eat?_eq_none fun next hnext => (statements_first hstmts isClose rest hnext).2.1)
    (eat?_eq_none fun next hnext => (statements_first hstmts isClose rest hnext).2.2)
  rw [List.append_assoc, List.append_assoc, List.singleton_append, blockTail, hdecls, ok_bind]
  dsimp only
  rw [hbody, ok_bind]
  exact ⟨_, rfl⟩

theorem completes_statements {ts us : List Token} {t : Tree} {stmts : List Tree}
    (hfirst : Derives .statement ts [t]) (hrest : Derives .statements us stmts)
    (first : CompletesBody reuse .statement ts [t])
    (rest : CompletesBody reuse .statements us stmts) :
    CompletesBody reuse .statements (ts ++ us) (t :: stmts) := by
  intro close behind isClose
  obtain ⟨hlt', hmore⟩ := rest close behind isClose
  obtain ⟨token, more, rfl, hstarts⟩ := statement_first hfirst
  obtain ⟨hlt, hread⟩ : ∃ h, statement reuse (token :: (more ++ (us ++ close :: behind))) =
      .ok (some ⟨t, us ++ close :: behind, h⟩) := first t (us ++ close :: behind) rfl
    fun _ next hnext => (statements_first hrest isClose behind hnext).1
  rw [List.append_assoc, List.cons_append, statements_of_statement hstarts, hread, required_some,
    ok_bind]
  dsimp only
  rw [hmore, ok_bind]
  exact ⟨_, rfl⟩

theorem elseBranch_none {rest : List Token}
    (h : ∀ next, rest.head? = some next → next.isKeyword "else" = false) :
    ∃ h, elseBranch reuse rest = .ok ⟨[], rest, h⟩ := by
  rw [elseBranch, eat?_eq_none h]
  exact ⟨_, rfl⟩

/-- Both forms of `if`, given what is read behind the first branch. -/
theorem statement_if {word thenWord : Token} {ts us behind rest : List Token} {test yes : Tree}
    {no : List Tree} (isIf : word.OneOf .keyword ["if"]) (condition : Derives (.chain .or) ts [test])
    (isThen : thenWord.OneOf .keyword ["then"])
    (branch : ∃ h, statement reuse (us ++ behind) = .ok (some ⟨yes, behind, h⟩))
    (other : ∃ h, elseBranch reuse behind = .ok ⟨no, rest, h⟩) :
    ∃ h, statement reuse (word :: (ts ++ thenWord :: (us ++ behind))) =
      .ok (some ⟨.marked .ifStmt word (test :: yes :: no), rest, h⟩) := by
  obtain ⟨hlt, hcondition⟩ : ∃ h, simpleExpression reuse (ts ++ thenWord :: (us ++ behind)) =
      .ok (some ⟨test, thenWord :: (us ++ behind), h⟩) :=
    simpleExpression_of_derives condition (follows_of_keyword isThen (by decide) _)
  obtain ⟨hlt', hyes⟩ := branch
  obtain ⟨hlt'', hno⟩ := other
  rw [statement_of_if isIf, hcondition, required_some, ok_bind]
  dsimp only
  rw [expectKeyword_cons isThen, ok_bind]
  dsimp only [Read.nothing]
  rw [hyes, required_some, ok_bind]
  dsimp only
  rw [hno, ok_bind]
  exact ⟨_, rfl⟩

theorem completes_ifThen {word thenWord : Token} {ts us : List Token} {test yes : Tree}
    (isIf : word.OneOf .keyword ["if"]) (condition : Derives (.chain .or) ts [test])
    (isThen : thenWord.OneOf .keyword ["then"]) (branch : CompletesBody reuse .statement us [yes]) :
    CompletesBody reuse .statement (word :: ts ++ thenWord :: us)
      [.marked .ifStmt word [test, yes]] := by
  rintro _ rest ⟨⟩ hrest
  have helse := hrest rfl
  rw [List.cons_append, List.cons_append, List.append_assoc, List.cons_append]
  exact statement_if isIf condition isThen (branch yes rest rfl fun _ => helse) (elseBranch_none helse)

theorem completes_ifElse {word thenWord elseWord : Token} {ts us vs : List Token} {test yes no : Tree}
    (isIf : word.OneOf .keyword ["if"]) (condition : Derives (.chain .or) ts [test])
    (isThen : thenWord.OneOf .keyword ["then"]) (branch : CompletesBody reuse .statement us [yes])
    (nearest : endsOpen yes = false) (isElse : elseWord.OneOf .keyword ["else"])
    (other : CompletesBody reuse .statement vs [no]) :
    CompletesBody reuse .statement (word :: ts ++ thenWord :: us ++ elseWord :: vs)
      [.marked .ifStmt word [test, yes, no]] := by
  rintro _ rest ⟨⟩ hrest
  have hbranch := branch yes (elseWord :: (vs ++ rest)) rfl fun hopen => by simp [nearest] at hopen
  obtain ⟨hlt, hno⟩ := other no rest rfl hrest
  have hother : ∃ h, elseBranch reuse (elseWord :: (vs ++ rest)) = .ok ⟨[no], rest, h⟩ := by
    rw [elseBranch, eat?_cons ((Token.isKeyword_iff _ _).2 isElse)]
    dsimp only [Read.nothing]
    rw [hno, required_some, ok_bind]
    exact ⟨_, rfl⟩
  rw [List.append_assoc, List.append_assoc, List.cons_append, List.cons_append, List.cons_append]
  exact statement_if isIf condition isThen hbranch hother

theorem completes_while {word doWord : Token} {ts us : List Token} {test body : Tree}
    (isWhile : word.OneOf .keyword ["while"]) (condition : Derives (.chain .or) ts [test])
    (isDo : doWord.OneOf .keyword ["do"]) (loop : CompletesBody reuse .statement us [body]) :
    CompletesBody reuse .statement (word :: ts ++ doWord :: us)
      [.marked .whileStmt word [test, body]] := by
  rintro _ rest ⟨⟩ hrest
  obtain ⟨hlt, hcondition⟩ : ∃ h, simpleExpression reuse (ts ++ doWord :: (us ++ rest)) =
      .ok (some ⟨test, doWord :: (us ++ rest), h⟩) :=
    simpleExpression_of_derives condition (follows_of_keyword isDo (by decide) _)
  obtain ⟨hlt', hbody⟩ := loop body rest rfl hrest
  rw [List.cons_append, List.cons_append, List.append_assoc, List.cons_append,
    statement_of_while isWhile, hcondition, required_some, ok_bind]
  dsimp only
  rw [expectKeyword_cons isDo, ok_bind]
  dsimp only [Read.nothing]
  rw [hbody, required_some, ok_bind]
  exact ⟨_, rfl⟩

theorem completes_for {word name equals doWord : Token} {ts us : List Token} {bounds body : Tree}
    (isFor : word.OneOf .keyword ["for"]) (isName : name.kind = .identifier)
    (isEquals : equals.OneOf .operator ["="]) (range : Derives .range ts [bounds])
    (isDo : doWord.OneOf .keyword ["do"]) (loop : CompletesBody reuse .statement us [body]) :
    CompletesBody reuse .statement (word :: name :: equals :: ts ++ doWord :: us)
      [.marked .forStmt name [bounds, body]] := by
  rintro _ rest ⟨⟩ hrest
  obtain ⟨hlt, hbounds⟩ : ∃ h, Grammar.range reuse (ts ++ doWord :: (us ++ rest)) =
      .ok ⟨bounds, doWord :: (us ++ rest), h⟩ := range_of_derives range isDo _
  obtain ⟨hlt', hbody⟩ := loop body rest rfl hrest
  rw [List.append_assoc, List.cons_append, List.cons_append, List.cons_append, List.cons_append,
    statement_of_for isFor, expectIdentifier_cons isName, ok_bind]
  dsimp only [Read.nothing]
  rw [expect_cons _ ((Token.isOperator_iff _ _).2 isEquals), ok_bind]
  dsimp only [Read.nothing]
  rw [hbounds, ok_bind]
  dsimp only
  rw [expectKeyword_cons isDo, ok_bind]
  dsimp only [Read.nothing]
  rw [hbody, required_some, ok_bind]
  exact ⟨_, rfl⟩

theorem completes_return {word semicolon : Token} (isReturn : word.OneOf .keyword ["return"])
    (isEnd : semicolon.OneOf .symbol [";"]) :
    CompletesBody reuse .statement [word, semicolon] [.marked .returnStmt word []] := by
  rintro _ rest ⟨⟩ -
  rw [List.cons_append, List.singleton_append, statement_of_return isReturn, returnTail,
    eat?_cons ((Token.isSymbol_iff _ _).2 isEnd)]
  exact ⟨_, rfl⟩

theorem completes_returnValue {word semicolon : Token} {ts : List Token} {t : Tree}
    (isReturn : word.OneOf .keyword ["return"]) (value : Derives .expression ts [t])
    (isEnd : semicolon.OneOf .symbol [";"]) :
    CompletesBody reuse .statement (word :: ts ++ [semicolon]) [.marked .returnStmt word [t]] := by
  rintro _ rest ⟨⟩ -
  have hsemicolon : eat? (·.isSymbol ";") (ts ++ semicolon :: rest) = none :=
    (value.first.append _).not_eat (startsExpression_not_symbol (by decide))
  obtain ⟨hlt, hvalue⟩ : ∃ h, expression reuse (ts ++ semicolon :: rest) =
      .ok (some ⟨t, semicolon :: rest, h⟩) :=
    expression_of_derives value (follows_of_symbol isEnd (by decide) rest)
  rw [List.cons_append, List.cons_append, List.append_assoc, List.singleton_append,
    statement_of_return isReturn, returnTail, hsemicolon]
  dsimp only
  rw [hvalue, required_some, ok_bind]
  dsimp only
  rw [expectSymbol_cons isEnd, ok_bind]
  exact ⟨_, rfl⟩

theorem completes_break {word semicolon : Token} (isBreak : word.OneOf .keyword ["break"])
    (isEnd : semicolon.OneOf .symbol [";"]) :
    CompletesBody reuse .statement [word, semicolon] [.marked .breakStmt word []] := by
  rintro _ rest ⟨⟩ -
  rw [List.cons_append, List.singleton_append, statement_of_break isBreak, expectSymbol_cons isEnd,
    ok_bind]
  exact ⟨_, rfl⟩

/-- Every derivation of a statement phrase is found again by the reader of that phrase. -/
theorem Derives.completesBody {p : Phrase} {ts : List Token} {trees : List Tree}
    (h : Derives p ts trees) : CompletesBody reuse p ts trees := by
  induction h with
  | emptyStmt isEnd => exact completes_emptyStmt isEnd
  | expStmt value isEnd _ => exact completes_expStmt value isEnd
  | compound _ body => exact completes_compound body
  | block isOpen head hstmts isClose _ body => exact completes_block isOpen head hstmts body isClose
  | noStatements =>
    intro close rest isClose
    rw [List.nil_append, statements.eq_def]
    dsimp only
    rw [if_pos ((Token.isSymbol_iff _ _).2 isClose)]
    exact ⟨_, rfl⟩
  | statements hfirst hrest first rest => exact completes_statements hfirst hrest first rest
  | ifThen isIf condition isThen _ _ branch => exact completes_ifThen isIf condition isThen branch
  | ifElse isIf condition isThen _ nearest isElse _ _ branch other =>
    exact completes_ifElse isIf condition isThen branch nearest isElse other
  | whileDo isWhile condition isDo _ _ loop => exact completes_while isWhile condition isDo loop
  | forDo isFor isName isEquals range isDo _ _ loop =>
    exact completes_for isFor isName isEquals range isDo loop
  | returnPlain isReturn isEnd => exact completes_return isReturn isEnd
  | returnValue isReturn value isEnd _ => exact completes_returnValue isReturn value isEnd
  | breakLoop isBreak isEnd => exact completes_break isBreak isEnd
  | _ => trivial

/-! Functions and programs. -/

theorem block_of_derives {ts : List Token} {t : Tree} (h : Derives .block ts [t])
    (rest : List Token) : ∃ h, block reuse (ts ++ rest) = .ok (some ⟨t, rest, h⟩) := by
  obtain ⟨brace, us, rfl, isOpen, htail⟩ := h.completesBody t rfl
  obtain ⟨hlt, htail⟩ := htail rest
  rw [List.cons_append, block, eat?_cons ((Token.isSymbol_iff _ _).2 isOpen)]
  dsimp only [Read.nothing]
  rw [htail, ok_bind]
  exact ⟨_, rfl⟩

theorem functionTail_of_derives {name opening closing : Token} {ts us : List Token}
    {parms body : Tree} (result : List Tree) (isName : name.kind = .identifier)
    (isOpen : opening.OneOf .symbol ["("]) (list : Derives .parameters ts [parms])
    (isClose : closing.OneOf .symbol [")"]) (code : Derives .block us [body]) (rest : List Token) :
    ∃ h, functionTail reuse result (name :: opening :: (ts ++ closing :: (us ++ rest))) =
      .ok ⟨.marked .funDecl name (result ++ [parms, body]), rest, h⟩ := by
  obtain ⟨hlt, hparms⟩ : ∃ h, parameters (ts ++ closing :: (us ++ rest)) =
      .ok ⟨parms, closing :: (us ++ rest), h⟩ := parameters_of_derives list isClose _
  obtain ⟨hlt', hbody⟩ : ∃ h, block reuse (us ++ rest) = .ok (some ⟨body, rest, h⟩) :=
    block_of_derives code rest
  rw [functionTail, expectIdentifier_cons isName, ok_bind]
  dsimp only [Read.nothing]
  rw [expectSymbol_cons isOpen, ok_bind]
  dsimp only [Read.nothing]
  rw [hparms, ok_bind]
  dsimp only
  rw [expectSymbol_cons isClose, ok_bind]
  dsimp only [Read.nothing]
  rw [hbody, required_some, ok_bind]
  exact ⟨_, rfl⟩

/-- A declared name is not taken for that of a function. -/
theorem declaredName_not_call {ts : List Token} {t : Tree} (h : Derives .declaredName ts [t])
    {sep : Token} (isSep : sep.OneOf .symbol [",", ";", ":"]) (rest : List Token) :
    startsCall (ts ++ sep :: rest) = false := by
  cases h with
  | scalarName isName =>
    have hparen : sep.isSymbol "(" = false := isSep.not_hasText (by decide)
    simp [startsCall, hparen]
  | @arrayName name opening length closing isName isOpen isLength isClose =>
    have hparen : opening.isSymbol "(" = false := isOpen.not_hasText (by decide)
    simp [startsCall, hparen]

theorem declarator_not_call {ts : List Token} {t : Tree} (h : Derives .declarator ts [t])
    {sep : Token} (isSep : sep.OneOf .symbol [",", ";"]) (rest : List Token) :
    startsCall (ts ++ sep :: rest) = false := by
  cases h with
  | uninitialized name => exact declaredName_not_call name (oneOf_mono isSep (by simp)) rest
  | initialized name isColon init =>
    rw [List.append_assoc, List.cons_append]
    exact declaredName_not_call name (oneOf_mono isColon (by simp)) _

theorem declarators_not_call {ts : List Token} {inits : List Tree}
    (h : Derives .declarators ts inits) {semicolon : Token}
    (isEnd : semicolon.OneOf .symbol [";"]) (rest : List Token) :
    startsCall (ts ++ semicolon :: rest) = false := by
  cases h with
  | lastDeclarator last => exact declarator_not_call last (oneOf_mono isEnd (by simp)) rest
  | declarator first isComma more =>
    rw [List.append_assoc, List.cons_append]
    exact declarator_not_call first (oneOf_mono isComma (by simp)) _

theorem declaration_of_globals {ts : List Token} {t : Tree} (h : Derives .varDeclaration ts [t])
    (rest : List Token) : declaration reuse (ts ++ rest) = varDeclaration reuse (ts ++ rest) := by
  cases h with
  | variableDeclaration isType list isEnd =>
    rw [List.cons_append, List.cons_append, List.append_assoc, List.singleton_append, declaration,
      eat?_cons ((isTypeName_iff _).2 isType)]
    dsimp only [Read.nothing]
    rw [if_neg (by simp [declarators_not_call list isEnd rest])]

theorem declaration_of_function {ts : List Token} {t : Tree} (h : Derives .function ts [t])
    (rest : List Token) : ∃ h, declaration reuse (ts ++ rest) = .ok (some ⟨t, rest, h⟩) := by
  cases h with
  | @procedure name opening closing ts us parms body isName isOpen list isClose code =>
    obtain ⟨hlt, htail⟩ : ∃ h, functionTail reuse [] _ = .ok ⟨_, rest, h⟩ :=
      functionTail_of_derives [] isName isOpen list isClose code rest
    have htype : ∀ next, (name :: opening :: (ts ++ closing :: (us ++ rest))).head? = some next →
        isTypeName next = false := by
      rintro next ⟨⟩
      simp [isTypeName, isName]
    rw [List.append_assoc, List.cons_append, List.cons_append, List.cons_append, declaration,
      eat?_eq_none htype]
    dsimp only
    rw [if_pos (startsCall_of_name isName isOpen _), htail, ok_bind]
    exact ⟨_, rfl⟩
  | function isType isName isOpen list isClose code =>
    obtain ⟨hlt, htail⟩ : ∃ h, functionTail reuse [_] _ = .ok ⟨_, rest, h⟩ :=
      functionTail_of_derives [.marked .typeSpec _ []] isName isOpen list isClose code rest
    rw [List.append_assoc, List.cons_append, List.cons_append, List.cons_append, List.cons_append,
      declaration, eat?_cons ((isTypeName_iff _).2 isType)]
    dsimp only [Read.nothing]
    rw [if_pos (startsCall_of_name isName isOpen _), htail, ok_bind]
    exact ⟨_, rfl⟩

theorem declaration_of_derives {ts : List Token} {t : Tree} (h : Derives .declaration ts [t])
    (rest : List Token) : ∃ h, declaration reuse (ts ++ rest) = .ok (some ⟨t, rest, h⟩) := by
  cases h with
  | globals decl =>
    rw [declaration_of_globals decl]
    exact varDeclaration_of_derives decl rest
  | routine decl => exact declaration_of_function decl rest

theorem declarations_append {ts : List Token} {t : Tree} (h : Derives .declaration ts [t])
    {us : List Token} {decls : List Tree} (more : declarations reuse us = .ok decls) :
    declarations reuse (ts ++ us) = .ok (t :: decls) := by
  obtain ⟨hlt, hfirst⟩ : ∃ h, declaration reuse (ts ++ us) = .ok (some ⟨t, us, h⟩) :=
    declaration_of_derives h us
  have hne : (ts ++ us).isEmpty = false := by
    rw [List.isEmpty_eq_false_iff]
    rintro hnil
    simp [hnil] at hlt
  rw [declarations, hne, hfirst, required_some, ok_bind]
  dsimp only
  rw [more, ok_bind]
  rfl

theorem declarations_of_derives {p : Phrase} {ts : List Token} {decls : List Tree}
    (h : Derives p ts decls) (hp : p = .declarations) : declarations reuse ts = .ok decls := by
  induction h with
  | @lastDeclaration ts t last =>
    have hend : declarations reuse [] = .ok [] := by
      rw [declarations]
      rfl
    simpa using declarations_append last hend
  | declaration first _ _ ih => exact declarations_append first (ih rfl)
  | _ => cases hp

/-- What derives a program is read as that program. -/
theorem program_of_derives {ts : List Token} {t : Tree} (h : Derives .program ts [t]) :
    program reuse ts = .ok t := by
  cases h with
  | program list =>
    rw [program, declarations_of_derives list rfl, ok_bind]
    cases list <;> rfl

end StackCompiler.Grammar
