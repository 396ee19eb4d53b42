import StackCompiler.Proofs.Grammar.ExpressionFailures
import StackCompiler.Proofs.Grammar.MemoTransparency
import StackCompiler.Proofs.Grammar.ProgramCompleteness
import StackCompiler.Proofs.Grammar.ProgramReaders

/-!
Where the reading of a program fails: at the first token with which no program goes on. The main statement
says which token a syntax error names.
-/

set_option autoImplicit false
namespace StackCompiler

namespace Grammar

open Token (sampleName sampleNumber sampleSymbol sampleKeyword oneOf_sampleSymbol oneOf_sampleKeyword
  isSymbol_sampleSymbol)

variable {ts : List Token}

/-! Declarations of variables. -/

theorem derives_sampleDeclarator :
    Derives .declarator [sampleName] [.inner .varDeclInit [.marked .varDeclId sampleName []]] :=
  .uninitialized (.scalarName rfl)

theorem isType_sampleInt : (sampleKeyword "int").IsType :=
  ⟨rfl, by decide⟩

theorem declaredNameRest_parses {name : Token} (hname : name.kind = .identifier) :
    Parses (Finishes .declaredName [name]) (Reader.declaredNameRest name) ts := by
  refine .next (fun _ => .ok (.scalarName hname)) ?_
  intro opening rest _ hopen
  rw [Token.isSymbol_iff] at hopen
  refine .token ⟨[sampleNumber, sampleSymbol "]"], _,
    .arrayName hname hopen rfl (oneOf_sampleSymbol "]")⟩ ?_
  intro length rest' _ hlength
  refine .lastToken (sampleSymbol "]") (isSymbol_sampleSymbol "]") ?_
  intro closing hclose
  exact .arrayName hname hopen (by simpa using hlength) ((Token.isSymbol_iff _ _).1 hclose)

theorem declaredName_parses : Parses (Finishes .declaredName []) Reader.declaredName ts := by
  rw [Reader.declaredName_eq]
  refine .token ⟨[sampleName], _, .scalarName rfl⟩ ?_
  intro name rest _ hname
  exact declaredNameRest_parses ((Token.isIdentifier_iff name).1 hname)

theorem declaratorRest_parses {before : List Token} {reader : Reader Tree}
    (h : Parses (Finishes .declaredName before) reader ts) :
    Parses (Finishes .declarator before) (reader >>= Reader.declaratorRest) ts := by
  have hplain : ∀ name used, Finishes .declaredName before name used →
      Finishes .declarator before (.inner .varDeclInit [name]) (used ++ []) := by
    intro name used hname
    rw [List.append_nil]
    exact .uninitialized hname
  refine h.bind (fun name used hname => ⟨[], _, hplain name used hname⟩) ?_
  intro name used rest _ _ hname
  refine .next (fun _ => .ok (hplain name used hname)) ?_
  intro colon behind _ hcolon
  refine ((simpleExpression_offers behind).must (begins_chain .or)).map ?_
  intro init us hinit
  rw [Finishes, ← List.append_assoc]
  exact .initialized hname ((Token.isSymbol_iff _ _).1 hcolon) hinit

def Terminated (before : List Token) (inits : List Tree) (us : List Token) : Prop :=
  ∃ used semicolon, before ++ us = used ++ [semicolon] ∧ semicolon.OneOf .symbol [";"] ∧
    Derives .declarators used inits

theorem declaratorsRest_parses {before : List Token} {reader : Reader Tree}
    (h : Parses (Finishes .declarator before) reader ts)
    (hshorter : ∀ us : List Token, us.length < ts.length → Parses (Terminated []) Reader.declarators us) :
    Parses (Terminated before) (reader >>= Reader.declaratorsRest) ts := by
  have hlast : ∀ first used semicolon, Finishes .declarator before first used →
      semicolon.OneOf .symbol [";"] → Terminated before [first] (used ++ [semicolon]) := by
    intro first used semicolon hfirst hsemicolon
    exact ⟨before ++ used, semicolon, (List.append_assoc ..).symm, hsemicolon, .lastDeclarator hfirst⟩
  refine h.bind ?_ ?_
  · intro first used hfirst
    exact ⟨[sampleSymbol ";"], _, hlast first used _ hfirst (oneOf_sampleSymbol ";")⟩
  intro first used rest hts _ hfirst
  refine .next ?_ ?_
  · intro _
    refine .lastToken (sampleSymbol ";") (isSymbol_sampleSymbol ";") ?_
    intro semicolon hsemicolon
    exact hlast first used semicolon hfirst ((Token.isSymbol_iff _ _).1 hsemicolon)
  · intro comma behind hrest hcomma
    refine (hshorter behind (Nat.lt_of_lt_of_le (length_of_cons hrest) (length_of_append hts))).map ?_
    rintro more us ⟨listed, semicolon, hus, hsemicolon, hmore⟩
    rw [List.nil_append] at hus
    refine ⟨before ++ used ++ comma :: listed, semicolon, by simp [hus], hsemicolon, ?_⟩
    exact .declarator hfirst ((Token.isSymbol_iff _ _).1 hcomma) hmore

theorem declarators_parses {ts : List Token} : Parses (Terminated []) Reader.declarators ts := by
  rw [Reader.declarators_eq, Reader.declarator_eq]
  exact declaratorsRest_parses (declaratorRest_parses declaredName_parses) fun us _ => declarators_parses
termination_by ts.length

theorem Terminated.variableDeclaration {type : Token} {before us : List Token} {inits : List Tree}
    (h : Terminated before inits us) (htype : type.IsType) :
    Derives .varDeclaration (type :: (before ++ us)) [.inner .varDecl (.marked .typeSpec type [] :: inits)] := by
  obtain ⟨used, semicolon, hus, hsemicolon, hlist⟩ := h
  rw [hus]
  exact .variableDeclaration htype hlist hsemicolon

theorem varDeclaration_offers : Offers (Finishes .varDeclaration []) Reader.varDeclaration ts := by
  refine byHead isTypeName ts ?_ ?_
  · intro htype
    exact .declines fun us hus => Reader.varDeclaration_declines (eat?_eq_none (hus ▸ htype))
  · rintro type rest rfl htype
    refine .takes (fun us _ => Reader.varDeclaration_takes htype us) (declarators_parses.map ?_)
    intro inits us hinits
    exact hinits.variableDeclaration ((isTypeName_iff type).1 htype)

theorem localDeclaration_offers : Offers (Finishes .localDeclaration []) Reader.localDeclaration ts := by
  refine byHead (·.isKeyword "static") ts ?_ ?_
  · intro hstatic
    refine (varDeclaration_offers.mono fun t us ht => .plainLocal ht).congr ?_
    intro us hus
    exact Reader.localDeclaration_of_not_static (eat?_eq_none (hus ▸ hstatic))
  · rintro static rest rfl hstatic
    rw [Token.isKeyword_iff] at hstatic
    refine .takes (fun us _ => Reader.localDeclaration_static ((Token.isKeyword_iff _ _).2 hstatic) us) ?_
    refine .token ⟨[sampleKeyword "int", sampleName, sampleSymbol ";"], _, .staticLocal hstatic
      isType_sampleInt (.lastDeclarator derives_sampleDeclarator) (oneOf_sampleSymbol ";")⟩ ?_
    intro type behind _ htype
    refine declarators_parses.map ?_
    rintro inits us ⟨used, semicolon, hus, hsemicolon, hlist⟩
    rw [List.nil_append] at hus
    rw [hus]
    exact .staticLocal hstatic ((isTypeName_iff type).1 htype) hlist hsemicolon

theorem localDeclarations_parses {ts : List Token} :
    Parses (fun decls us => Derives .localDeclarations us decls) Reader.localDeclarations ts := by
  rw [Reader.localDeclarations_eq]
  refine localDeclaration_offers.bind ?_ (.ok .noLocals) ?_
  · intro first used hfirst
    exact ⟨[], [first], .locals hfirst .noLocals⟩
  · intro first used rest hts hread hfirst
    have hlt := Reader.erase?_shorter hread
    exact localDeclarations_parses.map fun more us hmore => .locals hfirst hmore
termination_by ts.length

/-! Parameters. -/

theorem parameter_parses : Parses (Finishes .parameter []) Reader.parameter ts := by
  rw [Reader.parameter_eq]
  refine .token ⟨[sampleName], _, .scalarParameter rfl⟩ ?_
  intro name rest _ hname
  rw [Token.isIdentifier_iff] at hname
  refine .next (fun _ => .ok (.scalarParameter hname)) ?_
  intro opening behind _ hopen
  refine .lastToken (sampleSymbol "]") (isSymbol_sampleSymbol "]") ?_
  intro closing hclose
  exact .arrayParameter hname ((Token.isSymbol_iff _ _).1 hopen) ((Token.isSymbol_iff _ _).1 hclose)

theorem parameterList_parses {ts : List Token} :
    Parses (fun ids us => Derives .parameterList us ids) Reader.parameterList ts := by
  rw [Reader.parameterList_eq]
  have hlast : ∀ id used, Finishes .parameter [] id used → Derives .parameterList (used ++ []) [id] := by
    intro id used hid
    rw [List.append_nil]
    exact .lastParameter hid
  refine parameter_parses.bind (fun id used hid => ⟨[], _, hlast id used hid⟩) ?_
  intro id used rest hts _ hid
  refine .next (fun _ => .ok (hlast id used hid)) ?_
  intro comma behind hrest hcomma
  have hlt := Nat.lt_of_lt_of_le (length_of_cons hrest) (length_of_append hts)
  exact parameterList_parses.map fun more us hmore =>
    .parameter hid ((Token.isSymbol_iff _ _).1 hcomma) hmore
termination_by ts.length

theorem parameterGroup_parses : Parses (Finishes .parameterGroup []) Reader.parameterGroup ts := by
  rw [Reader.parameterGroup_eq]
  refine .token ⟨[sampleKeyword "int", sampleName], _,
    .parameterGroup isType_sampleInt (.lastParameter (.scalarParameter rfl))⟩ ?_
  intro type rest _ htype
  exact parameterList_parses.map fun ids us hids => .parameterGroup ((isTypeName_iff type).1 htype) hids

theorem parameterGroups_parses {ts : List Token} :
    Parses (fun groups us => Derives .parameterGroups us groups) Reader.parameterGroups ts := by
  rw [Reader.parameterGroups_eq]
  have hlast : ∀ group used, Finishes .parameterGroup [] group used →
      Derives .parameterGroups (used ++ []) [group] := by
    intro group used hgroup
    rw [List.append_nil]
    exact .lastGroup hgroup
  refine parameterGroup_parses.bind (fun group used hgroup => ⟨[], _, hlast group used hgroup⟩) ?_
  intro group used rest hts _ hgroup
  refine .next (fun _ => .ok (hlast group used hgroup)) ?_
  intro semicolon behind hrest hsemicolon
  have hlt := Nat.lt_of_lt_of_le (length_of_cons hrest) (length_of_append hts)
  exact parameterGroups_parses.map fun more us hmore =>
    .group hgroup ((Token.isSymbol_iff _ _).1 hsemicolon) hmore
termination_by ts.length

theorem parameters_parses : Parses (Finishes .parameters []) Reader.parameters ts := by
  refine byHead (·.isSymbol ")") ts ?_ ?_
  · intro hhead
    have hgroups : Parses (Finishes .parameters []) (do
        let groups ← Reader.parameterGroups
        return .inner .parms groups) ts :=
      parameterGroups_parses.map fun groups us hgroups => .parameters hgroups
    refine Decides.congr ?_ hgroups
    intro us hus
    exact Reader.parameters_of_not_close (eat?_eq_none (hus ▸ hhead))
  · rintro close rest rfl hclose
    refine @Decides.reads _ _ _ _ _ [] (close :: rest) .noParameters ?_
    intro tail htail
    obtain ⟨us, rfl⟩ := List.head?_eq_some_iff.1 htail
    exact Reader.parameters_of_close hclose

/-! Statements. -/

theorem rangeStep_parses {toWord : Token} {us vs : List Token} {start stop : Tree}
    (hstart : Derives (.chain .or) us [start]) (hto : toWord.OneOf .keyword ["to"])
    (hstop : Derives (.chain .or) vs [stop]) :
    Parses (fun step more => Derives .range (us ++ toWord :: vs ++ more)
      [.inner .iterRange (start :: stop :: step)]) Reader.rangeStep ts := by
  rw [Reader.rangeStep_eq]
  refine .next (fun _ => .ok ?_) ?_
  · rw [List.append_nil]
    exact .rangeTo hstart hto hstop
  · intro word rest _ hby
    refine ((simpleExpression_offers rest).must (begins_chain .or)).map ?_
    intro step more hstep
    exact .rangeBy hstart hto hstop ((Token.isKeyword_iff _ _).1 hby) hstep

theorem rangeEnd_parses {us : List Token} {start : Tree} (hstart : Derives (.chain .or) us [start]) :
    Parses (fun bounds more => Derives .range (us ++ more) [.inner .iterRange (start :: bounds)])
      Reader.rangeEnd ts := by
  rw [Reader.rangeEnd_eq]
  refine .next (fun _ => .ok ?_) ?_
  · rw [List.append_nil]
    exact .rangeStart hstart
  · intro word rest _ hto
    rw [Token.isKeyword_iff] at hto
    refine ((simpleExpression_offers rest).must (begins_chain .or)).bind ?_ ?_
    · intro stop used hstop
      refine ⟨[], [stop], ?_⟩
      rw [List.append_nil]
      exact .rangeTo hstart hto hstop
    · intro stop used behind _ _ hstop
      refine (rangeStep_parses hstart hto hstop).map ?_
      intro step more hrange
      simpa using hrange

theorem range_parses : Parses (Finishes .range []) Reader.range ts := by
  rw [Reader.range_eq]
  refine ((simpleExpression_offers ts).must (begins_chain .or)).bind ?_ ?_
  · intro start used hstart
    refine ⟨[], .inner .iterRange [start], ?_⟩
    rw [List.append_nil]
    exact .rangeStart hstart
  · intro start used rest _ _ hstart
    exact (rangeEnd_parses hstart).map fun bounds more hrange => hrange

theorem begins_statement : Begins (Finishes .statement []) [] :=
  ⟨[sampleSymbol ";"], _, .emptyStmt (oneOf_sampleSymbol ";")⟩

theorem expressionStatement_offers :
    Offers (Finishes .statement []) Reader.expressionStatement ts := by
  refine byHead (·.isSymbol ";") ts ?_ ?_
  · intro hhead
    have hvalue : Offers (Finishes .statement []) (Reader.ifSome Reader.expression fun value => do
        let semicolon ← Reader.symbol ";"
        return .marked .expStmt semicolon [value]) ts := by
      refine (expression_offers (shorter ts)).ifSome ?_
      intro t rest reader _ hreader
      refine hreader.bind ?_ ?_
      · intro value used hvalue
        exact ⟨[sampleSymbol ";"], _, .expStmt hvalue (oneOf_sampleSymbol ";")⟩
      · intro value used behind _ _ hvalue
        refine .lastToken (sampleSymbol ";") (isSymbol_sampleSymbol ";") ?_
        intro semicolon hsemicolon
        exact .expStmt hvalue ((Token.isSymbol_iff _ _).1 hsemicolon)
    refine hvalue.congr ?_
    intro us hus
    exact Reader.expressionStatement_of_not_empty (eat?_eq_none (hus ▸ hhead))
  · rintro semicolon rest rfl hsemicolon
    exact .takes (fun us _ => Reader.expressionStatement_empty hsemicolon us)
      (.ok (.emptyStmt ((Token.isSymbol_iff _ _).1 hsemicolon)))

theorem returnTail_parses {word : Token} (hword : word.OneOf .keyword ["return"]) :
    Parses (Finishes .statement [word]) (Reader.returnTail word) ts := by
  rw [Reader.returnTail_eq]
  refine .next ?_ ?_
  · intro _
    refine ((expression_offers (shorter ts)).must begins_expression).bind ?_ ?_
    · intro value used hvalue
      exact ⟨[sampleSymbol ";"], _, .returnValue hword hvalue (oneOf_sampleSymbol ";")⟩
    · intro value used rest _ _ hvalue
      refine .lastToken (sampleSymbol ";") (isSymbol_sampleSymbol ";") ?_
      intro semicolon hsemicolon
      exact .returnValue hword hvalue ((Token.isSymbol_iff _ _).1 hsemicolon)
  · intro semicolon rest _ hsemicolon
    exact .ok (.returnPlain hword ((Token.isSymbol_iff _ _).1 hsemicolon))

/-- A statement that was read ends open only where no `else` follows. -/
theorem statement_open {t : Tree} {rest : List Token}
    (h : Reader.must .statement Reader.statement ts = .ok (t, rest)) (hopen : endsOpen t = true) :
    ∀ next, rest.head? = some next → next.isKeyword "else" = false := by
  have hread : erase? ts (statement false ts) = .ok (some t, rest) := Reader.must_eq_ok h
  cases hfound : statement false ts with
  | error u => rw [hfound] at hread; cases hread
  | ok found =>
    rw [hfound] at hread
    cases found with
    | none => cases hread
    | some r =>
      cases hread
      exact (statement_reads hfound).2 hopen

theorem elseBranch_parses {word thenWord : Token} {us vs : List Token} {test yes : Tree}
    (hword : word.OneOf .keyword ["if"]) (htest : Derives (.chain .or) us [test])
    (hthen : thenWord.OneOf .keyword ["then"]) (hyes : Derives .statement vs [yes])
    (hopen : endsOpen yes = true → ∀ next, ts.head? = some next → next.isKeyword "else" = false)
    (h : ∀ us : List Token, us.length < ts.length → Offers (Finishes .statement []) Reader.statement us) :
    Parses (fun no more => Derives .statement (word :: us ++ thenWord :: vs ++ more)
      [.marked .ifStmt word (test :: yes :: no)]) Reader.elseBranch ts := by
  rw [Reader.elseBranch_eq]
  refine .next (fun _ => .ok ?_) ?_
  · rw [List.append_nil]
    exact .ifThen hword htest hthen hyes
  · rintro elseWord rest rfl helse
    have hclosed : endsOpen yes = false := by
      apply Bool.eq_false_iff.2
      intro hcontra
      rw [hopen hcontra elseWord rfl] at helse
      cases helse
    refine ((h rest (Nat.lt_succ_self _)).must begins_statement).map ?_
    intro no more hno
    exact .ifElse hword htest hthen hyes hclosed ((Token.isKeyword_iff _ _).1 helse) hno

def UpToBrace (stmts : List Tree) (us : List Token) : Prop :=
  ∃ used closing, us = used ++ [closing] ∧ closing.OneOf .symbol ["\x7d"] ∧ Derives .statements used stmts

theorem statements_parses {ts : List Token}
    (h : ∀ us : List Token, us.length ≤ ts.length → Offers (Finishes .statement []) Reader.statement us) :
    Parses UpToBrace Reader.statements ts := by
  have hempty : UpToBrace [] [sampleSymbol "\x7d"] :=
    ⟨[], sampleSymbol "\x7d", rfl, oneOf_sampleSymbol _, .noStatements⟩
  cases ts with
  | nil =>
    refine @Decides.stops _ _ _ _ ⟨.text "\x7d", none⟩ [] [] rfl ⟨_, _, hempty⟩ ?_
    intro tail htail
    obtain rfl : tail = [] := List.head?_eq_none_iff.1 htail
    exact Reader.statements_nil
  | cons first rest =>
    have hbody : Parses UpToBrace Reader.statementsBody (first :: rest) := by
      refine .next ?_ ?_
      · intro _
        refine ((h (first :: rest) (Nat.le_refl _)).must begins_statement).bind ?_ ?_
        · intro next used hnext
          refine ⟨[sampleSymbol "\x7d"], [next], used, _, rfl, oneOf_sampleSymbol _, ?_⟩
          have hone := Derives.statements hnext .noStatements
          rwa [List.append_nil] at hone
        · intro next used left _ hread hnext
          have hlt := Reader.erase?_shorter (Reader.must_eq_ok hread)
          have hmore : Parses UpToBrace Reader.statements left :=
            statements_parses fun us hus => h us (by omega)
          refine hmore.map ?_
          rintro more _ ⟨us, closing, rfl, hclose, hstmts⟩
          exact ⟨used ++ us, closing, (List.append_assoc ..).symm, hclose, .statements hnext hstmts⟩
      · intro closing left _ hclose
        exact .ok ⟨[], closing, rfl, (Token.isSymbol_iff _ _).1 hclose, .noStatements⟩
    refine Decides.congr ?_ hbody
    intro us hus
    obtain ⟨us, rfl⟩ := List.head?_eq_some_iff.1 hus
    exact Reader.statements_cons first us
termination_by ts.length

theorem blockTail_parses {brace : Token} (hbrace : brace.OneOf .symbol ["\x7b"])
    (h : ∀ us : List Token, us.length ≤ ts.length → Offers (Finishes .statement []) Reader.statement us) :
    Parses (Finishes .block [brace]) (Reader.blockTail brace) ts := by
  rw [Reader.blockTail_eq]
  refine localDeclarations_parses.bind ?_ ?_
  · intro decls used hdecls
    refine ⟨[sampleSymbol "\x7d"], .marked .compoundStmt brace (decls ++ []), ?_⟩
    have hblock := Derives.block hbrace hdecls .noStatements (oneOf_sampleSymbol "\x7d")
    rwa [List.append_nil] at hblock
  · intro decls used rest hts _ hdecls
    have hle := length_of_append hts
    refine (statements_parses fun us hus => h us (by omega)).map ?_
    rintro stmts _ ⟨us, closing, rfl, hclose, hstmts⟩
    have hblock := Derives.block hbrace hdecls hstmts hclose
    simpa [Finishes] using hblock

theorem ifStatement_parses {word : Token} (hword : word.OneOf .keyword ["if"])
    (h : ∀ us : List Token, us.length ≤ ts.length → Offers (Finishes .statement []) Reader.statement us) :
    Parses (Finishes .statement [word]) (do
      let condition ← Reader.must .condition (Reader.chain .or)
      let _ ← Reader.keyword "then"
      let yes ← Reader.must .statement Reader.statement
      let no ← Reader.elseBranch
      return .marked .ifStmt word (condition :: yes :: no)) ts := by
  have hempty := Derives.emptyStmt (oneOf_sampleSymbol ";")
  refine ((simpleExpression_offers ts).must (begins_chain .or)).bind ?_ ?_
  · intro test used htest
    exact ⟨[sampleKeyword "then", sampleSymbol ";"], _,
      .ifThen hword htest (oneOf_sampleKeyword "then") hempty⟩
  intro test used rest hts _ htest
  have hle := length_of_append hts
  refine .token ⟨[sampleKeyword "then", sampleSymbol ";"], _,
    .ifThen hword htest (oneOf_sampleKeyword "then") hempty⟩ ?_
  intro thenWord behind hrest hthen
  rw [Token.isKeyword_iff] at hthen
  have hlt := length_of_cons hrest
  refine ((h behind (by omega)).must begins_statement).bind ?_ ?_
  · intro yes used' hyes
    refine ⟨[], .marked .ifStmt word [test, yes], ?_⟩
    rw [List.append_nil]
    exact .ifThen hword htest hthen hyes
  · intro yes used' left hleft hread hyes
    have hle' := length_of_append hleft
    refine (elseBranch_parses hword htest hthen hyes (statement_open hread) ?_).map ?_
    · intro us hus
      exact h us (by omega)
    · intro no more hstatement
      simpa [Finishes] using hstatement

theorem whileStatement_parses {word : Token} (hword : word.OneOf .keyword ["while"])
    (h : ∀ us : List Token, us.length ≤ ts.length → Offers (Finishes .statement []) Reader.statement us) :
    Parses (Finishes .statement [word]) (do
      let condition ← Reader.must .condition (Reader.chain .or)
      let _ ← Reader.keyword "do"
      let body ← Reader.must .statement Reader.statement
      return .marked .whileStmt word [condition, body]) ts := by
  have hempty := Derives.emptyStmt (oneOf_sampleSymbol ";")
  refine ((simpleExpression_offers ts).must (begins_chain .or)).bind ?_ ?_
  · intro test used htest
    exact ⟨[sampleKeyword "do", sampleSymbol ";"], _,
      .whileDo hword htest (oneOf_sampleKeyword "do") hempty⟩
  intro test used rest hts _ htest
  have hle := length_of_append hts
  refine .token ⟨[sampleKeyword "do", sampleSymbol ";"], _,
    .whileDo hword htest (oneOf_sampleKeyword "do") hempty⟩ ?_
  intro doWord behind hrest hdo
  have hlt := length_of_cons hrest
  refine ((h behind (by omega)).must begins_statement).map ?_
  intro body us hbody
  exact .whileDo hword htest ((Token.isKeyword_iff _ _).1 hdo) hbody

theorem forStatement_parses {word : Token} (hword : word.OneOf .keyword ["for"])
    (h : ∀ us : List Token, us.length ≤ ts.length → Offers (Finishes .statement []) Reader.statement us) :
    Parses (Finishes .statement [word]) (do
      let name ← Reader.identifier
      let _ ← Reader.token (.text "=") (·.isOperator ["="])
      let bounds ← Reader.range
      let _ ← Reader.keyword "do"
      let body ← Reader.must .statement Reader.statement
      return .marked .forStmt name [bounds, body]) ts := by
  have hempty := Derives.emptyStmt (oneOf_sampleSymbol ";")
  have hrange := Derives.rangeStart (derives_sampleChain .or)
  have hequals : (⟨.operator, "=", 1⟩ : Token).OneOf .operator ["="] := ⟨rfl, by decide⟩
  refine .token ⟨_, _, .forDo hword (rfl : sampleName.kind = _) hequals hrange
    (oneOf_sampleKeyword "do") hempty⟩ ?_
  intro name rest hts hname
  rw [Token.isIdentifier_iff] at hname
  refine .token ⟨_, _, .forDo hword hname hequals hrange (oneOf_sampleKeyword "do") hempty⟩ ?_
  intro equals behind hrest hequals
  rw [Token.isOperator_iff] at hequals
  refine range_parses.bind ?_ ?_
  · intro bounds used hbounds
    exact ⟨[sampleKeyword "do", sampleSymbol ";"], _,
      .forDo hword hname hequals hbounds (oneOf_sampleKeyword "do") hempty⟩
  intro bounds used left hleft _ hbounds
  refine .token ⟨[sampleKeyword "do", sampleSymbol ";"], _,
    .forDo hword hname hequals hbounds (oneOf_sampleKeyword "do") hempty⟩ ?_
  intro doWord last hlast hdo
  have hlt := length_of_cons hts
  have hlt' := length_of_cons hrest
  have hle := length_of_append hleft
  have hlt'' := length_of_cons hlast
  refine ((h last (by omega)).must begins_statement).map ?_
  intro body us hbody
  exact .forDo hword hname hequals hbounds ((Token.isKeyword_iff _ _).1 hdo) hbody

theorem breakStatement_parses {word : Token} (hword : word.OneOf .keyword ["break"]) :
    Parses (Finishes .statement [word]) (do
      let _ ← Reader.symbol ";"
      return .marked .breakStmt word []) ts := by
  refine .lastToken (sampleSymbol ";") (isSymbol_sampleSymbol ";") ?_
  intro semicolon hsemicolon
  exact .breakLoop hword ((Token.isSymbol_iff _ _).1 hsemicolon)

theorem statement_offers {ts : List Token} : Offers (Finishes .statement []) Reader.statement ts := by
  cases ts with
  | nil =>
    refine .declines ?_
    intro us hus
    obtain rfl : us = [] := List.head?_eq_none_iff.1 hus
    exact Reader.statement_nil
  | cons first rest =>
    have h : ∀ us : List Token, us.length ≤ rest.length →
        Offers (Finishes .statement []) Reader.statement us := fun us hus =>
      have hlt : us.length < (first :: rest).length := Nat.lt_succ_of_le hus
      statement_offers
    by_cases hbrace : first.isSymbol "\x7b" = true
    · have hopen := (Token.isSymbol_iff _ _).1 hbrace
      refine .takes ?_ ((blockTail_parses hopen h).mono fun t us ht => .compound ht)
      intro us _
      rw [Reader.statement_eq, if_pos hbrace]
    by_cases hif : first.isKeyword "if" = true
    · refine .takes ?_ (ifStatement_parses ((Token.isKeyword_iff _ _).1 hif) h)
      intro us _
      rw [Reader.statement_eq, if_neg hbrace, if_pos hif]
    by_cases hwhile : first.isKeyword "while" = true
    · refine .takes ?_ (whileStatement_parses ((Token.isKeyword_iff _ _).1 hwhile) h)
      intro us _
      rw [Reader.statement_eq, if_neg hbrace, if_neg hif, if_pos hwhile]
    by_cases hfor : first.isKeyword "for" = true
    · refine .takes ?_ (forStatement_parses ((Token.isKeyword_iff _ _).1 hfor) h)
      intro us _
      rw [Reader.statement_eq, if_neg hbrace, if_neg hif, if_neg hwhile, if_pos hfor]
    by_cases hreturn : first.isKeyword "return" = true
    · refine .takes ?_ (returnTail_parses ((Token.isKeyword_iff _ _).1 hreturn))
      intro us _
      rw [Reader.statement_eq, if_neg hbrace, if_neg hif, if_neg hwhile, if_neg hfor, if_pos hreturn]
    by_cases hbreak : first.isKeyword "break" = true
    · refine .takes ?_ (breakStatement_parses ((Token.isKeyword_iff _ _).1 hbreak))
      intro us _
      rw [Reader.statement_eq, if_neg hbrace, if_neg hif, if_neg hwhile, if_neg hfor, if_neg hreturn,
        if_pos hbreak]
    refine expressionStatement_offers.congr ?_
    intro us hus
    obtain ⟨us, rfl⟩ := List.head?_eq_some_iff.1 hus
    rw [Reader.statement_eq, if_neg hbrace, if_neg hif, if_neg hwhile, if_neg hfor, if_neg hreturn,
      if_neg hbreak]
termination_by ts.length

theorem block_offers : Offers (Finishes .block []) Reader.block ts := by
  refine byHead (·.isSymbol "\x7b") ts ?_ ?_
  · intro hhead
    exact .declines fun us hus => Reader.block_declines (eat?_eq_none (hus ▸ hhead))
  · rintro brace rest rfl hbrace
    exact .takes (fun us _ => Reader.block_takes hbrace us)
      (blockTail_parses ((Token.isSymbol_iff _ _).1 hbrace) fun us _ => statement_offers)

/-! Functions and programs. -/

theorem derives_sampleBlock : Derives .block [sampleSymbol "\x7b", sampleSymbol "\x7d"]
    [.marked .compoundStmt (sampleSymbol "\x7b") ([] ++ [])] :=
  .block (oneOf_sampleSymbol _) .noLocals .noStatements (oneOf_sampleSymbol _)

/-- The tokens `before` may introduce a function, with the node `result` for its result type. -/
def Introduces (before : List Token) (result : List Tree) : Prop :=
  ∀ {name opening closing : Token} {us vs : List Token} {parms body : Tree}, name.kind = .identifier →
    opening.OneOf .symbol ["("] → Derives .parameters us [parms] → closing.OneOf .symbol [")"] →
    Derives .block vs [body] →
    Derives .declaration (before ++ name :: opening :: (us ++ closing :: vs))
      [.marked .funDecl name (result ++ [parms, body])]

theorem introduces_nothing : Introduces [] [] := by
  intro name opening closing us vs parms body hname hopen hparms hclose hbody
  exact .routine (.procedure hname hopen hparms hclose hbody)

theorem introduces_type {type : Token} (htype : type.IsType) :
    Introduces [type] [.marked .typeSpec type []] := by
  intro name opening closing us vs parms body hname hopen hparms hclose hbody
  exact .routine (.function htype hname hopen hparms hclose hbody)

theorem functionRest_parses {before : List Token} {result : List Tree} {name : Token}
    (hbefore : Introduces before result) (hname : name.kind = .identifier) :
    Parses (Finishes .declaration (before ++ [name])) (Reader.functionRest result name) ts := by
  have hfinish : ∀ {opening closing : Token} {us vs : List Token} {parms body : Tree},
      opening.OneOf .symbol ["("] → Derives .parameters us [parms] → closing.OneOf .symbol [")"] →
      Derives .block vs [body] → Finishes .declaration (before ++ [name])
        (.marked .funDecl name (result ++ [parms, body])) (opening :: (us ++ closing :: vs)) := by
    intro opening closing us vs parms body hopen hparms hclose hbody
    rw [Finishes, List.append_assoc]
    exact hbefore hname hopen hparms hclose hbody
  refine .token ⟨_, _, hfinish (oneOf_sampleSymbol "(") .noParameters (oneOf_sampleSymbol ")")
    derives_sampleBlock⟩ ?_
  intro opening rest _ hopen
  rw [Token.isSymbol_iff] at hopen
  refine parameters_parses.bind ?_ ?_
  · intro parms used hparms
    exact ⟨_, _, hfinish hopen hparms (oneOf_sampleSymbol ")") derives_sampleBlock⟩
  intro parms used behind _ _ hparms
  refine .token ⟨_, _, hfinish hopen hparms (oneOf_sampleSymbol ")") derives_sampleBlock⟩ ?_
  intro closing last _ hclose
  refine (block_offers.must ⟨_, _, derives_sampleBlock⟩).map ?_
  intro body us hbody
  exact hfinish hopen hparms ((Token.isSymbol_iff _ _).1 hclose) hbody

theorem declarationRest_parses {type : Token} (htype : type.IsType) :
    Parses (Finishes .declaration [type]) (Reader.declarationRest type) ts := by
  refine byHead Token.isIdentifier ts ?_ ?_
  · intro hhead
    have hlist : Parses (Finishes .declaration [type]) (do
        let inits ← Reader.declarators
        return .inner .varDecl (.marked .typeSpec type [] :: inits)) ts :=
      declarators_parses.map fun inits us hinits => .globals (hinits.variableDeclaration htype)
    refine Decides.congr ?_ hlist
    intro us hus
    rw [Reader.declarationRest, startsCall_of_head (hus ▸ hhead), if_neg Bool.false_ne_true]
  · rintro name rest rfl hname
    have hkind := (Token.isIdentifier_iff name).1 hname
    by_cases hcall : startsCall (name :: rest) = true
    · refine Decides.cons ?_ (functionRest_parses (introduces_type htype) hkind)
      intro us hus
      rw [Reader.declarationRest, if_pos ((startsCall_congr hus).trans hcall)]
      exact Reader.functionTail_name hname _ us
    · rw [Bool.not_eq_true] at hcall
      have hlist : Parses (Finishes .declaration [type, name]) (do
          let inits ← Reader.declaredNameRest name >>= Reader.declaratorRest >>= Reader.declaratorsRest
          return .inner .varDecl (.marked .typeSpec type [] :: inits)) rest := by
        refine (declaratorsRest_parses (declaratorRest_parses (declaredNameRest_parses hkind))
          fun us _ => declarators_parses).map ?_
        intro inits us hinits
        exact .globals (hinits.variableDeclaration htype)
      refine Decides.cons ?_ hlist
      intro us hus
      rw [Reader.declarationRest, (startsCall_congr hus).trans hcall, if_neg Bool.false_ne_true,
        Reader.bind_apply, Reader.declarators_name hname]
      rfl

/-- A declaration shows by its first token, unless that is a name. -/
theorem declaration_offers (h : ∀ name ∈ ts.head?, name.isIdentifier = true → startsCall ts = true) :
    Offers (Finishes .declaration []) Reader.declaration ts := by
  refine byHead isTypeName ts (fun htype => byHead Token.isIdentifier ts (fun hname => ?_) ?_) ?_
  · refine .declines ?_
    intro us hus
    rw [Reader.declaration_untyped (eat?_eq_none (hus ▸ htype)), startsCall_of_head (hus ▸ hname),
      if_neg Bool.false_ne_true]
  · rintro name rest rfl hname
    have hread : Parses (Finishes .declaration [name]) (Reader.functionRest [] name) rest :=
      functionRest_parses introduces_nothing ((Token.isIdentifier_iff name).1 hname)
    refine .takes ?_ hread
    intro us hus
    have hcall := (startsCall_congr hus).trans (h name rfl hname)
    have hnotType : eat? isTypeName (name :: us) = none := eat?_eq_none htype
    rw [Reader.declaration_untyped hnotType, if_pos hcall, Reader.map_apply, Reader.map_apply,
      Reader.functionTail_name hname]
  · rintro type rest rfl htype
    exact .takes (fun us _ => Reader.declaration_typed htype us)
      (declarationRest_parses ((isTypeName_iff type).1 htype))

theorem derives_sampleDeclaration : ∃ t, Derives .declaration
    [sampleKeyword "int", sampleName, sampleSymbol ";"] [t] :=
  ⟨_, .globals (.variableDeclaration isType_sampleInt (.lastDeclarator derives_sampleDeclarator)
    (oneOf_sampleSymbol ";"))⟩

def BeginsProgram (ts : List Token) : Prop :=
  ∃ more t, Derives .program (ts ++ more) [t]

theorem beginsProgram_of_declaration {ts more : List Token} {t : Tree}
    (h : Derives .declaration (ts ++ more) [t]) : BeginsProgram ts :=
  ⟨more, _, .program (.lastDeclaration h)⟩

theorem BeginsProgram.behind {first ts : List Token} {t : Tree} (h : BeginsProgram ts)
    (hfirst : Derives .declaration first [t]) : BeginsProgram (first ++ ts) := by
  obtain ⟨more, program, hprogram⟩ := h
  cases hprogram with
  | @program _ decls list =>
    refine ⟨more, .inner .program (t :: decls), .program ?_⟩
    rw [List.append_assoc]
    exact .declaration hfirst list

theorem beginsProgram_name {name : Token} (hname : name.kind = .identifier) : BeginsProgram [name] :=
  beginsProgram_of_declaration (introduces_nothing hname (oneOf_sampleSymbol "(") .noParameters
    (oneOf_sampleSymbol ")") derives_sampleBlock)

def AtDeclaration (used : List Token) : Prop :=
  used = [] ∨ ∃ decls, Derives .declarations used decls

theorem AtDeclaration.behind {first used : List Token} {t : Tree} (h : AtDeclaration used)
    (hfirst : Derives .declaration first [t]) : AtDeclaration (first ++ used) := by
  refine .inr ?_
  rcases h with rfl | ⟨decls, hdecls⟩
  · rw [List.append_nil]
    exact ⟨[t], .lastDeclaration hfirst⟩
  · exact ⟨t :: decls, .declaration hfirst hdecls⟩

/-- The declarations of a source fail behind the tokens `used`: where no program goes on, or before a
name that no parenthesis follows. -/
inductive Stops (u : Unexpected) : List Token → Prop where
  | offending {used rest : List Token} (found : u.found = rest.head?) (viable : BeginsProgram used)
      (run : ∀ tail : List Token, tail.head? = rest.head? → declarations false (used ++ tail) = .error u) :
      Stops u (used ++ rest)
  | strayName {used rest : List Token} {name : Token} (found : u.found = some name)
      (complete : AtDeclaration used) (viable : BeginsProgram used) (isName : name.kind = .identifier)
      (goesOn : BeginsProgram (used ++ [name])) (notCall : startsCall (name :: rest) = false) :
      Stops u (used ++ name :: rest)

theorem Stops.behind {u : Unexpected} {used rest : List Token} {t : Tree} (h : Stops u rest)
    (hfirst : Derives .declaration used [t])
    (hrun : ∀ tail : List Token, tail.head? = rest.head? →
      Reader.must .declaration Reader.declaration (used ++ tail) = .ok (t, tail)) : Stops u (used ++ rest) := by
  cases h with
  | @offending more rest found viable run =>
    rw [← List.append_assoc]
    refine .offending found (viable.behind hfirst) ?_
    intro tail htail
    rw [List.append_assoc, Reader.declarations_of_ok (hrun _ (head?_append_congr htail more)),
      run tail htail]
    rfl
  | @strayName more rest name found complete viable isName goesOn notCall =>
    rw [← List.append_assoc]
    refine .strayName found (complete.behind hfirst) (viable.behind hfirst) isName ?_ notCall
    rw [List.append_assoc]
    exact goesOn.behind hfirst

/-- A name that no parenthesis follows begins no declaration for the reader. -/
theorem declarations_strayName {name : Token} {rest : List Token} (hname : name.kind = .identifier)
    (hcall : startsCall (name :: rest) = false) :
    declarations false (name :: rest) = .error ⟨.declaration, some name⟩ := by
  have htype : eat? isTypeName (name :: rest) = none := by
    refine eat?_eq_none ?_
    rintro _ ⟨⟩
    simp [isTypeName, hname]
  have hdeclines : Reader.declaration (name :: rest) = .ok (none, name :: rest) := by
    rw [Reader.declaration_untyped htype, hcall, if_neg Bool.false_ne_true]
  refine Reader.declarations_of_error (List.cons_ne_nil _ _) ?_
  rw [Reader.must, Reader.bind_of_ok hdeclines]
  rfl

theorem declarations_stop {ts : List Token} {u : Unexpected} (h : declarations false ts = .error u) :
    Stops u ts := by
  obtain ⟨sample, hsample⟩ := derives_sampleDeclaration
  have hne : ts ≠ [] := by
    rintro rfl
    rw [declarations] at h
    cases h
  by_cases hshows : ∀ name ∈ ts.head?, name.isIdentifier = true → startsCall ts = true
  · have hparses : Parses (Finishes .declaration []) (Reader.must .declaration Reader.declaration) ts :=
      (declaration_offers hshows).must ⟨_, sample, hsample⟩
    cases hparses with
    | @reads t used rest value run =>
      have hread := run rest rfl
      have hlt := Reader.erase?_shorter (Reader.must_eq_ok hread)
      rw [Reader.declarations_of_ok hread] at h
      cases hrest : declarations false rest with
      | ok decls =>
        rw [hrest] at h
        cases h
      | error v =>
        rw [hrest] at h
        cases h
        exact (declarations_stop hrest).behind value run
    | @stops v used rest found viable run =>
      rw [Reader.declarations_of_error hne (run rest rfl)] at h
      cases h
      obtain ⟨more, t, ht⟩ := viable
      refine .offending found (beginsProgram_of_declaration ht) ?_
      intro tail htail
      refine Reader.declarations_of_error ?_ (run tail htail)
      intro hnil
      have hhead := head?_append_congr htail used
      rw [hnil] at hhead
      exact hne (List.head?_eq_none_iff.1 hhead.symm)
  · cases ts with
    | nil => exact absurd rfl hne
    | cons name rest =>
      obtain ⟨hname, hcall⟩ : name.isIdentifier = true ∧ startsCall (name :: rest) = false := by
        simpa using hshows
      have hkind := (Token.isIdentifier_iff name).1 hname
      rw [declarations_strayName hkind hcall] at h
      cases h
      exact @Stops.strayName _ [] rest name rfl (.inl rfl) (beginsProgram_of_declaration hsample) hkind
        (beginsProgram_name hkind) hcall
termination_by ts.length

theorem not_derives_of_error {ts : List Token} {u : Unexpected} {t : Tree}
    (h : declarations false ts = .error u) : ¬Derives .program ts [t] := by
  intro hprogram
  cases hprogram with
  | program list =>
    rw [declarations_of_derives list rfl] at h
    cases h

/-- The tokens `ts` are not yet a program, but a program begins with them. -/
def EndsEarly (ts : List Token) : Prop :=
  ∃ more t, more ≠ [] ∧ Derives .program (ts ++ more) [t]

/-- Behind whole declarations there is a name at `i` that no opening parenthesis follows. -/
def StrayName (ts : List Token) (i : Nat) : Prop :=
  AtDeclaration (ts.take i) ∧ (∃ name, ts[i]? = some name ∧ name.kind = .identifier) ∧
    ∀ next, ts[i + 1]? = some next → ¬next.OneOf .symbol ["("]

/-- No program goes on with the token at `i`, except with a name that is found too early. -/
def Offends (ts : List Token) (i : Nat) : Prop :=
  BeginsProgram (ts.take i) ∧
    (¬BeginsProgram (ts.take (i + 1)) ∨ StrayName ts i ∧ BeginsProgram (ts.take (i + 1)))

theorem offends_of_dead {used rest : List Token} {t : Token} {u : Unexpected} (viable : BeginsProgram used)
    (run : ∀ tail : List Token, tail.head? = some t → declarations false (used ++ tail) = .error u) :
    Offends (used ++ t :: rest) used.length := by
  have htake : (used ++ t :: rest).take (used.length + 1) = used ++ [t] := List.take_length_add_append 1
  rw [Offends, List.take_left, htake]
  refine ⟨viable, .inl ?_⟩
  rintro ⟨more, tree, htree⟩
  rw [List.append_assoc] at htree
  exact not_derives_of_error (run (t :: more) rfl) htree

theorem offends_of_stray {used rest : List Token} {name : Token} (complete : AtDeclaration used)
    (viable : BeginsProgram used) (isName : name.kind = .identifier) (goesOn : BeginsProgram (used ++ [name]))
    (notCall : startsCall (name :: rest) = false) : Offends (used ++ name :: rest) used.length := by
  have htake : (used ++ name :: rest).take (used.length + 1) = used ++ [name] :=
    List.take_length_add_append 1
  have hnext : (used ++ name :: rest)[used.length + 1]? = rest.head? := by
    rw [List.getElem?_append_right (Nat.le_add_right _ 1), Nat.add_sub_cancel_left, List.getElem?_cons_succ,
      List.head?_eq_getElem?]
  rw [Offends, StrayName, List.take_left, htake, hnext]
  refine ⟨viable, .inr ⟨⟨complete, ⟨name, by simp, isName⟩, ?_⟩, goesOn⟩⟩
  intro paren hparen hopen
  obtain ⟨behind, rfl⟩ := List.head?_eq_some_iff.1 hparen
  rw [startsCall_of_name isName hopen] at notCall
  cases notCall

theorem program_stop {ts : List Token} {u : Unexpected} (h : program false ts = .error u) :
    (u.found = none ∧ EndsEarly ts) ∨ ∃ i t, u.found = some t ∧ ts[i]? = some t ∧ Offends ts i := by
  obtain ⟨sample, hsample⟩ := derives_sampleDeclaration
  rw [program] at h
  cases hread : declarations false ts with
  | ok decls =>
    rw [hread] at h
    rcases declarations_reads hread with ⟨rfl, rfl⟩ | hdecls
    · cases h
      exact .inl ⟨rfl, _, _, List.cons_ne_nil _ _, .program (.lastDeclaration hsample)⟩
    · cases hdecls <;> cases h
  | error v =>
    rw [hread] at h
    cases h
    cases declarations_stop hread with
    | @offending used rest found viable run =>
      cases rest with
      | nil =>
        obtain ⟨more, t, ht⟩ := viable
        refine .inl ⟨found, more, t, ?_, by rwa [List.append_nil]⟩
        rintro rfl
        exact not_derives_of_error hread ht
      | cons t rest => exact .inr ⟨used.length, t, found, by simp, offends_of_dead viable run⟩
    | @strayName used rest name found complete viable isName goesOn notCall =>
      exact .inr ⟨used.length, name, found, by simp,
        offends_of_stray complete viable isName goesOn notCall⟩

theorem lastLine_eq (source : String) : lastLine source = max 1 (Text.lines source.toList).length := by
  unfold lastLine
  cases (Text.lines source.toList).length with
  | zero => rfl
  | succ count => exact (Nat.max_eq_right (Nat.le_add_left 1 count)).symm

/-- A syntax error names the first token with which no program goes on, or the end of input if there is
none. Only a name at the top of a source is blamed although a function might begin with it. -/
theorem syntax_error_names_first_offending_token {source : String} {d : Diagnostic}
    (h : parse source = .error d) : ∃ expected got line, d = .unexpected expected got line ∧
      ((got = "end of input" ∧ line = max 1 (Text.lines source.toList).length ∧
          EndsEarly (tokenize source)) ∨
        ∃ i t, (tokenize source)[i]? = some t ∧ got = s!"'{t.lexeme}'" ∧ line = t.line ∧
          Offends (tokenize source) i) := by
  have hplain : parse source = parseWith false source :=
    (Memo.parse_eq true source).symm.trans (Memo.parse_eq false source)
  rw [hplain, parseWith] at h
  cases hread : program false (tokenize source) with
  | ok tree =>
    rw [hread] at h
    cases h
  | error u =>
    rw [hread] at h
    cases h
    rcases program_stop hread with ⟨hfound, hends⟩ | ⟨i, t, hfound, ht, hoffends⟩
    · refine ⟨u.expected.describe, _, _, by rw [Unexpected.diagnostic, hfound], .inl ?_⟩
      exact ⟨rfl, lastLine_eq source, hends⟩
    · refine ⟨u.expected.describe, _, _, by rw [Unexpected.diagnostic, hfound], .inr ?_⟩
      exact ⟨i, t, ht, rfl, rfl, hoffends⟩

theorem syntax_error_in_assignment :
    parse "main ( ) \x7b\n  x = ;\n\x7d" = .error (.unexpected "expression" "';'" 2) ∧
      ∃ i t, (tokenize "main ( ) \x7b\n  x = ;\n\x7d")[i]? = some t ∧ "';'" = s!"'{t.lexeme}'" ∧
        2 = t.line ∧ Offends (tokenize "main ( ) \x7b\n  x = ;\n\x7d") i := by
  -- equality of trees is not decidable, equality of diagnostics is
  have hdiagnostic : (match parse "main ( ) \x7b\n  x = ;\n\x7d" with
      | .error d => some d
      | .ok _ => none) = some (.unexpected "expression" "';'" 2) := by decide +kernel
  have herror : parse "main ( ) \x7b\n  x = ;\n\x7d" = .error (.unexpected "expression" "';'" 2) := by
    split at hdiagnostic
    next d hparse =>
      cases hdiagnostic
      exact hparse
    next => cases hdiagnostic
  refine ⟨herror, ?_⟩
  obtain ⟨expected, got, line, hd, hcase⟩ := syntax_error_names_first_offending_token herror
  cases hd
  rcases hcase with ⟨hgot, -, -⟩ | hoffends
  · exact absurd hgot (by decide)
  · exact hoffends

end Grammar

end StackCompiler
