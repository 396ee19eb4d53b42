import StackCompiler.Proofs.Grammar.ExpressionReaders

/-!
The productions of declarations, statements and functions as readers.
-/

set_option autoImplicit false
namespace StackCompiler.Grammar.Reader

theorem erase_simple (ts : List Token) : erase? ts (simpleExpression false ts) = chain .or ts :=
  rfl

/-! Declarations of variables. -/

def declaredName : Reader Tree := fun ts =>
  erase (Grammar.declaredName ts)

def declarator : Reader Tree := fun ts =>
  erase (Grammar.declarator false ts)

def declarators : Reader (List Tree) := fun ts =>
  erase (Grammar.declarators false ts)

def varDeclaration : Reader (Option Tree) := fun ts =>
  erase? ts (Grammar.varDeclaration false ts)

def localDeclaration : Reader (Option Tree) := fun ts =>
  erase? ts (Grammar.localDeclaration false ts)

def localDeclarations : Reader (List Tree) := fun ts =>
  erase (Grammar.localDeclarations false ts)

def declaredNameRest (name : Token) : Reader Tree := do
  match ← next? (·.isSymbol "[") with
  | none => return .marked .varDeclId name []
  | some _ =>
    let length ← token .arrayLength (·.kind == .number)
    let _ ← symbol "]"
    return .marked .varDeclId name [.marked .constant length []]

theorem declaredName_eq : declaredName = identifier >>= declaredNameRest := by
  funext ts
  change erase (Grammar.declaredName ts) = _
  rw [Grammar.declaredName]
  refine erase_bind (erase_expect _ _ _) ?_
  intro name
  rw [declaredNameRest]
  cases h : eat? (·.isSymbol "[") name.rest with
  | none =>
    rw [bind_of_ok (next?_of_none h)]
    rfl
  | some bracket =>
    rw [bind_of_ok (next?_of_some h)]
    refine erase_bind (erase_expect _ _ _) ?_
    intro length
    exact erase_bind (erase_expect _ _ _) fun close => rfl

def declaratorRest (name : Tree) : Reader Tree := do
  match ← next? (·.isSymbol ":") with
  | none => return .inner .varDeclInit [name]
  | some _ =>
    let init ← must .initializer (chain .or)
    return .inner .varDeclInit [name, init]

theorem declarator_eq : declarator = declaredName >>= declaratorRest := by
  funext ts
  change erase (Grammar.declarator false ts) = _
  rw [Grammar.declarator]
  refine erase_bind rfl ?_
  intro name
  rw [declaratorRest]
  cases h : eat? (·.isSymbol ":") name.rest with
  | none =>
    rw [bind_of_ok (next?_of_none h)]
    rfl
  | some colon =>
    rw [bind_of_ok (next?_of_some h)]
    exact erase_bind (erase_required _ (erase_simple _)) fun init => rfl

def declaratorsRest (first : Tree) : Reader (List Tree) := do
  match ← next? (·.isSymbol ",") with
  | some _ =>
    let more ← declarators
    return first :: more
  | none =>
    let _ ← symbol ";"
    return [first]

theorem declarators_eq : declarators = declarator >>= declaratorsRest := by
  funext ts
  change erase (Grammar.declarators false ts) = _
  rw [Grammar.declarators]
  refine erase_bind rfl ?_
  intro first
  rw [declaratorsRest]
  cases h : eat? (·.isSymbol ",") first.rest with
  | none =>
    rw [bind_of_ok (next?_of_none h)]
    exact erase_bind (erase_expect _ _ _) fun close => rfl
  | some comma =>
    rw [bind_of_ok (next?_of_some h)]
    exact erase_bind rfl fun more => rfl

theorem varDeclaration_takes {type : Token} (h : isTypeName type = true) (ts : List Token) :
    varDeclaration (type :: ts) = (some <$> do
      let inits ← declarators
      return .inner .varDecl (.marked .typeSpec type [] :: inits) : Reader (Option Tree)) ts := by
  change erase? (type :: ts) (Grammar.varDeclaration false (type :: ts)) = _
  rw [Grammar.varDeclaration, eat?_cons h]
  simp only [map_bind, map_pure]
  exact erase?_bind rfl fun list => rfl

theorem varDeclaration_declines {ts : List Token} (h : eat? isTypeName ts = none) :
    varDeclaration ts = .ok (none, ts) := by
  change erase? ts (Grammar.varDeclaration false ts) = _
  rw [Grammar.varDeclaration, h]
  rfl

theorem localDeclaration_static {static : Token} (h : static.isKeyword "static" = true)
    (ts : List Token) : localDeclaration (static :: ts) = (some <$> do
      let type ← token .typeName isTypeName
      let inits ← declarators
      return .inner .varDecl (.marked .static static [] :: .marked .typeSpec type [] :: inits) :
        Reader (Option Tree)) ts := by
  change erase? (static :: ts) (Grammar.localDeclaration false (static :: ts)) = _
  rw [Grammar.localDeclaration, eat?_cons h]
  simp only [map_bind, map_pure]
  refine erase?_bind (erase_expect _ _ _) ?_
  intro type
  exact erase?_bind rfl fun list => rfl

theorem localDeclaration_of_not_static {ts : List Token}
    (h : eat? (·.isKeyword "static") ts = none) : localDeclaration ts = varDeclaration ts := by
  change erase? ts (Grammar.localDeclaration false ts) = _
  rw [Grammar.localDeclaration, h]
  rfl

theorem localDeclarations_eq : localDeclarations = (do
    match ← localDeclaration with
    | none => return []
    | some first =>
      let more ← localDeclarations
      return first :: more) := by
  funext ts
  change erase (Grammar.localDeclarations false ts) = _
  rw [Grammar.localDeclarations]
  refine erase_bindOutcome rfl rfl ?_
  intro first
  exact erase_bind rfl fun more => rfl

/-! Parameters. -/

def parameter : Reader Tree := fun ts =>
  erase (Grammar.parameter ts)

def parameterList : Reader (List Tree) := fun ts =>
  erase (Grammar.parameterList ts)

def parameterGroup : Reader Tree := fun ts =>
  erase (Grammar.parameterGroup ts)

def parameterGroups : Reader (List Tree) := fun ts =>
  erase (Grammar.parameterGroups ts)

def parameters : Reader Tree := fun ts =>
  erase (Grammar.parameters ts)

theorem parameter_eq : parameter = (do
    let name ← identifier
    match ← next? (·.isSymbol "[") with
    | none => return .marked .parmId name []
    | some bracket =>
      let _ ← symbol "]"
      return .marked .parmId name [.marked .arrayMarker bracket []]) := by
  funext ts
  change erase (Grammar.parameter ts) = _
  rw [Grammar.parameter]
  refine erase_bind (erase_expect _ _ _) ?_
  intro name
  cases h : eat? (·.isSymbol "[") name.rest with
  | none =>
    rw [bind_of_ok (next?_of_none h)]
    rfl
  | some bracket =>
    rw [bind_of_ok (next?_of_some h)]
    exact erase_bind (erase_expect _ _ _) fun close => rfl

theorem parameterList_eq : parameterList = (do
    let first ← parameter
    match ← next? (·.isSymbol ",") with
    | none => return [first]
    | some _ =>
      let more ← parameterList
      return first :: more) := by
  funext ts
  change erase (Grammar.parameterList ts) = _
  rw [Grammar.parameterList]
  refine erase_bind rfl ?_
  intro first
  cases h : eat? (·.isSymbol ",") first.rest with
  | none =>
    rw [bind_of_ok (next?_of_none h)]
    rfl
  | some comma =>
    rw [bind_of_ok (next?_of_some h)]
    exact erase_bind rfl fun more => rfl

theorem parameterGroup_eq : parameterGroup = (do
    let type ← token .parameterType isTypeName
    let names ← parameterList
    return .inner .parmTypeList (.marked .typeSpec type [] :: names)) := by
  funext ts
  change erase (Grammar.parameterGroup ts) = _
  rw [Grammar.parameterGroup]
  refine erase_bind (erase_expect _ _ _) ?_
  intro type
  exact erase_bind rfl fun names => rfl

theorem parameterGroups_eq : parameterGroups = (do
    let first ← parameterGroup
    match ← next? (·.isSymbol ";") with
    | none => return [first]
    | some _ =>
      let more ← parameterGroups
      return first :: more) := by
  funext ts
  change erase (Grammar.parameterGroups ts) = _
  rw [Grammar.parameterGroups]
  refine erase_bind rfl ?_
  intro first
  cases h : eat? (·.isSymbol ";") first.rest with
  | none =>
    rw [bind_of_ok (next?_of_none h)]
    rfl
  | some semicolon =>
    rw [bind_of_ok (next?_of_some h)]
    exact erase_bind rfl fun more => rfl

/-- Whether there are parameters shows by the closing parenthesis, which is not taken. -/
theorem parameters_of_close {ts : List Token} {close : Token} (h : close.isSymbol ")" = true) :
    parameters (close :: ts) = .ok (.inner .parms [], close :: ts) := by
  change erase (Grammar.parameters (close :: ts)) = _
  rw [Grammar.parameters, eat?_cons h]
  rfl

theorem parameters_of_not_close {ts : List Token} (h : eat? (·.isSymbol ")") ts = none) :
    parameters ts = (do
      let groups ← parameterGroups
      return .inner .parms groups : Reader Tree) ts := by
  change erase (Grammar.parameters ts) = _
  rw [Grammar.parameters, h]
  exact erase_bind rfl fun groups => rfl

/-! Statements. -/

def rangeStep : Reader (List Tree) := fun ts =>
  erase (Grammar.rangeStep false ts)

def rangeEnd : Reader (List Tree) := fun ts =>
  erase (Grammar.rangeEnd false ts)

def range : Reader Tree := fun ts =>
  erase (Grammar.range false ts)

def expressionStatement : Reader (Option Tree) := fun ts =>
  erase? ts (Grammar.expressionStatement false ts)

def returnTail (word : Token) : Reader Tree := fun ts =>
  erase (Grammar.returnTail false word ts)

def statement : Reader (Option Tree) := fun ts =>
  erase? ts (Grammar.statement false ts)

def elseBranch : Reader (List Tree) := fun ts =>
  erase (Grammar.elseBranch false ts)

def blockTail (brace : Token) : Reader Tree := fun ts =>
  erase (Grammar.blockTail false brace ts)

def statements : Reader (List Tree) := fun ts =>
  erase (Grammar.statements false ts)

def block : Reader (Option Tree) := fun ts =>
  erase? ts (Grammar.block false ts)

theorem rangeStep_eq : rangeStep = (do
    match ← next? (·.isKeyword "by") with
    | none => return []
    | some _ =>
      let step ← must .rangeStep (chain .or)
      return [step]) := by
  funext ts
  change erase (Grammar.rangeStep false ts) = _
  rw [Grammar.rangeStep]
  cases h : eat? (·.isKeyword "by") ts with
  | none =>
    rw [bind_of_ok (next?_of_none h)]
    rfl
  | some word =>
    rw [bind_of_ok (next?_of_some h)]
    exact erase_bind (erase_required _ (erase_simple _)) fun step => rfl

theorem rangeEnd_eq : rangeEnd = (do
    match ← next? (·.isKeyword "to") with
    | none => return []
    | some _ =>
      let stop ← must .rangeEnd (chain .or)
      let step ← rangeStep
      return stop :: step) := by
  funext ts
  change erase (Grammar.rangeEnd false ts) = _
  rw [Grammar.rangeEnd]
  cases h : eat? (·.isKeyword "to") ts with
  | none =>
    rw [bind_of_ok (next?_of_none h)]
    rfl
  | some word =>
    rw [bind_of_ok (next?_of_some h)]
    refine erase_bind (erase_required _ (erase_simple _)) ?_
    intro stop
    exact erase_bind rfl fun step => rfl

theorem range_eq : range = (do
    let start ← must .rangeStart (chain .or)
    let more ← rangeEnd
    return .inner .iterRange (start :: more)) := by
  funext ts
  change erase (Grammar.range false ts) = _
  rw [Grammar.range]
  refine erase_bind (erase_required _ (erase_simple _)) ?_
  intro start
  exact erase_bind rfl fun more => rfl

theorem expressionStatement_empty {semicolon : Token} (h : semicolon.isSymbol ";" = true)
    (ts : List Token) : expressionStatement (semicolon :: ts) =
      (some <$> pure (.marked .expStmt semicolon []) : Reader (Option Tree)) ts := by
  change erase? (semicolon :: ts) (Grammar.expressionStatement false (semicolon :: ts)) = _
  rw [Grammar.expressionStatement, eat?_cons h]
  rfl

theorem expressionStatement_of_not_empty {ts : List Token} (h : eat? (·.isSymbol ";") ts = none) :
    expressionStatement ts = ifSome expression (fun value => do
      let semicolon ← symbol ";"
      return .marked .expStmt semicolon [value]) ts := by
  change erase? ts (Grammar.expressionStatement false ts) = _
  rw [Grammar.expressionStatement, h]
  refine erase?_bindOutcome rfl rfl ?_
  intro value
  simp only [map_bind, map_pure]
  exact erase?_bind (erase_expect _ _ _) fun semicolon => rfl

theorem returnTail_eq (word : Token) : returnTail word = (do
    match ← next? (·.isSymbol ";") with
    | some _ => return .marked .returnStmt word []
    | none =>
      let value ← must .expression expression
      let _ ← symbol ";"
      return .marked .returnStmt word [value]) := by
  funext ts
  change erase (Grammar.returnTail false word ts) = _
  rw [Grammar.returnTail]
  cases h : eat? (·.isSymbol ";") ts with
  | none =>
    rw [bind_of_ok (next?_of_none h)]
    refine erase_bind (erase_required _ rfl) ?_
    intro value
    exact erase_bind (erase_expect _ _ _) fun semicolon => rfl
  | some semicolon =>
    rw [bind_of_ok (next?_of_some h)]
    rfl

theorem statement_eq (first : Token) (ts : List Token) : statement (first :: ts) =
    if first.isSymbol "\x7b" then (some <$> blockTail first) ts
    else if first.isKeyword "if" then (some <$> do
      let condition ← must .condition (chain .or)
      let _ ← keyword "then"
      let yes ← must .statement statement
      let no ← elseBranch
      return .marked .ifStmt first (condition :: yes :: no) : Reader (Option Tree)) ts
    else if first.isKeyword "while" then (some <$> do
      let condition ← must .condition (chain .or)
      let _ ← keyword "do"
      let body ← must .statement statement
      return .marked .whileStmt first [condition, body] : Reader (Option Tree)) ts
    else if first.isKeyword "for" then (some <$> do
      let name ← identifier
      let _ ← token (.text "=") (·.isOperator ["="])
      let bounds ← range
      let _ ← keyword "do"
      let body ← must .statement statement
      return .marked .forStmt name [bounds, body] : Reader (Option Tree)) ts
    else if first.isKeyword "return" then (some <$> returnTail first) ts
    else if first.isKeyword "break" then (some <$> do
      let _ ← symbol ";"
      return .marked .breakStmt first [] : Reader (Option Tree)) ts
    else expressionStatement (first :: ts) := by
  change erase? (first :: ts) (Grammar.statement false (first :: ts)) = _
  rw [Grammar.statement.eq_def]
  dsimp only
  simp only [map_bind, map_pure]
  by_cases hbrace : first.isSymbol "\x7b" = true
  · rw [if_pos hbrace, if_pos hbrace]
    exact erase?_some rfl fun body => ⟨rfl, rfl⟩
  rw [if_neg hbrace, if_neg hbrace]
  by_cases hif : first.isKeyword "if" = true
  · rw [if_pos hif, if_pos hif]
    refine erase?_bind (erase_required _ (erase_simple _)) ?_
    intro condition
    refine erase?_bind (erase_expect _ _ _) ?_
    intro word
    refine erase?_bind (erase_required _ rfl) ?_
    intro yes
    exact erase?_bind rfl fun no => rfl
  rw [if_neg hif, if_neg hif]
  by_cases hwhile : first.isKeyword "while" = true
  · rw [if_pos hwhile, if_pos hwhile]
    refine erase?_bind (erase_required _ (erase_simple _)) ?_
    intro condition
    refine erase?_bind (erase_expect _ _ _) ?_
    intro word
    exact erase?_bind (erase_required _ rfl) fun body => rfl
  rw [if_neg hwhile, if_neg hwhile]
  by_cases hfor : first.isKeyword "for" = true
  · rw [if_pos hfor, if_pos hfor]
    refine erase?_bind (erase_expect _ _ _) ?_
    intro name
    refine erase?_bind (erase_expect _ _ _) ?_
    intro equals
    refine erase?_bind rfl ?_
    intro bounds
    refine erase?_bind (erase_expect _ _ _) ?_
    intro word
    exact erase?_bind (erase_required _ rfl) fun body => rfl
  rw [if_neg hfor, if_neg hfor]
  by_cases hreturn : first.isKeyword "return" = true
  · rw [if_pos hreturn, if_pos hreturn]
    exact erase?_some rfl fun tail => ⟨rfl, rfl⟩
  rw [if_neg hreturn, if_neg hreturn]
  by_cases hbreak : first.isKeyword "break" = true
  · rw [if_pos hbreak, if_pos hbreak]
    exact erase?_bind (erase_expect _ _ _) fun semicolon => rfl
  rw [if_neg hbreak, if_neg hbreak]
  rfl

theorem statement_nil : statement [] = .ok (none, []) := by
  change erase? [] (Grammar.statement false []) = _
  rw [Grammar.statement.eq_def]
  rfl

theorem elseBranch_eq : elseBranch = (do
    match ← next? (·.isKeyword "else") with
    | none => return []
    | some _ =>
      let no ← must .statement statement
      return [no]) := by
  funext ts
  change erase (Grammar.elseBranch false ts) = _
  rw [Grammar.elseBranch]
  cases h : eat? (·.isKeyword "else") ts with
  | none =>
    rw [bind_of_ok (next?_of_none h)]
    rfl
  | some word =>
    rw [bind_of_ok (next?_of_some h)]
    exact erase_bind (erase_required _ rfl) fun no => rfl

theorem blockTail_eq (brace : Token) : blockTail brace = (do
    let decls ← localDeclarations
    let stmts ← statements
    return .marked .compoundStmt brace (decls ++ stmts)) := by
  funext ts
  change erase (Grammar.blockTail false brace ts) = _
  rw [Grammar.blockTail]
  refine erase_bind rfl ?_
  intro decls
  exact erase_bind rfl fun body => rfl

/-- The end of input is missed as the closing brace, before a statement is looked for. -/
theorem statements_nil : statements [] = .error ⟨.text "\x7d", none⟩ := by
  change erase (Grammar.statements false []) = _
  rw [Grammar.statements.eq_def]
  rfl

def statementsBody : Reader (List Tree) := do
  match ← next? (·.isSymbol "\x7d") with
  | some _ => return []
  | none =>
    let next ← must .statement statement
    let more ← statements
    return next :: more

theorem statements_cons (first : Token) (ts : List Token) :
    statements (first :: ts) = statementsBody (first :: ts) := by
  change erase (Grammar.statements false (first :: ts)) = _
  rw [Grammar.statements.eq_def, statementsBody]
  dsimp only
  by_cases hbrace : first.isSymbol "\x7d" = true
  · rw [if_pos hbrace, bind_of_ok (next?_of_some (eat?_cons hbrace ts))]
    rfl
  · have hnone : eat? (·.isSymbol "\x7d") (first :: ts) = none := by
      refine eat?_eq_none ?_
      rintro _ ⟨⟩
      exact Bool.eq_false_iff.2 hbrace
    rw [if_neg hbrace, bind_of_ok (next?_of_none hnone)]
    refine erase_bind (erase_required _ rfl) ?_
    intro next
    exact erase_bind rfl fun more => rfl

theorem block_takes {brace : Token} (h : brace.isSymbol "\x7b" = true) (ts : List Token) :
    block (brace :: ts) = (some <$> blockTail brace) ts := by
  change erase? (brace :: ts) (Grammar.block false (brace :: ts)) = _
  rw [Grammar.block, eat?_cons h]
  exact erase?_some rfl fun tail => ⟨rfl, rfl⟩

theorem block_declines {ts : List Token} (h : eat? (·.isSymbol "\x7b") ts = none) :
    block ts = .ok (none, ts) := by
  change erase? ts (Grammar.block false ts) = _
  rw [Grammar.block, h]
  rfl

/-! Functions and the declarations of a program. -/

def functionTail (result : List Tree) : Reader Tree := fun ts =>
  erase (Grammar.functionTail false result ts)

def declaration : Reader (Option Tree) := fun ts =>
  erase? ts (Grammar.declaration false ts)

def functionRest (result : List Tree) (name : Token) : Reader Tree := do
  let _ ← symbol "("
  let parms ← parameters
  let _ ← symbol ")"
  let body ← must (.text "\x7b") block
  return .marked .funDecl name (result ++ [parms, body])

theorem functionTail_eq (result : List Tree) :
    functionTail result = identifier >>= functionRest result := by
  funext ts
  change erase (Grammar.functionTail false result ts) = _
  rw [Grammar.functionTail]
  refine erase_bind (erase_expect _ _ _) ?_
  intro name
  refine erase_bind (erase_expect _ _ _) ?_
  intro paren
  refine erase_bind rfl ?_
  intro parms
  refine erase_bind (erase_expect _ _ _) ?_
  intro close
  exact erase_bind (erase_required _ rfl) fun body => rfl

theorem functionTail_name {name : Token} (h : name.isIdentifier = true) (result : List Tree)
    (ts : List Token) : functionTail result (name :: ts) = functionRest result name ts := by
  rw [functionTail_eq, bind_of_ok (token_cons h .identifier ts)]

theorem declarators_name {name : Token} (h : name.isIdentifier = true) (ts : List Token) :
    declarators (name :: ts) = (declaredNameRest name >>= declaratorRest >>= declaratorsRest) ts := by
  rw [declarators_eq, declarator_eq, declaredName_eq]
  simp only [bind_assoc]
  exact bind_of_ok (token_cons h .identifier ts) _

def declarationRest (type : Token) : Reader Tree := fun ts =>
  if startsCall ts then
    functionTail [.marked .typeSpec type []] ts
  else
    (do
      let inits ← declarators
      return .inner .varDecl (.marked .typeSpec type [] :: inits) : Reader Tree) ts

theorem declaration_typed {type : Token} (h : isTypeName type = true) (ts : List Token) :
    declaration (type :: ts) = (some <$> declarationRest type) ts := by
  have hcases := map_apply some (declarationRest type) ts
  change erase? (type :: ts) (Grammar.declaration false (type :: ts)) = _
  rw [Grammar.declaration, eat?_cons h, hcases, declarationRest]
  dsimp only [Read.nothing]
  by_cases hcall : startsCall ts = true
  · rw [if_pos hcall, if_pos hcall, ← map_apply]
    exact erase?_some rfl fun tail => ⟨rfl, rfl⟩
  · rw [if_neg hcall, if_neg hcall, ← map_apply]
    exact varDeclaration_takes h ts

theorem declaration_untyped {ts : List Token} (h : eat? isTypeName ts = none) :
    declaration ts = if startsCall ts then (some <$> functionTail []) ts else .ok (none, ts) := by
  change erase? ts (Grammar.declaration false ts) = _
  rw [Grammar.declaration, h]
  dsimp only
  by_cases hcall : startsCall ts = true
  · rw [if_pos hcall, if_pos hcall]
    exact erase?_some rfl fun tail => ⟨rfl, rfl⟩
  · rw [if_neg hcall, if_neg hcall]
    rfl

theorem declarations_of_error {ts : List Token} {u : Unexpected} (hne : ts ≠ [])
    (h : must .declaration declaration ts = .error u) : Grammar.declarations false ts = .error u := by
  have hfirst : erase (required .declaration ts (Grammar.declaration false ts)) = .error u :=
    (erase_required _ rfl).trans h
  rw [Grammar.declarations, if_neg (mt List.isEmpty_iff.1 hne)]
  cases hread : required .declaration ts (Grammar.declaration false ts) with
  | error v =>
    rw [hread] at hfirst
    cases hfirst
    rfl
  | ok first =>
    rw [hread] at hfirst
    cases hfirst

theorem declarations_of_ok {ts rest : List Token} {t : Tree}
    (h : must .declaration declaration ts = .ok (t, rest)) :
    Grammar.declarations false ts = (t :: ·) <$> Grammar.declarations false rest := by
  have hne : ts ≠ [] := by
    rintro rfl
    exact absurd (erase?_shorter (must_eq_ok h)) (Nat.not_lt_zero _)
  have hfirst : erase (required .declaration ts (Grammar.declaration false ts)) = .ok (t, rest) :=
    (erase_required _ rfl).trans h
  rw [Grammar.declarations, if_neg (mt List.isEmpty_iff.1 hne)]
  cases hread : required .declaration ts (Grammar.declaration false ts) with
  | error v =>
    rw [hread] at hfirst
    cases hfirst
  | ok first =>
    rw [hread] at hfirst
    cases hfirst
    rw [ok_bind, bind_pure_comp]

end StackCompiler.Grammar.Reader
