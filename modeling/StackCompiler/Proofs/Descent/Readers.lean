import StackCompiler.Proofs.Descent.Productions
import StackCompiler.Proofs.Grammar.ProgramReaders

/-!
What each production of the descent answers, as a reader.

Most answers are those of the production of the same name. The alternatives of statements, factors and
functions answer as the phrase they are an alternative of, where that phrase has their form.
-/

set_option autoImplicit false
namespace StackCompiler.Grammar

namespace Reader

open Descent (Production Shape)

variable {α β : Type}

def attempt (reader : Reader (Option α)) : Reader (Option α) := fun ts =>
  match reader ts with
  | .ok (some a, rest) => .ok (some a, rest)
  | .ok (none, _) => .ok (none, ts)
  | .error u => .error u

def firstOf : List (Reader (Option Tree)) → Reader (Option Tree)
  | [] => pure none
  | reader :: more => do
    match ← attempt reader with
    | some t => return some t
    | none => firstOf more

def opening (p : Token → Bool) (rest : Token → Reader Tree) : Reader (Option Tree) := do
  match ← next? p with
  | none => return none
  | some t => some <$> rest t

def onlyIf (form : List Token → Bool) (reader : Reader (Option Tree)) : Reader (Option Tree) := fun ts =>
  if form ts then reader ts else .ok (none, ts)

def starts (p : Token → Bool) (ts : List Token) : Bool :=
  ts.head?.any p

def startsFunction (ts : List Token) : Bool :=
  if starts isTypeName ts then startsCall ts.tail else startsCall ts

theorem attempt_of_some {reader : Reader (Option α)} {ts rest : List Token} {a : α}
    (h : reader ts = .ok (some a, rest)) : attempt reader ts = .ok (some a, rest) := by
  rw [attempt, h]

theorem attempt_of_none {reader : Reader (Option α)} {ts rest : List Token}
    (h : reader ts = .ok (none, rest)) : attempt reader ts = .ok (none, ts) := by
  rw [attempt, h]

theorem attempt_of_error {reader : Reader (Option α)} {ts : List Token} {u : Unexpected}
    (h : reader ts = .error u) : attempt reader ts = .error u := by
  rw [attempt, h]

/-- There is nothing to put back behind a reader that declines without having read anything. -/
theorem attempt_of_clean {reader : Reader (Option α)} {ts : List Token}
    (h : ∀ rest, reader ts = .ok (none, rest) → rest = ts) : attempt reader ts = reader ts := by
  rcases hread : reader ts with u | ⟨found, rest⟩
  · exact attempt_of_error hread
  · cases found with
    | some a => exact attempt_of_some hread
    | none =>
      obtain rfl := h rest hread
      exact attempt_of_none hread

theorem attempt_takes {reader : Reader (Option α)} {taken : Reader α} {ts us : List Token}
    (h : reader ts = (some <$> taken) us) : attempt reader ts = (some <$> taken) us := by
  refine (attempt_of_clean ?_).trans h
  intro rest hread
  rw [h, map_apply] at hread
  rcases htaken : taken us with u | result
  · rw [htaken] at hread
    cases hread
  · rw [htaken] at hread
    cases hread

theorem erase?_declines {ts rest : List Token} {o : Outcome ts.length}
    (h : erase? ts o = .ok (none, rest)) : rest = ts := by
  rcases o with u | found
  · cases h
  · cases found with
    | none =>
      cases h
      rfl
    | some r => cases h

theorem attempt_erase? {reader : Reader (Option Tree)} {ts : List Token} {o : Outcome ts.length}
    (h : reader ts = erase? ts o) : attempt reader ts = reader ts :=
  attempt_of_clean fun _ hread => erase?_declines (h.symm.trans hread)

theorem firstOf_takes {reader : Reader (Option Tree)} {taken : Reader Tree} {ts us : List Token}
    (h : reader ts = (some <$> taken) us) (more : List (Reader (Option Tree))) :
    firstOf (reader :: more) ts = (some <$> taken) us := by
  rw [firstOf, bind_of_takes (attempt_takes h), map_eq_pure_bind]

theorem firstOf_of_none {reader : Reader (Option Tree)} {ts rest : List Token}
    (h : reader ts = .ok (none, rest)) (more : List (Reader (Option Tree))) :
    firstOf (reader :: more) ts = firstOf more ts := by
  rw [firstOf, bind_of_ok (attempt_of_none h)]

theorem firstOf_of_some {reader : Reader (Option Tree)} {ts rest : List Token} {t : Tree}
    (h : reader ts = .ok (some t, rest)) (more : List (Reader (Option Tree))) :
    firstOf (reader :: more) ts = .ok (some t, rest) := by
  rw [firstOf, bind_of_ok (attempt_of_some h)]
  rfl

theorem firstOf_of_error {reader : Reader (Option Tree)} {ts : List Token} {u : Unexpected}
    (h : reader ts = .error u) (more : List (Reader (Option Tree))) :
    firstOf (reader :: more) ts = .error u := by
  rw [firstOf, bind_of_error (attempt_of_error h)]

theorem firstOf_last {reader : Reader (Option Tree)} {ts : List Token} {o : Outcome ts.length}
    (h : reader ts = erase? ts o) : firstOf [reader] ts = reader ts := by
  rcases hread : reader ts with u | ⟨found, rest⟩
  · exact firstOf_of_error hread []
  · cases found with
    | some t => exact firstOf_of_some hread []
    | none =>
      obtain rfl := erase?_declines (h.symm.trans hread)
      exact firstOf_of_none hread []

theorem onlyIf_pos {form : List Token → Bool} {ts : List Token} (h : form ts = true)
    (reader : Reader (Option Tree)) : onlyIf form reader ts = reader ts := by
  rw [onlyIf, if_pos h]

theorem onlyIf_neg {form : List Token → Bool} {ts : List Token} (h : form ts = false)
    (reader : Reader (Option Tree)) : onlyIf form reader ts = .ok (none, ts) := by
  rw [onlyIf, h, if_neg Bool.false_ne_true]

theorem eat?_of_starts {p : Token → Bool} {ts : List Token} (h : starts p ts = false) :
    Grammar.eat? p ts = none := by
  refine eat?_eq_none ?_
  intro t ht
  rwa [starts, ht] at h

theorem eq_opening {p : Token → Bool} {rest : Token → Reader Tree} {reader : Reader (Option Tree)}
    (htakes : ∀ t ts, p t = true → reader (t :: ts) = (some <$> rest t) ts)
    (hdeclines : ∀ ts, Grammar.eat? p ts = none → reader ts = .ok (none, ts)) :
    reader = opening p rest := by
  funext ts
  refine byHead p ts ?_ ?_
  · intro hhead
    have hnone := eat?_eq_none hhead
    rw [hdeclines ts hnone, opening, bind_of_ok (next?_of_none hnone)]
    rfl
  · rintro t ts rfl ht
    rw [htakes t ts ht, opening, bind_of_ok (next?_of_some (eat?_cons ht ts))]
    rfl

theorem onlyIf_eq_opening {p : Token → Bool} {rest : Token → Reader Tree} {reader : Reader (Option Tree)}
    (htakes : ∀ t ts, p t = true → reader (t :: ts) = (some <$> rest t) ts) :
    onlyIf (starts p) reader = opening p rest := by
  refine eq_opening ?_ ?_
  · intro t ts ht
    rw [onlyIf_pos (show starts p (t :: ts) = true from ht), htakes t ts ht]
  · intro ts hnone
    refine onlyIf_neg ?_ reader
    cases ts with
    | nil => rfl
    | cons t ts =>
      by_cases ht : p t = true
      · rw [eat?_cons ht] at hnone
        cases hnone
      · exact Bool.eq_false_iff.2 ht

/-! Declarations. -/

theorem varDeclaration_eq : varDeclaration = opening isTypeName (fun type => do
    let inits ← declarators
    return .inner .varDecl (.marked .typeSpec type [] :: inits)) :=
  eq_opening (fun _ ts ht => varDeclaration_takes ht ts) fun _ => varDeclaration_declines

theorem localDeclaration_eq : localDeclaration = (do
    match ← next? (·.isKeyword "static") with
    | some static => some <$> do
      let type ← token .typeName isTypeName
      let inits ← declarators
      return .inner .varDecl (.marked .static static [] :: .marked .typeSpec type [] :: inits)
    | none => varDeclaration) := by
  funext ts
  refine byHead (·.isKeyword "static") ts ?_ ?_
  · intro hhead
    have hnone := eat?_eq_none hhead
    rw [localDeclaration_of_not_static hnone, bind_of_ok (next?_of_none hnone)]
  · rintro static ts rfl hstatic
    rw [localDeclaration_static hstatic, bind_of_ok (next?_of_some (eat?_cons hstatic ts))]
    rfl

def function : Reader (Option Tree) :=
  onlyIf startsFunction declaration

def functionBehind (result : List Tree) : Reader (Option Tree) := do
  match ← next? Token.isIdentifier with
  | none => return none
  | some name =>
    match ← next? (·.isSymbol "(") with
    | none => return none
    | some _ => some <$> do
      let parms ← parameters
      let _ ← symbol ")"
      let body ← must (.text "\x7b") block
      return .marked .funDecl name (result ++ [parms, body])

theorem startsCall_eq_true {ts : List Token} (h : startsCall ts = true) :
    ∃ name paren rest, ts = name :: paren :: rest ∧ name.isIdentifier = true ∧ paren.isSymbol "(" = true := by
  match ts, h with
  | name :: paren :: rest, h =>
    rw [startsCall, Bool.and_eq_true] at h
    exact ⟨name, paren, rest, rfl, h.1, h.2⟩

theorem startsCall_of_not_name {t : Token} (h : t.isIdentifier = false) (ts : List Token) :
    startsCall (t :: ts) = false := by
  cases ts <;> simp [startsCall, h]

theorem functionBehind_of_call {ts : List Token} (h : startsCall ts = true) (result : List Tree) :
    functionBehind result ts = (some <$> functionTail result) ts := by
  obtain ⟨name, paren, rest, rfl, hname, hparen⟩ := startsCall_eq_true h
  rw [functionBehind, bind_of_ok (next?_of_some (eat?_cons hname _)), map_apply,
    functionTail_name hname, functionRest, bind_of_ok (token_cons hparen _ _)]
  change (Reader.next? _ >>= _) (paren :: rest) = _
  rw [bind_of_ok (next?_of_some (eat?_cons hparen _)), ← map_apply]
  rfl

theorem functionBehind_of_not {ts : List Token} (h : startsCall ts = false)
    (result : List Tree) : ∃ rest, functionBehind result ts = .ok (none, rest) := by
  refine byHead Token.isIdentifier ts ?_ ?_
  · intro hhead
    refine ⟨ts, ?_⟩
    rw [functionBehind, bind_of_ok (next?_of_none (eat?_eq_none hhead))]
    rfl
  rintro name ts rfl hname
  refine ⟨ts, ?_⟩
  have hparen : Grammar.eat? (·.isSymbol "(") ts = none := by
    refine eat?_eq_none ?_
    intro paren hhead
    cases ts with
    | nil => cases hhead
    | cons first more =>
      cases hhead
      simpa [startsCall, hname] using h
  rw [functionBehind, bind_of_ok (next?_of_some (eat?_cons hname _))]
  change (Reader.next? _ >>= _) ts = _
  rw [bind_of_ok (next?_of_none hparen)]
  rfl

/-- A function as the parser looks for it: what it has not found is put back. -/
def functionBody : Reader (Option Tree) := do
  match ← next? isTypeName with
  | some type => functionBehind [.marked .typeSpec type []]
  | none => functionBehind []

theorem function_eq : function = attempt functionBody := by
  funext ts
  refine byHead isTypeName ts ?_ ?_
  · intro hhead
    have hnone := eat?_eq_none hhead
    have hstarts : startsFunction ts = startsCall ts := by
      cases ts with
      | nil => rfl
      | cons t ts => simp [startsFunction, starts, hhead t rfl]
    have hbody : functionBody ts = functionBehind [] ts := bind_of_ok (next?_of_none hnone) _
    by_cases hcall : startsCall ts = true
    · rw [function, onlyIf_pos (hstarts.trans hcall), declaration_untyped hnone, if_pos hcall,
        attempt_takes (hbody.trans (functionBehind_of_call hcall []))]
    · rw [Bool.not_eq_true] at hcall
      obtain ⟨rest, hread⟩ := functionBehind_of_not hcall []
      rw [function, onlyIf_neg (hstarts.trans hcall), attempt_of_none (hbody.trans hread)]
  · rintro type ts rfl htype
    have hstarts : startsFunction (type :: ts) = startsCall ts := by
      simp [startsFunction, starts, htype]
    have hbody : functionBody (type :: ts) = functionBehind [.marked .typeSpec type []] ts :=
      bind_of_ok (next?_of_some (eat?_cons htype ts)) _
    by_cases hcall : startsCall ts = true
    · rw [function, onlyIf_pos (hstarts.trans hcall), declaration_typed htype, map_apply, declarationRest,
        if_pos hcall, ← map_apply, attempt_takes (hbody.trans (functionBehind_of_call hcall _))]
    · rw [Bool.not_eq_true] at hcall
      obtain ⟨rest, hread⟩ := functionBehind_of_not hcall [.marked .typeSpec type []]
      rw [function, onlyIf_neg (hstarts.trans hcall), attempt_of_none (hbody.trans hread)]

theorem declaration_of_function {ts : List Token} (h : startsFunction ts = true) :
    declaration ts = function ts :=
  (onlyIf_pos h declaration).symm

theorem declaration_of_variable {type : Token} (htype : isTypeName type = true) {ts : List Token}
    (hcall : startsCall ts = false) : declaration (type :: ts) = varDeclaration (type :: ts) := by
  rw [declaration_typed htype, varDeclaration_takes htype, map_apply, declarationRest, hcall,
    if_neg Bool.false_ne_true, ← map_apply]

def declarations : Reader (List Tree) := fun ts =>
  (Grammar.declarations false ts).map (·, [])

theorem declarations_nil : declarations [] = .ok ([], []) := by
  rw [declarations, Grammar.declarations]
  rfl

theorem declarations_cons (t : Token) (ts : List Token) : declarations (t :: ts) = (do
    let first ← must .declaration declaration
    let more ← declarations
    return first :: more : Reader (List Tree)) (t :: ts) := by
  rcases hread : must .declaration declaration (t :: ts) with u | ⟨first, rest⟩
  · rw [bind_of_error hread, declarations, declarations_of_error (List.cons_ne_nil t ts) hread]
    rfl
  · rw [bind_of_ok hread, bind_apply, declarations, declarations, declarations_of_ok hread]
    cases Grammar.declarations false rest <;> rfl

def program : Reader Tree := fun ts =>
  (Grammar.program false ts).map (·, [])

theorem program_eq : program = (do
    match ← declarations with
    | [] => fail .declaration
    | list => return .inner .program list) := by
  funext ts
  rw [program, Grammar.program, bind_apply, declarations]
  cases Grammar.declarations false ts with
  | error u => rfl
  | ok list => cases list <;> rfl

/-! Statements. -/

def ifRest (word : Token) : Reader Tree := do
  let condition ← must .condition (chain .or)
  let _ ← keyword "then"
  let yes ← must .statement statement
  let no ← elseBranch
  return .marked .ifStmt word (condition :: yes :: no)

def whileRest (word : Token) : Reader Tree := do
  let condition ← must .condition (chain .or)
  let _ ← keyword "do"
  let body ← must .statement statement
  return .marked .whileStmt word [condition, body]

def forRest (_word : Token) : Reader Tree := do
  let name ← identifier
  let _ ← token (.text "=") (·.isOperator ["="])
  let bounds ← range
  let _ ← keyword "do"
  let body ← must .statement statement
  return .marked .forStmt name [bounds, body]

def breakRest (word : Token) : Reader Tree := do
  let _ ← symbol ";"
  return .marked .breakStmt word []

def keywordStatement (word : String) : Reader (Option Tree) :=
  onlyIf (starts (·.isKeyword word)) statement

theorem block_eq : block = opening (·.isSymbol "\x7b") blockTail :=
  eq_opening (fun _ ts ht => block_takes ht ts) fun _ => block_declines

theorem keyword_not_symbol {t : Token} {word : String} (h : t.isKeyword word = true) (text : String) :
    ¬ t.isSymbol text = true :=
  Bool.eq_false_iff.1 (((Token.isKeyword_iff t word).1 h).not_hasText (.inl (by decide)))

theorem keyword_ne {t : Token} {word other : String} (h : t.isKeyword word = true)
    (hne : other ≠ word) : ¬ t.isKeyword other = true :=
  Bool.eq_false_iff.1 (((Token.isKeyword_iff t word).1 h).not_hasText (.inr (by simpa using hne)))

theorem statement_if {word : Token} (h : word.isKeyword "if" = true) (ts : List Token) :
    statement (word :: ts) = (some <$> ifRest word) ts := by
  rw [statement_eq, if_neg (keyword_not_symbol h _), if_pos h]
  rfl

theorem statement_while {word : Token} (h : word.isKeyword "while" = true) (ts : List Token) :
    statement (word :: ts) = (some <$> whileRest word) ts := by
  rw [statement_eq, if_neg (keyword_not_symbol h _), if_neg (keyword_ne h (by decide)), if_pos h]
  rfl

theorem statement_for {word : Token} (h : word.isKeyword "for" = true) (ts : List Token) :
    statement (word :: ts) = (some <$> forRest word) ts := by
  rw [statement_eq, if_neg (keyword_not_symbol h _), if_neg (keyword_ne h (by decide)),
    if_neg (keyword_ne h (by decide)), if_pos h]
  rfl

theorem statement_return {word : Token} (h : word.isKeyword "return" = true) (ts : List Token) :
    statement (word :: ts) = (some <$> returnTail word) ts := by
  rw [statement_eq, if_neg (keyword_not_symbol h _), if_neg (keyword_ne h (by decide)),
    if_neg (keyword_ne h (by decide)), if_neg (keyword_ne h (by decide)), if_pos h]

theorem statement_break {word : Token} (h : word.isKeyword "break" = true) (ts : List Token) :
    statement (word :: ts) = (some <$> breakRest word) ts := by
  rw [statement_eq, if_neg (keyword_not_symbol h _), if_neg (keyword_ne h (by decide)),
    if_neg (keyword_ne h (by decide)), if_neg (keyword_ne h (by decide)),
    if_neg (keyword_ne h (by decide)), if_pos h]
  rfl

theorem chain_declines {level : Level} {ts : List Token} (h : operand level ts = .ok (none, ts)) :
    chain level ts = .ok (none, ts) := by
  rw [chain_eq]
  exact ifSome_of_none h _

/-- Nothing starts at the end of the input. -/
theorem expression_nil : expression [] = .ok (none, []) := by
  have hfactor : factor [] = .ok (none, []) := by
    rw [factor_of_not_call rfl rfl, atom, bind_of_ok (next?_of_none rfl)]
    exact location_declines rfl
  have hunary : operand .mul [] = .ok (none, []) := by
    rw [operand_mul, unary_of_not rfl, hfactor]
  have hmul : operand .sum [] = .ok (none, []) := by
    rw [operand_sum, chain_declines hunary]
  have hsum : operand .minMax [] = .ok (none, []) := by
    rw [operand_minMax, chain_declines hmul]
  have hcomparison : comparison [] = .ok (none, []) := by
    rw [comparison_eq]
    exact ifSome_of_none (chain_declines hsum) _
  have hnegation : operand .and [] = .ok (none, []) := by
    rw [operand_and, negation_of_not rfl, hcomparison]
  have hand : operand .or [] = .ok (none, []) := by
    rw [operand_or, chain_declines hnegation]
  rw [expression_of_not_identifier rfl, chain_declines hand]

theorem expressionStatement_eq : expressionStatement = (do
    match ← next? (·.isSymbol ";") with
    | some semicolon => return some (.marked .expStmt semicolon [])
    | none => ifSome expression fun value => do
      let semicolon ← symbol ";"
      return .marked .expStmt semicolon [value]) := by
  funext ts
  refine byHead (·.isSymbol ";") ts ?_ ?_
  · intro hhead
    have hnone := eat?_eq_none hhead
    rw [expressionStatement_of_not_empty hnone, bind_of_ok (next?_of_none hnone)]
  · rintro semicolon ts rfl h
    rw [expressionStatement_empty h, bind_of_ok (next?_of_some (eat?_cons h ts))]
    rfl

/-- A keyword statement is passed over where the keyword does not stand. -/
theorem firstOf_keyword {t : Token} {word : String} (h : ¬ t.isKeyword word = true) (ts : List Token)
    (more : List (Reader (Option Tree))) :
    firstOf (keywordStatement word :: more) (t :: ts) = firstOf more (t :: ts) :=
  firstOf_of_none (onlyIf_neg (Bool.eq_false_iff.2 h) _) more

theorem keywordStatement_takes {t : Token} {word : String} (h : t.isKeyword word = true) (ts : List Token) :
    keywordStatement word (t :: ts) = statement (t :: ts) :=
  onlyIf_pos h _

theorem statement_eq_firstOf : statement = firstOf [block, keywordStatement "if", keywordStatement "while",
    keywordStatement "for", keywordStatement "return", keywordStatement "break", expressionStatement] := by
  funext ts
  cases ts with
  | nil =>
    have hnone : ∀ word, keywordStatement word [] = .ok (none, []) := fun word => onlyIf_neg rfl _
    rw [firstOf_of_none (block_declines rfl)]
    iterate 5 rw [firstOf_of_none (hnone _)]
    rw [firstOf_last rfl, statement_nil, expressionStatement_of_not_empty rfl]
    exact (ifSome_of_none expression_nil _).symm
  | cons t ts =>
    by_cases hbrace : t.isSymbol "\x7b" = true
    · rw [firstOf_takes (block_takes hbrace ts), statement_eq, if_pos hbrace]
    have hblock : block (t :: ts) = .ok (none, t :: ts) :=
      block_declines (eat?_of_starts (p := (·.isSymbol "\x7b")) (Bool.eq_false_iff.2 hbrace))
    rw [firstOf_of_none hblock]
    by_cases hif : t.isKeyword "if" = true
    · have htakes := statement_if hif ts
      rw [firstOf_takes ((keywordStatement_takes hif ts).trans htakes), htakes]
    rw [firstOf_keyword hif]
    by_cases hwhile : t.isKeyword "while" = true
    · have htakes := statement_while hwhile ts
      rw [firstOf_takes ((keywordStatement_takes hwhile ts).trans htakes), htakes]
    rw [firstOf_keyword hwhile]
    by_cases hfor : t.isKeyword "for" = true
    · have htakes := statement_for hfor ts
      rw [firstOf_takes ((keywordStatement_takes hfor ts).trans htakes), htakes]
    rw [firstOf_keyword hfor]
    by_cases hreturn : t.isKeyword "return" = true
    · have htakes := statement_return hreturn ts
      rw [firstOf_takes ((keywordStatement_takes hreturn ts).trans htakes), htakes]
    rw [firstOf_keyword hreturn]
    by_cases hbreak : t.isKeyword "break" = true
    · have htakes := statement_break hbreak ts
      rw [firstOf_takes ((keywordStatement_takes hbreak ts).trans htakes), htakes]
    rw [firstOf_keyword hbreak, firstOf_last rfl, statement_eq, if_neg hbrace, if_neg hif, if_neg hwhile,
      if_neg hfor, if_neg hreturn, if_neg hbreak]

/-! Expressions. -/

def assignmentRest (target : Tree) : Reader (Option Tree) := do
  match ← next? isAssignment with
  | some op =>
    let value ← must .expression expression
    return some (.marked .assign op [target, value])
  | none =>
    match ← next? isStep with
    | some op => return some (.marked .incDec op [target])
    | none => return none

theorem assignmentRest_assign {ts : List Token} {op : Read Token ts.length}
    (h : Grammar.eat? isAssignment ts = some op) (target : Tree) :
    assignmentRest target ts = (some <$> do
      let value ← must .expression expression
      return .marked .assign op.value [target, value] : Reader (Option Tree)) op.rest := by
  rw [assignmentRest, bind_of_ok (next?_of_some h)]
  simp only [map_bind, map_pure]

theorem assignmentRest_step {ts : List Token} (h : Grammar.eat? isAssignment ts = none)
    {op : Read Token ts.length} (hstep : Grammar.eat? isStep ts = some op) (target : Tree) :
    assignmentRest target ts = .ok (some (.marked .incDec op.value [target]), op.rest) := by
  rw [assignmentRest, bind_of_ok (next?_of_none h)]
  dsimp only
  rw [bind_of_ok (next?_of_some hstep)]
  rfl

theorem assignmentRest_neither {ts : List Token} (h : Grammar.eat? isAssignment ts = none)
    (hstep : Grammar.eat? isStep ts = none) (target : Tree) :
    assignmentRest target ts = .ok (none, ts) := by
  rw [assignmentRest, bind_of_ok (next?_of_none h)]
  dsimp only
  rw [bind_of_ok (next?_of_none hstep)]
  rfl

/-- A location that is assigned to; what else starts with a location is put back. -/
def assignmentBody : Reader (Option Tree) := do
  match ← location with
  | none => return none
  | some target => assignmentRest target

def assignment : Reader (Option Tree) :=
  attempt assignmentBody

theorem expression_eq_firstOf : expression = firstOf [assignment, chain .or] := by
  funext ts
  have hlast : firstOf [chain .or] ts = chain .or ts := firstOf_last rfl
  change erase? ts (Grammar.expression false ts) = _
  rw [Grammar.expression]
  rcases hplace : Grammar.location false ts with u | found
  · have hlocation : location ts = .error u := congrArg (erase? ts) hplace
    have hbody : assignmentBody ts = .error u := bind_of_error hlocation _
    have hassignment : assignment ts = .error u := attempt_of_error hbody
    rw [firstOf_of_error hassignment]
    rfl
  cases found with
  | none =>
    have hlocation : location ts = .ok (none, ts) := congrArg (erase? ts) hplace
    have hbody : assignmentBody ts = .ok (none, ts) := bind_of_ok hlocation _
    have hassignment : assignment ts = .ok (none, ts) := attempt_of_none hbody
    rw [firstOf_of_none hassignment, hlast]
    rfl
  | some target =>
    have hlocation : location ts = .ok (some target.value, target.rest) := congrArg (erase? ts) hplace
    have hbody : assignmentBody ts = assignmentRest target.value target.rest := bind_of_ok hlocation _
    rw [ok_bind]
    dsimp only
    cases hassign : Grammar.eat? isAssignment target.rest with
    | some op =>
      have hrest := hbody.trans (assignmentRest_assign hassign target.value)
      have hassignment : assignment ts = _ := attempt_takes hrest
      rw [firstOf_takes hassignment]
      simp only [map_bind, map_pure]
      exact erase?_bind (erase_required _ rfl) fun value => rfl
    | none =>
      dsimp only
      cases hstep : Grammar.eat? isStep target.rest with
      | some op =>
        have hrest := hbody.trans (assignmentRest_step hassign hstep target.value)
        have hassignment : assignment ts = _ := attempt_of_some hrest
        rw [firstOf_of_some hassignment]
        rfl
      | none =>
        have hrest := hbody.trans (assignmentRest_neither hassign hstep target.value)
        have hassignment : assignment ts = _ := attempt_of_none hrest
        rw [firstOf_of_none hassignment, hlast]
        rfl

theorem negation_eq : negation = (do
    match ← next? isNegation with
    | none => comparison
    | some op => some <$> do
      let inner ← must (.operandAfter "not") negation
      return .marked .notExp op [inner]) := by
  funext ts
  refine byHead isNegation ts ?_ ?_
  · intro hhead
    have hnone := eat?_eq_none hhead
    rw [negation_of_not hnone, bind_of_ok (next?_of_none hnone)]
  · rintro op ts rfl hop
    rw [negation_takes hop, bind_of_ok (next?_of_some (eat?_cons hop ts))]
    rfl

theorem unary_eq : unary = (do
    match ← next? isUnary with
    | none => factor
    | some op => some <$> do
      let inner ← must (.operandAfter op.lexeme) unary
      return .marked .unaryExp op [inner]) := by
  funext ts
  refine byHead isUnary ts ?_ ?_
  · intro hhead
    have hnone := eat?_eq_none hhead
    rw [unary_of_not hnone, bind_of_ok (next?_of_none hnone)]
  · rintro op ts rfl hop
    rw [unary_takes hop, bind_of_ok (next?_of_some (eat?_cons hop ts))]
    rfl

def paren : Reader (Option Tree) :=
  onlyIf (starts (·.isSymbol "(")) factor

def parenRest (paren : Token) : Reader Tree := do
  let inner ← must .expression expression
  let _ ← symbol ")"
  return .marked .paren paren [inner]

theorem paren_eq : paren = opening (·.isSymbol "(") parenRest :=
  onlyIf_eq_opening fun _ ts ht => factor_paren ht ts

def call : Reader (Option Tree) :=
  onlyIf startsCall factor

theorem call_takes {ts : List Token} (h : startsCall ts = true) :
    call ts = (some <$> (identifier >>= callRest)) ts := by
  obtain ⟨name, paren, rest, rfl, hname, -⟩ := startsCall_eq_true h
  rw [call, onlyIf_pos h, factor_call hname h, map_apply, map_apply, bind_of_ok (token_cons hname _ _)]

def constant : Reader (Option Tree) :=
  onlyIf (starts isConstant) factor

theorem eat?_of_not {p : Token → Bool} {t : Token} (h : p t = false) (ts : List Token) :
    Grammar.eat? p (t :: ts) = none :=
  eat?_of_starts h

theorem factor_of_constant {c : Token} (h : isConstant c = true) (ts : List Token) :
    factor (c :: ts) = (some <$> pure (.marked .constant c []) : Reader (Option Tree)) ts := by
  have hname : c.isIdentifier = false := by
    rw [Bool.eq_false_iff]
    intro hname
    rw [identifier_not_constant hname] at h
    cases h
  have hparen : c.isSymbol "(" = false := by
    rw [Bool.eq_false_iff, ne_eq, Token.isSymbol_iff]
    rintro ⟨hkind, -⟩
    simp [isConstant, Token.isKeyword, Token.hasText, hkind] at h
  have hcall : startsCall (c :: ts) = false := startsCall_of_not_name hname ts
  rw [factor_of_not_call (eat?_of_not hparen ts) hcall, atom, bind_of_ok (next?_of_some (eat?_cons h ts))]
  rfl

theorem constant_eq : constant = opening isConstant fun c => pure (.marked .constant c []) :=
  onlyIf_eq_opening fun _ ts ht => factor_of_constant ht ts

theorem factor_eq_firstOf : factor = firstOf [paren, call, constant, location] := by
  funext ts
  by_cases hparen : starts (·.isSymbol "(") ts = true
  · have hfirst : paren ts = factor ts := onlyIf_pos hparen factor
    cases ts with
    | nil => cases hparen
    | cons t ts =>
      have htakes := factor_paren hparen ts
      rw [firstOf_takes (hfirst.trans htakes), htakes]
  rw [Bool.not_eq_true] at hparen
  have hfirst : paren ts = .ok (none, ts) := onlyIf_neg hparen factor
  rw [firstOf_of_none hfirst]
  by_cases hcall : startsCall ts = true
  · have hsecond : call ts = factor ts := onlyIf_pos hcall factor
    rw [firstOf_takes (call_takes hcall), ← call_takes hcall, hsecond]
  rw [Bool.not_eq_true] at hcall
  have hsecond : call ts = .ok (none, ts) := onlyIf_neg hcall factor
  rw [firstOf_of_none hsecond]
  by_cases hconstant : starts isConstant ts = true
  · have hthird : constant ts = factor ts := onlyIf_pos hconstant factor
    cases ts with
    | nil => cases hconstant
    | cons t ts =>
      have htakes := factor_of_constant hconstant ts
      rw [firstOf_takes (hthird.trans htakes), htakes]
  rw [Bool.not_eq_true] at hconstant
  have hthird : constant ts = .ok (none, ts) := onlyIf_neg hconstant factor
  rw [firstOf_of_none hthird, firstOf_last rfl, factor_of_not_call (eat?_of_starts hparen) hcall, atom,
    bind_of_ok (next?_of_none (eat?_of_starts hconstant))]

theorem location_eq : location = opening Token.isIdentifier locationRest :=
  eq_opening (fun _ ts ht => location_takes ht ts) fun _ => location_declines

theorem operand_eq (level : Level) : operand level = match level with
    | .or => chain .and
    | .and => negation
    | .minMax => chain .sum
    | .sum => chain .mul
    | .mul => unary := by
  cases level with
  | or => exact operand_or
  | and => exact operand_and
  | minMax => exact operand_minMax
  | sum => exact operand_sum
  | mul => exact operand_mul

theorem onlyIf_declines {form : List Token → Bool} {reader : Reader (Option Tree)} {ts rest : List Token}
    (h : onlyIf form reader ts = .ok (none, rest))
    (hreader : reader ts = .ok (none, rest) → rest = ts) : rest = ts := by
  by_cases hform : form ts = true
  · exact hreader ((onlyIf_pos hform reader).symm.trans h)
  · rw [onlyIf_neg (Bool.eq_false_iff.2 hform)] at h
    cases h
    rfl

theorem of_onlyIf_some {form : List Token → Bool} {reader : Reader (Option Tree)} {ts rest : List Token}
    {t : Tree} (h : onlyIf form reader ts = .ok (some t, rest)) : reader ts = .ok (some t, rest) := by
  by_cases hform : form ts = true
  · exact (onlyIf_pos hform reader).symm.trans h
  · rw [onlyIf_neg (Bool.eq_false_iff.2 hform)] at h
    cases h

theorem attempt_declines {reader : Reader (Option α)} {ts rest : List Token}
    (h : attempt reader ts = .ok (none, rest)) : rest = ts := by
  rcases hread : reader ts with u | ⟨found, behind⟩
  · rw [attempt_of_error hread] at h
    cases h
  · cases found with
    | some a =>
      rw [attempt_of_some hread] at h
      cases h
    | none =>
      rw [attempt_of_none hread] at h
      cases h
      rfl

end Reader

namespace Descent

def expected : {k : Shape} → Production k → Reader k.Result
  | _, .program => Reader.program
  | _, .declarations => Reader.declarations
  | _, .declaration => Reader.declaration
  | _, .varDeclaration => Reader.varDeclaration
  | _, .localDeclaration => Reader.localDeclaration
  | _, .localDeclarations => Reader.localDeclarations
  | _, .declarators => Reader.declarators
  | _, .declarator => Reader.declarator
  | _, .declaredName => Reader.declaredName
  | _, .function => Reader.function
  | _, .parameters => Reader.parameters
  | _, .parameterGroups => Reader.parameterGroups
  | _, .parameterGroup => Reader.parameterGroup
  | _, .parameterList => Reader.parameterList
  | _, .statement => Reader.statement
  | _, .statements => Reader.statements
  | _, .block => Reader.block
  | _, .ifStatement => Reader.keywordStatement "if"
  | _, .whileStatement => Reader.keywordStatement "while"
  | _, .forStatement => Reader.keywordStatement "for"
  | _, .returnStatement => Reader.keywordStatement "return"
  | _, .breakStatement => Reader.keywordStatement "break"
  | _, .expressionStatement => Reader.expressionStatement
  | _, .expression => Reader.expression
  | _, .assignment => Reader.assignment
  | _, .chain level => Reader.chain level
  | _, .links level => Reader.links level
  | _, .negation => Reader.negation
  | _, .comparison => Reader.comparison
  | _, .unary => Reader.unary
  | _, .factor => Reader.factor
  | _, .paren => Reader.paren
  | _, .call => Reader.call
  | _, .argumentList => Reader.argumentList
  | _, .constant => Reader.constant
  | _, .location => Reader.location

theorem expected_operand (level : Level) : expected (Bodies.operand level) = Reader.operand level := by
  rw [Reader.operand_eq]
  cases level <;> rfl

theorem expected_declines (p : Production .optional) {ts rest : List Token}
    (h : expected p ts = .ok (none, rest)) : rest = ts := by
  cases p with
  | function => exact Reader.onlyIf_declines h Reader.erase?_declines
  | ifStatement => exact Reader.onlyIf_declines h Reader.erase?_declines
  | whileStatement => exact Reader.onlyIf_declines h Reader.erase?_declines
  | forStatement => exact Reader.onlyIf_declines h Reader.erase?_declines
  | returnStatement => exact Reader.onlyIf_declines h Reader.erase?_declines
  | breakStatement => exact Reader.onlyIf_declines h Reader.erase?_declines
  | paren => exact Reader.onlyIf_declines h Reader.erase?_declines
  | call => exact Reader.onlyIf_declines h Reader.erase?_declines
  | constant => exact Reader.onlyIf_declines h Reader.erase?_declines
  | assignment => exact Reader.attempt_declines h
  | _ => exact Reader.erase?_declines h

theorem expected_shorter (p : Production .optional) {ts rest : List Token} {t : Tree}
    (h : expected p ts = .ok (some t, rest)) : rest.length < ts.length := by
  cases p with
  | function => exact Reader.erase?_shorter (Reader.of_onlyIf_some h)
  | ifStatement => exact Reader.erase?_shorter (Reader.of_onlyIf_some h)
  | whileStatement => exact Reader.erase?_shorter (Reader.of_onlyIf_some h)
  | forStatement => exact Reader.erase?_shorter (Reader.of_onlyIf_some h)
  | returnStatement => exact Reader.erase?_shorter (Reader.of_onlyIf_some h)
  | breakStatement => exact Reader.erase?_shorter (Reader.of_onlyIf_some h)
  | paren => exact Reader.erase?_shorter (Reader.of_onlyIf_some h)
  | call => exact Reader.erase?_shorter (Reader.of_onlyIf_some h)
  | constant => exact Reader.erase?_shorter (Reader.of_onlyIf_some h)
  | assignment =>
    have hread : Reader.expression ts = .ok (some t, rest) := by
      rw [Reader.expression_eq_firstOf]
      exact Reader.firstOf_of_some h _
    exact Reader.erase?_shorter hread
  | _ => exact Reader.erase?_shorter h

end Descent

end StackCompiler.Grammar
