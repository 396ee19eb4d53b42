import StackCompiler.Proofs.Grammar.ExpressionCompleteness
import StackCompiler.Proofs.Grammar.Readers

/-!
The productions of expressions as readers.

An expression that starts with a name reads the location there before it knows what to do with it, and
may have to start again. The equations here do without the second reading: what follows a location is read
on from there.
-/

set_option autoImplicit false
namespace StackCompiler.Grammar

theorem identifier_not_symbol {t : Token} (h : t.isIdentifier = true) (text : String) :
    t.isSymbol text = false := by
  simp [Token.isSymbol, Token.hasText, (Token.isIdentifier_iff t).1 h]

theorem identifier_not_constant {t : Token} (h : t.isIdentifier = true) : isConstant t = false := by
  simp [isConstant, Token.isKeyword, Token.hasText, (Token.isIdentifier_iff t).1 h]

theorem identifier_not_negation {t : Token} (h : t.isIdentifier = true) : isNegation t = false :=
  startsOperand_not_negation t (startsOperand_of_factor t (by simp [startsFactor, h]))

theorem identifier_not_unary {t : Token} (h : t.isIdentifier = true) (ts : List Token) :
    eat? isUnary (t :: ts) = none := by
  refine eat?_eq_none ?_
  rintro _ ⟨⟩
  exact startsFactor_not_unary t (by simp [startsFactor, h])

namespace Reader

def expression : Reader (Option Tree) := fun ts =>
  erase? ts (Grammar.expression false ts)

def chain (level : Level) : Reader (Option Tree) := fun ts =>
  erase? ts (Grammar.chain false level ts none)

def links (level : Level) : Reader (List Tree) := fun ts =>
  erase (chainLinks false level ts)

def operand (level : Level) : Reader (Option Tree) := fun ts =>
  erase? ts (Grammar.operand false level ts none)

def negation : Reader (Option Tree) := fun ts =>
  erase? ts (Grammar.negation false ts none)

def comparison : Reader (Option Tree) := fun ts =>
  erase? ts (Grammar.comparison false ts none)

def unary : Reader (Option Tree) := fun ts =>
  erase? ts (Grammar.unary false ts none)

def factor : Reader (Option Tree) := fun ts =>
  erase? ts (Grammar.factor false ts none)

def location : Reader (Option Tree) := fun ts =>
  erase? ts (Grammar.location false ts)

def arguments : Reader (List Tree) := fun ts =>
  erase (Grammar.arguments false ts)

def argumentList : Reader (List Tree) := fun ts =>
  erase (Grammar.argumentList false ts)

theorem links_eq (level : Level) : links level = (do
    match ← next? level.accepts with
    | none => return []
    | some op =>
      let next ← must (.operandAfter op.lexeme) (operand level)
      let more ← links level
      return .marked .operator op [] :: next :: more) := by
  funext ts
  change erase (chainLinks false level ts) = _
  rw [chainLinks]
  cases h : eat? level.accepts ts with
  | none =>
    rw [bind_of_ok (next?_of_none h)]
    rfl
  | some op =>
    rw [bind_of_ok (next?_of_some h)]
    refine erase_bind (erase_required _ rfl) ?_
    intro next
    exact erase_bind rfl fun more => rfl

def chainRest (level : Level) (first : Tree) : Reader Tree := do
  let more ← links level
  return level.chainTree first more

theorem chain_eq (level : Level) : chain level = ifSome (operand level) (chainRest level) := by
  funext ts
  change erase? ts (Grammar.chain false level ts none) = _
  rw [Grammar.chain]
  refine erase?_bindOutcome rfl rfl ?_
  intro first
  simp only [chainRest, map_bind, map_pure]
  exact erase?_bind rfl fun more => rfl

theorem operand_or : operand .or = chain .and := by
  funext ts
  exact congrArg (erase? ts) (Grammar.operand.eq_def ..)

theorem operand_and : operand .and = negation := by
  funext ts
  exact congrArg (erase? ts) (Grammar.operand.eq_def ..)

theorem operand_minMax : operand .minMax = chain .sum := by
  funext ts
  exact congrArg (erase? ts) (Grammar.operand.eq_def ..)

theorem operand_sum : operand .sum = chain .mul := by
  funext ts
  exact congrArg (erase? ts) (Grammar.operand.eq_def ..)

theorem operand_mul : operand .mul = unary := by
  funext ts
  exact congrArg (erase? ts) (Grammar.operand.eq_def ..)

def comparisonRest (left : Tree) : Reader Tree := do
  match ← next? isRelational with
  | none => return left
  | some op =>
    let right ← must (.operandAfter op.lexeme) (chain .minMax)
    return .inner .relExp [left, .marked .operator op [], right]

theorem comparison_eq : comparison = ifSome (chain .minMax) comparisonRest := by
  funext ts
  change erase? ts (Grammar.comparison false ts none) = _
  rw [Grammar.comparison]
  refine erase?_bindOutcome rfl rfl ?_
  intro left
  dsimp only
  rw [comparisonRest, map_bind]
  cases h : eat? isRelational left.rest with
  | none =>
    rw [bind_of_ok (next?_of_none h)]
    rfl
  | some op =>
    rw [bind_of_ok (next?_of_some h)]
    simp only [map_bind, map_pure]
    exact erase?_bind (erase_required _ rfl) fun right => rfl

theorem negation_of_not {ts : List Token} (h : eat? isNegation ts = none) :
    negation ts = comparison ts := by
  change erase? ts (Grammar.negation false ts none) = _
  rw [Grammar.negation, h]
  rfl

theorem negation_takes {op : Token} (h : isNegation op = true) (ts : List Token) :
    negation (op :: ts) = (some <$> do
      let inner ← must (.operandAfter "not") negation
      return .marked .notExp op [inner] : Reader (Option Tree)) ts := by
  change erase? (op :: ts) (Grammar.negation false (op :: ts) none) = _
  rw [Grammar.negation, eat?_cons h]
  simp only [map_bind, map_pure]
  exact erase?_bind (erase_required _ rfl) fun inner => rfl

theorem unary_of_not {ts : List Token} (h : eat? isUnary ts = none) : unary ts = factor ts := by
  change erase? ts (Grammar.unary false ts none) = _
  rw [Grammar.unary, h]
  rfl

theorem unary_takes {op : Token} (h : isUnary op = true) (ts : List Token) :
    unary (op :: ts) = (some <$> do
      let inner ← must (.operandAfter op.lexeme) unary
      return .marked .unaryExp op [inner] : Reader (Option Tree)) ts := by
  change erase? (op :: ts) (Grammar.unary false (op :: ts) none) = _
  rw [Grammar.unary, eat?_cons h]
  simp only [map_bind, map_pure]
  exact erase?_bind (erase_required _ rfl) fun inner => rfl

def locationRest (name : Token) : Reader Tree := do
  match ← next? (·.isSymbol "[") with
  | none => return .marked .mutable name []
  | some _ =>
    let index ← must .index expression
    let _ ← symbol "]"
    return .marked .mutable name [index]

theorem location_takes {name : Token} (h : name.isIdentifier = true) (ts : List Token) :
    location (name :: ts) = (some <$> locationRest name) ts := by
  change erase? (name :: ts) (Grammar.location false (name :: ts)) = _
  rw [Grammar.location, eat?_cons h, locationRest, map_bind]
  dsimp only [Read.nothing]
  cases hbracket : eat? (·.isSymbol "[") ts with
  | none =>
    rw [bind_of_ok (next?_of_none hbracket)]
    rfl
  | some bracket =>
    rw [bind_of_ok (next?_of_some hbracket)]
    simp only [map_bind, map_pure]
    refine erase?_bind (erase_required _ rfl) ?_
    intro index
    exact erase?_bind (erase_expect _ _ _) fun close => rfl

theorem location_declines {ts : List Token} (h : eat? Token.isIdentifier ts = none) :
    location ts = .ok (none, ts) := by
  change erase? ts (Grammar.location false ts) = _
  rw [Grammar.location, h]
  rfl

def callRest (name : Token) : Reader Tree := do
  let _ ← symbol "("
  let args ← arguments
  return .marked .call name args

theorem factor_paren {paren : Token} (h : paren.isSymbol "(" = true) (ts : List Token) :
    factor (paren :: ts) = (some <$> do
      let inner ← must .expression expression
      let _ ← symbol ")"
      return .marked .paren paren [inner] : Reader (Option Tree)) ts := by
  change erase? (paren :: ts) (Grammar.factor false (paren :: ts) none) = _
  rw [Grammar.factor.eq_def, eat?_cons h]
  simp only [map_bind, map_pure]
  refine erase?_bind (erase_required _ rfl) ?_
  intro inner
  exact erase?_bind (erase_expect _ _ _) fun close => rfl

theorem factor_call {name : Token} (hname : name.isIdentifier = true) {ts : List Token}
    (h : startsCall (name :: ts) = true) : factor (name :: ts) = (some <$> callRest name) ts := by
  have hparen : eat? (·.isSymbol "(") (name :: ts) = none := by
    refine eat?_eq_none ?_
    rintro _ ⟨⟩
    exact identifier_not_symbol hname "("
  change erase? (name :: ts) (Grammar.factor false (name :: ts) none) = _
  rw [Grammar.factor.eq_def, hparen]
  dsimp only
  rw [if_pos h, expectIdentifier_cons ((Token.isIdentifier_iff _).1 hname), ok_bind]
  simp only [callRest, map_bind, map_pure]
  refine erase?_bind (erase_expect _ _ _) ?_
  intro paren
  exact erase?_bind rfl fun args => rfl

def atom : Reader (Option Tree) := do
  match ← next? isConstant with
  | some c => return some (.marked .constant c [])
  | none => location

theorem factor_of_not_call {ts : List Token} (hparen : eat? (·.isSymbol "(") ts = none)
    (hcall : startsCall ts = false) : factor ts = atom ts := by
  change erase? ts (Grammar.factor false ts none) = _
  rw [Grammar.factor.eq_def, hparen, atom]
  dsimp only
  rw [hcall, if_neg Bool.false_ne_true]
  cases h : eat? isConstant ts with
  | none =>
    rw [bind_of_ok (next?_of_none h)]
    rfl
  | some c =>
    rw [bind_of_ok (next?_of_some h)]
    rfl

theorem arguments_eq : arguments = (do
    match ← next? (·.isSymbol ")") with
    | some _ => return []
    | none => argumentList) := by
  funext ts
  change erase (Grammar.arguments false ts) = _
  rw [Grammar.arguments]
  cases h : eat? (·.isSymbol ")") ts with
  | none =>
    rw [bind_of_ok (next?_of_none h)]
    rfl
  | some close =>
    rw [bind_of_ok (next?_of_some h)]
    rfl

theorem argumentList_eq : argumentList = (do
    let first ← must .argument expression
    match ← next? (·.isSymbol ",") with
    | some _ =>
      let more ← argumentList
      return first :: more
    | none =>
      let _ ← symbol ")"
      return [first]) := by
  funext ts
  change erase (Grammar.argumentList false ts) = _
  rw [Grammar.argumentList]
  refine erase_bind (erase_required _ rfl) ?_
  intro first
  cases h : eat? (·.isSymbol ",") first.rest with
  | none =>
    rw [bind_of_ok (next?_of_none h)]
    exact erase_bind (erase_expect _ _ _) fun close => rfl
  | some comma =>
    rw [bind_of_ok (next?_of_some h)]
    exact erase_bind rfl fun more => rfl

/-- What stands behind an operand of the tightest operators, up to the end of a simple expression. -/
def simpleRest (operand : Reader Tree) : Reader Tree :=
  operand >>= chainRest .mul >>= chainRest .sum >>= chainRest .minMax >>= comparisonRest >>=
    chainRest .and >>= chainRest .or

theorem simpleRest_congr {operand same : Reader Tree} {ts us : List Token} (h : operand ts = same us) :
    simpleRest operand ts = simpleRest same us := by
  simp only [simpleRest, bind_apply, h]

theorem chain_takes {level : Level} {reader : Reader Tree} {ts us : List Token}
    (h : operand level us = (some <$> reader) ts) :
    chain level us = (some <$> (reader >>= chainRest level)) ts := by
  rw [chain_eq]
  exact ifSome_of_takes h _

theorem simple_takes {t : Token} (ht : isNegation t = false) {reader : Reader Tree} {ts : List Token}
    (h : unary (t :: ts) = (some <$> reader) ts) :
    chain .or (t :: ts) = (some <$> simpleRest reader) ts := by
  have hmul := chain_takes ((congrFun operand_mul _).trans h)
  have hsum := chain_takes ((congrFun operand_sum _).trans hmul)
  have hminMax := chain_takes ((congrFun operand_minMax _).trans hsum)
  have hcomparison : comparison (t :: ts) = _ :=
    (congrFun comparison_eq _).trans (ifSome_of_takes hminMax comparisonRest)
  have hpositive : eat? isNegation (t :: ts) = none := by
    refine eat?_eq_none ?_
    rintro _ ⟨⟩
    exact ht
  have hnegation := (negation_of_not hpositive).trans hcomparison
  have hand := chain_takes ((congrFun operand_and _).trans hnegation)
  exact chain_takes ((congrFun operand_or _).trans hand)

theorem expression_of_not_identifier {ts : List Token} (h : eat? Token.isIdentifier ts = none) :
    expression ts = chain .or ts := by
  change erase? ts (Grammar.expression false ts) = _
  rw [Grammar.expression, Grammar.location, h]
  rfl

def targetRest (target : Tree) : Reader Tree := do
  match ← next? isAssignment with
  | some op =>
    let value ← must .expression expression
    return .marked .assign op [target, value]
  | none =>
    match ← next? isStep with
    | some op => return .marked .incDec op [target]
    | none => simpleRest (pure target)

theorem factor_name {name : Token} (hname : name.isIdentifier = true) {ts : List Token}
    (hcall : startsCall (name :: ts) = false) :
    factor (name :: ts) = (some <$> locationRest name) ts := by
  have hclear : ∀ p : Token → Bool, p name = false → eat? p (name :: ts) = none := by
    intro p hp
    refine eat?_eq_none ?_
    rintro _ ⟨⟩
    exact hp
  rw [factor_of_not_call (hclear _ (identifier_not_symbol hname "(")) hcall, atom,
    bind_of_ok (next?_of_none (hclear _ (identifier_not_constant hname)))]
  exact location_takes hname ts

theorem expression_of_call {ts : List Token} (h : startsCall ts = true) :
    expression ts = chain .or ts := by
  match ts, h with
  | name :: paren :: more, h =>
    obtain ⟨hname, hparen⟩ : name.isIdentifier = true ∧ paren.isSymbol "(" = true := by
      simpa [startsCall] using h
    have hkind : paren.kind = .symbol := ((Token.isSymbol_iff _ _).1 hparen).1
    have hclear : ∀ p : Token → Bool, p paren = false → eat? p (paren :: more) = none := by
      intro p hp
      refine eat?_eq_none ?_
      rintro _ ⟨⟩
      exact hp
    have hbracket : paren.isSymbol "[" = false :=
      ((Token.isSymbol_iff _ _).1 hparen).not_hasText (.inr (by decide))
    change erase? _ (Grammar.expression false (name :: paren :: more)) = _
    rw [Grammar.expression, Grammar.location, eat?_cons hname]
    dsimp only [Read.nothing]
    rw [hclear _ hbracket]
    dsimp only [pure, Except.pure, bind, Except.bind, Read.map]
    rw [hclear isAssignment (by simp [isAssignment, Token.isOperator, hkind])]
    dsimp only
    rw [hclear isStep (by simp [isStep, Token.isOperator, hkind])]
    rfl

theorem expression_takes {name : Token} (hname : name.isIdentifier = true) {ts : List Token}
    (hcall : startsCall (name :: ts) = false) :
    expression (name :: ts) = (some <$> (locationRest name >>= targetRest)) ts := by
  have hunary := (unary_of_not (identifier_not_unary hname ts)).trans (factor_name hname hcall)
  have hsimple := simple_takes (identifier_not_negation hname) hunary
  have hlocation := location_takes hname ts
  rw [map_apply] at hlocation
  change erase? _ (Grammar.location false (name :: ts)) = _ at hlocation
  change erase? _ (Grammar.expression false (name :: ts)) = _
  rw [Grammar.expression, map_bind, bind_apply]
  generalize Grammar.location false (name :: ts) = place at hlocation ⊢
  rcases place with u | found
  · cases hread : locationRest name ts with
    | ok result => rw [hread] at hlocation; cases hlocation
    | error v =>
      rw [hread] at hlocation
      cases hlocation
      rfl
  · cases hread : locationRest name ts with
    | error v => rw [hread] at hlocation; cases hlocation
    | ok result =>
      rw [hread] at hlocation
      cases found with
      | none => cases hlocation
      | some target =>
        obtain ⟨hvalue, hrest⟩ : target.value = result.1 ∧ target.rest = result.2 := by
          simpa [erase?, Except.map] using hlocation
        rw [ok_bind, ok_bind, ← hvalue, ← hrest, targetRest, map_bind]
        dsimp only
        cases hassign : eat? isAssignment target.rest with
        | some op =>
          rw [bind_of_ok (next?_of_some hassign)]
          simp only [map_bind, map_pure]
          exact erase?_bind (erase_required _ rfl) fun value => rfl
        | none =>
          rw [bind_of_ok (next?_of_none hassign), map_bind]
          dsimp only
          cases hstep : eat? isStep target.rest with
          | some op =>
            rw [bind_of_ok (next?_of_some hstep)]
            rfl
          | none =>
            rw [bind_of_ok (next?_of_none hstep)]
            -- the chain reads the location once more and goes on behind it
            have hagain : locationRest name ts = (pure target.value : Reader Tree) target.rest := by
              rw [hread, hvalue, hrest]
              rfl
            refine hsimple.trans ?_
            rw [map_apply, map_apply, simpleRest_congr hagain]

end Reader

end StackCompiler.Grammar
