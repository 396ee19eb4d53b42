import StackCompiler.Proofs.Grammar.ExpressionSoundness

/-!
What is derived is read: expressions.

A reader goes on as long as it can, so it stops behind a phrase only where the next token does not hold
on to that phrase. `strength` measures how far a token reaches back: an operator of a loose chain ends
every tighter phrase before it, and an assignment or an opening bracket ends none.
-/

set_option autoImplicit false
namespace StackCompiler.Grammar

/-- How tightly a token holds on to an operand before it; zero for tokens that cannot follow one within
an expression. -/
def strength (t : Token) : Nat :=
  if t.isSymbol "[" || t.isSymbol "(" || isAssignment t || isStep t then 7
  else if Level.mul.accepts t then 6
  else if Level.sum.accepts t then 5
  else if Level.minMax.accepts t then 4
  else if isRelational t then 3
  else if Level.and.accepts t then 2
  else if Level.or.accepts t then 1
  else 0

def Level.strength : Level → Nat
  | or => 1
  | and => 2
  | minMax => 4
  | sum => 5
  | mul => 6

theorem strength_of_accepts {level : Level} {t : Token} (h : level.accepts t = true) :
    strength t = level.strength := by
  obtain ⟨kind, lexeme, line⟩ := t
  rw [Level.accepts_iff] at h
  cases level with
  | or | and =>
    rcases h with ⟨rfl, h⟩ | ⟨rfl, h⟩ <;> simp only [List.mem_singleton] at h <;> subst h <;> rfl
  | minMax | sum | mul =>
    obtain ⟨rfl, h⟩ := h
    simp only [List.mem_cons, List.not_mem_nil, or_false] at h
    rcases h with rfl | rfl | rfl <;> rfl

theorem strength_of_isRelational {t : Token} (h : isRelational t = true) : strength t = 3 := by
  obtain ⟨kind, lexeme, line⟩ := t
  obtain ⟨rfl, h⟩ := (Token.isOperator_iff _ _).1 h
  simp only [List.mem_cons, List.not_mem_nil, or_false] at h
  rcases h with rfl | rfl | rfl | rfl | rfl | rfl <;> rfl

/-- The next token, if there is one, is weaker than `k`. -/
def Follows (k : Nat) (rest : List Token) : Prop :=
  ∀ next, rest.head? = some next → strength next < k

theorem Follows.mono {k l : Nat} {rest : List Token} (h : Follows k rest) (hkl : k ≤ l) :
    Follows l rest :=
  fun next hnext => Nat.lt_of_lt_of_le (h next hnext) hkl

theorem follows_cons {k : Nat} {t : Token} (h : strength t < k) (ts : List Token) :
    Follows k (t :: ts) := by
  intro next hnext
  cases hnext
  exact h

theorem Follows.not_accepts {level : Level} {rest : List Token} (h : Follows level.strength rest) :
    eat? level.accepts rest = none := by
  apply eat?_eq_none
  intro next hnext
  apply Bool.eq_false_iff.2
  intro haccepts
  have hlt := h next hnext
  rw [strength_of_accepts haccepts] at hlt
  omega

theorem Follows.not_relational {rest : List Token} (h : Follows 3 rest) :
    eat? isRelational rest = none := by
  apply eat?_eq_none
  intro next hnext
  apply Bool.eq_false_iff.2
  intro hrel
  have hlt := h next hnext
  rw [strength_of_isRelational hrel] at hlt
  omega

/-- The tokens that reach back over every operand. -/
theorem Follows.not_gluing {rest : List Token} (h : Follows 7 rest) {next : Token}
    (hnext : rest.head? = some next) :
    next.isSymbol "[" = false ∧ next.isSymbol "(" = false ∧ isAssignment next = false ∧
      isStep next = false := by
  have hlt := h next hnext
  unfold strength at hlt
  split at hlt
  next => omega
  next hglue =>
    simp only [Bool.or_eq_true, not_or, Bool.not_eq_true] at hglue
    exact ⟨hglue.1.1.1, hglue.1.1.2, hglue.1.2, hglue.2⟩

/-! The first token of a phrase. -/

def startsFactor (t : Token) : Bool :=
  t.isSymbol "(" || t.isIdentifier || isConstant t

def startsOperand (t : Token) : Bool :=
  startsFactor t || isUnary t

def startsExpression (t : Token) : Bool :=
  startsOperand t || isNegation t

def StartsWith (p : Token → Bool) (ts : List Token) : Prop :=
  ∃ first more, ts = first :: more ∧ p first = true

theorem StartsWith.mono {p q : Token → Bool} {ts : List Token} (h : StartsWith p ts)
    (hpq : ∀ t, p t = true → q t = true) : StartsWith q ts := by
  obtain ⟨first, more, hts, hp⟩ := h
  exact ⟨first, more, hts, hpq first hp⟩

theorem StartsWith.append {p : Token → Bool} {ts : List Token} (h : StartsWith p ts)
    (us : List Token) : StartsWith p (ts ++ us) := by
  obtain ⟨first, more, rfl, hp⟩ := h
  exact ⟨first, more ++ us, rfl, hp⟩

theorem startsWith_cons {p : Token → Bool} {t : Token} (h : p t = true) (ts : List Token) :
    StartsWith p (t :: ts) :=
  ⟨t, ts, rfl, h⟩

/-- A reader that takes none of the tokens a phrase may start with finds nothing before it. -/
theorem StartsWith.not_eat {p q : Token → Bool} {ts : List Token} (h : StartsWith p ts)
    (hpq : ∀ t, p t = true → q t = false) : eat? q ts = none := by
  obtain ⟨first, more, rfl, hp⟩ := h
  apply eat?_eq_none
  intro next hnext
  cases hnext
  exact hpq first hp

theorem startsOperand_of_factor (t : Token) (h : startsFactor t = true) : startsOperand t = true := by
  simp [startsOperand, h]

theorem startsExpression_of_operand (t : Token) (h : startsOperand t = true) :
    startsExpression t = true := by
  simp [startsExpression, h]

def Phrase.First : Phrase → List Token → Prop
  | .factor, ts | .location, ts => StartsWith startsFactor ts
  | .unary, ts | .chain .mul, ts | .chain .sum, ts | .chain .minMax, ts | .comparison, ts =>
    StartsWith startsOperand ts
  | .negation, ts | .chain .and, ts | .chain .or, ts | .expression, ts | .arguments, ts =>
    StartsWith startsExpression ts
  | _, _ => True

theorem first_chain {level : Level} {ts : List Token} (h : level.operandPhrase.First ts) :
    (Phrase.chain level).First ts := by
  cases level with
  | or | and | minMax | sum | mul => exact h

theorem first_expression_of_factor {ts : List Token} (h : StartsWith startsFactor ts) :
    StartsWith startsExpression ts :=
  h.mono fun t ht => startsExpression_of_operand t (startsOperand_of_factor t ht)

theorem Derives.first {p : Phrase} {ts : List Token} {trees : List Tree} (h : Derives p ts trees) :
    p.First ts := by
  induction h with
  | assign _ _ _ left _ => exact (first_expression_of_factor left).append _
  | step _ _ left => exact (first_expression_of_factor left).append _
  | simple _ value => exact value
  | single _ operand => exact first_chain operand
  | @several level ts us first links _ _ operand _ =>
    have hfirst := first_chain operand
    cases level with
    | or | and | minMax | sum | mul => exact StartsWith.append hfirst _
  | negate isOp _ _ =>
    refine startsWith_cons ?_ _
    simp [startsExpression, (isNegation_iff _).2 isOp]
  | positive _ operand => exact StartsWith.mono operand startsExpression_of_operand
  | uncompared _ operand => exact operand
  | compare _ _ _ first _ => exact StartsWith.append first _
  | unary isOp _ _ =>
    refine startsWith_cons ?_ _
    simp [startsOperand, isUnary, (Token.isOperator_iff _ _).2 isOp]
  | plain _ operand => exact StartsWith.mono operand startsOperand_of_factor
  | paren isOpen _ _ _ =>
    refine startsWith_cons ?_ _
    simp [startsFactor, (Token.isSymbol_iff _ _).2 isOpen]
  | callPlain isName _ _ | call isName _ _ _ _ | named isName | indexed isName _ _ _ _ =>
    refine startsWith_cons ?_ _
    simp [startsFactor, (Token.isIdentifier_iff _).2 isName]
  | literal isConst =>
    refine startsWith_cons ?_ _
    simp [startsFactor, (isConstant_iff _).2 isConst]
  | location _ place => exact place
  | lastArgument _ value => exact value
  | argument _ _ _ value _ => exact StartsWith.append value _
  | _ => trivial

/-! The classes of first tokens keep clear of the tokens that a reader tries before. -/

theorem startsFactor_not_unary (t : Token) (h : startsFactor t = true) : isUnary t = false := by
  obtain ⟨kind, lexeme, line⟩ := t
  cases kind <;> simp_all [startsFactor, isUnary, isConstant, Token.isSymbol, Token.isKeyword,
    Token.hasText, Token.isIdentifier, Token.isOperator]

theorem startsOperand_not_negation (t : Token) (h : startsOperand t = true) :
    isNegation t = false := by
  obtain ⟨kind, lexeme, line⟩ := t
  cases kind <;> simp_all [startsOperand, startsFactor, isNegation, isUnary, isConstant,
    Token.isSymbol, Token.isKeyword, Token.hasText, Token.isIdentifier, Token.isOperator]
  · rcases h with rfl | rfl <;> decide
  · rcases h with rfl | rfl | rfl <;> decide

theorem startsExpression_not_symbol {text : String} (htext : text ≠ "(") (t : Token)
    (h : startsExpression t = true) : t.isSymbol text = false := by
  obtain ⟨kind, lexeme, line⟩ := t
  cases kind <;> simp_all [startsExpression, startsOperand, startsFactor, isNegation, isUnary,
    isConstant, Token.isSymbol, Token.isKeyword, Token.hasText, Token.isIdentifier, Token.isOperator]
  exact fun heq => htext heq.symm

/-! Reading back what a phrase derives. -/

variable (reuse : Bool)

/-- A location at the start of `ts`, if there is one, is not assigned to. -/
def Unassigned (ts : List Token) : Prop :=
  location reuse ts = .ok none ∨ ∃ r, location reuse ts = .ok (some r) ∧
    ∀ next, r.rest.head? = some next → isAssignment next = false ∧ isStep next = false

/-- A reader of operands finds `t` before `rest`, also when it is handed the location that stands
there, and `expression` would hand over to it. -/
def Finds (read : (ts : List Token) → Option (Read Tree ts.length) → Outcome ts.length)
    (ts : List Token) (t : Tree) (rest : List Token) : Prop :=
  (∀ known, Known reuse (ts ++ rest) known → ∃ h, read (ts ++ rest) known = .ok (some ⟨t, rest, h⟩)) ∧
    Unassigned reuse (ts ++ rest)

/-- The reader of a phrase finds its trees before every `rest` that does not hold on to it. -/
def Completes : Phrase → List Token → List Tree → Prop
  | .expression, ts, trees => ∀ t rest, trees = [t] → Follows 1 rest →
    ∃ h, expression reuse (ts ++ rest) = .ok (some ⟨t, rest, h⟩)
  | .chain level, ts, trees => ∀ t rest, trees = [t] → Follows level.strength rest →
    Finds reuse (chain reuse level) ts t rest
  | .links level, ts, trees => ∀ rest, Follows level.strength rest →
    Follows (level.strength + 1) (ts ++ rest) ∧
      ∃ h, chainLinks reuse level (ts ++ rest) = .ok ⟨trees, rest, h⟩
  | .negation, ts, trees => ∀ t rest, trees = [t] → Follows 3 rest →
    Finds reuse (negation reuse) ts t rest
  | .comparison, ts, trees => ∀ t rest, trees = [t] → Follows 3 rest →
    Finds reuse (comparison reuse) ts t rest
  | .unary, ts, trees => ∀ t rest, trees = [t] → Follows 7 rest → Finds reuse (unary reuse) ts t rest
  | .factor, ts, trees => ∀ t rest, trees = [t] → Follows 7 rest →
    Finds reuse (factor reuse) ts t rest
  | .location, ts, trees => ∀ t rest, trees = [t] →
    (∀ next, rest.head? = some next → next.isSymbol "[" = false) →
    ∃ h, location reuse (ts ++ rest) = .ok (some ⟨t, rest, h⟩)
  | .arguments, ts, trees => ∀ close rest, close.OneOf .symbol [")"] →
    ∃ h, argumentList reuse (ts ++ close :: rest) = .ok ⟨trees, rest, h⟩
  | _, _, _ => True

variable {reuse}

theorem operand_finds {level : Level} {ts : List Token} {t : Tree} {rest : List Token}
    (h : Completes reuse level.operandPhrase ts [t]) (hrest : Follows (level.strength + 1) rest) :
    Finds reuse (operand reuse level) ts t rest := by
  have hread : operand reuse level = match level with
      | .or => chain reuse .and
      | .and => negation reuse
      | .minMax => chain reuse .sum
      | .sum => chain reuse .mul
      | .mul => unary reuse := by
    funext us known
    rw [operand.eq_def]
    cases level with
    | or | and | minMax | sum | mul => rfl
  rw [hread]
  cases level with
  | or | and | minMax | sum | mul => exact h t rest rfl hrest

/-- Of the symbols only the opening ones hold on to what stands before them, and of the keywords only
the connectives. -/
theorem follows_of_symbol {t : Token} {texts : List String} (h : t.OneOf .symbol texts)
    (htexts : "[" ∉ texts ∧ "(" ∉ texts) (rest : List Token) : Follows 1 (t :: rest) := by
  apply follows_cons
  have hbracket : t.isSymbol "[" = false := h.not_hasText (.inr htexts.1)
  have hparen : t.isSymbol "(" = false := h.not_hasText (.inr htexts.2)
  simp [strength, hbracket, hparen, isAssignment, isStep, isRelational, Level.accepts,
    Token.isOperator, Token.isKeyword, Token.hasText, h.1]

theorem follows_of_keyword {t : Token} {texts : List String} (h : t.OneOf .keyword texts)
    (htexts : "or" ∉ texts ∧ "and" ∉ texts) (rest : List Token) : Follows 1 (t :: rest) := by
  apply follows_cons
  have hor : t.isKeyword "or" = false := h.not_hasText (.inr htexts.1)
  have hand : t.isKeyword "and" = false := h.not_hasText (.inr htexts.2)
  simp [strength, hor, hand, isAssignment, isStep, isRelational, Level.accepts, Token.isOperator,
    Token.isSymbol, Token.hasText, h.1]

theorem unassigned_of_not_identifier {ts : List Token} {first : Token}
    (h : ts.head? = some first) (hfirst : first.isIdentifier = false) : Unassigned reuse ts := by
  refine .inl ?_
  rw [location, eat?_eq_none]
  · rfl
  · intro next hnext
    rw [h] at hnext
    cases hnext
    exact hfirst

theorem expression_of_finds {ts : List Token} {t : Tree} {rest : List Token}
    (h : Finds reuse (chain reuse .or) ts t rest) :
    ∃ h, expression reuse (ts ++ rest) = .ok (some ⟨t, rest, h⟩) := by
  obtain ⟨hfind, hnone | ⟨r, hr, hnext⟩⟩ := h
  · rw [expression, hnone, ok_bind]
    exact hfind none (known_none reuse _)
  · rw [expression, hr, ok_bind]
    dsimp only
    rw [eat?_eq_none fun next hhead => (hnext next hhead).1]
    dsimp only
    rw [eat?_eq_none fun next hhead => (hnext next hhead).2]
    apply hfind
    intro s hs
    split at hs
    · cases hs
      exact hr
    · simp at hs

theorem chain_of_operand {level : Level} {ts us : List Token} {first : Tree} {links : List Tree}
    {rest : List Token} (hfirst : Finds reuse (operand reuse level) ts first (us ++ rest))
    (hlinks : ∃ h, chainLinks reuse level (us ++ rest) = .ok ⟨links, rest, h⟩) :
    Finds reuse (chain reuse level) (ts ++ us) (level.chainTree first links) rest := by
  obtain ⟨hfind, hunassigned⟩ := hfirst
  rw [← List.append_assoc] at hunassigned
  refine ⟨?_, hunassigned⟩
  intro known hknown
  rw [← List.append_assoc] at hfind
  obtain ⟨hlt, hread⟩ := hfind known hknown
  obtain ⟨hlt', hlinks⟩ := hlinks
  rw [chain, hread, ok_bind]
  dsimp only
  rw [hlinks, ok_bind]
  exact ⟨_, rfl⟩

theorem chainLinks_nothing {level : Level} {rest : List Token} (h : Follows level.strength rest) :
    ∃ h, chainLinks reuse level ([] ++ rest) = .ok ⟨[], rest, h⟩ := by
  rw [List.nil_append, chainLinks, h.not_accepts]
  exact ⟨_, rfl⟩

theorem completes_single {level : Level} {ts : List Token} {t : Tree}
    (operand : Completes reuse level.operandPhrase ts [t]) :
    Completes reuse (.chain level) ts [t] := by
  rintro t rest ⟨⟩ hrest
  have hfirst : Finds reuse (Grammar.operand reuse level) ts t ([] ++ rest) :=
    operand_finds operand (hrest.mono (Nat.le_succ _))
  have hchain := chain_of_operand hfirst (chainLinks_nothing hrest)
  rwa [List.append_nil] at hchain

theorem completes_several {level : Level} {ts us : List Token} {first : Tree} {links : List Tree}
    (operand : Completes reuse level.operandPhrase ts [first])
    (rest : Completes reuse (.links level) us links) (hne : links ≠ []) :
    Completes reuse (.chain level) (ts ++ us) [.inner level.tag (first :: links)] := by
  rintro t behind ⟨⟩ hbehind
  obtain ⟨hfollows, hlinks⟩ := rest behind hbehind
  rw [← level.chainTree_of_ne_nil first hne]
  exact chain_of_operand (operand_finds operand hfollows) hlinks

theorem completes_link {level : Level} {op : Token} {ts us : List Token} {t : Tree}
    {links : List Tree} {rest : List Token} (isOp : level.Connective op)
    (operand : Completes reuse level.operandPhrase ts [t])
    (hfollows : Follows (level.strength + 1) (us ++ rest))
    (hlinks : ∃ h, chainLinks reuse level (us ++ rest) = .ok ⟨links, rest, h⟩) :
    Follows (level.strength + 1) (op :: ts ++ us ++ rest) ∧
      ∃ h, chainLinks reuse level (op :: ts ++ us ++ rest) =
        .ok ⟨.marked .operator op [] :: t :: links, rest, h⟩ := by
  have haccepts := (level.accepts_iff op).2 isOp
  refine ⟨follows_cons ?_ _, ?_⟩
  · rw [strength_of_accepts haccepts]
    exact Nat.lt_succ_self _
  · obtain ⟨hlt, hread⟩ := (operand_finds operand hfollows).1 none (known_none reuse _)
    obtain ⟨hlt', hlinks⟩ := hlinks
    rw [List.cons_append, List.cons_append, List.append_assoc, chainLinks, eat?_cons haccepts]
    dsimp only [Read.nothing]
    rw [hread, required_some, ok_bind, hlinks, ok_bind]
    exact ⟨_, rfl⟩

theorem location_name {name : Token} (isName : name.kind = .identifier) {rest : List Token}
    (hrest : ∀ next, rest.head? = some next → next.isSymbol "[" = false) :
    ∃ h, location reuse (name :: rest) = .ok (some ⟨.marked .mutable name [], rest, h⟩) := by
  rw [location, eat?_cons ((Token.isIdentifier_iff _).2 isName)]
  dsimp only [Read.nothing]
  rw [eat?_eq_none hrest]
  exact ⟨_, rfl⟩

theorem location_index {name opening closing : Token} {ts : List Token} {index : Tree}
    (isName : name.kind = .identifier) (isOpen : opening.OneOf .symbol ["["])
    (inner : Completes reuse .expression ts [index]) (isClose : closing.OneOf .symbol ["]"])
    (rest : List Token) :
    ∃ h, location reuse (name :: opening :: (ts ++ closing :: rest)) =
      .ok (some ⟨.marked .mutable name [index], rest, h⟩) := by
  obtain ⟨hlt, hindex⟩ := inner index (closing :: rest) rfl
    (follows_of_symbol isClose (by decide) rest)
  rw [location, eat?_cons ((Token.isIdentifier_iff _).2 isName)]
  dsimp only [Read.nothing]
  rw [eat?_cons ((Token.isSymbol_iff _ _).2 isOpen)]
  dsimp only [Read.nothing]
  rw [hindex, required_some, ok_bind]
  dsimp only
  rw [expectSymbol_cons isClose, ok_bind]
  exact ⟨_, rfl⟩

theorem arguments_of_list {ts : List Token} {args : List Tree} {close : Token} {rest : List Token}
    (hfirst : StartsWith startsExpression ts)
    (h : ∃ h, argumentList reuse (ts ++ close :: rest) = .ok ⟨args, rest, h⟩) :
    ∃ h, arguments reuse (ts ++ close :: rest) = .ok ⟨args, rest, h⟩ := by
  rw [arguments, (hfirst.append _).not_eat (startsExpression_not_symbol (by decide))]
  exact h

theorem startsCall_of_name {name opening : Token} (isName : name.kind = .identifier)
    (isOpen : opening.OneOf .symbol ["("]) (rest : List Token) :
    startsCall (name :: opening :: rest) = true := by
  simp [startsCall, (Token.isIdentifier_iff _).2 isName, (Token.isSymbol_iff _ _).2 isOpen]

/-- A call is read whatever location is handed on: that would be its name alone. -/
theorem factor_call {name opening : Token} {args : List Tree} {ts rest : List Token}
    (isName : name.kind = .identifier) (isOpen : opening.OneOf .symbol ["("])
    (inner : ∃ h, arguments reuse ts = .ok ⟨args, rest, h⟩)
    (known : Option (Read Tree (name :: opening :: ts).length)) :
    ∃ h, factor reuse (name :: opening :: ts) known =
      .ok (some ⟨.marked .call name args, rest, h⟩) := by
  obtain ⟨hlt, hargs⟩ := inner
  have hparen : eat? (·.isSymbol "(") (name :: opening :: ts) = none := by
    simp [eat?, Token.isSymbol, Token.hasText, isName]
  rw [factor.eq_def, hparen]
  dsimp only
  rw [if_pos (startsCall_of_name isName isOpen ts), expectIdentifier_cons isName, ok_bind]
  dsimp only [Read.nothing]
  rw [expectSymbol_cons isOpen, ok_bind]
  dsimp only [Read.nothing]
  rw [hargs, ok_bind]
  exact ⟨_, rfl⟩

theorem unassigned_call {name opening : Token} (isName : name.kind = .identifier)
    (isOpen : opening.OneOf .symbol ["("]) (rest : List Token) :
    Unassigned reuse (name :: opening :: rest) := by
  have hbracket : ∀ next, (opening :: rest).head? = some next → next.isSymbol "[" = false := by
    rintro next ⟨⟩
    exact isOpen.not_hasText (by decide)
  obtain ⟨hlt, hread⟩ : ∃ h, location reuse (name :: opening :: rest) =
      .ok (some ⟨.marked .mutable name [], opening :: rest, h⟩) := location_name isName hbracket
  refine .inr ⟨_, hread, ?_⟩
  rintro next ⟨⟩
  simp [isAssignment, isStep, Token.isOperator, isOpen.1]

/-- A location is read as a factor unless an opening parenthesis behind it makes it a call. -/
theorem factor_location {name : Token} {ts rest : List Token} {t : Tree}
    (isName : name.kind = .identifier) (hcall : startsCall (name :: ts) = false)
    {hlt : rest.length < (name :: ts).length}
    (hloc : location reuse (name :: ts) = .ok (some ⟨t, rest, hlt⟩))
    (known : Option (Read Tree (name :: ts).length)) (hknown : Known reuse (name :: ts) known) :
    factor reuse (name :: ts) known = .ok (some ⟨t, rest, hlt⟩) := by
  have hparen : eat? (·.isSymbol "(") (name :: ts) = none := by
    simp [eat?, Token.isSymbol, Token.hasText, isName]
  have hconst : eat? isConstant (name :: ts) = none := by
    simp [eat?, isConstant, Token.isKeyword, Token.hasText, isName]
  rw [factor.eq_def, hparen]
  dsimp only
  rw [if_neg (by simp [hcall]), hconst]
  cases known with
  | none => exact hloc
  | some target => exact (hknown target rfl).symm.trans hloc

theorem completes_assign {op : Token} {ts us : List Token} {target value : Tree}
    (left : Completes reuse .location ts [target])
    (isOp : op.OneOf .operator ["=", "+=", "-=", "*=", "/="])
    (right : Completes reuse .expression us [value]) :
    Completes reuse .expression (ts ++ op :: us) [.marked .assign op [target, value]] := by
  rintro t rest ⟨⟩ hrest
  have hbracket : ∀ next, (op :: (us ++ rest)).head? = some next → next.isSymbol "[" = false := by
    rintro next ⟨⟩
    exact isOp.not_hasText (by decide)
  obtain ⟨hlt, hloc⟩ := left target (op :: (us ++ rest)) rfl hbracket
  obtain ⟨hlt', hvalue⟩ := right value rest rfl hrest
  rw [List.append_assoc, List.cons_append, expression, hloc, ok_bind]
  dsimp only
  rw [eat?_cons ((Token.isOperator_iff _ _).2 isOp)]
  dsimp only [Read.nothing]
  rw [hvalue, required_some, ok_bind]
  exact ⟨_, rfl⟩

theorem completes_step {op : Token} {ts : List Token} {target : Tree}
    (left : Completes reuse .location ts [target]) (isOp : op.OneOf .operator ["++", "--"]) :
    Completes reuse .expression (ts ++ [op]) [.marked .incDec op [target]] := by
  rintro t rest ⟨⟩ -
  have hbracket : ∀ next, (op :: rest).head? = some next → next.isSymbol "[" = false := by
    rintro next ⟨⟩
    exact isOp.not_hasText (by decide)
  have hassign : isAssignment op = false := by
    obtain ⟨kind, lexeme, line⟩ := op
    obtain ⟨rfl, h⟩ := isOp
    simp only [List.mem_cons, List.not_mem_nil, or_false] at h
    rcases h with rfl | rfl <;> rfl
  obtain ⟨hlt, hloc⟩ := left target (op :: rest) rfl hbracket
  rw [List.append_assoc, List.singleton_append, expression, hloc, ok_bind]
  dsimp only
  rw [eat?_eq_none (by rintro next ⟨⟩; exact hassign)]
  dsimp only
  rw [eat?_cons ((Token.isOperator_iff _ _).2 isOp)]
  exact ⟨_, rfl⟩

theorem completes_negate {op : Token} {ts : List Token} {t : Tree}
    (isOp : op.OneOf .keyword ["not"] ∨ op.OneOf .operator ["!"])
    (operand : Completes reuse .negation ts [t]) :
    Completes reuse .negation (op :: ts) [.marked .notExp op [t]] := by
  rintro _ rest ⟨⟩ hrest
  obtain ⟨hlt, hread⟩ := (operand t rest rfl hrest).1 none (known_none reuse _)
  rw [Finds, List.cons_append]
  refine ⟨?_, unassigned_of_not_identifier rfl ?_⟩
  · intro known _
    rw [negation, eat?_cons ((isNegation_iff _).2 isOp)]
    dsimp only [Read.nothing]
    rw [hread, required_some, ok_bind]
    exact ⟨_, rfl⟩
  · rcases isOp with h | h <;> exact h.not_identifier (by decide)

theorem completes_positive {ts : List Token} {t : Tree} (hfirst : StartsWith startsOperand ts)
    (operand : Completes reuse .comparison ts [t]) : Completes reuse .negation ts [t] := by
  rintro _ rest ⟨⟩ hrest
  obtain ⟨hfind, hunassigned⟩ := operand t rest rfl hrest
  refine ⟨?_, hunassigned⟩
  intro known hknown
  rw [negation, (hfirst.append _).not_eat startsOperand_not_negation]
  exact hfind known hknown

theorem completes_uncompared {ts : List Token} {t : Tree}
    (operand : Completes reuse (.chain .minMax) ts [t]) : Completes reuse .comparison ts [t] := by
  rintro _ rest ⟨⟩ hrest
  obtain ⟨hfind, hunassigned⟩ := operand t rest rfl (hrest.mono (by decide))
  refine ⟨?_, hunassigned⟩
  intro known hknown
  obtain ⟨hlt, hread⟩ := hfind known hknown
  rw [comparison, hread, ok_bind]
  dsimp only
  rw [hrest.not_relational]
  exact ⟨_, rfl⟩

theorem completes_compare {op : Token} {ts us : List Token} {left right : Tree}
    (first : Completes reuse (.chain .minMax) ts [left])
    (isOp : op.OneOf .operator ["<=", "<", ">", ">=", "==", "!="])
    (second : Completes reuse (.chain .minMax) us [right]) :
    Completes reuse .comparison (ts ++ op :: us)
      [.inner .relExp [left, .marked .operator op [], right]] := by
  rintro _ rest ⟨⟩ hrest
  have hrel : isRelational op = true := (Token.isOperator_iff _ _).2 isOp
  have hfollows : Follows Level.minMax.strength (op :: (us ++ rest)) := by
    apply follows_cons
    rw [strength_of_isRelational hrel]
    decide
  obtain ⟨hfind, hunassigned⟩ := first left (op :: (us ++ rest)) rfl hfollows
  obtain ⟨hlt', hright⟩ := (second right rest rfl (hrest.mono (by decide))).1 none (known_none reuse _)
  rw [Finds, List.append_assoc, List.cons_append]
  refine ⟨?_, hunassigned⟩
  intro known hknown
  obtain ⟨hlt, hread⟩ := hfind known hknown
  rw [comparison, hread, ok_bind]
  dsimp only
  rw [eat?_cons hrel]
  dsimp only [Read.nothing]
  rw [hright, required_some, ok_bind]
  exact ⟨_, rfl⟩

theorem completes_unary {op : Token} {ts : List Token} {t : Tree}
    (isOp : op.OneOf .operator ["-", "*", "?"]) (operand : Completes reuse .unary ts [t]) :
    Completes reuse .unary (op :: ts) [.marked .unaryExp op [t]] := by
  rintro _ rest ⟨⟩ hrest
  obtain ⟨hlt, hread⟩ := (operand t rest rfl hrest).1 none (known_none reuse _)
  rw [Finds, List.cons_append]
  refine ⟨?_, unassigned_of_not_identifier rfl (isOp.not_identifier (by decide))⟩
  intro known _
  rw [unary, eat?_cons ((Token.isOperator_iff _ _).2 isOp)]
  dsimp only [Read.nothing]
  rw [hread, required_some, ok_bind]
  exact ⟨_, rfl⟩

theorem completes_plain {ts : List Token} {t : Tree} (hfirst : StartsWith startsFactor ts)
    (operand : Completes reuse .factor ts [t]) : Completes reuse .unary ts [t] := by
  rintro _ rest ⟨⟩ hrest
  obtain ⟨hfind, hunassigned⟩ := operand t rest rfl hrest
  refine ⟨?_, hunassigned⟩
  intro known hknown
  rw [unary, (hfirst.append _).not_eat startsFactor_not_unary]
  exact hfind known hknown

theorem completes_paren {opening closing : Token} {ts : List Token} {t : Tree}
    (isOpen : opening.OneOf .symbol ["("]) (inner : Completes reuse .expression ts [t])
    (isClose : closing.OneOf .symbol [")"]) :
    Completes reuse .factor (opening :: ts ++ [closing]) [.marked .paren opening [t]] := by
  rintro _ rest ⟨⟩ -
  obtain ⟨hlt, hinner⟩ := inner t (closing :: rest) rfl (follows_of_symbol isClose (by decide) rest)
  rw [Finds, List.cons_append, List.cons_append, List.append_assoc, List.singleton_append]
  refine ⟨?_, unassigned_of_not_identifier rfl (isOpen.not_identifier (by decide))⟩
  intro known _
  rw [factor.eq_def, eat?_cons ((Token.isSymbol_iff _ _).2 isOpen)]
  dsimp only [Read.nothing]
  rw [hinner, required_some, ok_bind]
  dsimp only
  rw [expectSymbol_cons isClose, ok_bind]
  exact ⟨_, rfl⟩

theorem completes_literal {token : Token} (isConst : token.IsLiteral) :
    Completes reuse .factor [token] [.marked .constant token []] := by
  rintro _ rest ⟨⟩ -
  have hconst := (isConstant_iff _).2 isConst
  have hname : token.isIdentifier = false := by
    rcases isConst with h | h | h | ⟨h, -⟩ <;> simp [Token.isIdentifier, h]
  have hparen : token.isSymbol "(" = false := by
    rcases isConst with h | h | h | ⟨h, -⟩ <;> simp [Token.isSymbol, Token.hasText, h]
  rw [Finds, List.singleton_append]
  refine ⟨?_, unassigned_of_not_identifier rfl hname⟩
  intro known _
  rw [factor.eq_def, eat?_eq_none (by rintro next ⟨⟩; exact hparen)]
  dsimp only
  have hcall : startsCall (token :: rest) = false := by
    cases rest <;> simp [startsCall, hname]
  rw [if_neg (by simp [hcall]), eat?_cons hconst]
  exact ⟨_, rfl⟩

theorem completes_call {name opening closing : Token} {ts : List Token} {args : List Tree}
    (isName : name.kind = .identifier) (isOpen : opening.OneOf .symbol ["("])
    (inner : ∀ rest, ∃ h, arguments reuse (ts ++ closing :: rest) = .ok ⟨args, rest, h⟩) :
    Completes reuse .factor (name :: opening :: ts ++ [closing]) [.marked .call name args] := by
  rintro _ rest ⟨⟩ -
  rw [Finds, List.cons_append, List.cons_append, List.cons_append, List.cons_append,
    List.append_assoc, List.singleton_append]
  exact ⟨fun known _ => factor_call isName isOpen (inner rest) known,
    unassigned_call isName isOpen _⟩

theorem completes_location {ts : List Token} {t : Tree} (hd : Derives .location ts [t])
    (place : Completes reuse .location ts [t]) : Completes reuse .factor ts [t] := by
  rintro _ rest ⟨⟩ hrest
  obtain ⟨hlt, hread⟩ := place t rest rfl fun next hnext => (hrest.not_gluing hnext).1
  have hunassigned : Unassigned reuse (ts ++ rest) :=
    .inr ⟨_, hread, fun next hnext => (hrest.not_gluing hnext).2.2⟩
  refine ⟨?_, hunassigned⟩
  intro known hknown
  refine ⟨hlt, ?_⟩
  cases hd with
  | named isName =>
    refine factor_location isName ?_ hread known hknown
    cases rest with
    | nil => rfl
    | cons next rest => simp [startsCall, (hrest.not_gluing rfl).2.1]
  | indexed isName isOpen _ _ =>
    refine factor_location isName ?_ hread known hknown
    have hparen : Token.isSymbol _ "(" = false := isOpen.not_hasText (by decide)
    simp [startsCall, hparen]

/-- Every derivation of an expression phrase is found again by the reader of that phrase. -/
theorem Derives.completes {p : Phrase} {ts : List Token} {trees : List Tree}
    (h : Derives p ts trees) : Completes reuse p ts trees := by
  induction h with
  | assign _ isOp _ left right => exact completes_assign left isOp right
  | step _ isOp left => exact completes_step left isOp
  | simple _ value =>
    rintro _ rest ⟨⟩ hrest
    exact expression_of_finds (value _ rest rfl hrest)
  | single _ operand => exact completes_single operand
  | several _ hlinks operand rest => exact completes_several operand rest (links_ne_nil hlinks)
  | @lastLink level op ts t isOp _ operand =>
    intro rest hrest
    have hfollows : Follows (level.strength + 1) ([] ++ rest) := hrest.mono (Nat.le_succ _)
    have hlink := completes_link isOp operand hfollows (chainLinks_nothing hrest)
    rwa [List.append_nil] at hlink
  | link isOp _ _ operand more =>
    intro rest hrest
    obtain ⟨hfollows, hlinks⟩ := more rest hrest
    exact completes_link isOp operand hfollows hlinks
  | negate isOp _ operand => exact completes_negate isOp operand
  | positive hd operand => exact completes_positive hd.first operand
  | uncompared _ operand => exact completes_uncompared operand
  | compare _ isOp _ first second => exact completes_compare first isOp second
  | unary isOp _ operand => exact completes_unary isOp operand
  | plain hd operand => exact completes_plain hd.first operand
  | paren isOpen _ isClose inner => exact completes_paren isOpen inner isClose
  | @callPlain name opening closing isName isOpen isClose =>
    change Completes reuse .factor (name :: opening :: [] ++ [closing]) _
    refine completes_call isName isOpen fun rest => ?_
    rw [List.nil_append, arguments, eat?_cons ((Token.isSymbol_iff _ _).2 isClose)]
    exact ⟨_, rfl⟩
  | call isName isOpen hd isClose inner =>
    exact completes_call isName isOpen fun rest => arguments_of_list hd.first (inner _ rest isClose)
  | literal isConst => exact completes_literal isConst
  | location hd place => exact completes_location hd place
  | named isName =>
    rintro t rest ⟨⟩ hrest
    exact location_name isName hrest
  | indexed isName isOpen _ isClose inner =>
    rintro t rest ⟨⟩ -
    rw [List.cons_append, List.cons_append, List.cons_append, List.cons_append, List.append_assoc,
      List.singleton_append]
    exact location_index isName isOpen inner isClose rest
  | lastArgument _ value =>
    intro close rest isClose
    obtain ⟨hlt, hread⟩ := value _ (close :: rest) rfl (follows_of_symbol isClose (by decide) rest)
    have hcomma : close.isSymbol "," = false := isClose.not_hasText (by decide)
    rw [argumentList, hread, required_some, ok_bind]
    dsimp only
    rw [eat?_eq_none (by rintro next ⟨⟩; exact hcomma)]
    dsimp only
    rw [expectSymbol_cons isClose, ok_bind]
    exact ⟨_, rfl⟩
  | argument _ isComma _ value more =>
    intro close rest isClose
    obtain ⟨hlt', hmore⟩ := more close rest isClose
    obtain ⟨hlt, hread⟩ := value _ (_ :: (_ ++ close :: rest)) rfl
      (follows_of_symbol isComma (by decide) _)
    rw [List.append_assoc, List.cons_append, argumentList, hread, required_some, ok_bind]
    dsimp only
    rw [eat?_cons ((Token.isSymbol_iff _ _).2 isComma)]
    dsimp only [Read.nothing]
    rw [hmore, ok_bind]
    exact ⟨_, rfl⟩
  | _ => trivial

end StackCompiler.Grammar
