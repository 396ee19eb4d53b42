import StackCompiler.Proofs.Grammar.ExpressionSoundness
import StackCompiler.Proofs.Grammar.Memo

/-!
The memo cannot be seen in the result of a parse.

A memo is sound if the location in it is the one that would be read at its place. Every production
with the memo agrees with the production without it: from a sound memo it comes to the same tree, the same
refusal or the same error, and leaves a sound memo behind. The theorems recur as the productions do.
-/

set_option autoImplicit false
namespace StackCompiler.Grammar

namespace Memo

variable {reuse : Bool}

def Sound (reuse : Bool) (memo : Option Memo) : Prop :=
  ∀ m, memo = some m → Grammar.location reuse m.start = .ok (some m.found)

/-- From every sound memo the reader comes to the given result, and a sound memo is left. -/
def Agrees (reuse : Bool) {α : Type} (reader : Memoized α) (result : Except Unexpected α) : Prop :=
  ∀ memo, Sound reuse memo →
    match result with
    | .ok a => ∃ left, Sound reuse left ∧ reader memo = .ok (a, left)
    | .error u => reader memo = .error u

namespace Agrees

variable {α β : Type} {reader : Memoized α} {result : Except Unexpected α}

theorem ok (a : α) : Agrees reuse (pure a) (.ok a) := by
  intro memo hmemo
  exact ⟨memo, hmemo, rfl⟩

theorem error (u : Unexpected) : Agrees reuse (throw u : Memoized α) (.error u) := by
  intro memo hmemo
  rfl

theorem lift (result : Except Unexpected α) : Agrees reuse (liftM result) result := by
  intro memo hmemo
  cases result with
  | error u => rfl
  | ok a => exact ⟨memo, hmemo, rfl⟩

theorem bind {next : α → Memoized β} {after : α → Except Unexpected β} (h : Agrees reuse reader result)
    (hnext : ∀ a, result = .ok a → Agrees reuse (next a) (after a)) :
    Agrees reuse (reader >>= next) (result >>= after) := by
  intro memo hmemo
  have hfirst := h memo hmemo
  cases result with
  | error u =>
    change (reader memo >>= _) = _
    rw [hfirst]
    rfl
  | ok a =>
    obtain ⟨left, hleft, hread⟩ := hfirst
    have hrun : (reader >>= next) memo = next a left := by
      change (reader memo >>= _) = _
      rw [hread]
      rfl
    rw [hrun]
    exact hnext a rfl left hleft

theorem required {e : Expectation} {ts : List Token} {reader : Memoized (Option (Read Tree ts.length))}
    {o : Outcome ts.length} (h : Agrees reuse reader o) :
    Agrees reuse (Memo.required e ts reader) (Grammar.required e ts o) := by
  have hbind : Grammar.required e ts o =
      o >>= fun found => found.elim (.error ⟨e, ts.head?⟩) .ok := by
    rcases o with u | found
    · rfl
    · cases found <;> rfl
  rw [hbind]
  refine h.bind ?_
  intro found _
  cases found with
  | none => exact .error _
  | some r => exact .ok r

end Agrees

theorem remembered_hit (m : Memo) : remembered m.start (some m) = .ok (some m.found, none) := by
  rw [remembered, dif_pos rfl]

theorem remembered_miss {m : Memo} {ts : List Token} (h : m.start ≠ ts) :
    remembered ts (some m) = .ok (none, some m) := by
  rw [remembered, dif_neg h]

/-- The memo answers only at its own place; elsewhere the location is read afresh. -/
theorem agrees_remembered {ts : List Token} {fresh : Memoized (Option (Read Tree ts.length))}
    (h : Agrees reuse fresh (Grammar.location reuse ts)) :
    Agrees reuse (remembered ts >>= fun
      | some found => pure (some found)
      | none => fresh) (Grammar.location reuse ts) := by
  intro memo hmemo
  cases memo with
  | none => exact h none hmemo
  | some m =>
    by_cases hstart : m.start = ts
    · subst hstart
      rw [hmemo m rfl]
      refine ⟨none, ?_, ?_⟩
      · rintro _ ⟨⟩
      · change (remembered m.start (some m) >>= _) = _
        rw [remembered_hit]
        rfl
    · have hrun : (remembered ts >>= fun | some found => pure (some found) | none => fresh) (some m) =
          fresh (some m) := by
        change (remembered ts (some m) >>= _) = _
        rw [remembered_miss hstart]
        rfl
      rw [hrun]
      exact h (some m) hmemo

/-- A location that was just read may be stored. -/
theorem agrees_store {ts : List Token} {found : Read Tree ts.length}
    (h : Grammar.location reuse ts = .ok (some found)) :
    Agrees reuse (do store ts found; return some found) (.ok (some found)) := by
  intro memo _
  refine ⟨some ⟨ts, found⟩, ?_, rfl⟩
  rintro m ⟨⟩
  exact h

mutual

theorem expression_agrees (ts : List Token) :
    Agrees reuse (expression ts) (Grammar.expression reuse ts) := by
  rw [expression, Grammar.expression]
  refine (location_agrees ts).bind ?_
  intro target hlocation
  cases target with
  | none => exact chain_agrees (known_none reuse ts)
  | some target =>
    dsimp only
    have htarget := target.shorter
    cases eat? isAssignment target.rest with
    | some op =>
      have hop := op.shorter
      exact (expression_agrees op.rest).required.bind fun value _ => .ok _
    | none =>
      cases eat? isStep target.rest with
      | some op => exact .ok _
      | none =>
        refine chain_agrees ?_
        intro r hr
        split at hr
        · cases hr
          exact hlocation
        · cases hr
termination_by 20 * ts.length + 15
decreasing_by
  all_goals try simp only [Level.rank]
  all_goals omega

theorem location_agrees (ts : List Token) :
    Agrees reuse (location ts) (Grammar.location reuse ts) := by
  rw [location]
  refine agrees_remembered ?_
  have hread := Grammar.location.eq_def reuse ts
  cases hname : eat? Token.isIdentifier ts with
  | none =>
    rw [hread, hname]
    exact .ok none
  | some name =>
    rw [hname] at hread
    have hshorter := name.shorter
    cases hbracket : eat? (·.isSymbol "[") name.rest with
    | none =>
      simp only [hbracket] at hread ⊢
      rw [hread]
      exact agrees_store hread
    | some bracket =>
      simp only [hbracket] at hread ⊢
      have hlt := bracket.shorter
      have hwhole := hread
      rw [hread]
      refine (expression_agrees bracket.rest).required.bind ?_
      intro index hindex
      refine (Agrees.lift _).bind ?_
      intro close hclose
      -- what is stored is all of the location that was read
      rw [hindex, ok_bind, hclose, ok_bind] at hwhole
      exact agrees_store hwhole
termination_by 20 * ts.length
decreasing_by all_goals omega

/-- Whether the location at the start of a chain is handed on or read anew, it is the same. -/
theorem chain_agrees {level : Level} {ts : List Token} {known : Option (Read Tree ts.length)}
    (hknown : Known reuse ts known) :
    Agrees reuse (chain level ts) (Grammar.chain reuse level ts known) := by
  rw [chain, Grammar.chain]
  refine (operand_agrees hknown).bind ?_
  intro first _
  cases first with
  | none => exact .ok none
  | some first =>
    have hfirst := first.shorter
    exact (chainLinks_agrees first.rest).bind fun links _ => .ok _
termination_by 20 * ts.length + level.rank + 1
decreasing_by all_goals omega

theorem chainLinks_agrees {level : Level} (ts : List Token) :
    Agrees reuse (chainLinks level ts) (Grammar.chainLinks reuse level ts) := by
  rw [chainLinks, Grammar.chainLinks]
  cases eat? level.accepts ts with
  | none => exact .ok _
  | some op =>
    have hop := op.shorter
    have hrank := level.rank_le
    refine (operand_agrees (known_none reuse op.rest)).required.bind ?_
    intro next _
    have hnext := next.shorter
    exact (chainLinks_agrees next.rest).bind fun links _ => .ok _
termination_by 20 * ts.length
decreasing_by all_goals omega

theorem operand_agrees {level : Level} {ts : List Token} {known : Option (Read Tree ts.length)}
    (hknown : Known reuse ts known) :
    Agrees reuse (operand level ts) (Grammar.operand reuse level ts known) := by
  rw [operand.eq_def, Grammar.operand.eq_def]
  cases hlevel : level with
  | or => exact chain_agrees hknown
  | and => exact negation_agrees hknown
  | minMax => exact chain_agrees hknown
  | sum => exact chain_agrees hknown
  | mul => exact unary_agrees hknown
termination_by 20 * ts.length + level.rank
decreasing_by
  all_goals simp only [Level.rank]
  all_goals omega

theorem negation_agrees {ts : List Token} {known : Option (Read Tree ts.length)}
    (hknown : Known reuse ts known) :
    Agrees reuse (negation ts) (Grammar.negation reuse ts known) := by
  rw [negation, Grammar.negation]
  cases eat? isNegation ts with
  | none => exact comparison_agrees hknown
  | some op =>
    have hop := op.shorter
    exact (negation_agrees (known_none reuse op.rest)).required.bind fun inner _ => .ok _
termination_by 20 * ts.length + 10
decreasing_by all_goals omega

theorem comparison_agrees {ts : List Token} {known : Option (Read Tree ts.length)}
    (hknown : Known reuse ts known) :
    Agrees reuse (comparison ts) (Grammar.comparison reuse ts known) := by
  rw [comparison, Grammar.comparison]
  refine (chain_agrees hknown).bind ?_
  intro left _
  cases left with
  | none => exact .ok none
  | some left =>
    dsimp only
    have hleft := left.shorter
    cases eat? isRelational left.rest with
    | none => exact .ok _
    | some op =>
      have hop := op.shorter
      exact (chain_agrees (known_none reuse op.rest)).required.bind fun right _ => .ok _
termination_by 20 * ts.length + 9
decreasing_by
  all_goals simp only [Level.rank]
  all_goals omega

theorem unary_agrees {ts : List Token} {known : Option (Read Tree ts.length)}
    (hknown : Known reuse ts known) :
    Agrees reuse (unary ts) (Grammar.unary reuse ts known) := by
  rw [unary, Grammar.unary]
  cases eat? isUnary ts with
  | none => exact factor_agrees hknown
  | some op =>
    have hop := op.shorter
    exact (unary_agrees (known_none reuse op.rest)).required.bind fun inner _ => .ok _
termination_by 20 * ts.length + 2
decreasing_by all_goals omega

theorem factor_agrees {ts : List Token} {known : Option (Read Tree ts.length)}
    (hknown : Known reuse ts known) :
    Agrees reuse (factor ts) (Grammar.factor reuse ts known) := by
  rw [factor, Grammar.factor.eq_def]
  cases eat? (·.isSymbol "(") ts with
  | some paren =>
    have hparen := paren.shorter
    refine (expression_agrees paren.rest).required.bind ?_
    intro inner _
    exact (Agrees.lift _).bind fun close _ => .ok _
  | none =>
    dsimp only
    by_cases hcall : startsCall ts = true
    · rw [if_pos hcall, if_pos hcall]
      refine (Agrees.lift _).bind ?_
      intro name _
      refine (Agrees.lift _).bind ?_
      intro paren _
      have hparen := Nat.lt_trans paren.shorter name.shorter
      exact (arguments_agrees paren.rest).bind fun args _ => .ok _
    · rw [if_neg hcall, if_neg hcall]
      cases eat? isConstant ts with
      | some c => exact .ok _
      | none =>
        have hlocation := location_agrees ts
        cases known with
        | none => exact hlocation
        | some target =>
          rw [hknown target rfl] at hlocation
          exact hlocation
termination_by 20 * ts.length + 1
decreasing_by all_goals omega

theorem arguments_agrees (ts : List Token) :
    Agrees reuse (arguments ts) (Grammar.arguments reuse ts) := by
  rw [arguments, Grammar.arguments]
  cases eat? (·.isSymbol ")") ts with
  | some close => exact .ok _
  | none => exact argumentList_agrees ts
termination_by 20 * ts.length + 17
decreasing_by all_goals omega

theorem argumentList_agrees (ts : List Token) :
    Agrees reuse (argumentList ts) (Grammar.argumentList reuse ts) := by
  rw [argumentList, Grammar.argumentList]
  refine (expression_agrees ts).required.bind ?_
  intro first _
  have hfirst := first.shorter
  cases eat? (·.isSymbol ",") first.rest with
  | some comma =>
    have hcomma := comma.shorter
    exact (argumentList_agrees comma.rest).bind fun more _ => .ok _
  | none => exact (Agrees.lift _).bind fun close _ => .ok _
termination_by 20 * ts.length + 16
decreasing_by all_goals omega

end

theorem simpleExpression_agrees (ts : List Token) :
    Agrees reuse (simpleExpression ts) (Grammar.simpleExpression reuse ts) :=
  chain_agrees (known_none reuse ts)

/-! Declarations. -/

theorem declarator_agrees (ts : List Token) :
    Agrees reuse (declarator ts) (Grammar.declarator reuse ts) := by
  rw [declarator, Grammar.declarator]
  refine (Agrees.lift _).bind ?_
  intro name _
  cases eat? (·.isSymbol ":") name.rest with
  | none => exact .ok _
  | some colon => exact (simpleExpression_agrees colon.rest).required.bind fun init _ => .ok _

theorem declarators_agrees (ts : List Token) :
    Agrees reuse (declarators ts) (Grammar.declarators reuse ts) := by
  rw [declarators, Grammar.declarators]
  refine (declarator_agrees ts).bind ?_
  intro first _
  have hfirst := first.shorter
  cases eat? (·.isSymbol ",") first.rest with
  | some comma =>
    have hcomma := comma.shorter
    exact (declarators_agrees comma.rest).bind fun more _ => .ok _
  | none => exact (Agrees.lift _).bind fun close _ => .ok _
termination_by ts.length
decreasing_by omega

theorem varDeclaration_agrees (ts : List Token) :
    Agrees reuse (varDeclaration ts) (Grammar.varDeclaration reuse ts) := by
  rw [varDeclaration, Grammar.varDeclaration]
  cases eat? isTypeName ts with
  | none => exact .ok none
  | some type => exact (declarators_agrees type.rest).bind fun list _ => .ok _

theorem localDeclaration_agrees (ts : List Token) :
    Agrees reuse (localDeclaration ts) (Grammar.localDeclaration reuse ts) := by
  rw [localDeclaration, Grammar.localDeclaration]
  cases eat? (·.isKeyword "static") ts with
  | none => exact varDeclaration_agrees ts
  | some static =>
    refine (Agrees.lift _).bind ?_
    intro type _
    exact (declarators_agrees type.rest).bind fun list _ => .ok _

theorem localDeclarations_agrees (ts : List Token) :
    Agrees reuse (localDeclarations ts) (Grammar.localDeclarations reuse ts) := by
  rw [localDeclarations, Grammar.localDeclarations]
  refine (localDeclaration_agrees ts).bind ?_
  intro first _
  cases first with
  | none => exact .ok _
  | some first =>
    have hfirst := first.shorter
    exact (localDeclarations_agrees first.rest).bind fun more _ => .ok _
termination_by ts.length
decreasing_by omega

/-! Statements. -/

theorem rangeStep_agrees (ts : List Token) :
    Agrees reuse (rangeStep ts) (Grammar.rangeStep reuse ts) := by
  rw [rangeStep, Grammar.rangeStep]
  cases eat? (·.isKeyword "by") ts with
  | none => exact .ok _
  | some word => exact (simpleExpression_agrees word.rest).required.bind fun step _ => .ok _

theorem rangeEnd_agrees (ts : List Token) :
    Agrees reuse (rangeEnd ts) (Grammar.rangeEnd reuse ts) := by
  rw [rangeEnd, Grammar.rangeEnd]
  cases eat? (·.isKeyword "to") ts with
  | none => exact .ok _
  | some word =>
    refine (simpleExpression_agrees word.rest).required.bind ?_
    intro stop _
    exact (rangeStep_agrees stop.rest).bind fun step _ => .ok _

theorem range_agrees (ts : List Token) : Agrees reuse (range ts) (Grammar.range reuse ts) := by
  rw [range, Grammar.range]
  refine (simpleExpression_agrees ts).required.bind ?_
  intro start _
  exact (rangeEnd_agrees start.rest).bind fun more _ => .ok _

theorem expressionStatement_agrees (ts : List Token) :
    Agrees reuse (expressionStatement ts) (Grammar.expressionStatement reuse ts) := by
  rw [expressionStatement, Grammar.expressionStatement]
  cases eat? (·.isSymbol ";") ts with
  | some semicolon => exact .ok _
  | none =>
    refine (expression_agrees ts).bind ?_
    intro value _
    cases value with
    | none => exact .ok none
    | some value => exact (Agrees.lift _).bind fun semicolon _ => .ok _

theorem returnTail_agrees (keyword : Token) (ts : List Token) :
    Agrees reuse (returnTail keyword ts) (Grammar.returnTail reuse keyword ts) := by
  rw [returnTail, Grammar.returnTail]
  cases eat? (·.isSymbol ";") ts with
  | some semicolon => exact .ok _
  | none =>
    refine (expression_agrees ts).required.bind ?_
    intro value _
    exact (Agrees.lift _).bind fun semicolon _ => .ok _

mutual

theorem statement_agrees (ts : List Token) :
    Agrees reuse (statement ts) (Grammar.statement reuse ts) := by
  rw [statement.eq_def, Grammar.statement.eq_def]
  cases ts with
  | nil => exact .ok none
  | cons first rest =>
    dsimp only
    have hlength : (first :: rest).length = rest.length + 1 := rfl
    by_cases hbrace : first.isSymbol "\x7b" = true
    · rw [if_pos hbrace, if_pos hbrace]
      exact (blockTail_agrees first rest).bind fun body _ => .ok _
    rw [if_neg hbrace, if_neg hbrace]
    by_cases hif : first.isKeyword "if" = true
    · rw [if_pos hif, if_pos hif]
      refine (simpleExpression_agrees rest).required.bind ?_
      intro condition _
      refine (Agrees.lift _).bind ?_
      intro word _
      have hword := Nat.lt_trans word.shorter condition.shorter
      refine (statement_agrees word.rest).required.bind ?_
      intro yes _
      have hyes := yes.shorter
      exact (elseBranch_agrees yes.rest).bind fun no _ => .ok _
    rw [if_neg hif, if_neg hif]
    by_cases hwhile : first.isKeyword "while" = true
    · rw [if_pos hwhile, if_pos hwhile]
      refine (simpleExpression_agrees rest).required.bind ?_
      intro condition _
      refine (Agrees.lift _).bind ?_
      intro word _
      have hword := Nat.lt_trans word.shorter condition.shorter
      exact (statement_agrees word.rest).required.bind fun body _ => .ok _
    rw [if_neg hwhile, if_neg hwhile]
    by_cases hfor : first.isKeyword "for" = true
    · rw [if_pos hfor, if_pos hfor]
      refine (Agrees.lift _).bind ?_
      intro name _
      refine (Agrees.lift _).bind ?_
      intro equals _
      refine (range_agrees equals.rest).bind ?_
      intro bounds _
      refine (Agrees.lift _).bind ?_
      intro word _
      have hequals := Nat.lt_trans equals.shorter name.shorter
      have hword := Nat.lt_trans word.shorter bounds.shorter
      exact (statement_agrees word.rest).required.bind fun body _ => .ok _
    rw [if_neg hfor, if_neg hfor]
    by_cases hreturn : first.isKeyword "return" = true
    · rw [if_pos hreturn, if_pos hreturn]
      exact (returnTail_agrees first rest).bind fun tail _ => .ok _
    rw [if_neg hreturn, if_neg hreturn]
    by_cases hbreak : first.isKeyword "break" = true
    · rw [if_pos hbreak, if_pos hbreak]
      exact (Agrees.lift _).bind fun semicolon _ => .ok _
    rw [if_neg hbreak, if_neg hbreak]
    exact expressionStatement_agrees (first :: rest)
termination_by 4 * ts.length
decreasing_by all_goals omega

theorem elseBranch_agrees (ts : List Token) :
    Agrees reuse (elseBranch ts) (Grammar.elseBranch reuse ts) := by
  rw [elseBranch, Grammar.elseBranch]
  cases eat? (·.isKeyword "else") ts with
  | none => exact .ok _
  | some word =>
    have hword := word.shorter
    exact (statement_agrees word.rest).required.bind fun no _ => .ok _
termination_by 4 * ts.length
decreasing_by all_goals omega

theorem blockTail_agrees (brace : Token) (ts : List Token) :
    Agrees reuse (blockTail brace ts) (Grammar.blockTail reuse brace ts) := by
  rw [blockTail, Grammar.blockTail]
  refine (localDeclarations_agrees ts).bind ?_
  intro declarations _
  have hdeclarations := declarations.shorter
  exact (statements_agrees declarations.rest).bind fun body _ => .ok _
termination_by 4 * ts.length + 2
decreasing_by all_goals omega

theorem statements_agrees (ts : List Token) :
    Agrees reuse (statements ts) (Grammar.statements reuse ts) := by
  rw [statements.eq_def, Grammar.statements.eq_def]
  cases ts with
  | nil => exact .error _
  | cons first rest =>
    dsimp only
    by_cases hbrace : first.isSymbol "\x7d" = true
    · rw [if_pos hbrace, if_pos hbrace]
      exact .ok _
    · rw [if_neg hbrace, if_neg hbrace]
      refine (statement_agrees (first :: rest)).required.bind ?_
      intro next _
      have hnext := next.shorter
      exact (statements_agrees next.rest).bind fun more _ => .ok _
termination_by 4 * ts.length + 1
decreasing_by all_goals omega

end

theorem block_agrees (ts : List Token) : Agrees reuse (block ts) (Grammar.block reuse ts) := by
  rw [block, Grammar.block]
  cases eat? (·.isSymbol "\x7b") ts with
  | none => exact .ok none
  | some brace => exact (blockTail_agrees brace.value brace.rest).bind fun tail _ => .ok _

/-! Whole sources. -/

theorem functionTail_agrees (result : List Tree) (ts : List Token) :
    Agrees reuse (functionTail result ts) (Grammar.functionTail reuse result ts) := by
  rw [functionTail, Grammar.functionTail]
  refine (Agrees.lift _).bind ?_
  intro name _
  refine (Agrees.lift _).bind ?_
  intro paren _
  refine (Agrees.lift _).bind ?_
  intro parms _
  refine (Agrees.lift _).bind ?_
  intro close _
  exact (block_agrees close.rest).required.bind fun body _ => .ok _

theorem declaration_agrees (ts : List Token) :
    Agrees reuse (declaration ts) (Grammar.declaration reuse ts) := by
  rw [declaration, Grammar.declaration]
  cases eat? isTypeName ts with
  | some type =>
    dsimp only
    by_cases hcall : startsCall type.rest = true
    · rw [if_pos hcall, if_pos hcall]
      exact (functionTail_agrees _ type.rest).bind fun tail _ => .ok _
    · rw [if_neg hcall, if_neg hcall]
      exact varDeclaration_agrees ts
  | none =>
    dsimp only
    by_cases hcall : startsCall ts = true
    · rw [if_pos hcall, if_pos hcall]
      exact (functionTail_agrees [] ts).bind fun tail _ => .ok _
    · rw [if_neg hcall, if_neg hcall]
      exact .ok none

theorem declarations_agrees (ts : List Token) :
    Agrees reuse (declarations ts) (Grammar.declarations reuse ts) := by
  rw [declarations, Grammar.declarations]
  by_cases hempty : ts.isEmpty = true
  · rw [if_pos hempty, if_pos hempty]
    exact .ok []
  · rw [if_neg hempty, if_neg hempty]
    refine (declaration_agrees ts).required.bind ?_
    intro first _
    have hfirst := first.shorter
    exact (declarations_agrees first.rest).bind fun more _ => .ok _
termination_by ts.length
decreasing_by omega

theorem program_agrees (ts : List Token) :
    Agrees reuse (program ts) (Grammar.program reuse ts) := by
  rw [program, Grammar.program]
  refine (declarations_agrees ts).bind ?_
  intro list _
  cases list with
  | nil => exact .error _
  | cons first more => exact .ok _

/-- From the empty memo the result is that of the parser without a memo, whether that hands locations
on or not. -/
theorem parse_eq (reuse : Bool) (source : String) : parse source = parseWith reuse source := by
  have hprogram := @program_agrees reuse (tokenize source) none (by rintro _ ⟨⟩)
  rw [parse, parseWith]
  cases hresult : Grammar.program reuse (tokenize source) with
  | error u =>
    rw [hresult] at hprogram
    dsimp only at hprogram ⊢
    rw [hprogram]
  | ok tree =>
    rw [hresult] at hprogram
    obtain ⟨left, _, hread⟩ := hprogram
    rw [hread]

end Memo

/-- Neither the memo nor handing locations on changes the outcome of a parse, be it a tree or an error. -/
theorem memo_transparent (source : String) :
    Memo.parse source = parseWith false source ∧ parse source = parseWith false source := by
  refine ⟨Memo.parse_eq false source, ?_⟩
  calc parse source = Memo.parse source := (Memo.parse_eq true source).symm
    _ = parseWith false source := Memo.parse_eq false source

end StackCompiler.Grammar
