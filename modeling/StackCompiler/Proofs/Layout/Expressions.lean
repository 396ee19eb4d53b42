import Mathlib.Data.List.Forall2
import StackCompiler.Grammar.Program

/-!
Two readings side by side. Token lists that agree up to lines are read alike: both yield trees that agree
up to lines, or both fail with the same expectation at tokens that agree. How the lines of the two sides
relate is a parameter `L`, which passes from the tokens to the trees and the failures.
-/

set_option autoImplicit false
namespace StackCompiler

inductive SameOutcome {ε α β : Type} (E : ε → ε → Prop) (V : α → β → Prop) :
    Except ε α → Except ε β → Prop where
  | ok {a : α} {b : β} (values : V a b) : SameOutcome E V (.ok a) (.ok b)
  | error {e e' : ε} (failures : E e e') : SameOutcome E V (.error e) (.error e')

theorem SameOutcome.bind {ε α α' β β' : Type} {E : ε → ε → Prop} {V : α → α' → Prop} {W : β → β' → Prop}
    {x : Except ε α} {x' : Except ε α'} {f : α → Except ε β} {f' : α' → Except ε β'}
    (h : SameOutcome E V x x') (hf : ∀ a a', V a a' → SameOutcome E W (f a) (f' a')) :
    SameOutcome E W (x >>= f) (x' >>= f') := by
  cases h with
  | ok values => exact hf _ _ values
  | error failures => exact .error failures

variable {L : Nat → Nat → Prop}

structure Token.Alike (L : Nat → Nat → Prop) (t t' : Token) : Prop where
  kind : t.kind = t'.kind
  lexeme : t.lexeme = t'.lexeme
  line : L t.line t'.line

abbrev AlikeTokens (L : Nat → Nat → Prop) : List Token → List Token → Prop :=
  List.Forall₂ (Token.Alike L)

inductive Tree.Alike (L : Nat → Nat → Prop) : Tree → Tree → Prop where
  | node {tag : Tag} {token token' : Option Token} {children children' : List Tree}
      (tokens : Option.Rel (Token.Alike L) token token')
      (below : List.Forall₂ (Tree.Alike L) children children') :
      Alike L ⟨tag, token, children⟩ ⟨tag, token', children'⟩

abbrev AlikeTrees (L : Nat → Nat → Prop) : List Tree → List Tree → Prop :=
  List.Forall₂ (Tree.Alike L)

namespace Tree.Alike

theorem of_marked {tag : Tag} {token token' : Token} {children children' : List Tree}
    (tokens : token.Alike L token') (below : AlikeTrees L children children') :
    Tree.Alike L (.marked tag token children) (.marked tag token' children') :=
  .node (.some tokens) below

theorem of_inner {tag : Tag} {children children' : List Tree} (below : AlikeTrees L children children') :
    Tree.Alike L (.inner tag children) (.inner tag children') :=
  .node .none below

theorem leaf {tag : Tag} {token token' : Token} (tokens : token.Alike L token') :
    Tree.Alike L (.marked tag token []) (.marked tag token' []) :=
  .of_marked tokens .nil

end Tree.Alike

namespace Grammar

structure Unexpected.Alike (L : Nat → Nat → Prop) (u u' : Unexpected) : Prop where
  expected : u.expected = u'.expected
  found : Option.Rel (Token.Alike L) u.found u'.found

structure Read.Alike {α : Type} {n m : Nat} (L : Nat → Nat → Prop) (V : α → α → Prop) (r : Read α n)
    (r' : Read α m) : Prop where
  value : V r.value r'.value
  rest : AlikeTokens L r.rest r'.rest

abbrev AlikeReads {α : Type} {n m : Nat} (L : Nat → Nat → Prop) (V : α → α → Prop) :
    Except Unexpected (Read α n) → Except Unexpected (Read α m) → Prop :=
  SameOutcome (Unexpected.Alike L) (Read.Alike L V)

abbrev AlikeOutcomes {n m : Nat} (L : Nat → Nat → Prop) : Outcome n → Outcome m → Prop :=
  SameOutcome (Unexpected.Alike L) (Option.Rel (Read.Alike L (Tree.Alike L)))

/-! Single tokens. -/

/-- A test of the word that a token is. -/
def IgnoresLine (p : Token → Bool) : Prop :=
  ∀ t line, p { t with line } = p t

theorem IgnoresLine.eq {p : Token → Bool} (hp : IgnoresLine p) {t t' : Token} (h : t.Alike L t') :
    p t = p t' := by
  obtain ⟨kind, lexeme, line⟩ := t
  obtain ⟨kind', lexeme', line'⟩ := t'
  obtain ⟨hkind, hlexeme, -⟩ := h
  cases hkind
  cases hlexeme
  exact (hp ⟨kind, lexeme, line⟩ line').symm

theorem head?_alike {ts ts' : List Token} (h : AlikeTokens L ts ts') :
    Option.Rel (Token.Alike L) ts.head? ts'.head? := by
  cases h with
  | nil => exact .none
  | cons first _ => exact .some first

theorem eat?_alike {p : Token → Bool} (hp : IgnoresLine p) {ts ts' : List Token}
    (h : AlikeTokens L ts ts') :
    (eat? p ts = none ∧ eat? p ts' = none) ∨ ∃ r r', eat? p ts = some r ∧ eat? p ts' = some r' ∧
      Read.Alike L (Token.Alike L) r r' := by
  cases h with
  | nil => exact .inl ⟨rfl, rfl⟩
  | @cons t t' ts ts' first rest =>
    cases htest : p t with
    | false => exact .inl ⟨by simp [eat?, htest], by simp [eat?, ← hp.eq first, htest]⟩
    | true =>
      refine .inr ⟨.nothing t ts, .nothing t' ts', ?_, ?_, first, rest⟩
      · simp [eat?, htest]
      · simp [eat?, ← hp.eq first, htest]

theorem expect_alike (e : Expectation) {p : Token → Bool} (hp : IgnoresLine p) {ts ts' : List Token}
    (h : AlikeTokens L ts ts') : AlikeReads L (Token.Alike L) (expect e p ts) (expect e p ts') := by
  unfold expect
  rcases eat?_alike hp h with ⟨hnone, hnone'⟩ | ⟨r, r', hsome, hsome', hr⟩
  · rw [hnone, hnone']
    exact .error ⟨rfl, head?_alike h⟩
  · rw [hsome, hsome']
    exact .ok hr

theorem expectSymbol_alike (text : String) {ts ts' : List Token} (h : AlikeTokens L ts ts') :
    AlikeReads L (Token.Alike L) (expectSymbol text ts) (expectSymbol text ts') :=
  expect_alike _ (fun _ _ => rfl) h

theorem expectKeyword_alike (text : String) {ts ts' : List Token} (h : AlikeTokens L ts ts') :
    AlikeReads L (Token.Alike L) (expectKeyword text ts) (expectKeyword text ts') :=
  expect_alike _ (fun _ _ => rfl) h

theorem expectIdentifier_alike {ts ts' : List Token} (h : AlikeTokens L ts ts') :
    AlikeReads L (Token.Alike L) (expectIdentifier ts) (expectIdentifier ts') :=
  expect_alike _ (fun _ _ => rfl) h

theorem required_alike (e : Expectation) {ts ts' : List Token} {o : Outcome ts.length}
    {o' : Outcome ts'.length} (hts : AlikeTokens L ts ts') (h : AlikeOutcomes L o o') :
    AlikeReads L (Tree.Alike L) (required e ts o) (required e ts' o') := by
  cases h with
  | error failures => exact .error failures
  | ok found =>
    cases found with
    | none => exact .error ⟨rfl, head?_alike hts⟩
    | some hr => exact .ok hr

theorem startsCall_alike {ts ts' : List Token} (h : AlikeTokens L ts ts') :
    startsCall ts = startsCall ts' := by
  cases h with
  | nil => rfl
  | cons name rest =>
    cases rest with
    | nil => rfl
    | cons paren _ =>
      have hname : Token.isIdentifier _ = _ := IgnoresLine.eq (fun _ _ => rfl) name
      have hparen : Token.isSymbol _ "(" = _ := IgnoresLine.eq (p := (·.isSymbol "(")) (fun _ _ => rfl) paren
      rw [startsCall, startsCall, hname, hparen]

theorem accepts_ignoresLine (level : Level) : IgnoresLine level.accepts := by
  intro t line
  cases level <;> rfl

theorem chainTree_alike (level : Level) {first first' : Tree} {links links' : List Tree}
    (hfirst : first.Alike L first') (hlinks : AlikeTrees L links links') :
    (level.chainTree first links).Alike L (level.chainTree first' links') := by
  cases hlinks with
  | nil => exact hfirst
  | cons link more => exact .of_inner (.cons hfirst (.cons link more))

/-! Expressions. -/

variable {reuse : Bool}

mutual

theorem expression_alike {ts ts' : List Token} (h : AlikeTokens L ts ts') :
    AlikeOutcomes L (expression reuse ts) (expression reuse ts') := by
  rw [expression, expression]
  refine (location_alike h).bind ?_
  intro found found' hfound
  cases hfound with
  | none => exact chain_alike .or h .none
  | @some target target' htarget =>
    dsimp only
    rcases eat?_alike (p := isAssignment) (fun _ _ => rfl) htarget.rest with
      ⟨hno, hno'⟩ | ⟨op, op', hop, hop', halike⟩
    · rw [hno, hno']
      dsimp only
      rcases eat?_alike (p := isStep) (fun _ _ => rfl) htarget.rest with
        ⟨hno, hno'⟩ | ⟨op, op', hop, hop', halike⟩
      · rw [hno, hno']
        refine chain_alike .or h ?_
        cases reuse with
        | false => exact .none
        | true => exact .some htarget
      · rw [hop, hop']
        exact .ok (.some ⟨.of_marked halike.value (.cons htarget.value .nil), halike.rest⟩)
    · rw [hop, hop']
      have hlt := Nat.lt_trans op.shorter target.shorter
      refine (required_alike _ halike.rest (expression_alike halike.rest)).bind ?_
      intro value value' hvalue
      exact .ok (.some
        ⟨.of_marked halike.value (.cons htarget.value (.cons hvalue.value .nil)), hvalue.rest⟩)
termination_by 20 * ts.length + 15
decreasing_by
  all_goals try simp only [Level.rank]
  all_goals omega

theorem location_alike {ts ts' : List Token} (h : AlikeTokens L ts ts') :
    AlikeOutcomes L (location reuse ts) (location reuse ts') := by
  rw [location, location]
  rcases eat?_alike (p := Token.isIdentifier) (fun _ _ => rfl) h with
    ⟨hno, hno'⟩ | ⟨name, name', hname, hname', halike⟩
  · rw [hno, hno']
    exact .ok .none
  · rw [hname, hname']
    dsimp only
    rcases eat?_alike (p := (·.isSymbol "[")) (fun _ _ => rfl) halike.rest with
      ⟨hno, hno'⟩ | ⟨bracket, bracket', hbracket, hbracket', hopen⟩
    · rw [hno, hno']
      exact .ok (.some ⟨.leaf halike.value, halike.rest⟩)
    · rw [hbracket, hbracket']
      have hlt := Nat.lt_trans bracket.shorter name.shorter
      refine (required_alike _ hopen.rest (expression_alike hopen.rest)).bind ?_
      intro index index' hindex
      refine (expectSymbol_alike _ hindex.rest).bind ?_
      intro close close' hclose
      exact .ok (.some ⟨.of_marked halike.value (.cons hindex.value .nil), hclose.rest⟩)
termination_by 20 * ts.length
decreasing_by all_goals omega

theorem chain_alike (level : Level) {ts ts' : List Token} {known : Option (Read Tree ts.length)}
    {known' : Option (Read Tree ts'.length)} (h : AlikeTokens L ts ts')
    (hknown : Option.Rel (Read.Alike L (Tree.Alike L)) known known') :
    AlikeOutcomes L (chain reuse level ts known) (chain reuse level ts' known') := by
  rw [chain, chain]
  refine (operand_alike level h hknown).bind ?_
  intro found found' hfound
  cases hfound with
  | none => exact .ok .none
  | @some first first' hfirst =>
    have hlt := first.shorter
    refine (chainLinks_alike level hfirst.rest).bind ?_
    intro links links' hlinks
    exact .ok (.some ⟨chainTree_alike level hfirst.value hlinks.value, hlinks.rest⟩)
termination_by 20 * ts.length + level.rank + 1
decreasing_by all_goals omega

theorem chainLinks_alike (level : Level) {ts ts' : List Token} (h : AlikeTokens L ts ts') :
    AlikeReads L (AlikeTrees L) (chainLinks reuse level ts) (chainLinks reuse level ts') := by
  rw [chainLinks, chainLinks]
  rcases eat?_alike (accepts_ignoresLine level) h with ⟨hno, hno'⟩ | ⟨op, op', hop, hop', halike⟩
  · rw [hno, hno']
    exact .ok ⟨.nil, h⟩
  · rw [hop, hop']
    dsimp only
    rw [halike.value.lexeme]
    have hlt := op.shorter
    have hrank := level.rank_le
    refine (required_alike _ halike.rest (operand_alike level halike.rest .none)).bind ?_
    intro next next' hnext
    have hnextlt := next.shorter
    refine (chainLinks_alike level hnext.rest).bind ?_
    intro links links' hlinks
    exact .ok ⟨.cons (.leaf halike.value) (.cons hnext.value hlinks.value), hlinks.rest⟩
termination_by 20 * ts.length
decreasing_by all_goals omega

theorem operand_alike (level : Level) {ts ts' : List Token} {known : Option (Read Tree ts.length)}
    {known' : Option (Read Tree ts'.length)} (h : AlikeTokens L ts ts')
    (hknown : Option.Rel (Read.Alike L (Tree.Alike L)) known known') :
    AlikeOutcomes L (operand reuse level ts known) (operand reuse level ts' known') := by
  cases level with
  | or =>
    rw [operand, operand]
    exact chain_alike .and h hknown
  | and =>
    rw [operand, operand]
    exact negation_alike h hknown
  | minMax =>
    rw [operand, operand]
    exact chain_alike .sum h hknown
  | sum =>
    rw [operand, operand]
    exact chain_alike .mul h hknown
  | mul =>
    rw [operand, operand]
    exact unary_alike h hknown
termination_by 20 * ts.length + level.rank
decreasing_by
  all_goals try simp only [Level.rank]
  all_goals omega

theorem negation_alike {ts ts' : List Token} {known : Option (Read Tree ts.length)}
    {known' : Option (Read Tree ts'.length)} (h : AlikeTokens L ts ts')
    (hknown : Option.Rel (Read.Alike L (Tree.Alike L)) known known') :
    AlikeOutcomes L (negation reuse ts known) (negation reuse ts' known') := by
  rw [negation, negation]
  rcases eat?_alike (p := isNegation) (fun _ _ => rfl) h with
    ⟨hno, hno'⟩ | ⟨op, op', hop, hop', halike⟩
  · rw [hno, hno']
    exact comparison_alike h hknown
  · rw [hop, hop']
    have hlt := op.shorter
    refine (required_alike _ halike.rest (negation_alike halike.rest .none)).bind ?_
    intro inner inner' hinner
    exact .ok (.some ⟨.of_marked halike.value (.cons hinner.value .nil), hinner.rest⟩)
termination_by 20 * ts.length + 10
decreasing_by all_goals omega

theorem comparison_alike {ts ts' : List Token} {known : Option (Read Tree ts.length)}
    {known' : Option (Read Tree ts'.length)} (h : AlikeTokens L ts ts')
    (hknown : Option.Rel (Read.Alike L (Tree.Alike L)) known known') :
    AlikeOutcomes L (comparison reuse ts known) (comparison reuse ts' known') := by
  rw [comparison, comparison]
  refine (chain_alike .minMax h hknown).bind ?_
  intro found found' hfound
  cases hfound with
  | none => exact .ok .none
  | @some left left' hleft =>
    dsimp only
    rcases eat?_alike (p := isRelational) (fun _ _ => rfl) hleft.rest with
      ⟨hno, hno'⟩ | ⟨op, op', hop, hop', halike⟩
    · rw [hno, hno']
      exact .ok (.some hleft)
    · rw [hop, hop']
      dsimp only
      rw [halike.value.lexeme]
      have hlt := Nat.lt_trans op.shorter left.shorter
      refine (required_alike _ halike.rest (chain_alike .minMax halike.rest .none)).bind ?_
      intro right right' hright
      exact .ok (.some ⟨.of_inner (.cons hleft.value (.cons (.leaf halike.value)
        (.cons hright.value .nil))), hright.rest⟩)
termination_by 20 * ts.length + 9
decreasing_by
  all_goals try simp only [Level.rank]
  all_goals omega

theorem unary_alike {ts ts' : List Token} {known : Option (Read Tree ts.length)}
    {known' : Option (Read Tree ts'.length)} (h : AlikeTokens L ts ts')
    (hknown : Option.Rel (Read.Alike L (Tree.Alike L)) known known') :
    AlikeOutcomes L (unary reuse ts known) (unary reuse ts' known') := by
  rw [unary, unary]
  rcases eat?_alike (p := isUnary) (fun _ _ => rfl) h with ⟨hno, hno'⟩ | ⟨op, op', hop, hop', halike⟩
  · rw [hno, hno']
    exact factor_alike h hknown
  · rw [hop, hop']
    dsimp only
    rw [halike.value.lexeme]
    have hlt := op.shorter
    refine (required_alike _ halike.rest (unary_alike halike.rest .none)).bind ?_
    intro inner inner' hinner
    exact .ok (.some ⟨.of_marked halike.value (.cons hinner.value .nil), hinner.rest⟩)
termination_by 20 * ts.length + 2
decreasing_by all_goals omega

theorem factor_alike {ts ts' : List Token} {known : Option (Read Tree ts.length)}
    {known' : Option (Read Tree ts'.length)} (h : AlikeTokens L ts ts')
    (hknown : Option.Rel (Read.Alike L (Tree.Alike L)) known known') :
    AlikeOutcomes L (factor reuse ts known) (factor reuse ts' known') := by
  rw [factor.eq_def, factor.eq_def]
  rcases eat?_alike (p := (·.isSymbol "(")) (fun _ _ => rfl) h with
    ⟨hno, hno'⟩ | ⟨paren, paren', hparen, hparen', halike⟩
  · rw [hno, hno', startsCall_alike h]
    dsimp only
    split
    next =>
      refine (expectIdentifier_alike h).bind ?_
      intro name name' hname
      refine (expectSymbol_alike _ hname.rest).bind ?_
      intro paren paren' hparen
      have hlt := Nat.lt_trans paren.shorter name.shorter
      refine (arguments_alike hparen.rest).bind ?_
      intro args args' hargs
      exact .ok (.some ⟨.of_marked hname.value hargs.value, hargs.rest⟩)
    next =>
      rcases eat?_alike (p := isConstant) (fun _ _ => rfl) h with
        ⟨hno, hno'⟩ | ⟨c, c', hc, hc', halike⟩
      · rw [hno, hno']
        cases hknown with
        | none => exact location_alike h
        | some htarget => exact .ok (.some htarget)
      · rw [hc, hc']
        exact .ok (.some ⟨.leaf halike.value, halike.rest⟩)
  · rw [hparen, hparen']
    have hlt := paren.shorter
    refine (required_alike _ halike.rest (expression_alike halike.rest)).bind ?_
    intro inner inner' hinner
    refine (expectSymbol_alike _ hinner.rest).bind ?_
    intro close close' hclose
    exact .ok (.some ⟨.of_marked halike.value (.cons hinner.value .nil), hclose.rest⟩)
termination_by 20 * ts.length + 1
decreasing_by all_goals omega

theorem arguments_alike {ts ts' : List Token} (h : AlikeTokens L ts ts') :
    AlikeReads L (AlikeTrees L) (arguments reuse ts) (arguments reuse ts') := by
  rw [arguments, arguments]
  rcases eat?_alike (p := (·.isSymbol ")")) (fun _ _ => rfl) h with
    ⟨hno, hno'⟩ | ⟨close, close', hclose, hclose', halike⟩
  · rw [hno, hno']
    exact argumentList_alike h
  · rw [hclose, hclose']
    exact .ok ⟨.nil, halike.rest⟩
termination_by 20 * ts.length + 17
decreasing_by all_goals omega

theorem argumentList_alike {ts ts' : List Token} (h : AlikeTokens L ts ts') :
    AlikeReads L (AlikeTrees L) (argumentList reuse ts) (argumentList reuse ts') := by
  rw [argumentList, argumentList]
  refine (required_alike _ h (expression_alike h)).bind ?_
  intro first first' hfirst
  rcases eat?_alike (p := (·.isSymbol ",")) (fun _ _ => rfl) hfirst.rest with
    ⟨hno, hno'⟩ | ⟨comma, comma', hcomma, hcomma', halike⟩
  · rw [hno, hno']
    refine (expectSymbol_alike _ hfirst.rest).bind ?_
    intro close close' hclose
    exact .ok ⟨.cons hfirst.value .nil, hclose.rest⟩
  · rw [hcomma, hcomma']
    have hlt := Nat.lt_trans comma.shorter first.shorter
    refine (argumentList_alike halike.rest).bind ?_
    intro more more' hmore
    exact .ok ⟨.cons hfirst.value hmore.value, hmore.rest⟩
termination_by 20 * ts.length + 16
decreasing_by all_goals omega

end

end Grammar

end StackCompiler
