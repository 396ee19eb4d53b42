import StackCompiler.Proofs.Grammar.Reading

/-!
What is read is derived. Every reader that yields a tree has taken a stretch of tokens off the front
which the grammar derives with that tree. The theorems recur as the readers do.
-/

set_option autoImplicit false
namespace StackCompiler.Grammar

/-- The tokens in front of `rest` are the phrase `p`. -/
def Reads (p : Phrase) (ts : List Token) (trees : List Tree) (rest : List Token) : Prop :=
  ∃ used, ts = used ++ rest ∧ Derives p used trees

/-- A location handed on to the reader of a chain is the one that stands there. -/
def Known (reuse : Bool) (ts : List Token) (known : Option (Read Tree ts.length)) : Prop :=
  ∀ r, known = some r → location reuse ts = .ok (some r)

theorem known_none (reuse : Bool) (ts : List Token) : Known reuse ts none := by
  intro r h
  simp at h

theorem links_ne_nil {level : Level} {ts : List Token} {links : List Tree}
    (h : Derives (.links level) ts links) : links ≠ [] := by
  cases h <;> simp

theorem Level.chainTree_of_ne_nil (level : Level) (first : Tree) {links : List Tree}
    (h : links ≠ []) : level.chainTree first links = .inner level.tag (first :: links) := by
  cases links with
  | nil => exact absurd rfl h
  | cons link links => rfl

variable {reuse : Bool}

mutual

theorem expression_reads {ts : List Token} {r : Read Tree ts.length}
    (h : expression reuse ts = .ok (some r)) : Reads .expression ts [r.value] r.rest := by
  rw [expression, bind_eq_ok] at h
  obtain ⟨found, hloc, h⟩ := h
  cases found with
  | none =>
    obtain ⟨used, hts, hd⟩ := chain_reads (known_none reuse ts) h
    exact ⟨used, hts, .simple hd⟩
  | some target =>
    obtain ⟨used, hused, htarget⟩ := location_reads hloc
    dsimp only at h
    split at h
    next op hop =>
      obtain ⟨hassign, hrest⟩ := eat?_eq_some hop
      rw [bind_eq_ok] at h
      obtain ⟨value, hvalue, h⟩ := h
      have hlt := Nat.lt_trans op.shorter target.shorter
      obtain ⟨more, hmore, hd⟩ := expression_reads (required_eq_ok hvalue)
      cases h
      refine ⟨used ++ op.value :: more, ?_, .assign htarget ((Token.isOperator_iff _ _).1 hassign) hd⟩
      exact hused.trans (by simp [hrest, hmore])
    next =>
      split at h
      next op hop =>
        obtain ⟨hstep, hrest⟩ := eat?_eq_some hop
        cases h
        refine ⟨used ++ [op.value], ?_, .step htarget ((Token.isOperator_iff _ _).1 hstep)⟩
        exact hused.trans (by simp [hrest])
      next =>
        have hknown : Known reuse ts (if reuse then some target else none) := by
          intro s hs
          split at hs
          · cases hs
            exact hloc
          · simp at hs
        obtain ⟨all, hts, hd⟩ := chain_reads hknown h
        exact ⟨all, hts, .simple hd⟩
termination_by 20 * ts.length + 15
decreasing_by
  all_goals try simp only [Level.rank]
  all_goals omega

theorem location_reads {ts : List Token} {r : Read Tree ts.length}
    (h : location reuse ts = .ok (some r)) : Reads .location ts [r.value] r.rest := by
  rw [location] at h
  split at h
  next => simp [pure_eq_ok] at h
  next name hname =>
    obtain ⟨hid, hts⟩ := eat?_eq_some hname
    rw [Token.isIdentifier_iff] at hid
    split at h
    next =>
      cases h
      exact ⟨[name.value], hts, .named hid⟩
    next bracket hbracket =>
      obtain ⟨hopen, hrest⟩ := eat?_eq_some hbracket
      rw [bind_eq_ok] at h
      obtain ⟨index, hindex, h⟩ := h
      rw [bind_eq_ok] at h
      obtain ⟨close, hclose, h⟩ := h
      have hlt := Nat.lt_trans bracket.shorter name.shorter
      obtain ⟨used, hused, hd⟩ := expression_reads (required_eq_ok hindex)
      obtain ⟨hclosing, hend⟩ := expectSymbol_eq_ok hclose
      cases h
      refine ⟨name.value :: bracket.value :: used ++ [close.value], ?_,
        .indexed hid ((Token.isSymbol_iff _ _).1 hopen) hd hclosing⟩
      exact hts.trans (by simp [hrest, hused, hend])
termination_by 20 * ts.length
decreasing_by all_goals omega

theorem chain_reads {level : Level} {ts : List Token} {known : Option (Read Tree ts.length)}
    {r : Read Tree ts.length} (hknown : Known reuse ts known)
    (h : chain reuse level ts known = .ok (some r)) : Reads (.chain level) ts [r.value] r.rest := by
  rw [chain, bind_eq_ok] at h
  obtain ⟨found, hfound, h⟩ := h
  cases found with
  | none => simp [pure_eq_ok] at h
  | some first =>
    obtain ⟨used, hused, hd⟩ := operand_reads hknown hfound
    dsimp only at h
    rw [bind_eq_ok] at h
    obtain ⟨links, hlinks, h⟩ := h
    have hlt := first.shorter
    cases h
    rcases chainLinks_reads hlinks with ⟨hnil, hrest⟩ | ⟨more, hrest, hlinked⟩
    · refine ⟨used, ?_, ?_⟩
      · exact hused.trans (congrArg _ hrest.symm)
      · simp only [Read.value_map, Read.andMaybe, hnil, Level.chainTree]
        exact .single hd
    · refine ⟨used ++ more, ?_, ?_⟩
      · exact hused.trans (by simp [hrest, Read.andMaybe])
      · have htree : level.chainTree first.value links.value =
            .inner level.tag (first.value :: links.value) :=
          level.chainTree_of_ne_nil first.value (links_ne_nil hlinked)
        simp only [Read.value_map, Read.andMaybe, htree]
        exact .several hd hlinked
termination_by 20 * ts.length + level.rank + 1
decreasing_by all_goals omega

theorem chainLinks_reads {level : Level} {ts : List Token}
    {r : Read (List Tree) (ts.length + 1)} (h : chainLinks reuse level ts = .ok r) :
    (r.value = [] ∧ r.rest = ts) ∨ Reads (.links level) ts r.value r.rest := by
  rw [chainLinks] at h
  split at h
  next =>
    cases h
    exact .inl ⟨rfl, rfl⟩
  next op hop =>
    obtain ⟨hconn, hts⟩ := eat?_eq_some hop
    rw [Level.accepts_iff] at hconn
    rw [bind_eq_ok] at h
    obtain ⟨next, hnext, h⟩ := h
    rw [bind_eq_ok] at h
    obtain ⟨links, hlinks, h⟩ := h
    have hop' := op.shorter
    have hnext' := next.shorter
    have hrank := level.rank_le
    obtain ⟨used, hused, hd⟩ := operand_reads (known_none reuse _) (required_eq_ok hnext)
    cases h
    rcases chainLinks_reads hlinks with ⟨hnil, hrest⟩ | ⟨more, hrest, hlinked⟩
    · refine .inr ⟨op.value :: used, ?_, ?_⟩
      · exact hts.trans (by simp [hused, Read.andMaybe, Read.maybe, hrest])
      · simp only [Read.maybe, Read.value_map, Read.value_andThen, Read.andMaybe, hnil]
        exact .lastLink hconn hd
    · refine .inr ⟨op.value :: used ++ more, ?_, .link hconn hd hlinked⟩
      exact hts.trans (by simp [hused, hrest, Read.andMaybe, Read.maybe])
termination_by 20 * ts.length
decreasing_by all_goals omega

theorem operand_reads {level : Level} {ts : List Token} {known : Option (Read Tree ts.length)}
    {r : Read Tree ts.length} (hknown : Known reuse ts known)
    (h : operand reuse level ts known = .ok (some r)) :
    Reads level.operandPhrase ts [r.value] r.rest := by
  rw [operand.eq_def] at h
  cases hlevel : level with
  | or => exact chain_reads hknown (by simpa only [hlevel] using h)
  | and => exact negation_reads hknown (by simpa only [hlevel] using h)
  | minMax => exact chain_reads hknown (by simpa only [hlevel] using h)
  | sum => exact chain_reads hknown (by simpa only [hlevel] using h)
  | mul => exact unary_reads hknown (by simpa only [hlevel] using h)
termination_by 20 * ts.length + level.rank
decreasing_by
  all_goals simp only [hlevel, Level.rank]
  all_goals omega

theorem negation_reads {ts : List Token} {known : Option (Read Tree ts.length)}
    {r : Read Tree ts.length} (hknown : Known reuse ts known)
    (h : negation reuse ts known = .ok (some r)) : Reads .negation ts [r.value] r.rest := by
  rw [negation] at h
  split at h
  next =>
    obtain ⟨used, hts, hd⟩ := comparison_reads hknown h
    exact ⟨used, hts, .positive hd⟩
  next op hop =>
    obtain ⟨hnot, hts⟩ := eat?_eq_some hop
    rw [bind_eq_ok] at h
    obtain ⟨inner, hinner, h⟩ := h
    have hlt := op.shorter
    obtain ⟨used, hused, hd⟩ := negation_reads (known_none reuse _) (required_eq_ok hinner)
    cases h
    refine ⟨op.value :: used, ?_, .negate ((isNegation_iff _).1 hnot) hd⟩
    exact hts.trans (by simp [hused])
termination_by 20 * ts.length + 10
decreasing_by all_goals omega

theorem comparison_reads {ts : List Token} {known : Option (Read Tree ts.length)}
    {r : Read Tree ts.length} (hknown : Known reuse ts known)
    (h : comparison reuse ts known = .ok (some r)) : Reads .comparison ts [r.value] r.rest := by
  rw [comparison, bind_eq_ok] at h
  obtain ⟨found, hfound, h⟩ := h
  cases found with
  | none => simp [pure_eq_ok] at h
  | some left =>
    obtain ⟨used, hused, hd⟩ := chain_reads hknown hfound
    dsimp only at h
    split at h
    next =>
      cases h
      exact ⟨used, hused, .uncompared hd⟩
    next op hop =>
      obtain ⟨hrel, hrest⟩ := eat?_eq_some hop
      rw [bind_eq_ok] at h
      obtain ⟨right, hright, h⟩ := h
      have hlt := Nat.lt_trans op.shorter left.shorter
      obtain ⟨more, hmore, hd'⟩ := chain_reads (known_none reuse _) (required_eq_ok hright)
      cases h
      refine ⟨used ++ op.value :: more, ?_, .compare hd ((Token.isOperator_iff _ _).1 hrel) hd'⟩
      exact hused.trans (by simp [hrest, hmore])
termination_by 20 * ts.length + 9
decreasing_by
  all_goals try simp only [Level.rank]
  all_goals omega

theorem unary_reads {ts : List Token} {known : Option (Read Tree ts.length)}
    {r : Read Tree ts.length} (hknown : Known reuse ts known)
    (h : unary reuse ts known = .ok (some r)) : Reads .unary ts [r.value] r.rest := by
  rw [unary] at h
  split at h
  next =>
    obtain ⟨used, hts, hd⟩ := factor_reads hknown h
    exact ⟨used, hts, .plain hd⟩
  next op hop =>
    obtain ⟨hop', hts⟩ := eat?_eq_some hop
    rw [bind_eq_ok] at h
    obtain ⟨inner, hinner, h⟩ := h
    have hlt := op.shorter
    obtain ⟨used, hused, hd⟩ := unary_reads (known_none reuse _) (required_eq_ok hinner)
    cases h
    refine ⟨op.value :: used, ?_, .unary ((Token.isOperator_iff _ _).1 hop') hd⟩
    exact hts.trans (by simp [hused])
termination_by 20 * ts.length + 2
decreasing_by all_goals omega

theorem factor_reads {ts : List Token} {known : Option (Read Tree ts.length)}
    {r : Read Tree ts.length} (hknown : Known reuse ts known)
    (h : factor reuse ts known = .ok (some r)) : Reads .factor ts [r.value] r.rest := by
  rw [factor.eq_def] at h
  split at h
  next paren hparen =>
    obtain ⟨hopen, hts⟩ := eat?_eq_some hparen
    rw [bind_eq_ok] at h
    obtain ⟨inner, hinner, h⟩ := h
    rw [bind_eq_ok] at h
    obtain ⟨close, hclose, h⟩ := h
    have hlt := paren.shorter
    obtain ⟨used, hused, hd⟩ := expression_reads (required_eq_ok hinner)
    obtain ⟨hclosing, hend⟩ := expectSymbol_eq_ok hclose
    cases h
    refine ⟨paren.value :: used ++ [close.value], ?_,
      .paren ((Token.isSymbol_iff _ _).1 hopen) hd hclosing⟩
    exact hts.trans (by simp [hused, hend])
  next =>
    split at h
    next =>
      rw [bind_eq_ok] at h
      obtain ⟨name, hname, h⟩ := h
      rw [bind_eq_ok] at h
      obtain ⟨paren, hparen, h⟩ := h
      rw [bind_eq_ok] at h
      obtain ⟨args, hargs, h⟩ := h
      obtain ⟨hid, hts⟩ := expectIdentifier_eq_ok hname
      obtain ⟨hopen, hrest⟩ := expectSymbol_eq_ok hparen
      have hlt := Nat.lt_trans paren.shorter name.shorter
      cases h
      rcases arguments_reads hargs with ⟨close, hnil, hclosing, hend⟩ | ⟨used, close, hend, hd, hclosing⟩
      · refine ⟨[name.value, paren.value, close], ?_, ?_⟩
        · exact hts.trans (by simp [hrest, hend])
        · simp only [Read.value_map, Read.value_andThen, hnil]
          exact .callPlain hid hopen hclosing
      · refine ⟨name.value :: paren.value :: used ++ [close], ?_, .call hid hopen hd hclosing⟩
        exact hts.trans (by simp [hrest, hend])
    next =>
      split at h
      next c hc =>
        obtain ⟨hconst, hts⟩ := eat?_eq_some hc
        cases h
        exact ⟨[c.value], hts, .literal ((isConstant_iff _).1 hconst)⟩
      next =>
        -- a location handed on is what the reader would find here itself
        have hloc : location reuse ts = .ok (some r) := by
          split at h
          next target =>
            cases h
            exact hknown r rfl
          next => exact h
        obtain ⟨used, hts, hd⟩ := location_reads hloc
        exact ⟨used, hts, .location hd⟩
termination_by 20 * ts.length + 1
decreasing_by all_goals omega

theorem arguments_reads {ts : List Token} {r : Read (List Tree) ts.length}
    (h : arguments reuse ts = .ok r) :
    (∃ close, r.value = [] ∧ close.OneOf .symbol [")"] ∧ ts = close :: r.rest) ∨
      ∃ used close, ts = used ++ close :: r.rest ∧ Derives .arguments used r.value ∧
        close.OneOf .symbol [")"] := by
  rw [arguments] at h
  split at h
  next close hclose =>
    obtain ⟨hclosing, hts⟩ := eat?_eq_some hclose
    cases h
    exact .inl ⟨close.value, rfl, (Token.isSymbol_iff _ _).1 hclosing, hts⟩
  next => exact .inr (argumentList_reads h)
termination_by 20 * ts.length + 17
decreasing_by all_goals omega

theorem argumentList_reads {ts : List Token} {r : Read (List Tree) ts.length}
    (h : argumentList reuse ts = .ok r) :
    ∃ used close, ts = used ++ close :: r.rest ∧ Derives .arguments used r.value ∧
      close.OneOf .symbol [")"] := by
  rw [argumentList, bind_eq_ok] at h
  obtain ⟨first, hfirst, h⟩ := h
  obtain ⟨used, hused, hd⟩ := expression_reads (required_eq_ok hfirst)
  split at h
  next comma hcomma =>
    obtain ⟨hsep, hrest⟩ := eat?_eq_some hcomma
    rw [bind_eq_ok] at h
    obtain ⟨more, hmore, h⟩ := h
    have hlt := Nat.lt_trans comma.shorter first.shorter
    obtain ⟨used', close, hend, hd', hclosing⟩ := argumentList_reads hmore
    cases h
    refine ⟨used ++ comma.value :: used', close, ?_,
      .argument hd ((Token.isSymbol_iff _ _).1 hsep) hd', hclosing⟩
    exact hused.trans (by simp [hrest, hend])
  next =>
    rw [bind_eq_ok] at h
    obtain ⟨close, hclose, h⟩ := h
    obtain ⟨hclosing, hend⟩ := expectSymbol_eq_ok hclose
    cases h
    refine ⟨used, close.value, ?_, .lastArgument hd, hclosing⟩
    exact hused.trans (by simp [hend])
termination_by 20 * ts.length + 16
decreasing_by all_goals omega

end

end StackCompiler.Grammar
