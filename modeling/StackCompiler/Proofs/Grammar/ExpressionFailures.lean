import StackCompiler.Proofs.Grammar.ExpressionReaders

/-!
Where the reading of an expression fails: at the first token with which no expression goes on.
-/

set_option autoImplicit false
namespace StackCompiler

/-! Tokens that finish a phrase. -/

namespace Token

def sampleName : Token :=
  ⟨.identifier, "x", 1⟩

def sampleNumber : Token :=
  ⟨.number, "1", 1⟩

def sampleSymbol (text : String) : Token :=
  ⟨.symbol, text, 1⟩

def sampleKeyword (word : String) : Token :=
  ⟨.keyword, word, 1⟩

theorem oneOf_sampleSymbol (text : String) : (sampleSymbol text).OneOf .symbol [text] :=
  ⟨rfl, List.mem_singleton_self text⟩

theorem oneOf_sampleKeyword (word : String) : (sampleKeyword word).OneOf .keyword [word] :=
  ⟨rfl, List.mem_singleton_self word⟩

theorem isSymbol_sampleSymbol (text : String) : (sampleSymbol text).isSymbol text = true :=
  (isSymbol_iff _ _).2 (oneOf_sampleSymbol text)

end Token

namespace Grammar

open Token (sampleName sampleSymbol sampleKeyword oneOf_sampleSymbol oneOf_sampleKeyword
  isSymbol_sampleSymbol)

/-- The tokens `us` finish the phrase `p`, begun by the tokens `before`. -/
def Finishes (p : Phrase) (before : List Token) (t : Tree) (us : List Token) : Prop :=
  Derives p (before ++ us) [t]

theorem Derives.operand {us : List Token} {t : Tree} (h : Derives .unary us [t]) (level : Level) :
    Derives level.operandPhrase us [t] := by
  have hmul : Derives (.chain .mul) us [t] := .single h
  have hsum : Derives (.chain .sum) us [t] := .single hmul
  have hand : Derives (.chain .and) us [t] := .single (.positive (.uncompared (.single hsum)))
  cases level with
  | or => exact hand
  | and => exact .positive (.uncompared (.single hsum))
  | minMax => exact hsum
  | sum => exact hmul
  | mul => exact h

theorem derives_sampleName : Derives .unary [sampleName] [.marked .mutable sampleName []] :=
  .plain (.location (.named rfl))

theorem derives_sampleChain (level : Level) :
    Derives (.chain level) [sampleName] [.marked .mutable sampleName []] :=
  .single (derives_sampleName.operand level)

theorem derives_sampleExpression :
    Derives .expression [sampleName] [.marked .mutable sampleName []] :=
  .simple (derives_sampleChain .or)

theorem begins_expression : Begins (Finishes .expression []) [] :=
  ⟨_, _, derives_sampleExpression⟩

theorem begins_chain (level : Level) : Begins (Finishes (.chain level) []) [] :=
  ⟨_, _, derives_sampleChain level⟩

theorem begins_operand (level : Level) : Begins (Finishes level.operandPhrase []) [] :=
  ⟨_, _, derives_sampleName.operand level⟩

def Linked (level : Level) (links : List Tree) (us : List Token) : Prop :=
  (links = [] ∧ us = []) ∨ Derives (.links level) us links

theorem Linked.cons {level : Level} {op : Token} {used us : List Token} {next : Tree} {links : List Tree}
    (h : Linked level links us) (hop : level.accepts op = true)
    (hnext : Derives level.operandPhrase used [next]) :
    Linked level (.marked .operator op [] :: next :: links) (op :: (used ++ us)) := by
  rw [Level.accepts_iff] at hop
  rcases h with ⟨rfl, rfl⟩ | hlinks
  · rw [List.append_nil]
    exact .inr (.lastLink hop hnext)
  · exact .inr (.link hop hnext hlinks)

theorem Linked.chain {level : Level} {ts us : List Token} {first : Tree} {links : List Tree}
    (h : Linked level links us) (hfirst : Derives level.operandPhrase ts [first]) :
    Derives (.chain level) (ts ++ us) [level.chainTree first links] := by
  rcases h with ⟨rfl, rfl⟩ | hlinks
  · rw [List.append_nil]
    exact .single hfirst
  · rw [level.chainTree_of_ne_nil first (links_ne_nil hlinks)]
    exact .several hfirst hlinks

/-- On fewer tokens than `ts` expressions and their operands fail where they should. -/
structure Shorter (ts : List Token) : Prop where
  expression : ∀ us : List Token, us.length < ts.length →
    Offers (Finishes .expression []) Reader.expression us
  operand : ∀ (level : Level) (us : List Token), us.length < ts.length →
    Offers (Finishes level.operandPhrase []) (Reader.operand level) us

theorem Shorter.mono {ts us : List Token} (h : Shorter ts) (hle : us.length ≤ ts.length) :
    Shorter us where
  expression := fun vs hvs => h.expression vs (Nat.lt_of_lt_of_le hvs hle)
  operand := fun level vs hvs => h.operand level vs (Nat.lt_of_lt_of_le hvs hle)

theorem length_of_append {ts used rest : List Token} (h : ts = used ++ rest) :
    rest.length ≤ ts.length := by
  rw [h, List.length_append]
  omega

theorem length_of_cons {ts rest : List Token} {t : Token} (h : ts = t :: rest) :
    rest.length < ts.length := by
  rw [h, List.length_cons]
  omega

variable {ts : List Token}

theorem links_parses {level : Level} {ts : List Token} (h : Shorter ts) :
    Parses (Linked level) (Reader.links level) ts := by
  rw [Reader.links_eq]
  refine .next (fun _ => .ok (.inl ⟨rfl, rfl⟩)) ?_
  intro op rest hts hop
  have hrest := length_of_cons hts
  have hlast : ∀ next used, Finishes level.operandPhrase [] next used →
      Linked level [.marked .operator op [], next] (op :: (used ++ [])) := by
    intro next used hnext
    exact Linked.cons (.inl ⟨rfl, rfl⟩) hop hnext
  refine ((h.operand level rest hrest).must (begins_operand level)).bind ?_ ?_
  · intro next used hnext
    exact ⟨[], _, hlast next used hnext⟩
  · intro next used left hleft _ hnext
    have hle := length_of_append hleft
    have hmore : Parses (Linked level) (Reader.links level) left := links_parses (h.mono (by omega))
    refine hmore.map ?_
    intro more us hlinked
    exact hlinked.cons hop hnext
termination_by ts.length

theorem chainRest_parses {level : Level} {before : List Token} {reader : Reader Tree} (h : Shorter ts)
    (hreader : Parses (Finishes level.operandPhrase before) reader ts) :
    Parses (Finishes (.chain level) before) (reader >>= Reader.chainRest level) ts := by
  refine hreader.bind ?_ ?_
  · intro first used hfirst
    refine ⟨[], first, ?_⟩
    rw [List.append_nil]
    exact .single hfirst
  · intro first used rest hts _ hfirst
    have hlinks : Parses (Linked level) (Reader.links level) rest :=
      links_parses (h.mono (length_of_append hts))
    refine hlinks.map ?_
    intro links us hlinked
    rw [Finishes, ← List.append_assoc]
    exact hlinked.chain hfirst

theorem chain_offers {level : Level} (h : Shorter ts)
    (hoperand : Offers (Finishes level.operandPhrase []) (Reader.operand level) ts) :
    Offers (Finishes (.chain level) []) (Reader.chain level) ts := by
  rw [Reader.chain_eq]
  refine hoperand.ifSome ?_
  intro t rest reader hts hreader
  have hfirst : Parses (Finishes level.operandPhrase [t]) reader rest := hreader
  exact chainRest_parses (h.mono (Nat.le_of_lt (length_of_cons hts))) hfirst

theorem comparisonRest_parses {before : List Token} {reader : Reader Tree} (h : Shorter ts)
    (hreader : Parses (Finishes (.chain .minMax) before) reader ts) :
    Parses (Finishes .comparison before) (reader >>= Reader.comparisonRest) ts := by
  have hplain : ∀ left used, Finishes (.chain .minMax) before left used →
      Finishes .comparison before left (used ++ []) := by
    intro left used hleft
    rw [List.append_nil]
    exact .uncompared hleft
  refine hreader.bind (fun left used hleft => ⟨[], left, hplain left used hleft⟩) ?_
  intro left used rest hts _ hleft
  refine .next (fun _ => .ok (hplain left used hleft)) ?_
  intro op behind hrest hop
  have hlt := Nat.lt_of_lt_of_le (length_of_cons hrest) (length_of_append hts)
  have hright : Offers (Finishes (.chain .minMax) []) (Reader.chain .minMax) behind :=
    chain_offers (h.mono (Nat.le_of_lt hlt)) (h.operand .minMax behind hlt)
  refine (hright.must (begins_chain .minMax)).map ?_
  intro right us hright
  rw [Finishes, ← List.append_assoc]
  exact .compare hleft ((Token.isOperator_iff _ _).1 hop) hright

theorem simpleRest_parses {before : List Token} {reader : Reader Tree} (h : Shorter ts)
    (hreader : Parses (Finishes .unary before) reader ts) :
    Parses (Finishes (.chain .or) before) (Reader.simpleRest reader) ts := by
  have hmul : Parses (Finishes (.chain .mul) before) _ ts := chainRest_parses h hreader
  have hsum : Parses (Finishes (.chain .sum) before) _ ts := chainRest_parses h hmul
  have hminMax : Parses (Finishes (.chain .minMax) before) _ ts := chainRest_parses h hsum
  have hnegation : Parses (Finishes .negation before) _ ts :=
    (comparisonRest_parses h hminMax).mono fun t us ht => .positive ht
  have hand : Parses (Finishes (.chain .and) before) _ ts := chainRest_parses h hnegation
  exact chainRest_parses h hand

theorem comparison_offers (h : Shorter ts)
    (hchain : Offers (Finishes (.chain .minMax) []) (Reader.chain .minMax) ts) :
    Offers (Finishes .comparison []) Reader.comparison ts := by
  rw [Reader.comparison_eq]
  refine hchain.ifSome ?_
  intro t rest reader hts hreader
  have hfirst : Parses (Finishes (.chain .minMax) [t]) reader rest := hreader
  exact comparisonRest_parses (h.mono (Nat.le_of_lt (length_of_cons hts))) hfirst

/-! Locations, calls and the other factors. -/

theorem locationRest_parses {name : Token} (hname : name.kind = .identifier) (h : Shorter (name :: ts)) :
    Parses (Finishes .location [name]) (Reader.locationRest name) ts := by
  refine .next (fun _ => .ok (.named hname)) ?_
  intro opening rest hts hopen
  rw [Token.isSymbol_iff] at hopen
  have hlt := Nat.lt_succ_of_lt (length_of_cons hts)
  refine ((h.expression rest hlt).must begins_expression).bind ?_ ?_
  · intro index used hindex
    exact ⟨[sampleSymbol "]"], _, .indexed hname hopen hindex (oneOf_sampleSymbol "]")⟩
  · intro index used left _ _ hindex
    refine .lastToken (sampleSymbol "]") (isSymbol_sampleSymbol "]") ?_
    intro closing hclose
    exact .indexed hname hopen hindex ((Token.isSymbol_iff _ _).1 hclose)

def Enclosed (args : List Tree) (us : List Token) : Prop :=
  ∃ used closing, us = used ++ [closing] ∧ closing.OneOf .symbol [")"] ∧ Derives .arguments used args

theorem argumentList_parses {ts : List Token} (h : ∀ us : List Token, us.length ≤ ts.length →
      Offers (Finishes .expression []) Reader.expression us) :
    Parses Enclosed Reader.argumentList ts := by
  rw [Reader.argumentList_eq]
  refine ((h ts (Nat.le_refl _)).must begins_expression).bind ?_ ?_
  · intro first used hfirst
    exact ⟨[sampleSymbol ")"], _, used, _, rfl, oneOf_sampleSymbol ")", .lastArgument hfirst⟩
  · intro first used rest hts _ hfirst
    have hle := length_of_append hts
    refine .next ?_ ?_
    · intro _
      refine .lastToken (sampleSymbol ")") (isSymbol_sampleSymbol ")") ?_
      intro closing hclose
      exact ⟨used, closing, rfl, (Token.isSymbol_iff _ _).1 hclose, .lastArgument hfirst⟩
    · intro comma behind hrest hcomma
      have hlt := length_of_cons hrest
      have hmore : Parses Enclosed Reader.argumentList behind :=
        argumentList_parses fun us hus => h us (by omega)
      refine hmore.map ?_
      rintro more _ ⟨us, closing, rfl, hclose, hargs⟩
      refine ⟨used ++ comma :: us, closing, by simp, hclose, ?_⟩
      exact .argument hfirst ((Token.isSymbol_iff _ _).1 hcomma) hargs
termination_by ts.length

theorem callRest_parses {name : Token} (hname : name.kind = .identifier) (h : Shorter (name :: ts)) :
    Parses (Finishes .factor [name]) (Reader.callRest name) ts := by
  refine .token ⟨[sampleSymbol "(", sampleSymbol ")"], _,
    .callPlain hname (oneOf_sampleSymbol "(") (oneOf_sampleSymbol ")")⟩ ?_
  intro opening rest hts hopen
  rw [Token.isSymbol_iff] at hopen
  have hrest := length_of_cons hts
  have harguments : Parses (fun args us => Derives .factor (name :: opening :: us) [.marked .call name args])
      Reader.arguments rest := by
    rw [Reader.arguments_eq]
    refine .next ?_ ?_
    · intro _
      have hlist : Parses Enclosed Reader.argumentList rest :=
        argumentList_parses fun us hus => h.expression us (by rw [List.length_cons]; omega)
      refine hlist.mono ?_
      rintro args _ ⟨used, closing, rfl, hclose, hargs⟩
      exact .call hname hopen hargs hclose
    · intro closing left _ hclose
      exact .ok (.callPlain hname hopen ((Token.isSymbol_iff _ _).1 hclose))
  exact harguments.map fun args us hcall => hcall

theorem paren_parses {paren : Token} (hparen : paren.OneOf .symbol ["("]) (h : Shorter (paren :: ts)) :
    Parses (Finishes .factor [paren]) (do
      let inner ← Reader.must .expression Reader.expression
      let _ ← Reader.symbol ")"
      return .marked .paren paren [inner]) ts := by
  refine ((h.expression ts (Nat.lt_succ_self _)).must begins_expression).bind ?_ ?_
  · intro inner used hinner
    exact ⟨[sampleSymbol ")"], _, .paren hparen hinner (oneOf_sampleSymbol ")")⟩
  · intro inner used rest _ _ hinner
    refine .lastToken (sampleSymbol ")") (isSymbol_sampleSymbol ")") ?_
    intro closing hclose
    exact .paren hparen hinner ((Token.isSymbol_iff _ _).1 hclose)

theorem startsCall_of_head {us : List Token} (h : ∀ t, us.head? = some t → t.isIdentifier = false) :
    startsCall us = false := by
  cases us with
  | nil => rfl
  | cons t rest => cases rest <;> simp [startsCall, h t rfl]

theorem startsCall_congr {name : Token} {us : List Token} (h : us.head? = ts.head?) :
    startsCall (name :: us) = startsCall (name :: ts) := by
  cases us <;> cases ts <;> simp_all [startsCall]

theorem factor_offers (h : Shorter ts) : Offers (Finishes .factor []) Reader.factor ts := by
  refine byHead (·.isSymbol "(") ts (fun hparen => byHead Token.isIdentifier ts (fun hname => ?_) ?_) ?_
  · -- neither a parenthesis nor a name: a constant or nothing
    have hfactor : ∀ us : List Token, us.head? = ts.head? → Reader.factor us = Reader.atom us := by
      intro us hus
      refine Reader.factor_of_not_call (eat?_eq_none (hus ▸ hparen)) ?_
      exact startsCall_of_head (hus ▸ hname)
    refine byHead isConstant ts ?_ ?_
    · intro hconstant
      refine .declines fun us hus => ?_
      rw [hfactor us hus, Reader.atom, Reader.bind_of_ok (Reader.next?_of_none (eat?_eq_none (hus ▸ hconstant)))]
      exact Reader.location_declines (eat?_eq_none (hus ▸ hname))
    · rintro c rest rfl hc
      have hread : Parses (Finishes .factor [c]) (pure (.marked .constant c [])) rest :=
        .ok (.literal ((isConstant_iff c).1 hc))
      refine .takes ?_ hread
      intro us _
      rw [hfactor (c :: us) rfl, Reader.atom, Reader.bind_of_ok (Reader.next?_of_some (eat?_cons hc us))]
      rfl
  · rintro name rest rfl hname
    have hkind := (Token.isIdentifier_iff name).1 hname
    by_cases hcall : startsCall (name :: rest) = true
    · refine .takes ?_ (callRest_parses hkind h)
      intro us hus
      exact Reader.factor_call hname ((startsCall_congr hus).trans hcall)
    · rw [Bool.not_eq_true] at hcall
      refine .takes ?_ ((locationRest_parses hkind h).mono fun place us hplace => .location hplace)
      intro us hus
      exact Reader.factor_name hname ((startsCall_congr hus).trans hcall)
  · rintro paren rest rfl hparen
    exact .takes (fun us _ => Reader.factor_paren hparen us)
      (paren_parses ((Token.isSymbol_iff _ _).1 hparen) h)

theorem unary_offers (h : Shorter ts) : Offers (Finishes .unary []) Reader.unary ts := by
  refine byHead isUnary ts ?_ ?_
  · intro hhead
    refine ((factor_offers h).mono fun t us ht => .plain ht).congr ?_
    intro us hus
    exact Reader.unary_of_not (eat?_eq_none (hus ▸ hhead))
  · rintro op rest rfl hop
    refine .takes (fun us _ => Reader.unary_takes hop us) ?_
    have hinner := h.operand .mul rest (Nat.lt_succ_self _)
    rw [Reader.operand_mul] at hinner
    refine (hinner.must (begins_operand .mul)).map ?_
    intro inner us hinner
    exact .unary ((Token.isOperator_iff _ _).1 hop) hinner

theorem negation_offers (h : Shorter ts)
    (hcomparison : Offers (Finishes .comparison []) Reader.comparison ts) :
    Offers (Finishes .negation []) Reader.negation ts := by
  refine byHead isNegation ts ?_ ?_
  · intro hhead
    refine (hcomparison.mono fun t us ht => .positive ht).congr ?_
    intro us hus
    exact Reader.negation_of_not (eat?_eq_none (hus ▸ hhead))
  · rintro op rest rfl hop
    refine .takes (fun us _ => Reader.negation_takes hop us) ?_
    have hinner := h.operand .and rest (Nat.lt_succ_self _)
    rw [Reader.operand_and] at hinner
    refine (hinner.must (begins_operand .and)).map ?_
    intro inner us hinner
    exact .negate ((isNegation_iff _).1 hop) hinner

theorem operand_offers (h : Shorter ts) (level : Level) :
    Offers (Finishes level.operandPhrase []) (Reader.operand level) ts := by
  have hmul : Offers (Finishes .unary []) (Reader.operand .mul) ts := by
    rw [Reader.operand_mul]
    exact unary_offers h
  have hsum : Offers (Finishes (.chain .mul) []) (Reader.operand .sum) ts := by
    rw [Reader.operand_sum]
    exact chain_offers h hmul
  have hminMax : Offers (Finishes (.chain .sum) []) (Reader.operand .minMax) ts := by
    rw [Reader.operand_minMax]
    exact chain_offers h hsum
  have hand : Offers (Finishes .negation []) (Reader.operand .and) ts := by
    rw [Reader.operand_and]
    exact negation_offers h (comparison_offers h (chain_offers h hminMax))
  cases level with
  | or =>
    rw [Reader.operand_or]
    exact chain_offers h hand
  | and => exact hand
  | minMax => exact hminMax
  | sum => exact hsum
  | mul => exact hmul

theorem targetRest_parses {before : List Token} {reader : Reader Tree} (h : Shorter ts)
    (hreader : Parses (Finishes .location before) reader ts) :
    Parses (Finishes .expression before) (reader >>= Reader.targetRest) ts := by
  refine hreader.bind ?_ ?_
  · intro target used htarget
    refine ⟨[], target, ?_⟩
    rw [List.append_nil]
    exact .simple (.single (.operand (.plain (.location htarget)) .or))
  intro target used rest hts _ htarget
  have hle := length_of_append hts
  refine .next (fun _ => .next (fun _ => ?_) ?_) ?_
  · have hread : Parses (Finishes .unary (before ++ used)) (pure target) rest := by
      refine .ok ?_
      rw [Finishes, List.append_nil]
      exact .plain (.location htarget)
    refine (simpleRest_parses (h.mono hle) hread).mono ?_
    intro value us hvalue
    rw [Finishes, ← List.append_assoc]
    exact .simple hvalue
  · intro op behind _ hop
    refine .ok ?_
    rw [Finishes, ← List.append_assoc]
    exact .step htarget ((Token.isOperator_iff _ _).1 hop)
  · intro op behind hrest hop
    have hlt := Nat.lt_of_lt_of_le (length_of_cons hrest) hle
    refine ((h.expression behind hlt).must begins_expression).map ?_
    intro value us hvalue
    rw [Finishes, ← List.append_assoc]
    exact .assign htarget ((Token.isOperator_iff _ _).1 hop) hvalue

theorem expression_offers (h : Shorter ts) : Offers (Finishes .expression []) Reader.expression ts := by
  have hsimple : Offers (Finishes .expression []) (Reader.chain .or) ts :=
    (chain_offers h (operand_offers h .or)).mono fun t us ht => .simple ht
  refine byHead Token.isIdentifier ts ?_ ?_
  · intro hname
    refine hsimple.congr ?_
    intro us hus
    exact Reader.expression_of_not_identifier (eat?_eq_none (hus ▸ hname))
  · rintro name rest rfl hname
    have hkind := (Token.isIdentifier_iff name).1 hname
    have hle : rest.length ≤ (name :: rest).length := Nat.le_succ _
    by_cases hcall : startsCall (name :: rest) = true
    · have hread : Parses (Finishes .unary [name]) (Reader.callRest name) rest :=
        (callRest_parses hkind h).mono fun t us ht => .plain ht
      refine .takes ?_ ((simpleRest_parses (h.mono hle) hread).mono fun t us ht => .simple ht)
      intro us hus
      have hcall' := (startsCall_congr hus).trans hcall
      rw [Reader.expression_of_call hcall']
      exact Reader.simple_takes (identifier_not_negation hname)
        ((Reader.unary_of_not (identifier_not_unary hname us)).trans (Reader.factor_call hname hcall'))
    · rw [Bool.not_eq_true] at hcall
      refine .takes ?_ (targetRest_parses (h.mono hle) (locationRest_parses hkind h))
      intro us hus
      exact Reader.expression_takes hname ((startsCall_congr hus).trans hcall)

theorem shorter (ts : List Token) : Shorter ts :=
  ⟨fun us _ => expression_offers (shorter us), fun level us _ => operand_offers (shorter us) level⟩
termination_by ts.length

theorem simpleExpression_offers (ts : List Token) :
    Offers (Finishes (.chain .or) []) (Reader.chain .or) ts :=
  chain_offers (shorter ts) (operand_offers (shorter ts) .or)

end Grammar

end StackCompiler
