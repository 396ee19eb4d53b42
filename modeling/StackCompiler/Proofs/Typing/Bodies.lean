import StackCompiler.Proofs.Typing.Declarations

/-!
Function bodies are lowered exactly if they are well formed. One direction follows the outline of a
lowered body, the other the rules.
-/

set_option autoImplicit false
namespace StackCompiler.Typing

open Lowering
open ScopeChain

variable {functions : Functions} {table : FunctionTable} {result : Ty} {c c' : ScopeChain}

/-! From lowering to the rules. -/

theorem hasType_of_emits (hfunctions : Holds functions table) {ty : Ty} {t : Tree} {code : Code}
    (hsource : t.FromSource) (h : Emits table ty t c code c') :
    HasType functions c.environment t ty ∧ c'.environment = c.environment :=
  hasType_of_lowers hfunctions hsource h.lowers

theorem hasType_of_effect (hfunctions : Holds functions table) {t : Tree} {code : Code}
    (hsource : t.FromSource) (h : EmitsEffect table t c code c') :
    (∃ ty, HasType functions c.environment t ty) ∧ c'.environment = c.environment := by
  have hsingle : ∀ u ∈ [t], u.FromSource := List.forall_mem_singleton.2 hsource
  rcases h.lowers with hlowers | ⟨ty, hlowers⟩ | ⟨ty, value, -, -, hlowers⟩
  · exact ⟨⟨_, typed_of_lowers hfunctions hlowers hsingle⟩, hlowers.temps.environment⟩
  · exact ⟨⟨ty, typed_of_lowers hfunctions hlowers hsingle⟩, hlowers.temps.environment⟩
  · exact ⟨⟨ty, typed_of_lowers hfunctions hlowers hsingle⟩, hlowers.temps.environment⟩

theorem hasType_of_counts (hfunctions : Holds functions table) {counter : Place} {bounds : List Tree}
    {r : Counting} (hsource : ∀ t ∈ bounds, t.FromSource) (h : Counts table counter bounds c r c') :
    bounds ≠ [] ∧ (∀ t ∈ bounds, HasType functions c.environment t .int) ∧
      c'.environment = c.environment := by
  cases h with
  | start initial limit =>
    obtain ⟨hfirst, henv⟩ := hasType_of_emits hfunctions (hsource _ (by simp)) initial
    have hlimit := (temps_reserveTemp limit).environment
    exact ⟨by simp, by simpa using hfirst, hlimit.trans henv⟩
  | upTo initial final limit =>
    obtain ⟨hfirst, henv⟩ := hasType_of_emits hfunctions (hsource _ (by simp)) initial
    obtain ⟨hlast, henv'⟩ := hasType_of_emits hfunctions (hsource _ (by simp)) final
    rw [henv] at hlast henv'
    have hlimit := (temps_reserveTemp limit).environment
    exact ⟨by simp, by simpa using ⟨hfirst, hlast⟩, hlimit.trans henv'⟩
  | stride initial final increment limit held =>
    obtain ⟨hfirst, henv⟩ := hasType_of_emits hfunctions (hsource _ (by simp)) initial
    obtain ⟨hlast, henv'⟩ := hasType_of_emits hfunctions (hsource _ (by simp)) final
    obtain ⟨hthird, henv''⟩ := hasType_of_emits hfunctions (hsource _ (by simp)) increment
    rw [henv'] at hthird henv''
    rw [henv] at hlast hthird henv''
    have hlimit := (temps_reserveTemp limit).environment
    have hheld := (temps_reserveTemp held).environment
    exact ⟨by simp, by simpa using ⟨hfirst, hlast, hthird⟩, (hheld.trans hlimit).trans henv''⟩

def PartTyped (functions : Functions) (result : Ty) (inLoop : Bool) (c c' : ScopeChain) : Part → Prop
  | .statement t => t.FromSource →
    WellFormed functions result inLoop c.environment (.statement t) ∧ c'.environment = c.environment
  | .items ts => (∀ t ∈ ts, t.FromSource) →
    WellFormed functions result inLoop c.environment (.items ts) ∧
      c'.environment.tail = c.environment.tail
  | .declarators base _ _ nodes => (∀ node ∈ nodes, node.FromSource ∧ node.tag = .varDeclInit) →
    Declares functions base c.environment nodes c'.environment

theorem typed_of_outlines (hfunctions : Holds functions table) {inLoop : Bool} {part : Part} {b : Stmt}
    (h : Outlines table result inLoop part c b c') : PartTyped functions result inLoop c c' part := by
  induction h with
  | empty => exact fun _ => ⟨.empty, rfl⟩
  | expression effect =>
    intro hsource
    obtain ⟨⟨ty, htype⟩, henv⟩ :=
      hasType_of_effect hfunctions (hsource.child (by simp [Tree.marked])) effect
    exact ⟨.expression htype, henv⟩
  | compound _ inner =>
    intro hsource
    obtain ⟨hitems, htail⟩ := inner fun t ht => hsource.child ht
    rw [environment_enter] at hitems htail
    exact ⟨.compound hitems, environment_exit htail⟩
  | ifThen condition _ branch =>
    intro hsource
    obtain ⟨htest, henv⟩ := hasType_of_emits hfunctions (hsource.child (by simp [Tree.marked])) condition
    obtain ⟨hyes, henv'⟩ := branch (hsource.child (by simp [Tree.marked]))
    rw [henv] at hyes henv'
    exact ⟨.ifThen htest hyes, henv'⟩
  | ifElse condition _ _ branch other =>
    intro hsource
    obtain ⟨htest, henv⟩ := hasType_of_emits hfunctions (hsource.child (by simp [Tree.marked])) condition
    obtain ⟨hyes, henv'⟩ := branch (hsource.child (by simp [Tree.marked]))
    obtain ⟨hno, henv''⟩ := other (hsource.child (by simp [Tree.marked]))
    rw [henv] at hyes henv'
    rw [henv'] at hno henv''
    exact ⟨.ifElse htest hyes hno, henv''⟩
  | whileDo condition _ loop =>
    intro hsource
    obtain ⟨htest, henv⟩ := hasType_of_emits hfunctions (hsource.child (by simp [Tree.marked])) condition
    obtain ⟨hbody, henv'⟩ := loop (hsource.child (by simp [Tree.marked]))
    rw [henv] at hbody henv'
    exact ⟨.whileDo htest hbody, henv'⟩
  | @forTo _ _ bounds _ _ _ _ _ _ _ counter isInt range _ loop =>
    intro hsource
    have hrange : (Tree.inner .iterRange bounds).FromSource := hsource.child (by simp [Tree.marked])
    obtain ⟨hnonempty, hbounds, henv⟩ := hasType_of_counts hfunctions (fun t ht => hrange.child ht) range
    obtain ⟨hbody, henv'⟩ := loop (hsource.child (by simp [Tree.marked]))
    rw [henv] at hbody henv'
    have hcounter := typeOf_of_resolve counter
    rw [isInt] at hcounter
    exact ⟨.forTo hcounter hnonempty hbounds hbody, henv'⟩
  | returnPlain isVoid => exact fun _ => ⟨.returnPlain isVoid, rfl⟩
  | returnValue value =>
    intro hsource
    obtain ⟨htype, henv⟩ := hasType_of_emits hfunctions (hsource.child (by simp [Tree.marked])) value
    exact ⟨.returnValue htype, henv⟩
  | breakLoop => exact fun _ => ⟨.breakLoop, rfl⟩
  | noItems => exact fun _ => ⟨.noItems, rfl⟩
  | declaration isDecl type _ _ _ setups more =>
    intro hsource
    rw [List.forall_mem_cons] at hsource
    have hvariables := setups fun node hnode =>
      ⟨hsource.1.child ((List.mem_filter.1 hnode).1), by simpa using (List.mem_filter.1 hnode).2⟩
    obtain ⟨hrest, htail⟩ := more hsource.2
    exact ⟨.declaration isDecl type hvariables hrest, htail.trans hvariables.tail⟩
  | statement isStmt _ _ step more =>
    intro hsource
    rw [List.forall_mem_cons] at hsource
    obtain ⟨hfirst, henv⟩ := step hsource.1
    obtain ⟨hrest, htail⟩ := more hsource.2
    rw [henv] at hrest htail
    exact ⟨.item isStmt hfirst hrest, htail⟩
  | noDeclarators => exact fun _ => .done
  | declarator emitted _ _ more =>
    intro hsource
    rw [List.forall_mem_cons] at hsource
    obtain ⟨⟨hnode, htag⟩, hrest⟩ := hsource
    obtain ⟨name, length, init, rfl, hlength, hinit⟩ := hnode.declarator htag
    have hinit' : ∀ e ∈ init, IsExpression e ∧ e.FromSource := fun e he =>
      ⟨hinit e he, hnode.child (List.mem_cons_of_mem _ (Option.mem_toList.2 he))⟩
    obtain ⟨hsized, hinitial, hnew, henv⟩ := declarator_typed hfunctions hlength hinit' emitted
    have hmore := more hrest
    rw [henv] at hmore
    exact .declarator hsized hinitial hnew hmore

/-! From the rules to lowering. -/

theorem HasType.value_succeeds (hfunctions : Holds functions table) {ty : Ty} {t : Tree}
    (h : HasType functions c.environment t ty) (hsource : t.FromSource) :
    ∃ code c', valueOf table ty t c = .ok code c' ∧ c'.environment = c.environment := by
  obtain ⟨code, c', hrun, henv⟩ := h.evaluates hfunctions hsource
  exact ⟨code, c', valueOf_iff.2 hrun, henv⟩

/-- An assignment can drop its value as well as keep it. -/
theorem stored_either {keep : Bool} {t : Tree} {ty : Ty} {code : Code}
    (h : Lowers table (.stored keep t) c ty code c') (keep' : Bool) :
    ∃ code c', Lowers table (.stored keep' t) c ty code c' ∧ c'.environment = c.environment := by
  have hstore : ∀ {op : Option Instr} {target : Tree} {source : Source} {ty : Ty} {code : Code}
      {c c' : ScopeChain}, Lowers table (.store keep op target source) c ty code c' →
        ∃ code c', Lowers table (.store keep' op target source) c ty code c' := by
    intro op target source ty code c c' hstore
    cases hstore with
    | storeVariable hfound storing inner _ =>
      obtain ⟨code, c', hassign⟩ := assign_succeeds _ _ op keep' _
      exact ⟨code, c', .storeVariable hfound storing inner hassign⟩
    | storeElement hfound harray storing outer inner _ =>
      obtain ⟨code, c', hassign⟩ := assign_succeeds _ _ op keep' _
      exact ⟨code, c', .storeElement hfound harray storing outer inner hassign⟩
  cases h with
  | assign hop inner =>
    obtain ⟨code, c', hinner⟩ := hstore inner
    exact ⟨code, c', .assign hop hinner, hinner.temps.environment⟩
  | step hop inner =>
    obtain ⟨code, c', hinner⟩ := hstore inner
    exact ⟨code, c', .step hop hinner, hinner.temps.environment⟩

theorem stored_of_tag {t : Tree} {ty : Ty} {code : Code} (h : Lowers table (.value t) c ty code c')
    (htag : t.tag = .assign ∨ t.tag = .incDec) : Lowers table (.stored true t) c ty code c' := by
  cases h with
  | kept inner => exact inner
  | @chain level => cases level <;> simp [Grammar.Level.tag] at htag
  | _ => simp at htag

theorem HasType.effect_succeeds (hfunctions : Holds functions table) {ty : Ty} {t : Tree}
    (h : HasType functions c.environment t ty) (hsource : t.FromSource) :
    ∃ code c', expressionStatement table [t] c = .ok code c' ∧ c'.environment = c.environment := by
  obtain ⟨code, c', hlowers⟩ := h.accepts hfunctions hsource c rfl
  by_cases htag : t.tag = .assign ∨ t.tag = .incDec
  · obtain ⟨code, c', hdropped, henv⟩ := stored_either (stored_of_tag hlowers htag) false
    exact ⟨code, c', hdropped.stored_statement, henv⟩
  · obtain ⟨hassign, hstep⟩ := not_or.1 htag
    exact ⟨_, c', hlowers.value_statement hassign hstep, hlowers.temps.environment⟩

theorem valueOf?_succeeds (hfunctions : Holds functions table) {ty : Ty} {part : Option Tree}
    (h : ∀ t ∈ part, HasType functions c.environment t ty ∧ t.FromSource) :
    ∃ code c', valueOf? table ty part c = .ok code c' ∧ c'.environment = c.environment := by
  cases part with
  | none => exact ⟨none, c, rfl, rfl⟩
  | some t =>
    obtain ⟨htype, hsource⟩ := h t rfl
    obtain ⟨code, c', hrun, henv⟩ := htype.value_succeeds hfunctions hsource
    exact ⟨some code, c', map_ok.2 ⟨code, hrun, rfl⟩, henv⟩

theorem range_succeeds (hfunctions : Holds functions table) (counter : Place) {bounds : List Tree}
    (nonempty : bounds ≠ []) (h : ∀ t ∈ bounds, HasType functions c.environment t .int ∧ t.FromSource) :
    ∃ r c', range table counter (.inner .iterRange bounds) c = .ok r c' ∧
      c'.environment = c.environment := by
  obtain ⟨first, rest, rfl⟩ := List.exists_cons_of_ne_nil nonempty
  obtain ⟨htype, hsource⟩ := h first (by simp)
  obtain ⟨start, c₁, hstart, henv₁⟩ := htype.value_succeeds hfunctions hsource
  have hpart : ∀ (i : Nat) {c₂ : ScopeChain}, c₂.environment = c.environment →
      ∀ t ∈ (first :: rest)[i]?, HasType functions c₂.environment t .int ∧ t.FromSource := by
    intro i c₂ henv t ht
    rw [henv]
    exact h t (List.mem_of_getElem? ht)
  obtain ⟨stop, c₂, hstop, henv₂⟩ := valueOf?_succeeds hfunctions (hpart 1 henv₁)
  obtain ⟨step, c₃, hstep, henv₃⟩ := valueOf?_succeeds hfunctions (hpart 2 (henv₂.trans henv₁))
  have henv : c₃.environment = c.environment := (henv₃.trans henv₂).trans henv₁
  obtain ⟨bound, c₄, hreserve⟩ : ∃ bound c₄, c₃.reserveTemp .int = (bound, c₄) := ⟨_, _, rfl⟩
  have hbound := (temps_reserveTemp hreserve).environment
  cases step with
  | none =>
    exact ⟨_, c₄, range_iff.2 ⟨first, ⟨counter, start, stop, none, bound⟩, c₁, c₂, c₃, c₄, rfl, rfl, hstart, hstop,
      hstep, hreserve, rfl, rfl⟩, hbound.trans henv⟩
  | some step =>
    obtain ⟨temp, c₅, hheld⟩ : ∃ temp c₅, c₄.reserveTemp .int = (temp, c₅) := ⟨_, _, rfl⟩
    have htemp := (temps_reserveTemp hheld).environment
    exact ⟨_, c₅, range_iff.2 ⟨first, ⟨counter, start, stop, some (step, temp), bound⟩, c₁, c₂, c₃, c₄, rfl, rfl,
      hstart, hstop, hstep, hreserve, hheld, rfl⟩, (htemp.trans hbound).trans henv⟩

structure Unhoisted (t : Tree) : Prop where
  source : t.FromSource
  static : t.any initializesStatic = false

theorem Unhoisted.child {t u : Tree} (h : Unhoisted t) (hu : u ∈ t.children) : Unhoisted u :=
  ⟨h.source.child hu, Tree.child_of_not_any h.static hu⟩

/-- A hoisted declarator has no initial value. -/
theorem Unhoisted.uninitialized {node : Tree} (h : Unhoisted node) (isDecl : node.tag = .varDecl)
    {depth : Nat} (hhoisted : (storageOf depth node = .static && depth ≠ 1) = true) :
    ∀ d ∈ node.declarators, d.children[1]? = none := by
  simp only [Bool.and_eq_true, decide_eq_true_eq, ne_eq] at hhoisted
  have hkeyword : (node.find? .static).isSome = true := by
    obtain ⟨hstorage, hdepth⟩ := hhoisted
    unfold storageOf at hstorage
    split at hstorage
    next hstatic => exact hstatic.resolve_left hdepth
    next => cases hstorage
  intro d hd
  have hnode : initializesStatic node = false := Tree.root_of_not_any h.static
  simp only [initializesStatic, isDecl, hkeyword, beq_self_eq_true, Bool.true_and] at hnode
  simpa using List.any_eq_false.1 hnode d hd

def ClauseLowered (table : FunctionTable) (result : Ty) (inLoop : Bool) (env : Environment) : Clause → Prop
  | .statement t => Unhoisted t → ∀ (ctx : Context) (s : BodyState), ctx.result = result →
    (inLoop = true → ctx.loopExit.isSome = true) → s.scopes.environment = env →
      ∃ code s', statement table ctx t s = .ok code s' ∧ s'.scopes.environment = env
  | .items ts => (∀ t ∈ ts, Unhoisted t) → ∀ (ctx : Context) (s : BodyState), ctx.result = result →
    (inLoop = true → ctx.loopExit.isSome = true) → s.scopes.environment = env →
      ∃ code s', blockItems table ctx ts s = .ok code s' ∧ s'.scopes.environment.tail = env.tail

theorem declaration_succeeds (hfunctions : Holds functions table) {node : Tree} {base : Ty}
    {env env' : Environment} (isDecl : node.tag = .varDecl) (type : baseType node = .ok base)
    (declares : Declares functions base env node.declarators env') (hnode : Unhoisted node)
    {s : BodyState} (henv : s.scopes.environment = env) :
    ∃ code s', declaration table node s = .ok code s' ∧ s'.scopes.environment = env' := by
  have hsource : ∀ d ∈ node.declarators, d.FromSource :=
    fun d hd => hnode.source.child (List.mem_filter.1 hd).1
  obtain ⟨code, s', hrun, henv'⟩ := @Declares.succeeds functions table base
    (storageOf s.scopes.depth node) _ hfunctions _ _ _ declares hsource (hnode.uninitialized isDecl) s henv
  exact ⟨code, s', declaration_iff.2 ⟨base, type, hrun⟩, henv'⟩

theorem WellFormed.succeeds (hfunctions : Holds functions table) {inLoop : Bool} {env : Environment}
    {clause : Clause} (h : WellFormed functions result inLoop env clause) :
    ClauseLowered table result inLoop env clause := by
  -- The body of a loop gets an exit of its own, so `break` needs no more than that some loop is around it.
  induction h with
  | empty => exact fun _ ctx s _ _ henv => ⟨[], s, statement_empty.2 ⟨rfl, rfl⟩, henv⟩
  | expression htype =>
    rintro ht ctx s - - rfl
    obtain ⟨code, c', hrun, henv⟩ :=
      htype.effect_succeeds hfunctions (ht.child (by simp [Tree.marked])).source
    exact ⟨code, _, statement_expression.2 ⟨c', hrun, rfl⟩, henv⟩
  | @compound _ _ token items _ inner =>
    rintro ht ctx s hresult hloop rfl
    have hitems : ∀ t ∈ items, Unhoisted t := fun t hmem => ht.child hmem
    obtain ⟨code, s', hrun, htail⟩ := inner hitems ctx { s with scopes := s.scopes.enter .block } hresult
      hloop (environment_enter ..)
    exact ⟨code, _, statement_compound.2 ⟨s', hrun, rfl⟩, environment_exit htail⟩
  | @ifThen _ _ token test yes htest _ branch =>
    rintro ht ctx s hresult hloop rfl
    obtain ⟨condition, c₁, hcondition, henv₁⟩ :=
      htest.value_succeeds hfunctions (ht.child (by simp [Tree.marked])).source
    obtain ⟨first, s', hfirst, henv'⟩ := branch (ht.child (by simp [Tree.marked])) ctx
      ⟨c₁, s.staticInit, s.nextLabel + 1⟩ hresult hloop henv₁
    exact ⟨_, s', statement_ifThen.2 ⟨condition, c₁, first, hcondition, hfirst, rfl⟩, henv'⟩
  | @ifElse _ _ token test yes no htest _ _ branch other =>
    rintro ht ctx s hresult hloop rfl
    obtain ⟨condition, c₁, hcondition, henv₁⟩ :=
      htest.value_succeeds hfunctions (ht.child (by simp [Tree.marked])).source
    obtain ⟨first, s₂, hfirst, henv₂⟩ := branch (ht.child (by simp [Tree.marked])) ctx
      ⟨c₁, s.staticInit, s.nextLabel + 2⟩ hresult hloop henv₁
    obtain ⟨second, s', hsecond, henv'⟩ := other (ht.child (by simp [Tree.marked])) ctx s₂ hresult hloop henv₂
    exact ⟨_, s', statement_ifElse.2 ⟨condition, c₁, first, s₂, second, hcondition, hfirst, hsecond, rfl⟩, henv'⟩
  | @whileDo _ _ token test body htest _ loop =>
    rintro ht ctx s hresult hloop rfl
    obtain ⟨condition, c₁, hcondition, henv₁⟩ :=
      htest.value_succeeds hfunctions (ht.child (by simp [Tree.marked])).source
    obtain ⟨inner, s', hinner, henv'⟩ := loop (ht.child (by simp [Tree.marked]))
      { ctx with loopExit := some (s.nextLabel + 2) } ⟨c₁, s.staticInit, s.nextLabel + 3⟩ hresult
      (fun _ => rfl) henv₁
    exact ⟨_, s', statement_while.2 ⟨condition, c₁, inner, hcondition, hinner, rfl⟩, henv'⟩
  | @forTo _ _ name bounds body hcounter nonempty range _ loop =>
    rintro ht ctx s hresult hloop rfl
    have hrange : Unhoisted (.inner .iterRange bounds) := ht.child (by simp [Tree.marked])
    obtain ⟨symbol, hsymbol, hint⟩ := resolve_of_typeOf hcounter
    obtain ⟨r, c₁, hr, henv₁⟩ := range_succeeds hfunctions symbol.place nonempty
      fun t hmem => ⟨range t hmem, (hrange.child hmem).source⟩
    obtain ⟨inner, s', hinner, henv'⟩ := loop (ht.child (by simp [Tree.marked]))
      { ctx with loopExit := some (s.nextLabel + 2) } ⟨c₁, s.staticInit, s.nextLabel + 3⟩ hresult
      (fun _ => rfl) henv₁
    exact ⟨_, s', statement_for.2 ⟨symbol, r, c₁, inner, hsymbol, hint, hr, hinner, rfl⟩, henv'⟩
  | returnPlain isVoid =>
    intro _ ctx s hresult _ henv
    exact ⟨_, s, statement_returnPlain.2 ⟨hresult.trans isVoid, rfl, rfl⟩, henv⟩
  | returnValue htype =>
    rintro ht ctx s rfl - rfl
    obtain ⟨code, c', hrun, henv⟩ :=
      htype.value_succeeds hfunctions (ht.child (by simp [Tree.marked])).source
    exact ⟨_, _, statement_return.2 ⟨code, c', hrun, rfl, rfl⟩, henv⟩
  | breakLoop =>
    rintro - ctx s - hloop henv
    obtain ⟨exit, hexit⟩ := Option.isSome_iff_exists.1 (hloop rfl)
    exact ⟨_, s, statement_break.2 ⟨exit, hexit, rfl, rfl⟩, henv⟩
  | noItems => exact fun _ ctx s _ _ henv => ⟨[], s, items_nil.2 ⟨rfl, rfl⟩, by rw [henv]⟩
  | declaration isDecl type declares _ more =>
    intro ht ctx s hresult hloop henv
    rw [List.forall_mem_cons] at ht
    obtain ⟨code, s₁, hfirst, henv₁⟩ := declaration_succeeds hfunctions isDecl type declares ht.1 henv
    obtain ⟨rest, s', hrest, htail⟩ := more ht.2 ctx s₁ hresult hloop henv₁
    exact ⟨_, s', (items_variables isDecl).2 ⟨code, s₁, rest, hfirst, hrest, rfl⟩, htail.trans declares.tail⟩
  | item isStmt _ _ first more =>
    intro ht ctx s hresult hloop henv
    rw [List.forall_mem_cons] at ht
    obtain ⟨code, s₁, hfirst, henv₁⟩ := first ht.1 ctx s hresult hloop henv
    obtain ⟨rest, s', hrest, htail⟩ := more ht.2 ctx s₁ hresult hloop henv₁
    exact ⟨_, s', (items_statement isStmt).2 ⟨code, s₁, rest, hfirst, hrest, rfl⟩, htail⟩

end StackCompiler.Typing
