import StackCompiler.Proofs.Lowering.Containment
import StackCompiler.Proofs.Typing.Programs

/-!
The calls of a function body: those in its code are linked to the calls that stand in the body, except that
the initializers of `static` variables call in the setup.
-/

set_option autoImplicit false
namespace StackCompiler

open Lowering Typing Shape

namespace Tree

variable {tag : Tag} {token : Token} {children : List Tree}

/-! The calls of statements and declarations. -/

theorem ownCalls_parts {t : Tree} (h : t.declaresStatic = false) (h' : t.isCall = false) :
    t.ownCalls = t.children.flatMap ownCalls :=
  collect_parts h h'

theorem ownCalls_marked (htag : tag ≠ .varDecl ∧ tag ≠ .call) :
    (marked tag token children).ownCalls = children.flatMap ownCalls :=
  ownCalls_parts (by simp [declaresStatic, marked, htag.1]) (by simp [isCall, marked, htag.2])

theorem ownCalls_inner (htag : tag ≠ .varDecl) : (inner tag children).ownCalls = children.flatMap ownCalls :=
  ownCalls_parts (by simp [declaresStatic, inner, htag]) (by simp [isCall, inner])

theorem staticCalls_parts {t : Tree} (h : t.declaresStatic = false) :
    t.staticCalls = t.children.flatMap staticCalls := by
  rw [staticCalls, collect_parts rfl h, List.flatMap_assoc]
  rfl

theorem staticCalls_marked (htag : tag ≠ .varDecl) :
    (marked tag token children).staticCalls = children.flatMap staticCalls :=
  staticCalls_parts (by simp [declaresStatic, marked, htag])

theorem staticCalls_inner (htag : tag ≠ .varDecl) :
    (inner tag children).staticCalls = children.flatMap staticCalls :=
  staticCalls_parts (by simp [declaresStatic, inner, htag])

/-- The declaration of `static` variables keeps its calls for their setup. -/
theorem calls_static {t : Tree} (h : t.declaresStatic = true)
    (below : ∀ u ∈ t.children, u.any declaresStatic = false) : t.ownCalls = [] ∧ t.staticCalls = t.calls := by
  have hbelow : t.children.flatMap (collect (fun _ => false) declaresStatic) = [] :=
    List.flatMap_eq_nil_iff.2 fun u hu => collect_none u (below u hu)
  refine ⟨collect_skipped h, ?_⟩
  rw [staticCalls, collect_node rfl, h, hbelow, if_pos rfl, List.append_nil, List.flatMap_singleton]

theorem ownCalls_of_not_any {t : Tree} (h : t.any declaresStatic = false) : t.ownCalls = t.calls :=
  collect_unskipped t h

theorem staticCalls_of_not_any {t : Tree} (h : t.any declaresStatic = false) : t.staticCalls = [] := by
  rw [staticCalls, collect_none t h]
  rfl

theorem calls_declarator (name : Token) (length : Option Token) (init : Option Tree) :
    (declaratorNode name length init).calls = init.toList.flatMap calls := by
  cases length <;> simp [declaratorNode, calls_inner, calls_marked]

end Tree

namespace Lowering

variable {table : FunctionTable} {c c' : ScopeChain} {ty : Ty} {code : Code}

/-- An expression declares nothing. -/
theorem Lowers.declares_nothing {form : Form} (h : Lowers table form c ty code c') :
    ∀ t ∈ form.trees, t.any Tree.declaresStatic = false := by
  induction h with
  | @chain level =>
    cases level <;> simp_all [Form.trees, Tree.any, Tree.anyOf_eq_false, Tree.inner, Tree.declaresStatic,
      Grammar.Level.tag]
  | _ =>
    simp_all [Form.trees, Source.trees, Tree.any, Tree.anyOf_eq_false, Tree.inner, Tree.marked,
      Tree.declaresStatic]

/-- All calls of an expression are its own. -/
theorem Lowers.expression_linked {t : Tree} (h : Lowers table (.value t) c ty code c') :
    Linked (Refers table) (callees code) t.ownCalls ∧ t.staticCalls = [] := by
  have hnone := h.declares_nothing t (by simp [Form.trees])
  have hlinked := h.linked
  simp only [Form.trees, List.flatMap_singleton] at hlinked
  exact ⟨Tree.ownCalls_of_not_any hnone ▸ hlinked, Tree.staticCalls_of_not_any hnone⟩

/-! Bodies. -/

/-- What a part of a body adds: calls in its place, and calls in the setup of static variables. -/
structure Links (R : Nat → Tree → Prop) (s s' : BodyState) (handles : List Nat) (own hoisted : List Tree) :
    Prop where
  own : Linked R handles own
  init : ∃ more, callees s'.staticInit.code = callees s.staticInit.code ++ more ∧ Linked R more hoisted

namespace Links

variable {R : Nat → Tree → Prop} {s s₁ s' : BodyState} {handles more : List Nat}
  {own own' hoisted hoisted' : List Tree}

/-- A part without `static` variables. -/
theorem quiet (h : Linked R handles own) (same : s'.staticInit = s.staticInit) :
    Links R s s' handles own [] :=
  ⟨h, [], by rw [same, List.append_nil], .nil⟩

theorem expression (h : Linked R handles own) (c' : ScopeChain) (next : Label) :
    Links R s ⟨c', s.staticInit, next⟩ handles own [] :=
  quiet h rfl

theorem seq (h : Links R s s₁ handles own hoisted) (h' : Links R s₁ s' more own' hoisted') :
    Links R s s' (handles ++ more) (own ++ own') (hoisted ++ hoisted') := by
  obtain ⟨first, hfirst, hlinked⟩ := h.init
  obtain ⟨second, hsecond, hlinked'⟩ := h'.init
  exact ⟨h.own.append h'.own, first ++ second, by rw [hsecond, hfirst, List.append_assoc],
    hlinked.append hlinked'⟩

/-- Code may come in another order than its source. -/
theorem swap (h : Links R s s₁ handles own hoisted) (h' : Links R s₁ s' more own' hoisted') :
    Links R s s' (more ++ handles) (own ++ own') (hoisted ++ hoisted') :=
  ⟨(h'.own.append h.own).perm List.perm_append_comm, (h.seq h').init⟩

end Links

variable {s s' : BodyState}

theorem valueOf_links {t : Tree} (ht : IsExpression t) (h : valueOf table ty t c = .ok code c') :
    Linked (Refers table) (callees code) t.ownCalls ∧ t.staticCalls = [] :=
  (lowers_of_valueOf ht h).expression_linked

theorem effect_links {t : Tree} (h : Effect table t c code c') :
    Linked (Refers table) (callees code) t.ownCalls ∧ t.staticCalls = [] := by
  cases h with
  | stored lowers =>
    have hnone := lowers.declares_nothing t (by simp [Form.trees])
    have hlinked := lowers.linked
    simp only [Form.trees, List.flatMap_singleton] at hlinked
    exact ⟨Tree.ownCalls_of_not_any hnone ▸ hlinked, Tree.staticCalls_of_not_any hnone⟩
  | @value ty value _ _ _ lowers =>
    have hcallees : callees (if ty = .void then value else value ++ [.pop]) = callees value := by
      split <;> simp
    rw [hcallees]
    exact lowers.expression_linked

theorem counts_links {counter : Place} {parts : List Tree} {r : Counting}
    (h : Counts table counter parts c r c') :
    Linked (Refers table) (callees r.range.code) (parts.flatMap Tree.ownCalls) ∧
      parts.flatMap Tree.staticCalls = [] := by
  cases h with
  | start initial =>
    obtain ⟨hfirst, hnone⟩ := initial.lowers.expression_linked
    simpa [Counting.range, Counting.head, hnone] using hfirst
  | upTo initial final =>
    obtain ⟨hfirst, hnone⟩ := initial.lowers.expression_linked
    obtain ⟨hlast, hnone'⟩ := final.lowers.expression_linked
    simpa [Counting.range, Counting.head, hnone, hnone'] using hfirst.append hlast
  | stride initial final increment =>
    obtain ⟨hfirst, hnone⟩ := initial.lowers.expression_linked
    obtain ⟨hlast, hnone'⟩ := final.lowers.expression_linked
    obtain ⟨hstep, hnone''⟩ := increment.lowers.expression_linked
    simpa [Counting.range, Counting.head, hnone, hnone', hnone''] using (hfirst.append hlast).append hstep

/-- What a loop does after each turn calls nothing. -/
theorem callees_turn (r : Counting) : callees r.range.advance = [] ∧ callees r.range.test = [] := by
  refine ⟨?_, by simp [Range.test]⟩
  obtain ⟨counter, start, stop, step, bound⟩ := r
  cases step <;> simp [Range.advance, Counting.range]

theorem callees_setup (setup : Setup) (label : Label) :
    callees (setup.code label) = callees setup.initial := by
  cases setup with
  | nothing => rfl
  | scalar => simp [Setup.code, Setup.initial]
  | array place element length fill => cases fill <;> simp [Setup.code, Setup.initial, Fill.code]

/-- The setup of a variable calls what its initializer calls, which declares nothing. -/
theorem declarator_links {base : Ty} {storage : Storage} {hoisted : Bool} {node : Tree} {setup : Setup}
    (hnode : Shape.Declarator node) (h : declarator table base storage hoisted node c = .ok setup c') :
    Linked (Refers table) (callees setup.initial) node.calls ∧ node.any Tree.declaresStatic = false := by
  cases hnode with
  | @mk name length init hinit =>
    obtain ⟨size, value, c₁, -, hvalue, hslots⟩ := declaratorNode_iff.1 h
    have hname : ∀ init : List Tree, (∀ e ∈ init, e.any Tree.declaresStatic = false) →
        (Tree.inner .varDeclInit (.marked .varDeclId name
          (length.map fun n => Tree.marked .constant n []).toList :: init)).any Tree.declaresStatic =
            false := by
      intro init hinit
      cases length <;> simpa [Tree.any, Tree.anyOf_eq_false, Tree.inner, Tree.marked, Tree.declaresStatic]
        using hinit
    rw [hslots.initial, Tree.calls_declarator]
    cases initial_of_run hinit hvalue with
    | none => exact ⟨.nil, hname [] (by simp)⟩
    | some lowers =>
      refine ⟨by simpa [Form.trees] using lowers.linked, hname [_] ?_⟩
      simpa using lowers.declares_nothing _ (List.mem_singleton_self _)

/-- The nodes of a declaration call in the body, or in the setup if they are static. -/
theorem declarators_links {base : Ty} {storage : Storage} {hoisted : Bool} {nodes : List Tree}
    (each : ∀ node ∈ nodes, Shape.Declarator node)
    (h : declarators table base storage hoisted nodes s = .ok code s') :
    Links (Refers table) s s' (callees code) (if storage = .static then [] else nodes.flatMap Tree.calls)
      (if storage = .static then nodes.flatMap Tree.calls else []) ∧
    ∀ node ∈ nodes, node.any Tree.declaresStatic = false := by
  induction nodes generalizing s code with
  | nil =>
    obtain ⟨rfl, rfl⟩ := declarators_nil.1 h
    simpa using Links.quiet Linked.nil rfl
  | cons node rest ih =>
    obtain ⟨setup, c₁, more, hsetup, hmore, rfl⟩ := declarators_cons.1 h
    obtain ⟨hnode, hnone⟩ := declarator_links (each node (by simp)) hsetup
    obtain ⟨hrest, hnones⟩ := ih (fun node hmem => each node (by simp [hmem])) hmore
    refine ⟨?_, List.forall_mem_cons.2 ⟨hnone, hnones⟩⟩
    rw [callees_append, List.flatMap_cons]
    by_cases hstatic : storage = .static
    · simp only [installed, hstatic, if_true] at hrest ⊢
      refine Links.seq ⟨.nil, callees setup.initial, ?_, hnode⟩ hrest
      simp [Segment.append, callees_setup]
    · simp only [installed, hstatic, if_false, callees_setup] at hrest ⊢
      have hfirst : Links (Refers table) s ⟨c₁, s.staticInit, s.nextLabel + setup.labels⟩
          (callees setup.initial) node.calls [] := .quiet hnode rfl
      exact hfirst.seq hrest

theorem calls_variables {keyword : Option Token} {type : Token} {nodes : List Tree}
    (each : ∀ node ∈ nodes, node.tag = .varDeclInit)
    (nothing : ∀ node ∈ nodes, node.any Tree.declaresStatic = false) :
    (variablesNode keyword type nodes).calls = nodes.flatMap Tree.calls ∧
    (variablesNode keyword type nodes).ownCalls =
      (if keyword.isSome = true then [] else nodes.flatMap Tree.calls) ∧
    (variablesNode keyword type nodes).staticCalls =
      (if keyword.isSome = true then nodes.flatMap Tree.calls else []) := by
  have hstatic : (variablesNode keyword type nodes).declaresStatic = keyword.isSome :=
    static_variables keyword type each
  have hcalls : (variablesNode keyword type nodes).calls = nodes.flatMap Tree.calls := by
    cases keyword <;> simp [variablesNode, Tree.calls_inner, Tree.calls_marked]
  have howns : nodes.flatMap Tree.ownCalls = nodes.flatMap Tree.calls :=
    List.flatMap_congr fun node hnode => Tree.ownCalls_of_not_any (nothing node hnode)
  have hstatics : nodes.flatMap Tree.staticCalls = [] :=
    List.flatMap_eq_nil_iff.2 fun node hnode => Tree.staticCalls_of_not_any (nothing node hnode)
  refine ⟨hcalls, ?_⟩
  cases keyword with
  | none =>
    rw [Tree.ownCalls_parts hstatic rfl, Tree.staticCalls_parts hstatic]
    refine ⟨?_, ?_⟩
    · simpa [variablesNode, Tree.inner, Tree.ownCalls_marked] using howns
    · simpa [variablesNode, Tree.inner, Tree.staticCalls_marked] using hstatics
  | some word =>
    obtain ⟨hown, hsetup⟩ := Tree.calls_static hstatic (by
      simpa [variablesNode, Tree.inner, Tree.marked, Tree.any, Tree.anyOf_eq_false, Tree.declaresStatic] using
        nothing)
    exact ⟨hown, hsetup.trans hcalls⟩

theorem local_links {t : Tree} (ht : Local t) (inside : s.scopes.depth ≠ 1)
    (h : declaration table t s = .ok code s') :
    Links (Refers table) s s' (callees code) t.ownCalls t.staticCalls := by
  obtain ⟨keyword, ht⟩ := ht
  cases ht with
  | mk type each =>
    have htags := fun node hnode => (each node hnode).tag
    obtain ⟨base, -, hrun⟩ := (declaration_variables htags).1 h
    obtain ⟨hlinks, hnothing⟩ := declarators_links each hrun
    obtain ⟨-, hown, hstatics⟩ := @calls_variables keyword type _ htags hnothing
    rw [hown, hstatics]
    cases keyword <;> simpa [inside] using hlinks

/-- A declaration at file scope leaves no code, only setup. -/
theorem global_links {t : Tree} (ht : Variables none t) (atFile : s.scopes.depth = 1)
    (h : declaration table t s = .ok code s') :
    ∃ more, callees s'.staticInit.code = callees s.staticInit.code ++ more ∧
      Linked (Refers table) more t.calls := by
  cases ht with
  | mk type each =>
    have htags := fun node hnode => (each node hnode).tag
    obtain ⟨base, -, hrun⟩ := (declaration_variables htags).1 h
    obtain ⟨hlinks, hnothing⟩ := declarators_links each hrun
    rw [(@calls_variables none type _ htags hnothing).1]
    simpa [atFile] using hlinks.init

/-- What holds of the declarations and statements of a block, one after the other. -/
theorem items_links {ctx : Context} {items : List Tree}
    (each : ∀ t ∈ items, Local t ∨ Shape.Statement t ∧ ∀ {ctx : Context} {s s' : BodyState} {code : Code},
      s.scopes.depth ≠ 1 → statement table ctx t s = .ok code s' →
      Links (Refers table) s s' (callees code) t.ownCalls t.staticCalls)
    (inside : s.scopes.depth ≠ 1) (h : blockItems table ctx items s = .ok code s') :
    Links (Refers table) s s' (callees code) (items.flatMap Tree.ownCalls)
      (items.flatMap Tree.staticCalls) := by
  induction items generalizing s code with
  | nil =>
    obtain ⟨rfl, rfl⟩ := items_nil.1 h
    exact .quiet .nil rfl
  | cons t rest ih =>
    rw [List.forall_mem_cons] at each
    obtain ⟨hitem, hrest⟩ := each
    have hfirst : ∃ first s₁ more, Links (Refers table) s s₁ (callees first) t.ownCalls t.staticCalls ∧
        s₁.scopes.depth = s.scopes.depth ∧ blockItems table ctx rest s₁ = .ok more s' ∧
        code = first ++ more := by
      rcases hitem with hlocal | ⟨hstatement, hlinks⟩
      · obtain ⟨keyword, hvariables⟩ := hlocal
        obtain ⟨first, s₁, more, hfirst, hmore, rfl⟩ := (items_variables hvariables.tag).1 h
        have hlocal : Local t := ⟨keyword, hvariables⟩
        exact ⟨first, s₁, more, local_links hlocal inside hfirst,
          (local_contained hlocal inside hfirst).depth, hmore, rfl⟩
      · obtain ⟨first, s₁, more, hfirst, hmore, rfl⟩ := (items_statement hstatement.tag).1 h
        exact ⟨first, s₁, more, hlinks inside hfirst,
          (statement_contained hstatement inside hfirst).depth, hmore, rfl⟩
    obtain ⟨first, s₁, more, hlinks, hdepth, hmore, rfl⟩ := hfirst
    rw [callees_append, List.flatMap_cons, List.flatMap_cons]
    exact hlinks.seq (ih hrest (by rwa [hdepth]) hmore)

/-- The calls of a statement are linked, those of its `static` variables in their setup. -/
theorem statement_links {t : Tree} (ht : Shape.Statement t) {ctx : Context} (inside : s.scopes.depth ≠ 1)
    (h : statement table ctx t s = .ok code s') :
    Links (Refers table) s s' (callees code) t.ownCalls t.staticCalls := by
  induction ht generalizing ctx s s' code with
  | empty =>
    obtain ⟨rfl, rfl⟩ := statement_empty.1 h
    simpa [Tree.ownCalls_marked, Tree.staticCalls_marked] using Links.quiet .nil rfl
  | expression _ value =>
    obtain ⟨c', hrun, rfl⟩ := statement_expression.1 h
    obtain ⟨hown, hnone⟩ := effect_links (effect_of_run value hrun)
    simpa [Tree.ownCalls_marked, Tree.staticCalls_marked, hnone] using
      Links.expression (s := s) hown c' s.nextLabel
  | compound _ head body ih =>
    obtain ⟨s₁, hitems, rfl⟩ := statement_compound.1 h
    have hlinks := items_links (fun t ht => (List.mem_append.1 ht).imp (head t) fun ht => ⟨body t ht, ih t ht⟩)
      (by simp [ScopeChain.depth, ScopeChain.enter]) hitems
    rw [Tree.ownCalls_marked (by simp), Tree.staticCalls_marked (by simp)]
    exact ⟨hlinks.own, hlinks.init⟩
  | ifThen _ condition _ ih =>
    obtain ⟨test, c₁, branch, htest, hbranch, rfl⟩ := statement_ifThen.1 h
    obtain ⟨hown, hnone⟩ := valueOf_links condition htest
    have hdepth := (lowers_of_valueOf condition htest).temps.depth
    have hyes := ih (by rwa [hdepth]) hbranch
    simpa [Tree.ownCalls_marked, Tree.staticCalls_marked, hnone] using
      (Links.expression (s := s) hown c₁ (s.nextLabel + 1)).seq hyes
  | ifElse _ condition yes _ ih ih' =>
    obtain ⟨test, c₁, branch, s₂, other, htest, hbranch, hother, rfl⟩ := statement_ifElse.1 h
    obtain ⟨hown, hnone⟩ := valueOf_links condition htest
    have hdepth := (lowers_of_valueOf condition htest).temps.depth
    have hyes := ih (by rwa [hdepth]) hbranch
    have hno := ih' (by rwa [(statement_contained yes (by rwa [hdepth]) hbranch).depth, hdepth]) hother
    simpa [Tree.ownCalls_marked, Tree.staticCalls_marked, hnone] using
      ((Links.expression (s := s) hown c₁ (s.nextLabel + 2)).seq hyes).seq hno
  | whileDo _ condition _ ih =>
    obtain ⟨test, c₁, inner, htest, hinner, rfl⟩ := statement_while.1 h
    obtain ⟨hown, hnone⟩ := valueOf_links condition htest
    have hdepth := (lowers_of_valueOf condition htest).temps.depth
    have hbody := ih (by rwa [hdepth]) hinner
    simpa [Tree.ownCalls_marked, Tree.staticCalls_marked, hnone, loopCode] using
      (Links.expression (s := s) hown c₁ (s.nextLabel + 3)).swap hbody
  | forDo _ range _ ih =>
    obtain ⟨symbol, r, c₁, inner, -, -, hrange, hinner, rfl⟩ := statement_for.1 h
    obtain ⟨counting, hcounts, rfl⟩ := counts_of_ok range hrange
    obtain ⟨hown, hnone⟩ := counts_links hcounts
    have hbody := ih (by rwa [hcounts.temps.depth]) hinner
    simpa [Tree.ownCalls_marked, Tree.staticCalls_marked, Tree.ownCalls_inner, Tree.staticCalls_inner, hnone,
      loopCode, callees_turn] using (Links.expression (s := s) hown c₁ (s.nextLabel + 3)).seq hbody
  | returnPlain =>
    obtain ⟨-, rfl, rfl⟩ := statement_returnPlain.1 h
    simpa [Tree.ownCalls_marked, Tree.staticCalls_marked] using Links.quiet .nil rfl
  | returnValue _ value =>
    obtain ⟨code, c', hrun, rfl, rfl⟩ := statement_return.1 h
    obtain ⟨hown, hnone⟩ := valueOf_links value hrun
    simpa [Tree.ownCalls_marked, Tree.staticCalls_marked, hnone] using
      Links.expression (s := s) hown c' s.nextLabel
  | breakLoop =>
    obtain ⟨exit, -, rfl, rfl⟩ := statement_break.1 h
    simpa [Tree.ownCalls_marked, Tree.staticCalls_marked] using Links.quiet .nil rfl

end Lowering

end StackCompiler
