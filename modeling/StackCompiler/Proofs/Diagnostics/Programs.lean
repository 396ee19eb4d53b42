import StackCompiler.Proofs.Diagnostics.Expressions
import StackCompiler.Proofs.Layout.Programs

/-!
Every diagnostic points into the source. What the grammar derives, the lowering takes apart without
finding a part missing, and it complains only on lines of tokens; the reader complains on the line of a
token or, at the end of input, on the last line.
-/

set_option autoImplicit false
namespace StackCompiler

open Lowering
open Grammar (Level Phrase Derives)

variable {P : Nat → Prop} {table : FunctionTable}

namespace Lowering

/-! Names and types. -/

structure Named (P : Nat → Prop) (t : Tree) : Prop where
  line : P t.line
  lexeme : Answers P (fun _ => True) t.lexeme

theorem Named.of_marked {tag : Tag} {token : Token} {children : List Tree} (hline : P token.line) :
    Named P (.marked tag token children) :=
  ⟨hline, .ok trivial⟩

theorem typeOf_answers {type : Token} (isType : type.IsType) :
    Answers P (fun _ => True) (typeOf (.marked .typeSpec type [])) := by
  have hlexeme := isType.2
  simp only [List.mem_cons, List.not_mem_nil, or_false] at hlexeme
  unfold typeOf
  rw [lexeme_marked, Grammar.ok_bind]
  rcases hlexeme with h | h | h | h <;> rw [h] <;> exact .ok trivial

/-! Declarations. -/

theorem declare_yields (name : String) (ty : Ty) (storage : Storage) (length : Option Nat) {line : Nat}
    (hline : P line) : Reports P (declare name ty storage length line) := by
  refine yields_get.bind ?_
  intro c _
  have hanswer : Answers P (fun _ => True) (c.declare name ty storage length line) := by
    unfold ScopeChain.declare
    split
    next => exact .error ⟨rfl, _, rfl, hline⟩
    next => exact .ok trivial
  refine (yields_lift hanswer).bind ?_
  intro _ _
  exact (yields_set _).bind fun _ _ => yields_pure trivial

theorem initialValue_yields (name : String) (base : Ty) (hoisted : Bool) {init : Option Tree}
    (hinit : ∀ t ∈ init, Answered P table t) :
    Reports P (initialValue table name base hoisted init) := by
  cases init with
  | none => exact yields_pure trivial
  | some t =>
    have ht := hinit t rfl
    refine ht.value.bind ?_
    intro typed _
    refine (yields_lift (expectValue_answers _ _ ht.line)).bind ?_
    intro _ _
    refine (yields_lift (require_answers _ ⟨rfl, _, rfl, ht.line⟩)).bind ?_
    intro _ _
    exact yields_pure trivial

structure NamesVariable (P : Nat → Prop) (id : Tree) : Prop extends Named P id where
  length : Answers P (fun _ => True) (declaredLength id)

theorem declareVariable_yields {d : Declarator} (hline : P d.line) (base : Ty) (storage : Storage) :
    Reports P (d.declare base storage) := by
  unfold Declarator.declare
  split
  next =>
    refine (declare_yields _ _ _ _ hline).bind ?_
    intro _ _
    split <;> exact yields_pure trivial
  next =>
    refine (declare_yields _ _ _ _ hline).bind ?_
    intro _ _
    split
    next => exact yields_pure trivial
    next =>
      refine (yields_modifyGet _).bind ?_
      intro _ _
      exact (yields_modifyGet _).bind fun _ _ => yields_pure trivial

theorem declarator_yields {id : Tree} {init : List Tree} (hid : NamesVariable P id)
    (hinit : ∀ t ∈ init, Answered P table t) (base : Ty) (storage : Storage) (hoisted : Bool) :
    Reports P
      (declarator table base storage hoisted (.inner .varDeclInit (id :: init))) := by
  refine @Yields.bind _ _ _ _ (fun d => P d.line) _ _ _ ?_ fun d hd => declareVariable_yields hd base storage
  refine (yields_lift (.ok rfl : Answers P (· = id) _)).bind ?_
  rintro _ rfl
  refine (yields_lift hid.lexeme).bind ?_
  intro name _
  refine (yields_lift hid.length).bind ?_
  intro length _
  refine (initialValue_yields name base hoisted ?_).bind fun _ _ => yields_pure hid.line
  intro t ht
  exact hinit t (List.mem_of_getElem? ht)

theorem liftScope_yields {α : Type} {Q : α → Prop} {m : ScopeM α} (h : Yields P Q m) :
    Yields P Q (liftM m : BodyM α) := by
  intro s
  have hend := h s.scopes
  rw [liftScope_apply]
  generalize m s.scopes = run at hend ⊢
  cases hend with
  | ok value => exact .ok value
  | error failure => exact .error failure

theorem inScope_yields {α : Type} {Q : α → Prop} (kind : ScopeKind) {m : BodyM α} (h : Yields P Q m) :
    Yields P Q (inScope kind m) := by
  intro s
  have hend := h { s with scopes := s.scopes.enter kind }
  unfold inScope
  generalize m { s with scopes := s.scopes.enter kind } = run at hend ⊢
  cases hend with
  | ok value => exact .ok value
  | error failure => exact .error failure

theorem install_yields (storage : Storage) (setup : Setup) :
    Reports P (install storage setup) := by
  unfold install
  split
  next => exact (yields_modifyGet _).bind fun _ _ => yields_pure trivial
  next => exact (yields_modifyGet _).bind fun _ _ => yields_pure trivial

def Declared (P : Nat → Prop) (table : FunctionTable) (t : Tree) : Prop :=
  ∀ base storage hoisted, Reports P (declarator table base storage hoisted t)

theorem declarators_yield (base : Ty) (storage : Storage) (hoisted : Bool) {nodes : List Tree}
    (each : ∀ t ∈ nodes, Declared P table t) :
    Reports P (declarators table base storage hoisted nodes) := by
  induction nodes with
  | nil => exact yields_pure trivial
  | cons first rest ih =>
    rw [List.forall_mem_cons] at each
    rw [declarators]
    refine (liftScope_yields (each.1 base storage hoisted)).bind ?_
    intro setup _
    refine (install_yields storage setup).bind ?_
    intro code _
    exact (ih each.2).bind fun _ _ => yields_pure trivial

theorem declaration_yields {type : Token} (isType : type.IsType) (specs : List Tree) {inits : List Tree}
    (hspecs : ∀ t ∈ specs, t.tag ≠ .typeSpec ∧ t.tag ≠ .varDeclInit)
    (hinits : ∀ t ∈ inits, Declared P table t) :
    Reports P
      (declaration table (.inner .varDecl (specs ++ .marked .typeSpec type [] :: inits))) := by
  have hfind : (Tree.inner .varDecl (specs ++ .marked .typeSpec type [] :: inits)).find? .typeSpec =
      some (.marked .typeSpec type []) := by
    change List.find? (fun t => t.tag == .typeSpec) (specs ++ _) = _
    rw [List.find?_append, List.find?_eq_none.2 fun t ht => by simp [(hspecs t ht).1]]
    rfl
  refine yields_get.bind ?_
  intro s _
  have hbase : Answers P (fun _ => True)
      (baseType (.inner .varDecl (specs ++ .marked .typeSpec type [] :: inits))) := by
    unfold baseType
    rw [hfind]
    exact typeOf_answers isType
  refine (yields_lift hbase).bind ?_
  intro base _
  refine declarators_yield _ _ _ ?_
  intro t ht
  obtain ⟨hmem, htag⟩ := List.mem_filter.1 ht
  rw [beq_iff_eq] at htag
  rcases List.mem_append.1 hmem with hmem | hmem
  · exact absurd htag (hspecs t hmem).2
  rcases List.mem_cons.1 hmem with rfl | hmem
  · cases htag
  · exact hinits t hmem

/-! Statements. -/

theorem valueOf_yields (ty : Ty) {t : Tree} (ht : Answered P table t) :
    Reports P (valueOf table ty t) := by
  refine ht.value.bind ?_
  intro typed _
  exact (yields_lift (expectValue_answers _ _ ht.line)).bind fun _ _ => yields_pure trivial

theorem valueOf?_yields (ty : Ty) {found : Option Tree} (h : ∀ t ∈ found, Answered P table t) :
    Reports P (valueOf? table ty found) := by
  cases found with
  | none => exact yields_pure trivial
  | some t =>
    rw [valueOf?, map_eq_pure_bind]
    exact (valueOf_yields ty (h t rfl)).bind fun _ _ => yields_pure trivial

theorem expressionStatement_yields {t : Tree} (ht : Answered P table t) :
    Reports P (expressionStatement table [t]) := by
  unfold expressionStatement
  dsimp only
  split
  next htag => exact (ht.assignment htag false).bind fun _ _ => yields_pure trivial
  next htag => exact (ht.step htag false).bind fun _ _ => yields_pure trivial
  next =>
    refine ht.value.bind ?_
    intro typed _
    split <;> exact yields_pure trivial

theorem range_yields (counter : Place) {start : Tree} {more : List Tree}
    (each : ∀ t ∈ start :: more, Answered P table t) :
    Reports P (range table counter (.inner .iterRange (start :: more))) := by
  have hpart : ∀ i, ∀ t ∈ (start :: more)[i]?, Answered P table t := fun i t ht =>
    each t (List.mem_of_getElem? ht)
  refine (yields_lift (.ok rfl : Answers P (· = start) _)).bind ?_
  rintro _ rfl
  refine (valueOf_yields .int (each _ List.mem_cons_self)).bind ?_
  intro startCode _
  refine (valueOf?_yields .int (hpart 1)).bind ?_
  intro stop _
  refine (valueOf?_yields .int (hpart 2)).bind ?_
  intro step _
  refine (yields_modifyGet _).bind ?_
  intro bound _
  dsimp only
  cases step with
  | none => exact yields_pure trivial
  | some step => exact (yields_modifyGet _).bind fun _ _ => yields_pure trivial

structure Stated (P : Nat → Prop) (table : FunctionTable) (t : Tree) : Prop where
  declaration : t.tag = .varDecl → Reports P (declaration table t)
  statement : t.tag ≠ .varDecl → ∀ ctx, Reports P (statement table ctx t)

theorem blockItems_yield (ctx : Context) {items : List Tree} (each : ∀ t ∈ items, Stated P table t) :
    Reports P (blockItems table ctx items) := by
  induction items with
  | nil =>
    rw [blockItems]
    exact yields_pure trivial
  | cons item rest ih =>
    rw [List.forall_mem_cons] at each
    rw [blockItems]
    split
    next htag =>
      refine (each.1.declaration htag).bind ?_
      intro _ _
      exact (ih each.2).bind fun _ _ => yields_pure trivial
    next htag =>
      refine (each.1.statement htag ctx).bind ?_
      intro _ _
      exact (ih each.2).bind fun _ _ => yields_pure trivial

section Statements

variable {word : Token} {test body yes no : Tree} {ctx : Context}

theorem ifThen_yields (htest : Answered P table test)
    (hyes : ∀ ctx, Reports P (statement table ctx yes)) :
    Reports P (statement table ctx (.marked .ifStmt word [test, yes])) := by
  refine (liftScope_yields (valueOf_yields .bool htest)).bind ?_
  intro _ _
  refine (yields_modifyGet _).bind ?_
  intro _ _
  exact (hyes ctx).bind fun _ _ => yields_pure trivial

theorem ifElse_yields (htest : Answered P table test)
    (hyes : ∀ ctx, Reports P (statement table ctx yes))
    (hno : ∀ ctx, Reports P (statement table ctx no)) :
    Reports P (statement table ctx (.marked .ifStmt word [test, yes, no])) := by
  refine (liftScope_yields (valueOf_yields .bool htest)).bind ?_
  intro _ _
  refine (yields_modifyGet _).bind ?_
  intro _ _
  refine (hyes ctx).bind ?_
  intro _ _
  exact (hno ctx).bind fun _ _ => yields_pure trivial

theorem while_yields (htest : Answered P table test)
    (hbody : ∀ ctx, Reports P (statement table ctx body)) :
    Reports P (statement table ctx (.marked .whileStmt word [test, body])) := by
  refine (liftScope_yields (valueOf_yields .bool htest)).bind ?_
  intro _ _
  refine (yields_modifyGet _).bind ?_
  intro _ _
  exact (hbody _).bind fun _ _ => yields_pure trivial

theorem for_yields {bounds : Tree} (hline : P word.line)
    (hbounds : ∀ counter, Reports P (range table counter bounds))
    (hbody : ∀ ctx, Reports P (statement table ctx body)) :
    Reports P (statement table ctx (.marked .forStmt word [bounds, body])) := by
  have hcounter : Reports P (counterOf (.marked .forStmt word [bounds, body])) := by
    refine (resolve_yields hline).bind ?_
    intro symbol _
    exact (yields_lift (expectType_answers _ _ hline)).bind fun _ _ => yields_pure trivial
  refine (liftScope_yields hcounter).bind ?_
  intro counter _
  refine (liftScope_yields (hbounds counter)).bind ?_
  intro _ _
  refine (yields_modifyGet _).bind ?_
  intro _ _
  exact (hbody _).bind fun _ _ => yields_pure trivial

theorem return_yields {t : Tree} (hline : P word.line) (ht : Answered P table t) :
    Reports P (statement table ctx (.marked .returnStmt word [t])) := by
  refine liftScope_yields (ht.value.bind ?_)
  intro typed _
  exact (yields_lift (expectValue_answers _ _ hline)).bind fun _ _ => yields_pure trivial

theorem returnPlain_yields (hline : P word.line) :
    Reports P (statement table ctx (.marked .returnStmt word [])) :=
  liftScope_yields ((yields_lift (require_answers _ ⟨rfl, _, rfl, hline⟩)).bind
    fun _ _ => yields_pure trivial)

theorem break_yields (hline : P word.line) :
    Reports P (statement table ctx (.marked .breakStmt word [])) := by
  rw [Tree.marked, statement]
  split
  next => exact yields_pure trivial
  next => exact yields_throw ⟨rfl, _, rfl, hline⟩

end Statements

/-! Functions. -/

abbrev NamedParameters (P : Nat → Prop) (parms : List (Tree × Ty)) : Prop :=
  ∀ p ∈ parms, Named P p.1

theorem parameterGroup_answers {type : Token} (isType : type.IsType) {ids : List Tree}
    (hids : ∀ t ∈ ids, Named P t) :
    Answers P (NamedParameters P)
      (parameterGroup (.inner .parmTypeList (.marked .typeSpec type [] :: ids))) := by
  refine (.ok rfl : Answers P (· = .marked .typeSpec type []) _).bind ?_
  rintro _ rfl
  refine (typeOf_answers isType).bind ?_
  intro base _
  refine .ok ?_
  intro p hp
  obtain ⟨id, hid, rfl⟩ := List.mem_map.1 hp
  exact hids id hid

theorem parameterGroups_answer {groups : List Tree}
    (each : ∀ t ∈ groups, Answers P (NamedParameters P) (parameterGroup t)) :
    Answers P (NamedParameters P) (parameterGroups groups) := by
  induction groups with
  | nil => exact .ok (by simp [NamedParameters])
  | cons group rest ih =>
    rw [List.forall_mem_cons] at each
    refine each.1.bind ?_
    intro first hfirst
    refine (ih each.2).bind ?_
    intro more hmore
    exact .ok (List.forall_mem_append.2 ⟨hfirst, hmore⟩)

structure Routed (P : Nat → Prop) (table : FunctionTable) (decl : Tree) : Prop extends Named P decl where
  tag : decl.tag = .funDecl
  result : Answers P (fun _ => True) (Session.resultType decl)
  parameters : Answers P (NamedParameters P) (parameters decl)
  body : ∃ body, decl.find? .compoundStmt = some body ∧ ∀ item ∈ body.children, Stated P table item

theorem routed_of_parts {name : Token} (hline : P name.line) {specs : List Tree} {parms body : Tree}
    (hspecs : specs = [] ∨ ∃ type : Token, type.IsType ∧ specs = [.marked .typeSpec type []])
    (hparms : parms.tag = .parms ∧ Answers P (NamedParameters P) (parameterGroups parms.children))
    (hbody : body.tag = .compoundStmt ∧ ∀ item ∈ body.children, Stated P table item) :
    Routed P table (.marked .funDecl name (specs ++ [parms, body])) := by
  have hfindParms : (Tree.marked .funDecl name (specs ++ [parms, body])).find? .parms = some parms := by
    rcases hspecs with rfl | ⟨type, -, rfl⟩ <;> simp [Tree.find?, Tree.marked, hparms.1]
  have hfindBody : (Tree.marked .funDecl name (specs ++ [parms, body])).find? .compoundStmt = some body := by
    rcases hspecs with rfl | ⟨type, -, rfl⟩ <;> simp [Tree.find?, Tree.marked, hparms.1, hbody.1]
  refine ⟨.of_marked hline, rfl, ?_, ?_, body, hfindBody, hbody.2⟩
  · rcases hspecs with rfl | ⟨type, isType, rfl⟩
    · have hfind : (Tree.marked .funDecl name ([] ++ [parms, body])).find? .typeSpec = none := by
        simp [Tree.find?, Tree.marked, hparms.1, hbody.1]
      rw [Session.resultType, hfind]
      exact .ok trivial
    · exact typeOf_answers isType
  · rw [parameters, hfindParms]
    exact hparms.2

def Compiled (P : Nat → Prop) (table : FunctionTable) (decl : Tree) : Prop :=
  (decl.tag = .varDecl ∧ Reports P (declaration table decl)) ∨ Routed P table decl

/-! What the grammar derives. -/

def AnsweredAs (P : Nat → Prop) (table : FunctionTable) : Phrase → List Tree → Prop
  | .expression, trees | .chain _, trees | .negation, trees | .comparison, trees | .unary, trees
  | .factor, trees | .location, trees | .arguments, trees => ∀ t ∈ trees, Answered P table t
  | .links level, trees => Reports P (chainLinks table level.ty none trees)
  | .declaredName, trees => ∀ t ∈ trees, NamesVariable P t
  | .declarator, trees | .declarators, trees => ∀ t ∈ trees, Declared P table t
  | .varDeclaration, trees | .localDeclaration, trees | .localDeclarations, trees =>
    ∀ t ∈ trees, t.tag = .varDecl ∧ Reports P (declaration table t)
  | .parameter, trees | .parameterList, trees => ∀ t ∈ trees, Named P t
  | .parameterGroup, trees | .parameterGroups, trees =>
    ∀ t ∈ trees, Answers P (NamedParameters P) (parameterGroup t)
  | .parameters, trees => ∀ t ∈ trees, t.tag = .parms ∧
    Answers P (NamedParameters P) (parameterGroups t.children)
  | .range, trees => ∀ t ∈ trees, ∀ counter, Reports P (range table counter t)
  | .statement, trees | .statements, trees => ∀ t ∈ trees, t.tag ≠ .varDecl ∧
    ∀ ctx, Reports P (statement table ctx t)
  | .block, trees => ∀ t ∈ trees, t.tag = .compoundStmt ∧ ∀ item ∈ t.children, Stated P table item
  | .function, trees => ∀ t ∈ trees, Routed P table t
  | .declaration, trees | .declarations, trees => ∀ t ∈ trees, Compiled P table t
  | .program, trees => ∀ t ∈ trees, t.tag = .program ∧ ∀ decl ∈ t.children, Compiled P table decl

theorem AnsweredAs.operand {level : Level} {t : Tree} (h : AnsweredAs P table level.operandPhrase [t]) :
    Answered P table t := by
  cases level <;> exact h t (by simp)

theorem noLinks_yield {level : Level} :
    Reports P (chainLinks table level.ty none []) := by
  rw [chainLinks]
  exact yields_pure trivial

theorem stated_of_block {t : Tree} (h : t.tag = .compoundStmt ∧ ∀ item ∈ t.children, Stated P table item) :
    t.tag ≠ .varDecl ∧ ∀ ctx, Reports P (statement table ctx t) := by
  obtain ⟨tag, token, items⟩ := t
  obtain ⟨htag, hitems⟩ := h
  cases htag
  exact ⟨by simp, fun ctx => inScope_yields .block (blockItems_yield ctx hitems)⟩

theorem answeredAs {p : Phrase} {ts : List Token} {trees : List Tree} (h : Derives p ts trees)
    (hts : ∀ t ∈ ts, P t.line) : AnsweredAs P table p trees := by
  induction h with
  | assign _ isOp _ left right =>
    rw [List.forall_mem_append, List.forall_mem_cons] at hts
    exact List.forall_mem_singleton.2 (answered_assign isOp hts.2.1
      (List.forall_mem_singleton.1 (left hts.1)) (List.forall_mem_singleton.1 (right hts.2.2)))
  | step _ isOp left =>
    rw [List.forall_mem_append, List.forall_mem_singleton] at hts
    exact List.forall_mem_singleton.2 (answered_step isOp hts.2 (List.forall_mem_singleton.1 (left hts.1)))
  | simple _ value => exact value hts
  | single _ operand => exact List.forall_mem_singleton.2 (operand hts).operand
  | several _ _ operand rest =>
    rw [List.forall_mem_append] at hts
    exact List.forall_mem_singleton.2 (answered_chain (operand hts.1).operand (rest hts.2))
  | lastLink isOp _ operand =>
    rw [List.forall_mem_cons] at hts
    exact links_yield isOp (operand hts.2).operand noLinks_yield
  | link isOp _ _ operand rest =>
    rw [List.cons_append, List.forall_mem_cons, List.forall_mem_append] at hts
    exact links_yield isOp (operand hts.2.1).operand (rest hts.2.2)
  | negate _ _ operand =>
    rw [List.forall_mem_cons] at hts
    exact List.forall_mem_singleton.2
      (answered_negate hts.1 (List.forall_mem_singleton.1 (operand hts.2)))
  | positive _ operand => exact operand hts
  | uncompared _ operand => exact operand hts
  | compare _ isOp _ first second =>
    rw [List.forall_mem_append, List.forall_mem_cons] at hts
    exact List.forall_mem_singleton.2 (answered_compare isOp hts.2.1
      (List.forall_mem_singleton.1 (first hts.1)) (List.forall_mem_singleton.1 (second hts.2.2)))
  | unary isOp _ operand =>
    rw [List.forall_mem_cons] at hts
    exact List.forall_mem_singleton.2
      (answered_unary isOp hts.1 (List.forall_mem_singleton.1 (operand hts.2)))
  | plain _ operand => exact operand hts
  | paren _ _ _ inner =>
    rw [List.cons_append, List.forall_mem_cons, List.forall_mem_append] at hts
    exact List.forall_mem_singleton.2
      (answered_paren hts.1 (List.forall_mem_singleton.1 (inner hts.2.1)))
  | callPlain _ _ _ =>
    rw [List.forall_mem_cons] at hts
    exact List.forall_mem_singleton.2 (answered_call hts.1 (by simp))
  | call _ _ _ _ inner =>
    rw [List.cons_append, List.cons_append, List.forall_mem_cons, List.forall_mem_cons,
      List.forall_mem_append] at hts
    exact List.forall_mem_singleton.2 (answered_call hts.1 (inner hts.2.2.1))
  | literal _ =>
    rw [List.forall_mem_singleton] at hts
    exact List.forall_mem_singleton.2 (answered_constant hts)
  | location _ place => exact place hts
  | named _ =>
    rw [List.forall_mem_singleton] at hts
    exact List.forall_mem_singleton.2 (answered_location hts (.inl rfl))
  | indexed _ _ _ _ inner =>
    rw [List.cons_append, List.cons_append, List.forall_mem_cons, List.forall_mem_cons,
      List.forall_mem_append] at hts
    have hindex := List.forall_mem_singleton.1 (inner hts.2.2.1)
    exact List.forall_mem_singleton.2 (answered_location hts.1 (.inr ⟨_, rfl, hindex⟩))
  | lastArgument _ value => exact value hts
  | argument _ _ _ value rest =>
    rw [List.forall_mem_append, List.forall_mem_cons] at hts
    exact forall_mem_cons_of (value hts.1) (rest hts.2.2)
  | scalarName _ =>
    rw [List.forall_mem_singleton] at hts
    exact List.forall_mem_singleton.2 ⟨.of_marked hts, .ok trivial⟩
  | arrayName _ _ _ _ =>
    simp only [List.forall_mem_cons] at hts
    refine List.forall_mem_singleton.2 ⟨.of_marked hts.1, ?_⟩
    exact (arrayLength_answers hts.2.2.1).bind fun _ _ => .ok trivial
  | uninitialized _ name =>
    exact List.forall_mem_singleton.2
      (declarator_yields (List.forall_mem_singleton.1 (name hts)) (by simp))
  | initialized _ _ _ name init =>
    rw [List.forall_mem_append, List.forall_mem_cons] at hts
    exact List.forall_mem_singleton.2
      (declarator_yields (List.forall_mem_singleton.1 (name hts.1)) (init hts.2.2))
  | lastDeclarator _ last => exact last hts
  | declarator _ _ _ first rest =>
    rw [List.forall_mem_append, List.forall_mem_cons] at hts
    exact forall_mem_cons_of (first hts.1) (rest hts.2.2)
  | variableDeclaration isType _ _ list =>
    rw [List.cons_append, List.forall_mem_cons, List.forall_mem_append] at hts
    exact List.forall_mem_singleton.2 ⟨rfl, declaration_yields isType [] (by simp) (list hts.2.1)⟩
  | plainLocal _ decl => exact decl hts
  | @staticLocal static _ _ _ _ _ isType _ _ list =>
    rw [List.cons_append, List.cons_append, List.forall_mem_cons, List.forall_mem_cons,
      List.forall_mem_append] at hts
    exact List.forall_mem_singleton.2
      ⟨rfl, declaration_yields isType [.marked .static static []] (by simp) (list hts.2.2.1)⟩
  | noLocals => simp [AnsweredAs]
  | locals _ _ first rest =>
    rw [List.forall_mem_append] at hts
    exact forall_mem_cons_of (first hts.1) (rest hts.2)
  | scalarParameter _ | arrayParameter _ _ _ =>
    exact List.forall_mem_singleton.2 (.of_marked (hts _ List.mem_cons_self))
  | lastParameter _ last => exact last hts
  | parameter _ _ _ first rest =>
    rw [List.forall_mem_append, List.forall_mem_cons] at hts
    exact forall_mem_cons_of (first hts.1) (rest hts.2.2)
  | parameterGroup isType _ list =>
    rw [List.forall_mem_cons] at hts
    exact List.forall_mem_singleton.2 (parameterGroup_answers isType (list hts.2))
  | lastGroup _ last => exact last hts
  | group _ _ _ first rest =>
    rw [List.forall_mem_append, List.forall_mem_cons] at hts
    exact forall_mem_cons_of (first hts.1) (rest hts.2.2)
  | noParameters =>
    exact List.forall_mem_singleton.2 ⟨rfl, parameterGroups_answer (List.forall_mem_nil _)⟩
  | parameters _ list => exact List.forall_mem_singleton.2 ⟨rfl, parameterGroups_answer (list hts)⟩
  | emptyStmt _ =>
    exact List.forall_mem_singleton.2 ⟨by simp, fun _ => liftScope_yields (yields_pure trivial)⟩
  | expStmt _ _ value =>
    rw [List.forall_mem_append] at hts
    have hvalue := List.forall_mem_singleton.1 (value hts.1)
    exact List.forall_mem_singleton.2
      ⟨by simp, fun _ => liftScope_yields (expressionStatement_yields hvalue)⟩
  | compound _ body =>
    exact List.forall_mem_singleton.2 (stated_of_block (body hts _ (List.mem_singleton_self _)))
  | block _ _ _ _ head body =>
    rw [List.cons_append, List.cons_append, List.forall_mem_cons, List.forall_mem_append,
      List.forall_mem_append] at hts
    refine List.forall_mem_singleton.2 ⟨rfl, List.forall_mem_append.2 ⟨?_, ?_⟩⟩
    · intro item hitem
      obtain ⟨htag, hdecl⟩ := head hts.2.1.1 item hitem
      exact ⟨fun _ => hdecl, fun hstmt => absurd htag hstmt⟩
    · intro item hitem
      obtain ⟨htag, hstmt⟩ := body hts.2.1.2 item hitem
      exact ⟨fun hdecl => absurd hdecl htag, fun _ => hstmt⟩
  | noStatements => simp [AnsweredAs]
  | statements _ _ first rest =>
    rw [List.forall_mem_append] at hts
    exact forall_mem_cons_of (first hts.1) (rest hts.2)
  | ifThen _ _ _ _ condition branch =>
    rw [List.cons_append, List.forall_mem_cons, List.forall_mem_append, List.forall_mem_cons] at hts
    have hyes := List.forall_mem_singleton.1 (branch hts.2.2.2)
    exact List.forall_mem_singleton.2 ⟨by simp, fun _ =>
      ifThen_yields (List.forall_mem_singleton.1 (condition hts.2.1)) hyes.2⟩
  | ifElse _ _ _ _ _ _ _ condition branch other =>
    simp only [List.cons_append, List.append_assoc, List.forall_mem_cons, List.forall_mem_append] at hts
    have hyes := List.forall_mem_singleton.1 (branch hts.2.2.2.1)
    have hno := List.forall_mem_singleton.1 (other hts.2.2.2.2.2)
    exact List.forall_mem_singleton.2 ⟨by simp, fun _ =>
      ifElse_yields (List.forall_mem_singleton.1 (condition hts.2.1)) hyes.2 hno.2⟩
  | whileDo _ _ _ _ condition loop =>
    rw [List.cons_append, List.forall_mem_cons, List.forall_mem_append, List.forall_mem_cons] at hts
    have hbody := List.forall_mem_singleton.1 (loop hts.2.2.2)
    exact List.forall_mem_singleton.2 ⟨by simp, fun _ =>
      while_yields (List.forall_mem_singleton.1 (condition hts.2.1)) hbody.2⟩
  | forDo _ _ _ _ _ _ range loop =>
    simp only [List.cons_append, List.forall_mem_cons, List.forall_mem_append] at hts
    have hbody := List.forall_mem_singleton.1 (loop hts.2.2.2.2.2)
    exact List.forall_mem_singleton.2 ⟨by simp, fun _ =>
      for_yields hts.2.1 (List.forall_mem_singleton.1 (range hts.2.2.2.1)) hbody.2⟩
  | returnPlain _ _ =>
    rw [List.forall_mem_cons] at hts
    exact List.forall_mem_singleton.2 ⟨by simp, fun _ => returnPlain_yields hts.1⟩
  | returnValue _ _ _ value =>
    rw [List.cons_append, List.forall_mem_cons, List.forall_mem_append] at hts
    exact List.forall_mem_singleton.2 ⟨by simp, fun _ =>
      return_yields hts.1 (List.forall_mem_singleton.1 (value hts.2.1))⟩
  | breakLoop _ _ =>
    rw [List.forall_mem_cons] at hts
    exact List.forall_mem_singleton.2 ⟨by simp, fun _ => break_yields hts.1⟩
  | rangeStart _ first =>
    exact List.forall_mem_singleton.2 fun counter => range_yields counter (first hts)
  | rangeTo _ _ _ first last =>
    rw [List.forall_mem_append, List.forall_mem_cons] at hts
    exact List.forall_mem_singleton.2 fun counter =>
      range_yields counter (forall_mem_cons_of (first hts.1) (last hts.2.2))
  | rangeBy _ _ _ _ _ first last stride =>
    simp only [List.cons_append, List.append_assoc, List.forall_mem_append, List.forall_mem_cons] at hts
    exact List.forall_mem_singleton.2 fun counter => range_yields counter
      (forall_mem_cons_of (first hts.1) (forall_mem_cons_of (last hts.2.2.1) (stride hts.2.2.2.2)))
  | procedure _ _ _ _ _ list code =>
    simp only [List.cons_append, List.forall_mem_cons, List.forall_mem_append] at hts
    exact List.forall_mem_singleton.2 (routed_of_parts hts.1 (.inl rfl)
      (list hts.2.2.1 _ (List.mem_singleton_self _)) (code hts.2.2.2.2 _ (List.mem_singleton_self _)))
  | function isType _ _ _ _ _ list code =>
    simp only [List.cons_append, List.forall_mem_cons, List.forall_mem_append] at hts
    exact List.forall_mem_singleton.2 (routed_of_parts hts.2.1 (.inr ⟨_, isType, rfl⟩)
      (list hts.2.2.2.1 _ (List.mem_singleton_self _)) (code hts.2.2.2.2.2 _ (List.mem_singleton_self _)))
  | globals _ decl => exact fun t ht => .inl (decl hts t ht)
  | routine _ decl => exact fun t ht => .inr (decl hts t ht)
  | lastDeclaration _ last => exact last hts
  | declaration _ _ first rest =>
    rw [List.forall_mem_append] at hts
    exact forall_mem_cons_of (first hts.1) (rest hts.2)
  | program _ list => exact List.forall_mem_singleton.2 ⟨rfl, list hts⟩

end Lowering

/-! Programs. -/

namespace Session

theorem inBody_yields {α : Type} {Q : α → Prop} {m : BodyM α} (h : Yields P Q m) :
    Yields P Q (inBody m) := by
  intro s
  have hend := h ⟨s.scopes, s.staticInit, 0⟩
  unfold inBody
  generalize m ⟨s.scopes, s.staticInit, 0⟩ = run at hend ⊢
  cases hend with
  | ok value => exact .ok value
  | error failure => exact .error failure

theorem register_yields {decl : Tree} (h : Routed P table decl) :
    Reports P (register decl) := by
  refine (yields_lift h.result).bind ?_
  intro result _
  refine (yields_lift h.parameters).bind ?_
  intro parms _
  refine (yields_lift h.lexeme).bind ?_
  intro name _
  refine yields_get.bind ?_
  intro s _
  have hdeclared : Answers P (fun _ => True)
      (s.functions.declare name result (parms.map Prod.snd) decl.line) := by
    unfold FunctionTable.declare
    split
    next => exact .error ⟨rfl, _, rfl, h.line⟩
    next => exact .ok trivial
  exact (yields_lift hdeclared).bind fun _ _ => yields_modifyGet _

theorem registerAll_yields {decls : List Tree} (each : ∀ decl ∈ decls, Compiled P table decl) :
    Reports P (registerAll decls) := by
  induction decls with
  | nil => exact yields_pure trivial
  | cons decl rest ih =>
    rw [List.forall_mem_cons] at each
    rw [registerAll]
    rcases each.1 with ⟨htag, -⟩ | hrouted
    · rw [htag]
      exact ih each.2
    · rw [if_pos hrouted.tag]
      exact (register_yields hrouted).bind fun _ _ => ih each.2

theorem declareParameters_yields {parms : List (Tree × Ty)} (h : NamedParameters P parms) :
    Reports P (declareParameters parms) := by
  induction parms with
  | nil => exact yields_pure trivial
  | cons p rest ih =>
    obtain ⟨id, ty⟩ := p
    rw [NamedParameters, List.forall_mem_cons] at h
    refine (yields_lift h.1.lexeme).bind ?_
    intro name _
    exact (declare_yields _ _ _ _ h.1.line).bind fun _ _ => ih h.2

theorem functionFrame_yields {decl : Tree} (h : Routed P table decl) (result : Ty) :
    Reports P (functionFrame table result decl) := by
  obtain ⟨body, hfind, hbody⟩ := h.body
  have hcode : Reports P (functionBody table result decl) := by
    refine (yields_lift h.parameters).bind ?_
    intro parms hparms
    refine (liftScope_yields (declareParameters_yields hparms)).bind ?_
    intro _ _
    rw [hfind]
    exact (blockItems_yield _ hbody).bind fun _ _ => yields_pure trivial
  refine inScope_yields .function (hcode.bind ?_)
  intro code _
  exact yields_get.bind fun _ _ => yields_pure trivial

theorem routine_yields {decl : Tree} (h : ∀ table, Routed P table decl) :
    Reports P (routine decl) := by
  refine (yields_lift (h .empty).lexeme).bind ?_
  intro name _
  refine yields_get.bind ?_
  intro s _
  dsimp only
  split
  next => exact yields_throw ⟨rfl, _, rfl, (h .empty).line⟩
  next signature _ =>
    exact (inBody_yields (functionFrame_yields (h s.functions) signature.result)).bind
      fun _ _ => yields_pure trivial

theorem routines_yield {decls : List Tree} (each : ∀ decl ∈ decls, ∀ table, Compiled P table decl) :
    Reports P (routines decls) := by
  induction decls with
  | nil => exact yields_pure trivial
  | cons decl rest ih =>
    rw [List.forall_mem_cons] at each
    unfold routines
    split
    next htag =>
      refine yields_get.bind ?_
      intro s _
      have hdecl : Reports P (declaration s.functions decl) := by
        rcases each.1 s.functions with ⟨-, hdecl⟩ | hrouted
        · exact hdecl
        · exact absurd (htag.symm.trans hrouted.tag) (by simp)
      exact (inBody_yields hdecl).bind fun _ _ => ih each.2
    next htag =>
      have hrouted : ∀ table, Routed P table decl := fun table =>
        (each.1 table).resolve_left fun h => absurd (htag.symm.trans h.1) (by simp)
      refine (routine_yields hrouted).bind ?_
      intro first _
      exact (ih each.2).bind fun _ _ => yields_pure trivial
    next hvar hfun =>
      rcases each.1 .empty with ⟨htag, -⟩ | hrouted
      · exact absurd htag hvar
      · exact absurd hrouted.tag hfun

theorem compileProgram_yields {program : Tree} (htag : program.tag = .program)
    (each : ∀ decl ∈ program.children, ∀ table, Compiled P table decl) :
    Reports P (compileProgram program) := by
  unfold compileProgram
  rw [require, if_pos htag]
  refine (yields_lift (.ok trivial : Answers P (fun _ => True) _)).bind ?_
  intro _ _
  refine (registerAll_yields fun decl hdecl => each decl hdecl .empty).bind ?_
  intro _ _
  refine (routines_yield each).bind ?_
  intro functions _
  refine yields_get.bind ?_
  intro s _
  exact (yields_set _).bind fun _ _ => yields_pure trivial

end Session

/-! Lines of tokens. -/

namespace Cursor

theorem skipLines_end (line : Nat) (open? : Bool) (ahead : List (List Char)) :
    line ≤ (skipLines line open? ahead).line ∧
      (skipLines line open? ahead).line + (skipLines line open? ahead).ahead.length =
        line + ahead.length := by
  fun_induction skipLines line open? ahead with
  | case1 line open? => simp
  | case2 line open? first more open' h ih =>
    simp only [List.length_cons]
    omega
  | case3 line open? first more open' text h => simp

theorem read_line {c c' : Cursor} {t : Token} (h : c.read = (some t, c')) :
    t.line = c.line + 1 ∧ 0 < c.ahead.length ∧ c'.line = c.line ∧ c'.ahead.length = c.ahead.length := by
  unfold read at h
  split at h
  next first rest more hahead =>
    obtain ⟨ht, hc⟩ := Prod.mk.inj h
    cases ht
    subst hc
    simp [hahead]
  next => simp at h

/-- Tokens stand on the lines from the current one on. -/
theorem tokens_line (c : Cursor) : ∀ t ∈ c.tokens, c.line < t.line ∧ t.line ≤ c.line + c.ahead.length := by
  induction c using tokens.induct with
  | case1 c t c' hnext ih =>
    obtain ⟨hstart, hend⟩ := skipLines_end c.line c.inComment c.ahead
    obtain ⟨hline, hahead, hline', hahead'⟩ := read_line hnext
    simp only [skipTrivia] at hline hahead hline' hahead'
    intro u hu
    rw [tokens, hnext] at hu
    rcases List.mem_cons.1 hu with rfl | hu
    · omega
    · have hrest := ih u hu
      omega
  | case2 c c' hnext =>
    intro u hu
    rw [tokens, hnext] at hu
    cases hu

end Cursor

/-- The lines of a source; an empty source has one. -/
def InSource (source : String) (line : Nat) : Prop :=
  1 ≤ line ∧ line ≤ max 1 (Text.lines source.toList).length

theorem inSource_of_mem {source : String} {t : Token} (h : t ∈ tokenize source) :
    InSource source t.line := by
  have hline := (Cursor.start source).tokens_line t h
  simp only [Cursor.start] at hline
  unfold InSource
  omega

theorem inSource_lastLine (source : String) : InSource source (lastLine source) := by
  unfold InSource lastLine
  generalize (Text.lines source.toList).length = count
  cases count with
  | zero => simp
  | succ n => exact ⟨Nat.le_add_left 1 n, Nat.le_max_right ..⟩

/-- A reader that fails stops at a token of the source or at its end. -/
theorem parse_error_points {source : String} {e : Diagnostic} (h : parse source = .error e) :
    e.PointsInto (InSource source) := by
  have htokens : AlikeTokens (fun line line' => line = line' ∧ InSource source line) (tokenize source)
      (tokenize source) := by
    refine List.forall₂_same.2 fun t ht => ⟨rfl, rfl, rfl, inSource_of_mem ht⟩
  have hprogram := @Grammar.program_alike _ true _ _ htokens
  unfold parse parseWith at h
  cases hread : Grammar.program true (tokenize source) with
  | ok program => simp [hread] at h
  | error u =>
    rw [hread] at h hprogram
    cases h
    cases hprogram with
    | error failures =>
      obtain ⟨expected, found⟩ := u
      cases found with
      | none => exact ⟨rfl, _, rfl, inSource_lastLine source⟩
      | some t =>
        cases failures.found with
        | some htoken => exact ⟨rfl, _, rfl, htoken.line.2⟩

/-- Whatever a source is rejected for, it is neither the shape of its tree nor a file, and the complaint
names one of its lines. -/
theorem compile_error_in_source {source : String} {e : Diagnostic} (h : compile source = .error e) :
    (∀ problem line, e ≠ .malformedTree problem line) ∧ (∀ problem, e ≠ .inputOutput problem) ∧
      ∃ line, e.line? = some line ∧ 1 ≤ line ∧ line ≤ max 1 (Text.lines source.toList).length := by
  have hpoints : e.PointsInto (InSource source) := by
    unfold compile at h
    cases hparse : parse source with
    | error e' =>
      rw [hparse] at h
      cases h
      exact parse_error_points hparse
    | ok program =>
      have hlines : ∀ t ∈ tokenize source, InSource source t.line := fun _ => inSource_of_mem
      have hderives := Grammar.derives_of_parse hparse
      have hprogram : ∀ table, program.tag = .program ∧
          ∀ decl ∈ program.children, Compiled (InSource source) table decl := fun table =>
        answeredAs hderives hlines program (List.mem_singleton_self _)
      have hend := Session.compileProgram_yields (hprogram .empty).1
        (fun decl hdecl table => (hprogram table).2 decl hdecl) Session.empty
      rw [hparse, Grammar.ok_bind] at h
      generalize Session.compileProgram program Session.empty = run at h hend
      cases hend with
      | ok _ => cases h
      | error failure =>
        cases h
        exact failure
  obtain ⟨hshape, line, hline, hin⟩ := hpoints
  refine ⟨?_, ?_, line, hline, hin⟩
  · rintro problem line rfl
    cases hshape
  · rintro problem rfl
    cases hline

/-- The name without declaration stands on the second of two lines, behind a comment. -/
theorem compile_error_in_source_undeclared :
    compile "int x :\n  /* */ y;" = .error (.undeclaredName "y" 2) ∧
      ∃ line, (Diagnostic.undeclaredName "y" 2).line? = some line ∧
        1 ≤ line ∧ line ≤ max 1 (Text.lines "int x :\n  /* */ y;".toList).length := by
  have herror : compile "int x :\n  /* */ y;" = .error (.undeclaredName "y" 2) := by decide +kernel
  exact ⟨herror, (compile_error_in_source herror).2.2⟩

end StackCompiler
