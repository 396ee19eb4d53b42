import StackCompiler.Proofs.Typing.Rules

/-!
The trees that the grammar makes of statements, declarations and functions, without the tokens they were
read from. Proofs about bodies go by induction on `Shape.Statement`, which has one case for each form.
-/

set_option autoImplicit false
namespace StackCompiler

open Lowering Typing
open Grammar (Phrase Derives)

namespace Shape

inductive Declarator : Tree → Prop where
  | mk (name : Token) (length : Option Token) {init : Option Tree} (value : ∀ e ∈ init, IsExpression e) :
      Declarator (declaratorNode name length init)

def variablesNode (keyword : Option Token) (type : Token) (nodes : List Tree) : Tree :=
  .inner .varDecl ((keyword.map fun word => Tree.marked .static word []).toList ++
    .marked .typeSpec type [] :: nodes)

inductive Variables : Option Token → Tree → Prop where
  | mk (keyword : Option Token) (type : Token) {nodes : List Tree}
      (each : ∀ node ∈ nodes, Declarator node) : Variables keyword (variablesNode keyword type nodes)

def Local (t : Tree) : Prop :=
  ∃ keyword, Variables keyword t

inductive Statement : Tree → Prop where
  | empty (token : Token) : Statement (.marked .expStmt token [])
  | expression (token : Token) {t : Tree} (value : IsExpression t) : Statement (.marked .expStmt token [t])
  | compound (token : Token) {decls stmts : List Tree} (head : ∀ t ∈ decls, Local t)
      (body : ∀ t ∈ stmts, Statement t) : Statement (.marked .compoundStmt token (decls ++ stmts))
  | ifThen (token : Token) {test yes : Tree} (condition : IsExpression test) (branch : Statement yes) :
      Statement (.marked .ifStmt token [test, yes])
  | ifElse (token : Token) {test yes no : Tree} (condition : IsExpression test) (branch : Statement yes)
      (other : Statement no) : Statement (.marked .ifStmt token [test, yes, no])
  | whileDo (token : Token) {test body : Tree} (condition : IsExpression test) (loop : Statement body) :
      Statement (.marked .whileStmt token [test, body])
  | forDo (name : Token) {bounds : List Tree} {body : Tree} (range : IsRange bounds)
      (loop : Statement body) : Statement (.marked .forStmt name [.inner .iterRange bounds, body])
  | returnPlain (token : Token) : Statement (.marked .returnStmt token [])
  | returnValue (token : Token) {t : Tree} (value : IsExpression t) :
      Statement (.marked .returnStmt token [t])
  | breakLoop (token : Token) : Statement (.marked .breakStmt token [])

inductive Parameter : Tree → Prop where
  | mk (name : Token) (bracket : Option Token) :
      Parameter (.marked .parmId name (bracket.map fun token => Tree.marked .arrayMarker token []).toList)

inductive Group : Tree → Prop where
  | mk (type : Token) {ids : List Tree} (each : ∀ id ∈ ids, Parameter id) :
      Group (.inner .parmTypeList (.marked .typeSpec type [] :: ids))

def functionNode (type : Option Token) (name : Token) (groups : List Tree) (brace : Token)
    (items : List Tree) : Tree :=
  .marked .funDecl name ((type.map fun word => Tree.marked .typeSpec word []).toList ++
    [.inner .parms groups, .marked .compoundStmt brace items])

inductive Function : Tree → Prop where
  | mk (type : Option Token) (name : Token) {groups : List Tree} (brace : Token) {decls stmts : List Tree}
      (parms : ∀ group ∈ groups, Group group) (head : ∀ t ∈ decls, Local t)
      (body : ∀ t ∈ stmts, Statement t) : Function (functionNode type name groups brace (decls ++ stmts))

def Declaration (t : Tree) : Prop :=
  Variables none t ∨ Function t

def ShapedAs : Phrase → List Tree → Prop
  | .declaredName, trees => ∀ t ∈ trees, ∃ name length,
    t = .marked .varDeclId name (Option.map (fun n => Tree.marked .constant n []) length).toList
  | .declarator, trees | .declarators, trees => ∀ t ∈ trees, Declarator t
  | .varDeclaration, trees => ∀ t ∈ trees, Variables none t
  | .localDeclaration, trees | .localDeclarations, trees => ∀ t ∈ trees, Local t
  | .parameter, trees | .parameterList, trees => ∀ t ∈ trees, Parameter t
  | .parameterGroup, trees | .parameterGroups, trees => ∀ t ∈ trees, Group t
  | .parameters, trees => ∀ t ∈ trees, ∃ groups, t = .inner .parms groups ∧ ∀ group ∈ groups, Group group
  | .range, trees => ∀ t ∈ trees, ∃ parts, t = .inner .iterRange parts ∧ IsRange parts
  | .statement, trees | .statements, trees => ∀ t ∈ trees, Statement t
  | .block, trees => ∀ t ∈ trees, ∃ token decls stmts, t = .marked .compoundStmt token (decls ++ stmts) ∧
    (∀ u ∈ decls, Local u) ∧ ∀ u ∈ stmts, Statement u
  | .function, trees => ∀ t ∈ trees, Function t
  | .declaration, trees | .declarations, trees => ∀ t ∈ trees, Declaration t
  | .program, trees => ∀ t ∈ trees, ∃ decls, t = .inner .program decls ∧ ∀ decl ∈ decls, Declaration decl
  | _, _ => True

theorem shapedAs {p : Phrase} {ts : List Token} {trees : List Tree} (h : Derives p ts trees) :
    ShapedAs p trees := by
  induction h with
  | @scalarName name => exact List.forall_mem_singleton.2 ⟨name, none, rfl⟩
  | @arrayName name _ length => exact List.forall_mem_singleton.2 ⟨name, some length, rfl⟩
  | uninitialized _ id =>
    obtain ⟨name, length, rfl⟩ := List.forall_mem_singleton.1 id
    exact List.forall_mem_singleton.2 (@Declarator.mk name length none (by simp))
  | initialized _ _ init id =>
    obtain ⟨name, length, rfl⟩ := List.forall_mem_singleton.1 id
    exact List.forall_mem_singleton.2
      (@Declarator.mk name length (some _) (by simpa using IsExpression.of_chain init))
  | lastDeclarator _ last | lastParameter _ last | lastGroup _ last | lastDeclaration _ last => exact last
  | declarator _ _ _ first rest | parameter _ _ _ first rest | group _ _ _ first rest
  | locals _ _ first rest | statements _ _ first rest | declaration _ _ first rest =>
    exact forall_mem_cons_of first rest
  | @variableDeclaration type _ _ _ _ _ _ list => exact List.forall_mem_singleton.2 (.mk none type list)
  | plainLocal _ decl => exact fun t ht => ⟨none, decl t ht⟩
  | @staticLocal static type _ _ _ _ _ _ _ list =>
    exact List.forall_mem_singleton.2 ⟨some static, .mk (some static) type list⟩
  | noLocals | noStatements => exact fun t ht => absurd ht (by simp)
  | @scalarParameter name => exact List.forall_mem_singleton.2 (.mk name none)
  | @arrayParameter name opening => exact List.forall_mem_singleton.2 (.mk name (some opening))
  | @parameterGroup type _ _ _ _ list => exact List.forall_mem_singleton.2 (.mk type list)
  | noParameters => exact List.forall_mem_singleton.2 ⟨[], rfl, by simp⟩
  | parameters _ list => exact List.forall_mem_singleton.2 ⟨_, rfl, list⟩
  | @emptyStmt semicolon => exact List.forall_mem_singleton.2 (.empty semicolon)
  | @expStmt semicolon _ _ value => exact List.forall_mem_singleton.2 (.expression semicolon ⟨_, value⟩)
  | compound _ body =>
    obtain ⟨token, decls, stmts, rfl, hdecls, hstmts⟩ := body _ (List.mem_singleton_self _)
    exact List.forall_mem_singleton.2 (.compound token hdecls hstmts)
  | @block opening _ _ _ _ _ _ _ _ _ head body =>
    exact List.forall_mem_singleton.2 ⟨opening, _, _, rfl, head, body⟩
  | @ifThen word _ _ _ _ _ _ condition _ _ _ branch =>
    exact List.forall_mem_singleton.2 (.ifThen word (.of_chain condition) (branch _ (by simp)))
  | @ifElse word _ _ _ _ _ _ _ _ _ condition _ _ _ _ _ _ branch other =>
    exact List.forall_mem_singleton.2
      (.ifElse word (.of_chain condition) (branch _ (by simp)) (other _ (by simp)))
  | @whileDo word _ _ _ _ _ _ condition _ _ _ loop =>
    exact List.forall_mem_singleton.2 (.whileDo word (.of_chain condition) (loop _ (by simp)))
  | @forDo _ name _ _ _ _ _ _ _ _ _ _ _ _ range loop =>
    obtain ⟨parts, rfl, hparts⟩ := range _ (List.mem_singleton_self _)
    exact List.forall_mem_singleton.2 (.forDo name hparts (loop _ (by simp)))
  | @returnPlain word => exact List.forall_mem_singleton.2 (.returnPlain word)
  | @returnValue word _ _ _ _ value => exact List.forall_mem_singleton.2 (.returnValue word ⟨_, value⟩)
  | @breakLoop word => exact List.forall_mem_singleton.2 (.breakLoop word)
  | rangeStart first => exact List.forall_mem_singleton.2 ⟨_, rfl, .inl ⟨_, rfl, .of_chain first⟩⟩
  | rangeTo first _ last =>
    exact List.forall_mem_singleton.2
      ⟨_, rfl, .inr (.inl ⟨_, _, rfl, .of_chain first, .of_chain last⟩)⟩
  | rangeBy first _ last _ stride =>
    exact List.forall_mem_singleton.2
      ⟨_, rfl, .inr (.inr ⟨_, _, _, rfl, .of_chain first, .of_chain last, .of_chain stride⟩)⟩
  | @procedure name _ _ _ _ _ _ _ _ _ _ _ list code =>
    obtain ⟨groups, rfl, hgroups⟩ := list _ (List.mem_singleton_self _)
    obtain ⟨brace, decls, stmts, rfl, hdecls, hstmts⟩ := code _ (List.mem_singleton_self _)
    exact List.forall_mem_singleton.2 (.mk none name brace hgroups hdecls hstmts)
  | @function type name _ _ _ _ _ _ _ _ _ _ _ _ list code =>
    obtain ⟨groups, rfl, hgroups⟩ := list _ (List.mem_singleton_self _)
    obtain ⟨brace, decls, stmts, rfl, hdecls, hstmts⟩ := code _ (List.mem_singleton_self _)
    exact List.forall_mem_singleton.2 (.mk (some type) name brace hgroups hdecls hstmts)
  | globals _ decl => exact fun t ht => .inl (decl t ht)
  | routine _ decl => exact fun t ht => .inr (decl t ht)
  | program _ list => exact List.forall_mem_singleton.2 ⟨_, rfl, list⟩
  | _ => trivial

/-- Every program of the grammar is a list of declarations. -/
theorem of_program {ts : List Token} {program : Tree} (h : Derives .program ts [program]) :
    program.tag = .program ∧ ∀ decl ∈ program.children, Declaration decl := by
  obtain ⟨decls, rfl, hdecls⟩ := List.forall_mem_singleton.1 (shapedAs h)
  exact ⟨rfl, hdecls⟩

/-! What the shapes say about tags and parts. -/

theorem Declarator.tag {t : Tree} (h : Declarator t) : t.tag = .varDeclInit := by
  cases h
  rfl

theorem Declarator.isDeclarator {t : Tree} (h : Declarator t) : IsDeclarator t := by
  cases h with
  | @mk name length init value =>
    refine ⟨rfl, _, _, rfl, ?_⟩
    cases init with
    | none => exact .inl rfl
    | some e => exact .inr ⟨e, rfl, value e rfl⟩

theorem Variables.tag {keyword : Option Token} {t : Tree} (h : Variables keyword t) : t.tag = .varDecl := by
  cases h
  rfl

theorem Function.tag {t : Tree} (h : Function t) : t.tag = .funDecl := by
  cases h
  rfl

theorem Statement.tag {t : Tree} (h : Statement t) : t.tag ≠ .varDecl := by
  cases h <;> simp

section Parts

variable (keyword type : Option Token) (word name brace : Token) {nodes groups items : List Tree}

theorem static_variables (each : ∀ node ∈ nodes, node.tag = .varDeclInit) :
    ((variablesNode keyword word nodes).find? .static).isSome = keyword.isSome := by
  have hnodes : ∀ node ∈ nodes, node.tag ≠ .static := fun node hnode => by simp [each node hnode]
  cases keyword with
  | none => simpa [variablesNode, Tree.find?, Tree.inner, Tree.marked] using hnodes
  | some => rfl

theorem baseType_variables :
    baseType (variablesNode keyword word nodes) = typeOf (.marked .typeSpec word []) := by
  cases keyword <;> rfl

theorem declarators_variables (each : ∀ node ∈ nodes, node.tag = .varDeclInit) :
    (variablesNode keyword word nodes).children.filter (fun child => child.tag == .varDeclInit) = nodes := by
  have hnodes : nodes.filter (fun child => child.tag == .varDeclInit) = nodes :=
    List.filter_eq_self.2 fun node hnode => beq_iff_eq.2 (each node hnode)
  cases keyword <;> simp [variablesNode, Tree.inner, Tree.marked, hnodes]

theorem parameters_function :
    parameters (functionNode type name groups brace items) = parameterGroups groups := by
  cases type <;> rfl

theorem body_function :
    (functionNode type name groups brace items).find? .compoundStmt =
      some (.marked .compoundStmt brace items) := by
  cases type <;> rfl

theorem resultType_function :
    Session.resultType (functionNode type name groups brace items) =
      match type with
      | some word => typeOf (.marked .typeSpec word [])
      | none => .ok .void := by
  cases type <;> rfl

end Parts

end Shape

end StackCompiler
