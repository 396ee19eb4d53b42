import Mathlib.Control.Monad.Basic
import StackCompiler.Proofs.Lowering.StaticFrame
import StackCompiler.Proofs.Lowering.SourceForms

/-!
Which initial values of `static` variables of a function are refused. The check looks for loads of local
slots in the code, and some of these are the lowering's own: a store into an element keeps its value, and
an update of an element its index, in a temporary of the function. So an initial value that names no
variable of the frame is refused just if it stores into an element.
-/

set_option autoImplicit false
namespace StackCompiler

open Lowering ScopeChain

/-- An assignment to an element of an array, or a step of one. -/
def Tree.storesElement (t : Tree) : Bool :=
  (t.tag == .assign || t.tag == .incDec) && t.children.head?.any fun target => !target.children.isEmpty

namespace Lowering

variable {table : FunctionTable} {params : List Ty} {c c' : ScopeChain} {ty : Ty} {code : Code} {form : Form}

/-! Stores whose value stays on the stack. -/

/-- A store into a static variable reads what its value reads. -/
theorem reads_assign_variable {place : Place} {value : Code} {op : Option Instr} {keep : Bool}
    (h : Target.assign ⟨place, ty, none⟩ value op keep c = .ok code c') (hplace : place.storage = .static)
    (hop : ∀ instr, op = some instr → instr.usesFrame = false) :
    code.any Instr.readsFrame = value.any Instr.readsFrame := by
  obtain ⟨-, rfl⟩ := assign_variable_ok h
  have hdup : Instr.dup.readsFrame = false := rfl
  cases op with
  | none => cases keep <;> simp [updated, hdup]
  | some instr =>
    have hinstr := readsFrame_of_usesFrame (hop instr rfl)
    cases keep <;> simp [updated, hplace, hdup, hinstr]

/-! Expressions. -/

def Form.storesElement : Form → Bool
  | .store _ _ target origin =>
    !target.children.isEmpty || (target :: origin.trees).any (Tree.any Tree.storesElement)
  | form => form.trees.any (Tree.any Tree.storesElement)

def Form.NamesNone (form : Form) (c : ScopeChain) : Prop :=
  ∀ t ∈ form.trees, t.any (Tree.namesFrame c) = false

theorem Form.NamesNone.temps (h : form.NamesNone c) (htemps : Temps c c') : form.NamesNone c' := by
  intro t ht
  rw [namesFrame_temps htemps]
  exact h t ht

theorem Form.NamesNone.part {part : Form} (h : form.NamesNone c) (hpart : ∀ t ∈ part.trees, t ∈ form.trees) :
    part.NamesNone c :=
  fun t ht => h t (hpart t ht)

/-- The trees of a part may also be children of the whole. -/
theorem Form.NamesNone.children {part : Form} {t : Tree} (h : (Form.value t).NamesNone c)
    (hpart : ∀ u ∈ part.trees, u ∈ t.children) : part.NamesNone c :=
  fun u hu => Tree.child_of_not_any (h t (List.mem_singleton_self t)) (hpart u hu)

theorem Form.NamesNone.static {name : Token} {children : List Tree} {symbol : Symbol}
    (h : form.NamesNone c) (hmem : .marked .mutable name children ∈ form.trees)
    (hsymbol : c.resolve? name.lexeme = some symbol) : symbol.place.storage = .static := by
  have hroot := Tree.root_of_not_any (h _ hmem)
  simpa [Tree.namesFrame, Tree.marked, hsymbol] using hroot

@[simp] theorem storesElement_value (t : Tree) :
    (Form.value t).storesElement = t.any Tree.storesElement := by
  simp [Form.storesElement, Form.trees]

/-- A node that is no assignment itself. -/
theorem any_storesElement {t : Tree} (h : t.tag ∉ [Tag.assign, .incDec]) :
    t.any Tree.storesElement = t.children.any (Tree.any Tree.storesElement) := by
  simp only [List.mem_cons, List.not_mem_nil, or_false, not_or] at h
  rw [Tree.any_eq, Tree.storesElement, beq_false_of_ne h.1, beq_false_of_ne h.2, Bool.false_or,
    Bool.false_and, Bool.false_or]

theorem leaf_stores_nothing {tag : Tag} (h : tag ∉ [Tag.assign, .incDec]) (token : Token) :
    (Tree.marked tag token []).any Tree.storesElement = false := by
  rw [any_storesElement h]
  rfl

/-- An assignment or step, by its target. -/
theorem any_storesElement_store {tag : Tag} (h : tag ∈ [Tag.assign, .incDec]) (op : Token) (target : Tree)
    (rest : List Tree) : (Tree.marked tag op (target :: rest)).any Tree.storesElement =
      (!target.children.isEmpty || (target :: rest).any (Tree.any Tree.storesElement)) := by
  have hroot : (Tree.marked tag op (target :: rest)).storesElement = !target.children.isEmpty := by
    simp only [List.mem_cons, List.not_mem_nil, or_false] at h
    rcases h with rfl | rfl <;> rfl
  rw [Tree.any_eq, hroot]
  rfl

theorem level_not_assign (level : Grammar.Level) : level.tag ∉ [Tag.assign, .incDec] := by
  cases level <;> simp [Grammar.Level.tag]

/-- In a function, the code of an expression that names nothing in the frame reads the frame just if the
expression stores into an element. -/
theorem Lowers.any_readsFrame (h : Lowers table form c ty code c') (htable : table.Sound)
    (hc : InFunction params c) (hkept : form.Kept ty) (hnames : form.NamesNone c) :
    code.any Instr.readsFrame = form.storesElement := by
  induction h with
  | constant hliteral =>
    have hpush := readsFrame_of_usesFrame (usesFrame_literal hliteral)
    rw [storesElement_value, any_storesElement (by simp)]
    simp [Tree.marked, hpush]
  | «variable» hsymbol =>
    have hplace := hnames.static (List.mem_singleton_self _) hsymbol
    rw [storesElement_value, any_storesElement (by simp)]
    simp [Tree.marked, hplace]
  | @element name index symbol element code c c' hsymbol _ _ ih =>
    have hplace := hnames.static (List.mem_singleton_self _) hsymbol
    have hindex := ih hc (by simp [Form.Kept]) (hnames.children (by simp [Form.trees, Tree.marked]))
    have hload : (Instr.loadElem element).readsFrame = false := rfl
    rw [storesElement_value, any_storesElement (by simp)]
    simp [Tree.marked, hplace, hindex, hload]
  | paren _ ih =>
    have hinner := ih hc hkept (hnames.children (by simp [Form.trees, Tree.marked]))
    rw [storesElement_value, any_storesElement (by simp)]
    simp [Tree.marked, hinner]
  | @chain level first links code more c c₁ c' operand _ ih ih' =>
    have hfirst := ih hc (ne_void_level level) (hnames.children (by simp [Form.trees, Tree.inner]))
    have hrest := ih' (hc.temps operand.temps) trivial
      ((hnames.children (by simp +contextual [Form.trees, Tree.inner])).temps operand.temps)
    rw [storesElement_value] at hfirst ⊢
    rw [any_storesElement (level_not_assign level), List.any_append, hfirst, hrest]
    rfl
  | noLinks | noArguments => rfl
  | @link level op t links instr code more c c₁ c' _ hop operand _ ih ih' =>
    have hfirst := ih hc (ne_void_level level) (hnames.part (by simp [Form.trees]))
    have hrest := ih' (hc.temps operand.temps) trivial
      ((hnames.part (by simp +contextual [Form.trees])).temps operand.temps)
    have hinstr := readsFrame_of_usesFrame (usesFrame_binaryInstr hop)
    have hoperator : (Tree.marked .operator op []).any Tree.storesElement = false :=
      leaf_stores_nothing (by simp) op
    rw [storesElement_value] at hfirst
    rw [List.any_append, List.any_cons, hfirst, hrest, hinstr]
    simp [Form.storesElement, Form.trees, hoperator]
  | @compare op left right instr ty code code' c c₁ c' hop defined operand _ ih ih' =>
    have hty := ne_void_of_compares defined
    have hfirst := ih hc hty (hnames.children (by simp [Form.trees, Tree.inner]))
    have hsecond := ih' (hc.temps operand.temps) hty
      ((hnames.children (by simp [Form.trees, Tree.inner])).temps operand.temps)
    have hinstr := readsFrame_of_usesFrame (usesFrame_binaryInstr hop)
    have hoperator : (Tree.marked .operator op []).any Tree.storesElement = false :=
      leaf_stores_nothing (by simp) op
    rw [storesElement_value, any_storesElement (by simp)]
    simp [Tree.inner, hfirst, hsecond, hinstr, hoperator]
  | negate _ ih =>
    have hinner := ih hc (by simp [Form.Kept]) (hnames.children (by simp [Form.trees, Tree.marked]))
    have hnot : Instr.not.readsFrame = false := rfl
    rw [storesElement_value, any_storesElement (by simp)]
    simp [Tree.marked, hinner, hnot]
  | unary hop _ ih =>
    have hinner := ih hc (ne_void_of_unary hop) (hnames.children (by simp [Form.trees, Tree.marked]))
    have hinstr := readsFrame_of_usesFrame (usesFrame_unaryOperator hop)
    rw [storesElement_value, any_storesElement (by simp)]
    simp [Tree.marked, hinner, hinstr]
  | @call name args signature code c c' _ hlookup _ _ ih =>
    have hparameters := htable.parameters _ (List.mem_of_find?_eq_some hlookup)
    have hargs := ih hc (fun ty hty => ne_void_of_storable (hparameters ty hty))
      (hnames.children fun t ht => ht)
    have hcall : (Instr.call signature.handle).readsFrame = false := rfl
    rw [storesElement_value, any_storesElement (by simp), List.any_append, hargs]
    simp [Form.storesElement, Form.trees, Tree.marked, hcall]
  | print | printFormatted | put => exact absurd rfl hkept
  | kept _ ih => exact ih hc rfl hnames
  | @assign keep op target value instr ty code c c' _ _ ih =>
    have hstore := ih hc hkept (hnames.children (by simp [Form.trees, Source.trees, Tree.marked]))
    rw [hstore]
    exact (any_storesElement_store (by simp) op target [value]).symm.trans (storesElement_value _).symm
  | @step keep op target instr code c c' _ _ ih =>
    have hstore := ih hc hkept (hnames.children (by simp [Form.trees, Source.trees, Tree.marked]))
    rw [hstore]
    exact (any_storesElement_store (by simp) op target []).symm.trans (storesElement_value _).symm
  | @storeVariable keep op name symbol origin value code c c₁ c' hsymbol storing inner hassign ih =>
    have hplace := hnames.static List.mem_cons_self hsymbol
    have hty := ne_void_of_storable (storable_of_resolve hc.reachable hsymbol)
    have hvalue := ih hc hty (hnames.part (by simp +contextual [Form.trees]))
    have htarget : (Tree.marked .mutable name []).any Tree.storesElement = false :=
      leaf_stores_nothing (by simp) name
    have hleaf : (Tree.marked .mutable name []).children.isEmpty = true := rfl
    rw [reads_assign_variable hassign hplace fun _ => usesFrame_storing storing, hvalue]
    simp [Form.storesElement, Form.trees, htarget, hleaf]
  | storeElement _ _ _ outer inner hassign =>
    cases (show _ = true from hkept)
    have hinside := ((hc.temps outer.temps).temps inner.temps).inside
    rw [reads_assign_element hinside hassign]
    rfl
  | value _ ih => exact ih hc hkept hnames
  | one | input => rfl
  | argument operand _ ih ih' =>
    have hfirst := ih hc (hkept _ (by simp)) (hnames.part (by simp [Form.trees]))
    have hrest := ih' (hc.temps operand.temps) (fun ty hty => hkept ty (by simp [hty]))
      ((hnames.part (by simp +contextual [Form.trees])).temps operand.temps)
    rw [storesElement_value] at hfirst
    rw [List.any_append, hfirst, hrest]
    rfl
  | noPrinted | printed | noFilled | filled => exact hkept.elim

/-! Declarators. -/

variable {base : Ty} {storage : Storage} {name : String} {line : Nat}

/-- Declaring a variable fails only where the scope has the name already. -/
theorem declare_error {length : Option Nat} {e : Diagnostic}
    (h : declare name ty storage length line c = .error e c') : e = .duplicateDeclaration name line := by
  simp only [declare, bind_error, get_error, get_ok, lift_error, set_error, pure_error, false_or, and_false,
    exists_false, or_false] at h
  obtain ⟨_, _, -, h, -⟩ := h
  unfold ScopeChain.declare at h
  split at h <;> cases h
  rfl

theorem declareVariable_error {d : Declarator} {e : Diagnostic}
    (h : d.declare base storage c = .error e c') : e = .duplicateDeclaration d.name d.line := by
  obtain ⟨name, line, length, value⟩ := d
  unfold Declarator.declare at h
  cases length <;> cases value <;>
    simp only [bind_error, reserve, modifyGet_error, pure_error, and_false, exists_false, or_false] at h <;>
    exact declare_error h

/-- An initial value of the right type is refused if its code reads the frame. -/
theorem initialValue_error_iff {init : Tree} {typed : Typed} {c₁ : ScopeChain} {e : Diagnostic}
    (hinit : expression table init c = .ok typed c₁) (hty : typed.ty = .value base) :
    initialValue table name base true (some init) c = .error e c' ↔
      typed.code.any Instr.readsFrame = true ∧ .frameReadInStatic name init.line = e ∧ c₁ = c' := by
  have hvalue : expectValue typed.ty base init.line = .ok () := expectValue_ok.2 hty
  simp only [initialValue, bind_error, hinit, lift_error, lift_ok, pure_error, require_error]
  constructor
  · rintro (h | ⟨_, _, ⟨⟩, ⟨h, -⟩ | ⟨_, _, ⟨-, rfl⟩, ⟨⟨h, rfl⟩, rfl⟩ | ⟨_, _, -, h⟩⟩⟩)
    · cases h
    · rw [hvalue] at h
      cases h
    · exact ⟨by simpa using h, rfl, rfl⟩
    · exact h.elim
  · rintro ⟨hreads, rfl, rfl⟩
    exact .inr ⟨typed, c₁, rfl, .inr ⟨(), c₁, ⟨hvalue, rfl⟩, .inl ⟨⟨by simp [hreads], rfl⟩, rfl⟩⟩⟩

theorem declaredLength_error {id : Tree} {e : Diagnostic} (h : declaredLength id = .error e) (name : String)
    (line : Nat) : e ≠ .frameReadInStatic name line := by
  rintro rfl
  unfold declaredLength at h
  split at h
  next => cases h
  next length _ _ =>
    unfold arrayLength Tree.lexeme at h
    cases htoken : length.token with
    | none => simp [htoken, Tree.malformed, Functor.map, Except.map, bind, Except.bind] at h
    | some token =>
      simp only [htoken, Grammar.ok_bind] at h
      cases hword : Text.readWord? token.lexeme <;> rw [hword] at h <;> cases h

/-- A declarator whose initial value has the right type is refused for that value, and not for something
else, where its length is a numeral and the code of the value reads the frame. -/
theorem declarator_refused_iff {node id init : Tree} {typed : Typed} {c₁ : ScopeChain}
    (hnode : node.children = [id, init]) (hname : id.lexeme = .ok name)
    (hinit : expression table init c = .ok typed c₁) (hty : typed.ty = .value base) :
    (∃ name line c', declarator table base .static true node c = .error (.frameReadInStatic name line) c') ↔
      (∃ length, declaredLength id = .ok length) ∧ typed.code.any Instr.readsFrame = true := by
  have hid : node.child 0 = .ok id := by simp [Tree.child, hnode]
  have hvalue : node.children[1]? = some init := by simp [hnode]
  simp only [declarator, readDeclarator, bind_error, bind_ok, lift_error, lift_ok, hid, hvalue, pure_error,
    pure_ok]
  constructor
  · rintro ⟨name', line', c', h | ⟨d, c₂, -, h⟩⟩
    · rcases h with ⟨⟨⟩, -⟩ |
        ⟨_, _, ⟨⟨⟩, rfl⟩, ⟨h, -⟩ | ⟨_, _, ⟨-, rfl⟩, ⟨h, -⟩ | ⟨length, _, ⟨hlength, rfl⟩, h⟩⟩⟩
      · rw [hname] at h
        cases h
      · exact absurd rfl (declaredLength_error h name' line')
      · obtain h | ⟨_, _, -, h⟩ := h
        · exact ⟨⟨length, hlength⟩, ((initialValue_error_iff hinit hty).1 h).1⟩
        · exact h.elim
    · cases declareVariable_error h
  · rintro ⟨⟨length, hlength⟩, hreads⟩
    have herror := (@initialValue_error_iff table c c₁ base name _ _ _ _ hinit hty).2 ⟨hreads, rfl, rfl⟩
    exact ⟨name, init.line, c₁, .inl (.inr ⟨id, c, ⟨rfl, rfl⟩, .inr ⟨name, c, ⟨hname, rfl⟩,
      .inr ⟨length, c, ⟨hlength, rfl⟩, .inl herror⟩⟩⟩)⟩

end Lowering

/-! The static variables of a program. -/

namespace Shape

theorem allStaticDeclarators_of {items : List Tree}
    (each : ∀ t ∈ items, ∀ node ∈ t.staticDeclarators, Declarator node) :
    ∀ node ∈ Tree.allStaticDeclarators items, Declarator node := by
  induction items with
  | nil => simp [Tree.allStaticDeclarators]
  | cons t items ih =>
    rw [List.forall_mem_cons] at each
    exact List.forall_mem_append.2 ⟨each.1, ih each.2⟩

theorem Local.staticDeclarators {t : Tree} (h : Local t) : ∀ node ∈ t.staticDeclarators, Declarator node := by
  obtain ⟨keyword, @⟨type, nodes, each⟩⟩ := h
  rw [staticDeclarators_variables keyword type fun node hnode => (each node hnode).tag]
  split
  next => exact each
  next => simp

theorem Statement.staticDeclarators {t : Tree} (h : Statement t) :
    ∀ node ∈ t.staticDeclarators, Declarator node := by
  induction h with
  | compound token head _ ih =>
    refine allStaticDeclarators_of fun t ht => ?_
    rcases List.mem_append.1 ht with ht | ht
    · exact (head t ht).staticDeclarators
    · exact ih t ht
  | ifThen _ _ _ ih | whileDo _ _ _ ih | forDo _ _ _ ih =>
    exact allStaticDeclarators_of (List.forall_mem_singleton.2 ih)
  | ifElse _ _ _ _ ih ih' =>
    exact allStaticDeclarators_of (List.forall_mem_cons.2 ⟨ih, List.forall_mem_singleton.2 ih'⟩)
  | empty | expression | returnPlain | returnValue | breakLoop => simp [Tree.marked, Tree.staticDeclarators]

/-- Every static variable of a function has a declarator of the grammar. -/
theorem Declaration.staticsOf {decl : Tree} (h : Declaration decl) :
    ∀ v ∈ staticsOf decl, Declarator v.node := by
  rcases h with @⟨type, nodes, each⟩ | @⟨type, name, groups, brace, decls, stmts, -, head, body⟩
  · rw [staticsOf_variables none type fun node hnode => (each node hnode).tag]
    exact List.forall_mem_map.2 each
  · rw [staticsOf_function]
    refine List.forall_mem_map.2 (allStaticDeclarators_of fun t ht => ?_)
    rcases List.mem_append.1 ht with ht | ht
    · exact (head t ht).staticDeclarators
    · exact (body t ht).staticDeclarators

/-- A declarator with an initial value has no other parts than a name and that value. -/
theorem Declarator.parts {node id init : Tree} (h : Declarator node) (hid : node.child 0 = .ok id)
    (hinit : node.children[1]? = some init) :
    IsExpression init ∧ ∃ name, node.children = [id, init] ∧ id.lexeme = .ok name := by
  cases h with
  | @mk name length found value =>
    cases hid
    cases found with
    | none => cases hinit
    | some e =>
      cases hinit
      exact ⟨value _ rfl, name.lexeme, rfl, rfl⟩

end Shape

theorem declarator_of_mem_staticVariables {source : String} {program : Tree} (h : parse source = .ok program)
    {v : StaticVariable} (hv : v ∈ staticVariables program) : Shape.Declarator v.node := by
  obtain ⟨decl, hdecl, hv⟩ := List.mem_flatMap.1 hv
  exact ((Shape.of_program (Grammar.derives_of_parse h)).2 decl hdecl).staticsOf v hv

/-- Of the initial values of `static` variables that have the right type and name no variable of the frame,
those are refused, as if they read one, that store into an element; the length, if there is one, must be
readable, for it is looked at first. -/
theorem static_initializer_refused_iff {source : String} {program : Tree}
    (hparse : parse source = .ok program) {v : StaticVariable} (hv : v ∈ staticVariables program)
    (howner : v.owner.isSome) {id init : Tree}
    (hid : v.node.child 0 = .ok id) (hinit : v.initializer? = some init) {table : FunctionTable}
    (htable : table.Sound) {params : List Ty} {c c₁ : ScopeChain} (hc : Reachable params c)
    (inside : c.enclosing ≠ []) {base : Ty} (hscalar : base.isScalar = true) {typed : Typed}
    (hrun : expression table init c = .ok typed c₁) (hty : typed.ty = .value base)
    (hnames : init.any (Tree.namesFrame c) = false) :
    (∃ name line c', declarator table base .static v.owner.isSome v.node c =
        .error (.frameReadInStatic name line) c') ↔
      (∃ length, declaredLength id = .ok length) ∧ init.any Tree.storesElement = true := by
  obtain ⟨hexpression, name, hchildren, hname⟩ :=
    (declarator_of_mem_staticVariables hparse hv).parts hid hinit
  obtain ⟨ty, code, rfl, hlowers⟩ := hexpression.lowerable.value hrun
  cases hty
  have hreads := hlowers.any_readsFrame htable ⟨hc, inside⟩ (ne_void_of_scalar hscalar)
    (List.forall_mem_singleton.2 hnames)
  rw [storesElement_value] at hreads
  rw [howner, declarator_refused_iff hchildren hname hrun rfl, ← hreads]
  rfl

/-- The scopes in a function without parameters behind the declarations of an array and of a variable. -/
def scopesWithArray : ScopeChain :=
  ⟨⟨.function, [], 0, 0⟩,
    [⟨.file, [⟨"k", .int, ⟨.static, 1⟩, none, 1⟩, ⟨"a", .array .int, ⟨.static, 0⟩, some 3, 1⟩], 0, 0⟩],
    [.array .int, .int], []⟩

theorem reachable_scopesWithArray : Reachable [] scopesWithArray := by
  have harray : ScopeChain.empty.declare "a" (.array .int) .static (some 3) 1 =
      .ok (0, ⟨⟨.file, [⟨"a", .array .int, ⟨.static, 0⟩, some 3, 1⟩], 0, 0⟩, [], [.array .int], []⟩) := rfl
  have hvariable := Reachable.empty.declare (.inl rfl) rfl harray
  have hboth := hvariable.declare (.inl rfl) rfl (show ScopeChain.declare _ "k" .int .static none 1 = _ from rfl)
  exact hboth.enterFunction rfl

/-- A variable is updated by an element, and no temporary is needed for that. -/
theorem static_initializer_updates_variable : ∃ program v,
    parse "int a[3]; int k; int f() \x7b static int n : (k += a[k]); return n; \x7d" = .ok program ∧
      v ∈ staticVariables program ∧ v.owner = some "f" ∧
      ¬ ∃ name line c', declarator .empty .int .static v.owner.isSome v.node scopesWithArray =
        .error (.frameReadInStatic name line) c' := by
  have hrun : (parse "int a[3]; int k; int f() \x7b static int n : (k += a[k]); return n; \x7d").toOption.any
      (fun program => (staticVariables program)[2]?.any fun v => decide (v.owner = some "f") &&
        (v.node.child 0).toOption.any fun id => v.initializer?.any fun init =>
          !init.any (Tree.namesFrame scopesWithArray) && !init.any Tree.storesElement &&
          (succeeded? (expression .empty init scopesWithArray)).any fun r => decide (r.1.ty = .value .int)) =
      true := by decide +kernel
  obtain ⟨program, hparse, hrun⟩ := ok_of_any hrun
  obtain ⟨v, hv, hrun⟩ := (Option.any_eq_true _ _).1 hrun
  rw [Bool.and_eq_true, decide_eq_true_eq] at hrun
  obtain ⟨howner, hrun⟩ := hrun
  obtain ⟨id, hid, hrun⟩ := ok_of_any hrun
  obtain ⟨init, hinit, hrun⟩ := (Option.any_eq_true _ _).1 hrun
  simp only [Bool.and_eq_true, Bool.not_eq_true'] at hrun
  obtain ⟨⟨hnames, hstores⟩, hrun⟩ := hrun
  obtain ⟨typed, c₁, hexpression, hty⟩ := ok_of_succeeded hrun
  have hmem := List.mem_of_getElem? hv
  have hiff := static_initializer_refused_iff hparse hmem (by simp [howner]) hid hinit
    FunctionTable.Reachable.empty.sound reachable_scopesWithArray (by simp [scopesWithArray]) rfl hexpression
    (of_decide_eq_true hty) hnames
  refine ⟨program, v, hparse, hmem, howner, fun hrefused => ?_⟩
  rw [(hiff.1 hrefused).2] at hstores
  cases hstores

/-- An element is updated by a variable: the initial value has its type and names no variable of the frame,
and the program is rejected, for the sake of the temporaries. -/
theorem static_initializer_refused_for_element : ∃ program v init typed c₁ c₂,
    parse "int a[3]; int k; int f() \x7b static int n : (a[0] += k); return n; \x7d" = .ok program ∧
      v ∈ staticVariables program ∧ v.owner = some "f" ∧ v.initializer? = some init ∧
      Reachable [] scopesWithArray ∧ scopesWithArray.enclosing ≠ [] ∧
      expression .empty init scopesWithArray = .ok typed c₁ ∧ typed.ty = .value .int ∧
      init.any (Tree.namesFrame scopesWithArray) = false ∧
      declarator .empty .int .static true v.node scopesWithArray = .error (.frameReadInStatic "n" 1) c₂ ∧
      compile "int a[3]; int k; int f() \x7b static int n : (a[0] += k); return n; \x7d" =
        .error (.frameReadInStatic "n" 1) := by
  have hrun : (parse "int a[3]; int k; int f() \x7b static int n : (a[0] += k); return n; \x7d").toOption.any
      (fun program => (staticVariables program)[2]?.any fun v => decide (v.owner = some "f") &&
        v.initializer?.any fun init => !init.any (Tree.namesFrame scopesWithArray) &&
          (succeeded? (expression .empty init scopesWithArray)).any (fun r => decide (r.1.ty = .value .int)) &&
          (failed? (declarator .empty .int .static true v.node scopesWithArray)).any fun r =>
            decide (r.1 = .frameReadInStatic "n" 1)) = true := by decide +kernel
  have hcompile : compile "int a[3]; int k; int f() \x7b static int n : (a[0] += k); return n; \x7d" =
      .error (.frameReadInStatic "n" 1) := by decide +kernel
  obtain ⟨program, hparse, hrun⟩ := ok_of_any hrun
  obtain ⟨v, hv, hrun⟩ := (Option.any_eq_true _ _).1 hrun
  rw [Bool.and_eq_true, decide_eq_true_eq] at hrun
  obtain ⟨howner, hrun⟩ := hrun
  obtain ⟨init, hinit, hrun⟩ := (Option.any_eq_true _ _).1 hrun
  simp only [Bool.and_eq_true, Bool.not_eq_true'] at hrun
  obtain ⟨⟨hnames, hexpression⟩, hdeclarator⟩ := hrun
  obtain ⟨typed, c₁, hexpression, hty⟩ := ok_of_succeeded hexpression
  obtain ⟨e, c₂, hdeclarator, he⟩ := error_of_failed hdeclarator
  have he : e = .frameReadInStatic "n" 1 := of_decide_eq_true he
  subst he
  exact ⟨program, v, init, typed, c₁, c₂, hparse, List.mem_of_getElem? hv, howner, hinit,
    reachable_scopesWithArray, by simp [scopesWithArray], hexpression, of_decide_eq_true hty, hnames,
    hdeclarator, hcompile⟩

end StackCompiler
