import StackCompiler.Proofs.Lowering.StatementRuns
import StackCompiler.Proofs.Typing.Expressions

/-!
Declarations of variables are lowered exactly if they are legal, and leave the environment that the rules
say they leave.
-/

set_option autoImplicit false
namespace StackCompiler

open Lowering Typing

namespace ScopeChain

variable {c c' : ScopeChain}

theorem environment_enter (c : ScopeChain) (kind : ScopeKind) :
    (c.enter kind).environment = [] :: c.environment := by
  cases kind <;> rfl

theorem environment_tail (c : ScopeChain) :
    c.environment.tail = c.enclosing.map fun scope => scope.symbols.map fun s => (s.name, s.ty) := rfl

/-- Behind a scope the names around it are in scope again. -/
theorem environment_exit (h : c'.environment.tail = c.environment) :
    (c'.exit c.depth).environment = c.environment := by
  have hlength : c'.enclosing.length = c.enclosing.length + 1 := by
    have hlengths := congrArg List.length h
    simpa [environment, scopes] using hlengths
  obtain ⟨outer, more, houter⟩ := List.exists_cons_of_length_eq_add_one hlength
  have hmore : more.length = c.enclosing.length := by simpa [houter] using hlength
  have hexit : c'.exit c.depth = { c' with innermost := outer.resume c'.innermost, enclosing := more } := by
    rw [depth, ← hmore]
    exact exit_innermost houter
  have hsymbols : (outer.resume c'.innermost).symbols = outer.symbols := by
    unfold Scope.resume
    split <;> rfl
  rw [← h, environment_tail, houter, hexit]
  simp [environment, scopes, hsymbols]

theorem environment_reserve (c : ScopeChain) (ty : Ty) (storage : Storage) :
    (c.reserve ty storage).2.environment = c.environment :=
  environment_eq (reserve_symbols c ty storage) (reserve_enclosing c ty storage)

def declared (c : ScopeChain) : Variables :=
  c.innermost.symbols.map fun s => (s.name, s.ty)

theorem lookup_declared (c : ScopeChain) (name : String) :
    c.declared.lookup name = (c.innermost.lookup? name).map Symbol.ty :=
  c.innermost.lookup_types name

variable {name : String} {ty : Ty} {storage : Storage} {length : Option Nat} {line slot : Nat}

theorem environment_declare (h : c.declare name ty storage length line = .ok (slot, c')) :
    c.declared.lookup name = none ∧
      c'.environment = ((name, ty) :: c.declared) :: c.environment.tail := by
  obtain ⟨-, hc'⟩ := declare_ok h
  unfold declare at h
  split at h
  next => simp at h
  next hnew =>
    rw [Option.not_isSome_iff_eq_none] at hnew
    refine ⟨by rw [lookup_declared, hnew]; rfl, ?_⟩
    simp [hc', environment, scopes, declared, Scope.bind, reserve_symbols, reserve_enclosing]

theorem declare_succeeds (h : c.declared.lookup name = none) :
    ∃ slot c', c.declare name ty storage length line = .ok (slot, c') := by
  rw [lookup_declared, Option.map_eq_none_iff] at h
  simp [declare, h]

end ScopeChain

namespace Typing

variable {functions : Functions} {table : FunctionTable} {c c' : ScopeChain} {base : Ty}
  {storage : Storage} {hoisted : Bool} {name : Token} {length : Option Token} {init : Option Tree}

/-! The parts of a declarator. -/

abbrev nameNode (name : Token) (length : Option Token) : Tree :=
  .marked .varDeclId name (length.map fun n => Tree.marked .constant n []).toList

theorem readWord_of_number {n : Token} (h : n.kind = .number ∧ n.Scanned) :
    (Text.readWord? n.lexeme).isSome = true ↔ IsNumeral n.lexeme := by
  obtain ⟨d, rest, htext, hd⟩ := h.2.number h.1
  exact readWord_isSome htext hd

theorem declaredLength_ok (hlength : ∀ n ∈ length, n.kind = .number ∧ n.Scanned) {found : Option Int32}
    (h : declaredLength (nameNode name length) = .ok found) :
    found.isSome = length.isSome ∧ ∀ n ∈ length, IsNumeral n.lexeme := by
  cases length with
  | none =>
    cases h
    exact ⟨rfl, by simp⟩
  | some n =>
    change some <$> arrayLength (.marked .constant n []) = .ok found at h
    unfold arrayLength at h
    rw [lexeme_marked, Grammar.ok_bind] at h
    have hnumeral := readWord_of_number (hlength n rfl)
    cases hread : Text.readWord? n.lexeme with
    | none =>
      rw [hread] at h
      cases h
    | some size =>
      rw [hread] at h hnumeral
      cases h
      refine ⟨rfl, ?_⟩
      rintro _ ⟨⟩
      exact hnumeral.1 rfl

theorem declaredLength_succeeds (hlength : ∀ n ∈ length, n.kind = .number ∧ n.Scanned)
    (sized : ∀ n ∈ length, IsNumeral n.lexeme) :
    ∃ found, declaredLength (nameNode name length) = .ok found ∧ found.isSome = length.isSome := by
  cases length with
  | none => exact ⟨none, rfl, rfl⟩
  | some n =>
    obtain ⟨size, hsize⟩ := Option.isSome_iff_exists.1 ((readWord_of_number (hlength n rfl)).2 (sized n rfl))
    refine ⟨some size, ?_, rfl⟩
    change some <$> arrayLength (.marked .constant n []) = _
    unfold arrayLength
    rw [lexeme_marked, Grammar.ok_bind, hsize]
    rfl

/-- A lowered expression has its type. -/
theorem hasType_of_lowers (hfunctions : Holds functions table) {t : Tree} {ty : Ty} {code : Code}
    (hsource : t.FromSource) (h : Lowers table (.value t) c ty code c') :
    HasType functions c.environment t ty ∧ c'.environment = c.environment :=
  ⟨typed_of_lowers hfunctions h (List.forall_mem_singleton.2 hsource), h.temps.environment⟩

/-- An expression with a type is lowered to a value of it. -/
theorem HasType.evaluates (hfunctions : Holds functions table) {t : Tree} {ty : Ty}
    (h : HasType functions c.environment t ty) (hsource : t.FromSource) :
    ∃ code c', expression table t c = .ok (.value ty code) c' ∧ c'.environment = c.environment := by
  obtain ⟨code, c', hlowers⟩ := h.accepts hfunctions hsource c rfl
  exact ⟨code, c', hlowers.runs, hlowers.temps.environment⟩

theorem initialValue_typed (hfunctions : Holds functions table)
    (hinit : ∀ e ∈ init, IsExpression e ∧ e.FromSource) {text : String} {value : Option Code}
    (h : initialValue table text base hoisted init c = .ok value c') :
    (∀ e ∈ init, HasType functions c.environment e base) ∧ c'.environment = c.environment := by
  cases init with
  | none =>
    obtain ⟨-, rfl⟩ := initialValue_none.1 h
    exact ⟨by simp, rfl⟩
  | some e =>
    obtain ⟨hexpression, hsource⟩ := hinit e rfl
    obtain ⟨code, htyped, -, -⟩ := initialValue_some.1 h
    obtain ⟨htype, henv⟩ := hasType_of_lowers hfunctions hsource (hexpression.lowers htyped)
    exact ⟨by simpa using htype, henv⟩

theorem initialValue_succeeds (hfunctions : Holds functions table) (text : String)
    (hinit : ∀ e ∈ init, HasType functions c.environment e base ∧ e.FromSource)
    (hhoisted : hoisted = true → init = none) :
    ∃ value c', initialValue table text base hoisted init c = .ok value c' ∧
      c'.environment = c.environment := by
  cases init with
  | none => exact ⟨none, c, rfl, rfl⟩
  | some e =>
    have hplain : hoisted = false := by
      cases hoisted with
      | false => rfl
      | true => cases hhoisted rfl
    obtain ⟨htype, hsource⟩ := hinit e rfl
    obtain ⟨code, c', hrun, henv⟩ := htype.evaluates hfunctions hsource
    exact ⟨some code, c', initialValue_some.2 ⟨code, hrun, by simp [hplain], rfl⟩, henv⟩

theorem declare_typed {d : Declarator} {setup : Setup} (h : TakesSlots base storage d c setup c') :
    c.declared.lookup d.name = none ∧ c'.environment =
      ((d.name, if d.length.isSome then .array base else base) :: c.declared) :: c.environment.tail := by
  cases h with
  | nothing declared | scalar declared | array declared => exact ScopeChain.environment_declare declared
  | @filled _ _ _ _ _ _ _ _ c₁ c₂ _ declared valueTemp indexTemp =>
    obtain ⟨hfree, henv⟩ := ScopeChain.environment_declare declared
    have hvalueTemp := ScopeChain.environment_reserve c₁ base storage
    have hindexTemp := ScopeChain.environment_reserve c₂ .int storage
    rw [valueTemp] at hvalueTemp
    rw [indexTemp] at hindexTemp
    exact ⟨hfree, (hindexTemp.trans hvalueTemp).trans henv⟩

theorem declare_succeeds {d : Declarator} (h : c.declared.lookup d.name = none) :
    ∃ setup c', TakesSlots base storage d c setup c' := by
  have hslot : ∀ ty length, ∃ slot c', c.declare d.name ty storage length d.line = .ok (slot, c') :=
    fun ty length => ScopeChain.declare_succeeds h
  obtain ⟨name, line, length, value⟩ := d
  cases length with
  | none =>
    obtain ⟨slot, c', hdeclare⟩ := hslot base none
    cases value with
    | none => exact ⟨_, c', .nothing hdeclare⟩
    | some value => exact ⟨_, c', .scalar hdeclare⟩
  | some n =>
    obtain ⟨slot, c', hdeclare⟩ := hslot (.array base) (some n.toInt.toNat)
    cases value with
    | none => exact ⟨_, c', .array hdeclare⟩
    | some value => exact ⟨_, _, .filled hdeclare rfl rfl⟩

/-! Declarators. -/

theorem initializer_eq : (declaratorNode name length init).children[1]? = init := by
  cases init <;> rfl

theorem declaratorNode_iff {setup : Setup} :
    declarator table base storage hoisted (declaratorNode name length init) c = .ok setup c' ↔
      ∃ size value c₁,
        declaredLength (.marked .varDeclId name (length.map fun n => Tree.marked .constant n []).toList) =
          .ok size ∧
        initialValue table name.lexeme base hoisted init c = .ok value c₁ ∧
        TakesSlots base storage ⟨name.lexeme, name.line, size, value⟩ c₁ setup c' := by
  rw [declarator_iff, initializer_eq]
  constructor
  · rintro ⟨_, _, size, value, c₁, hid, hname, hsize, hvalue, hslots⟩
    cases hid
    cases hname
    exact ⟨size, value, c₁, hsize, hvalue, hslots⟩
  · rintro ⟨size, value, c₁, hsize, hvalue, hslots⟩
    exact ⟨_, _, size, value, c₁, rfl, rfl, hsize, hvalue, hslots⟩

theorem declaratorNode_inj {name' : Token} {length' : Option Token} {init' : Option Tree}
    (h : declaratorNode name length init = declaratorNode name' length' init') :
    name = name' ∧ length = length' ∧ init = init' := by
  cases length <;> cases length' <;> cases init <;> cases init' <;>
    simp_all [declaratorNode, Tree.inner, Tree.marked]

theorem declared_eq (h : c'.environment = c.environment) : c'.declared = c.declared :=
  (List.cons.inj h).1

/-- A lowered declarator is legal, and its variable is in scope behind it. -/
theorem declarator_typed (hfunctions : Holds functions table)
    (hlength : ∀ n ∈ length, n.kind = .number ∧ n.Scanned)
    (hinit : ∀ e ∈ init, IsExpression e ∧ e.FromSource) {setup : Setup}
    (h : declarator table base storage hoisted (declaratorNode name length init) c = .ok setup c') :
    (∀ n ∈ length, IsNumeral n.lexeme) ∧ (∀ e ∈ init, HasType functions c.environment e base) ∧
      c.declared.lookup name.lexeme = none ∧
      c'.environment = ((name.lexeme, declaredType base length) :: c.declared) :: c.environment.tail := by
  obtain ⟨found, value, c₁, hfound, hvalue, hslots⟩ := declaratorNode_iff.1 h
  obtain ⟨hsome, hsized⟩ := declaredLength_ok hlength hfound
  obtain ⟨hinitial, henv⟩ := initialValue_typed hfunctions hinit hvalue
  obtain ⟨hnew, henv'⟩ := declare_typed hslots
  simp only at hnew henv'
  rw [declared_eq henv] at hnew henv'
  rw [hsome, henv] at henv'
  exact ⟨hsized, hinitial, hnew, henv'⟩

/-- A legal declarator is lowered, unless it stands for a `static` variable with an initial value. -/
theorem declarator_succeeds (hfunctions : Holds functions table)
    (hlength : ∀ n ∈ length, n.kind = .number ∧ n.Scanned) (hsource : ∀ e ∈ init, e.FromSource)
    (sized : ∀ n ∈ length, IsNumeral n.lexeme)
    (initial : ∀ e ∈ init, HasType functions c.environment e base)
    (new : c.declared.lookup name.lexeme = none) (hhoisted : hoisted = true → init = none) :
    ∃ setup c', declarator table base storage hoisted (declaratorNode name length init) c = .ok setup c' ∧
      c'.environment = ((name.lexeme, declaredType base length) :: c.declared) :: c.environment.tail := by
  obtain ⟨found, hfound, hsome⟩ := @declaredLength_succeeds name length hlength sized
  obtain ⟨value, c₁, hvalue, henv⟩ := initialValue_succeeds hfunctions name.lexeme
    (fun e he => ⟨initial e he, hsource e he⟩) hhoisted
  have hnew : c₁.declared.lookup name.lexeme = none := by rw [declared_eq henv, new]
  obtain ⟨setup, c', hslots⟩ :=
    @declare_succeeds c₁ base storage ⟨name.lexeme, (nameNode name length).line, found, value⟩ hnew
  refine ⟨setup, c', declaratorNode_iff.2 ⟨found, value, c₁, hfound, hvalue, hslots⟩, ?_⟩
  obtain ⟨-, henv'⟩ := declare_typed hslots
  simp only at henv'
  rw [declared_eq henv, hsome, henv] at henv'
  exact henv'

theorem Declares.tail {env env' : Environment} {nodes : List Tree}
    (h : Declares functions base env nodes env') : env'.tail = env.tail := by
  induction h with
  | done => rfl
  | declarator _ _ _ _ ih => exact ih

/-- Legal declarators are lowered. -/
theorem Declares.succeeds (hfunctions : Holds functions table) {env env' : Environment} {nodes : List Tree}
    (h : Declares functions base env nodes env')
    (hsource : ∀ node ∈ nodes, node.FromSource)
    (hhoisted : hoisted = true → ∀ node ∈ nodes, node.children[1]? = none) {s : BodyState}
    (henv : s.scopes.environment = env) :
    ∃ code s', declarators table base storage hoisted nodes s = .ok code s' ∧
      s'.scopes.environment = env' := by
  induction h generalizing s with
  | done => exact ⟨[], s, rfl, henv⟩
  | @declarator name length init rest scope outer env sized initial new _ ih =>
    rw [List.forall_mem_cons] at hsource
    obtain ⟨_, _, _, hnode, hlength, -⟩ := hsource.1.declarator rfl
    obtain ⟨rfl, rfl, rfl⟩ := declaratorNode_inj hnode
    obtain ⟨rfl, rfl⟩ : s.scopes.declared = scope ∧ s.scopes.environment.tail = outer := List.cons.inj henv
    have hinit : ∀ e ∈ init, e.FromSource := fun e he =>
      hsource.1.child (List.mem_cons_of_mem _ (Option.mem_toList.2 he))
    have hplain : hoisted = true → init = none := fun h =>
      initializer_eq.symm.trans (hhoisted h _ (List.mem_cons_self ..))
    obtain ⟨setup, c', hsetup, henv'⟩ :=
      declarator_succeeds hfunctions hlength hinit sized initial new hplain
    obtain ⟨more, s', hmore, henv''⟩ := ih hsource.2
      (fun h node hnode => hhoisted h node (List.mem_cons_of_mem _ hnode))
      (s := (installed storage setup { s with scopes := c' }).2) (by rw [scopes_installed]; exact henv')
    exact ⟨_, s', declarators_cons.2 ⟨setup, c', more, hsetup, hmore, rfl⟩, henv''⟩

end Typing

end StackCompiler
