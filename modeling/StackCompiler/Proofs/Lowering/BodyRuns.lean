import StackCompiler.Proofs.Lowering.SourceForms
import StackCompiler.Proofs.Typing.Declarations

/-!
Runs of the lowering at the places where expressions stand, as rules: a statement, a range and an initial
value run exactly if their expressions are lowered. Since a rule names what it lowers, runs in two scope
chains are compared rule by rule.
-/

set_option autoImplicit false
namespace StackCompiler

namespace Lowering

open Shape Typing

variable {table : FunctionTable}

/-! Expressions in their places. -/

theorem lowers_of_valueOf {ty : Ty} {t : Tree} {code : Code} {c c' : ScopeChain} (ht : IsExpression t)
    (h : valueOf table ty t c = .ok code c') : Lowers table (.value t) c ty code c' :=
  ht.lowers (valueOf_iff.1 h)

theorem Lowers.emits {ty : Ty} {t : Tree} {code : Code} {c c' : ScopeChain}
    (h : Lowers table (.value t) c ty code c') : Emits table ty t c code c' :=
  ⟨valueOf_iff.2 h.runs, h⟩

/-- An expression as a statement: an assignment leaves nothing on the stack, and any other value is
dropped. -/
inductive Effect (table : FunctionTable) (t : Tree) (c : ScopeChain) : Code → ScopeChain → Prop where
  | stored {ty : Ty} {code : Code} {c' : ScopeChain} (lowers : Lowers table (.stored false t) c ty code c') :
      Effect table t c code c'
  | value {ty : Ty} {code : Code} {c' : ScopeChain} (notAssign : t.tag ≠ .assign) (notStep : t.tag ≠ .incDec)
      (lowers : Lowers table (.value t) c ty code c') :
      Effect table t c (if ty = .void then code else code ++ [.pop]) c'

theorem effect_of_run {t : Tree} {code : Code} {c c' : ScopeChain} (ht : IsExpression t)
    (h : expressionStatement table [t] c = .ok code c') : Effect table t c code c' := by
  rcases expressionStatement_iff.1 h with ⟨htag, typed, htyped, rfl⟩ | ⟨htag, typed, htyped, rfl⟩ |
    ⟨hassign, hstep, typed, htyped, rfl⟩
  · obtain ⟨ty, code, rfl, hlowers⟩ := ht.lowerable.assignment htag htyped
    exact .stored hlowers
  · obtain ⟨ty, code, rfl, hlowers⟩ := ht.lowerable.step htag htyped
    exact .stored hlowers
  · obtain ⟨ty, value, rfl, hlowers⟩ := ht.lowerable.value htyped
    rw [dropped_value]
    exact .value hassign hstep hlowers

theorem Effect.temps {t : Tree} {code : Code} {c c' : ScopeChain} (h : Effect table t c code c') :
    ScopeChain.Temps c c' := by
  cases h with
  | stored lowers => exact lowers.temps
  | value _ _ lowers => exact lowers.temps

theorem Effect.run {t : Tree} {code : Code} {c c' : ScopeChain} (h : Effect table t c code c') :
    expressionStatement table [t] c = .ok code c' := by
  cases h with
  | stored lowers => exact lowers.stored_statement
  | value notAssign notStep lowers => exact lowers.value_statement notAssign notStep

theorem Counts.run {counter : Place} {parts : List Tree} {r : Counting} {c c' : ScopeChain}
    (h : Counts table counter parts c r c') :
    range table counter (.inner .iterRange parts) c = .ok r.range c' := by
  cases h with
  | start initial limit =>
    exact range_iff.2 ⟨_, ⟨_, _, none, none, _⟩, _, _, _, _, rfl, rfl, initial.emitted, rfl, rfl, limit, rfl, rfl⟩
  | upTo initial final limit =>
    exact range_iff.2 ⟨_, ⟨_, _, some _, none, _⟩, _, _, _, _, rfl, rfl, initial.emitted,
      map_ok.2 ⟨_, final.emitted, rfl⟩, rfl, limit, rfl, rfl⟩
  | stride initial final increment limit held =>
    exact range_iff.2 ⟨_, ⟨_, _, some _, some (_, _), _⟩, _, _, _, _, rfl, rfl, initial.emitted,
      map_ok.2 ⟨_, final.emitted, rfl⟩, map_ok.2 ⟨_, increment.emitted, rfl⟩, limit, held, rfl⟩

/-! Declarations. -/

inductive Initial (table : FunctionTable) (base : Ty) (hoisted : Bool) :
    Option Tree → ScopeChain → Option Code → ScopeChain → Prop where
  | none {c : ScopeChain} : Initial table base hoisted none c none c
  | some {init : Tree} {code : Code} {c c' : ScopeChain} (value : Lowers table (.value init) c base code c')
      (frame : hoisted = true → code.any Instr.readsFrame = false) :
      Initial table base hoisted (some init) c (some code) c'

theorem initial_of_run {name : String} {base : Ty} {hoisted : Bool} {init : Option Tree}
    {value : Option Code} {c c' : ScopeChain} (hinit : ∀ e ∈ init, IsExpression e)
    (h : initialValue table name base hoisted init c = .ok value c') :
    Initial table base hoisted init c value c' := by
  cases init with
  | none =>
    obtain ⟨rfl, rfl⟩ := initialValue_none.1 h
    exact .none
  | some e =>
    obtain ⟨code, htyped, hframe, rfl⟩ := initialValue_some.1 h
    exact .some ((hinit e rfl).lowers htyped) hframe

theorem Initial.run {base : Ty} {hoisted : Bool} {init : Option Tree} {value : Option Code}
    {c c' : ScopeChain} (h : Initial table base hoisted init c value c') (name : String) :
    initialValue table name base hoisted init c = .ok value c' := by
  cases h with
  | none => rfl
  | some lowers frame => exact initialValue_some.2 ⟨_, lowers.runs, frame, rfl⟩

theorem declaration_variables {keyword : Option Token} {type : Token} {nodes : List Tree}
    (each : ∀ node ∈ nodes, node.tag = .varDeclInit) {s s' : BodyState} {code : Code} :
    declaration table (variablesNode keyword type nodes) s = .ok code s' ↔
      ∃ base, typeOf (.marked .typeSpec type []) = .ok base ∧
        declarators table base (if s.scopes.depth = 1 ∨ keyword.isSome = true then .static else .local)
          (keyword.isSome && s.scopes.depth != 1) nodes s = .ok code s' := by
  have hhoisted : (decide ((if s.scopes.depth = 1 ∨ keyword.isSome = true then Storage.static else .local) =
      .static) && decide (s.scopes.depth ≠ 1)) = (keyword.isSome && s.scopes.depth != 1) := by
    by_cases hdepth : s.scopes.depth = 1
    · simp [hdepth]
    · cases keyword <;> simp [hdepth]
  simp only [declaration_iff, storageOf, static_variables keyword type each, baseType_variables,
    declarators_variables keyword type each, hhoisted]

end Lowering

end StackCompiler
