import StackCompiler.Proofs.Grammar.Derivation
import StackCompiler.Proofs.Lowering.ExpressionRuns
import StackCompiler.Proofs.Lowering.Scopes

/-!
What the lowering of an expression can do, for the trees that the grammar makes: `Lowers` has one rule
for each form, with everything the lowering has checked as a premise. Later proofs go by induction on
`Lowers` and never open the functions themselves.
-/

set_option autoImplicit false
namespace StackCompiler

def Grammar.Level.ty : Grammar.Level → Ty
  | .or | .and => .bool
  | .minMax | .sum | .mul => .int

namespace Lowering

open Grammar (Level Phrase Derives)

/-- What an assignment stores: the value of an expression, the one that a step adds, or a word of the
input. -/
inductive Source where
  | value (t : Tree)
  | one
  | input (ty : Ty)

/-- The parts of an expression that have code of their own. -/
inductive Form where
  | value (t : Tree)
  /-- An assignment or a step, whose value stays on the stack or not. -/
  | stored (keep : Bool) (t : Tree)
  | store (keep : Bool) (op : Option Instr) (target : Tree) (source : Source)
  | source (source : Source)
  | links (level : Level) (links : List Tree)
  | arguments (types : List Ty) (args : List Tree)
  | printed (args : List Tree)
  | filled (args : List Tree)

def Source.trees : Source → List Tree
  | .value t => [t]
  | _ => []

def Form.trees : Form → List Tree
  | .value t | .stored _ t => [t]
  | .store _ _ target origin => target :: origin.trees
  | .source origin => origin.trees
  | .links _ ts | .arguments _ ts | .printed ts | .filled ts => ts

def Storing (op : Option Instr) (ty : Ty) : Prop :=
  ∀ instr, op = some instr → ty = .int ∧ instr ∈ [Instr.add, .sub, .mul, .div]

def Compares (instr : Instr) (ty : Ty) : Prop :=
  (instr ∈ [Instr.eq, .ne] ∧ ty.isScalar = true) ∨
    (instr ∈ [Instr.lt, .le, .gt, .ge] ∧ ty.isOrdered = true)

/-- In the scopes `c`, a form becomes code for a value of type `ty`, or for none where that is `void`,
and leaves the scopes `c'`. -/
inductive Lowers (table : FunctionTable) : Form → ScopeChain → Ty → Code → ScopeChain → Prop where
  | constant {token : Token} {push : Instr} {ty : Ty} {c : ScopeChain}
      (h : literal? token = some (push, ty)) :
      Lowers table (.value (.marked .constant token [])) c ty [push] c
  | variable {name : Token} {symbol : Symbol} {c : ScopeChain}
      (h : c.resolve? name.lexeme = some symbol) :
      Lowers table (.value (.marked .mutable name [])) c symbol.ty [.load symbol.place] c
  | element {name : Token} {index : Tree} {symbol : Symbol} {element : Ty} {code : Code}
      {c c' : ScopeChain} (h : c.resolve? name.lexeme = some symbol)
      (isArray : symbol.ty = .array element) (position : Lowers table (.value index) c .int code c') :
      Lowers table (.value (.marked .mutable name [index])) c element
        (.load symbol.place :: code ++ [.loadElem element]) c'
  | paren {token : Token} {t : Tree} {ty : Ty} {code : Code} {c c' : ScopeChain}
      (inner : Lowers table (.value t) c ty code c') :
      Lowers table (.value (.marked .paren token [t])) c ty code c'
  | chain {level : Level} {first : Tree} {links : List Tree} {code more : Code} {c c₁ c' : ScopeChain}
      (operand : Lowers table (.value first) c level.ty code c₁)
      (rest : Lowers table (.links level links) c₁ .void more c') :
      Lowers table (.value (.inner level.tag (first :: links))) c level.ty (code ++ more) c'
  | noLinks {level : Level} {c : ScopeChain} : Lowers table (.links level []) c .void [] c
  | link {level : Level} {op : Token} {t : Tree} {links : List Tree} {instr : Instr} {code more : Code}
      {c c₁ c' : ScopeChain} (isOp : level.Connective op) (hop : binaryInstr? op.lexeme = some instr)
      (operand : Lowers table (.value t) c level.ty code c₁)
      (rest : Lowers table (.links level links) c₁ .void more c') :
      Lowers table (.links level (.marked .operator op [] :: t :: links)) c .void
        (code ++ instr :: more) c'
  | compare {op : Token} {left right : Tree} {instr : Instr} {ty : Ty} {code code' : Code}
      {c c₁ c' : ScopeChain} (hop : binaryInstr? op.lexeme = some instr) (defined : Compares instr ty)
      (first : Lowers table (.value left) c ty code c₁)
      (second : Lowers table (.value right) c₁ ty code' c') :
      Lowers table (.value (.inner .relExp [left, .marked .operator op [], right])) c .bool
        (code ++ code' ++ [instr]) c'
  | negate {op : Token} {t : Tree} {code : Code} {c c' : ScopeChain}
      (operand : Lowers table (.value t) c .bool code c') :
      Lowers table (.value (.marked .notExp op [t])) c .bool (code ++ [.not]) c'
  | unary {op : Token} {t : Tree} {instr : Instr} {ty : Ty} {code : Code} {c c' : ScopeChain}
      (hop : unaryOperator (.marked .unaryExp op [t]) (.value ty) = .ok instr)
      (operand : Lowers table (.value t) c ty code c') :
      Lowers table (.value (.marked .unaryExp op [t])) c .int (code ++ [instr]) c'
  | call {name : Token} {args : List Tree} {signature : Signature} {code : Code} {c c' : ScopeChain}
      (plain : isIntrinsic name.lexeme = false) (h : table.lookup? name.lexeme = some signature)
      (count : args.length = signature.parameters.length)
      (inner : Lowers table (.arguments signature.parameters args) c .void code c') :
      Lowers table (.value (.marked .call name args)) c signature.result
        (code ++ [.call signature.handle]) c'
  | print {name : Token} {t : Tree} {ty : Ty} {code : Code} {c c' : ScopeChain}
      (isPrint : name.lexeme = "print") (scalar : ty.isScalar = true)
      (value : Lowers table (.value t) c ty code c') :
      Lowers table (.value (.marked .call name [t])) c .void (boxed ty code ++ [.print]) c'
  | printFormatted {name : Token} {first next : Tree} {rest : List Tree} {code more : Code}
      {c c₁ c' : ScopeChain} (isPrint : name.lexeme = "print")
      (format : Lowers table (.value first) c .string code c₁)
      (values : Lowers table (.printed (next :: rest)) c₁ .void more c') :
      Lowers table (.value (.marked .call name (first :: next :: rest))) c .void
        (code ++ more ++ [.printFormatted (next :: rest).length]) c'
  | put {name : Token} {args : List Tree} {code : Code} {c c' : ScopeChain}
      (isPut : name.lexeme = "put") (nonempty : args ≠ [])
      (inner : Lowers table (.filled args) c .void code c') :
      Lowers table (.value (.marked .call name args)) c .void code c'
  | kept {t : Tree} {ty : Ty} {code : Code} {c c' : ScopeChain}
      (inner : Lowers table (.stored true t) c ty code c') : Lowers table (.value t) c ty code c'
  | assign {keep : Bool} {op : Token} {target value : Tree} {instr : Option Instr} {ty : Ty}
      {code : Code} {c c' : ScopeChain}
      (hop : assignmentOperator (.marked .assign op [target, value]) = .ok instr)
      (inner : Lowers table (.store keep instr target (.value value)) c ty code c') :
      Lowers table (.stored keep (.marked .assign op [target, value])) c ty code c'
  | step {keep : Bool} {op : Token} {target : Tree} {instr : Instr} {code : Code} {c c' : ScopeChain}
      (hop : stepOperator (.marked .incDec op [target]) = .ok instr)
      (inner : Lowers table (.store keep (some instr) target .one) c .int code c') :
      Lowers table (.stored keep (.marked .incDec op [target])) c .int code c'
  | storeVariable {keep : Bool} {op : Option Instr} {name : Token} {symbol : Symbol} {source : Source}
      {value code : Code} {c c₁ c' : ScopeChain} (h : c.resolve? name.lexeme = some symbol)
      (storing : Storing op symbol.ty) (inner : Lowers table (.source source) c symbol.ty value c₁)
      (hassign : Target.assign ⟨symbol.place, symbol.ty, none⟩ value op keep c₁ = .ok code c') :
      Lowers table (.store keep op (.marked .mutable name []) source) c symbol.ty code c'
  | storeElement {keep : Bool} {op : Option Instr} {name : Token} {index : Tree} {symbol : Symbol}
      {element : Ty} {source : Source} {position value code : Code} {c c₁ c₂ c' : ScopeChain}
      (h : c.resolve? name.lexeme = some symbol) (isArray : symbol.ty = .array element)
      (storing : Storing op element) (outer : Lowers table (.value index) c .int position c₁)
      (inner : Lowers table (.source source) c₁ element value c₂)
      (hassign : Target.assign ⟨symbol.place, element, some position⟩ value op keep c₂ = .ok code c') :
      Lowers table (.store keep op (.marked .mutable name [index]) source) c element code c'
  | value {t : Tree} {ty : Ty} {code : Code} {c c' : ScopeChain}
      (inner : Lowers table (.value t) c ty code c') :
      Lowers table (.source (.value t)) c ty code c'
  | one {c : ScopeChain} : Lowers table (.source .one) c .int [.pushInt 1] c
  | input {ty : Ty} {c : ScopeChain} (scalar : ty.isScalar = true) :
      Lowers table (.source (.input ty)) c ty [.read ty] c
  | noArguments {c : ScopeChain} : Lowers table (.arguments [] []) c .void [] c
  | argument {ty : Ty} {types : List Ty} {t : Tree} {args : List Tree} {code more : Code}
      {c c₁ c' : ScopeChain} (first : Lowers table (.value t) c ty code c₁)
      (rest : Lowers table (.arguments types args) c₁ .void more c') :
      Lowers table (.arguments (ty :: types) (t :: args)) c .void (code ++ more) c'
  | noPrinted {c : ScopeChain} : Lowers table (.printed []) c .void [] c
  | printed {ty : Ty} {t : Tree} {args : List Tree} {code more : Code} {c c₁ c' : ScopeChain}
      (scalar : ty.isScalar = true) (first : Lowers table (.value t) c ty code c₁)
      (rest : Lowers table (.printed args) c₁ .void more c') :
      Lowers table (.printed (t :: args)) c .void (boxed ty code ++ more) c'
  | noFilled {c : ScopeChain} : Lowers table (.filled []) c .void [] c
  | filled {ty : Ty} {t : Tree} {args : List Tree} {code more : Code} {c c₁ c' : ScopeChain}
      (first : Lowers table (.store false none t (.input ty)) c ty code c₁)
      (rest : Lowers table (.filled args) c₁ .void more c') :
      Lowers table (.filled (t :: args)) c .void (code ++ more) c'

variable {table : FunctionTable}

theorem checkComparison_ok {instr : Instr} {ty : Ty} {right : OperandType} {line : Nat} {u : Unit}
    (hrel : instr ∈ [Instr.eq, .ne, .lt, .le, .gt, .ge])
    (h : checkComparison instr (.value ty) right line = .ok u) :
    right = .value ty ∧ Compares instr ty := by
  unfold checkComparison at h
  simp only [OperandType.value?, Option.any_some] at h
  by_cases heq : instr = .eq ∨ instr = .ne
  · simp only [heq, if_true] at h
    split at h
    next hscalar => exact ⟨require_ok.1 h, .inl ⟨by simpa using heq, hscalar⟩⟩
    next => simp at h
  · simp only [heq, if_false] at h
    split at h
    next hordered =>
      rw [not_or] at heq
      exact ⟨require_ok.1 h, .inr ⟨by simpa [heq.1, heq.2] using hrel, hordered⟩⟩
    next => simp at h

theorem binaryOperator_ok {op : Token} {instr : Instr}
    (h : binaryOperator (.marked .operator op []) = .ok instr) :
    binaryInstr? op.lexeme = some instr := by
  unfold binaryOperator at h
  rw [lexeme_marked, Grammar.ok_bind] at h
  split at h
  next found hfound =>
    cases h
    exact hfound
  next => simp [throw, throwThe, MonadExceptOf.throw] at h

theorem literal_ok {token : Token} {push : Instr} {ty : Ty} (h : literal? token = some (push, ty)) :
    (∃ n, push = .pushInt n ∧ ty = .int) ∨ (∃ b, push = .pushBool b ∧ ty = .bool) ∨
      (∃ c, push = .pushChar c ∧ ty = .char) ∨ ∃ text, push = .pushString text ∧ ty = .string := by
  unfold literal? at h
  split at h
  next =>
    obtain ⟨n, -, h⟩ := Option.map_eq_some_iff.1 h
    cases h
    exact .inl ⟨n, rfl, rfl⟩
  next =>
    obtain ⟨c, -, h⟩ := Option.map_eq_some_iff.1 h
    cases h
    exact .inr (.inr (.inl ⟨c, rfl, rfl⟩))
  next =>
    obtain ⟨text, -, h⟩ := Option.map_eq_some_iff.1 h
    cases h
    exact .inr (.inr (.inr ⟨_, rfl, rfl⟩))
  next =>
    split at h
    next =>
      cases h
      exact .inr (.inl ⟨true, rfl, rfl⟩)
    next =>
      split at h
      next =>
        cases h
        exact .inr (.inl ⟨false, rfl, rfl⟩)
      next => cases h
  next => cases h

/-! Values have a type other than `void`. -/

theorem ne_void_of_literal {token : Token} {push : Instr} {ty : Ty} (h : literal? token = some (push, ty)) :
    ty ≠ .void := by
  rcases literal_ok h with ⟨_, -, rfl⟩ | ⟨_, -, rfl⟩ | ⟨_, -, rfl⟩ | ⟨_, -, rfl⟩ <;> simp

theorem ne_void_of_scalar {ty : Ty} (h : ty.isScalar = true) : ty ≠ .void := by
  rintro rfl
  cases h

theorem ne_void_of_storable {ty : Ty} (h : ty.isStorable = true) : ty ≠ .void := by
  rintro rfl
  cases h

theorem ne_void_of_unary {t : Tree} {ty : Ty} {instr : Instr} (h : unaryOperator t (.value ty) = .ok instr) :
    ty ≠ .void := by
  rintro rfl
  unfold unaryOperator at h
  obtain ⟨word, -, h⟩ := Grammar.bind_eq_ok.1 h
  split at h <;> cases h

theorem ne_void_of_compares {instr : Instr} {ty : Ty} (h : Compares instr ty) : ty ≠ .void := by
  rintro rfl
  rcases h with ⟨-, h⟩ | ⟨-, h⟩ <;> cases h

theorem ne_void_level (level : Grammar.Level) : level.ty ≠ .void := by
  cases level <;> simp [Grammar.Level.ty]

theorem assignmentOperator_ok {op : Token} {children : List Tree} {instr : Option Instr} {ty : Ty}
    (h : assignmentOperator (.marked .assign op children) = .ok instr)
    (hty : instr.isNone = true ∨ ty = .int) : Storing instr ty := by
  unfold assignmentOperator at h
  rw [lexeme_marked, Grammar.ok_bind] at h
  intro found hfound
  subst hfound
  have hint : ty = .int := by simpa using hty
  split at h <;> cases h <;> simp [hint]

theorem stepOperator_ok {op : Token} {children : List Tree} {instr : Instr}
    (h : stepOperator (.marked .incDec op children) = .ok instr) : Storing (some instr) .int := by
  unfold stepOperator at h
  rw [lexeme_marked, Grammar.ok_bind] at h
  intro found hfound
  cases hfound
  split at h <;> cases h <;> simp

def Targets (table : FunctionTable) (t : Tree) (c : ScopeChain) (r : Target) (c' : ScopeChain) : Prop :=
  (∃ name symbol, t = .marked .mutable name [] ∧ c.resolve? name.lexeme = some symbol ∧
    r = ⟨symbol.place, symbol.ty, none⟩ ∧ c' = c) ∨
  ∃ name index symbol element code, t = .marked .mutable name [index] ∧
    c.resolve? name.lexeme = some symbol ∧ symbol.ty = .array element ∧
    Lowers table (.value index) c .int code c' ∧ r = ⟨symbol.place, element, some code⟩

theorem Targets.store {t : Tree} {r : Target} {source : Source} {op : Option Instr} {keep : Bool}
    {value code : Code} {c c₁ c₂ c' : ScopeChain} (h : Targets table t c r c₁)
    (storing : Storing op r.ty) (inner : Lowers table (.source source) c₁ r.ty value c₂)
    (hassign : r.assign value op keep c₂ = .ok code c') :
    Lowers table (.store keep op t source) c r.ty code c' := by
  rcases h with ⟨name, symbol, rfl, hsymbol, rfl, rfl⟩ |
    ⟨name, index, symbol, element, position, rfl, hsymbol, harray, hindex, rfl⟩
  · exact .storeVariable hsymbol storing inner hassign
  · exact .storeElement hsymbol harray storing hindex inner hassign

structure Lowerable (table : FunctionTable) (t : Tree) : Prop where
  value : ∀ {c : ScopeChain} {typed : Typed} {c' : ScopeChain}, expression table t c = .ok typed c' →
    ∃ ty code, typed = .value ty code ∧ Lowers table (.value t) c ty code c'
  target : ∀ {c : ScopeChain} {r : Target} {c' : ScopeChain}, Lowering.target table t c = .ok r c' →
    Targets table t c r c'
  assignment : ∀ {keep : Bool} {c : ScopeChain} {typed : Typed} {c' : ScopeChain}, t.tag = .assign →
    Lowering.assignment table t keep t.children c = .ok typed c' →
    ∃ ty code, typed = .value ty code ∧ Lowers table (.stored keep t) c ty code c'
  step : ∀ {keep : Bool} {c : ScopeChain} {typed : Typed} {c' : ScopeChain}, t.tag = .incDec →
    Lowering.step table t keep t.children c = .ok typed c' →
    ∃ ty code, typed = .value ty code ∧ Lowers table (.stored keep t) c ty code c'

theorem Lowerable.lowers {t : Tree} {ty : Ty} {code : Code} {c c' : ScopeChain} (h : Lowerable table t)
    (hrun : expression table t c = .ok (.value ty code) c') : Lowers table (.value t) c ty code c' := by
  obtain ⟨_, _, htyped, hlowers⟩ := h.value hrun
  cases htyped
  exact hlowers

/-- Neither a target nor an assignment. -/
theorem lowerable_of_value {t : Tree} (htag : t.tag ∉ [Tag.mutable, .assign, .incDec])
    (value : ∀ {c : ScopeChain} {typed : Typed} {c' : ScopeChain}, expression table t c = .ok typed c' →
      ∃ ty code, typed = .value ty code ∧ Lowers table (.value t) c ty code c') :
    Lowerable table t := by
  simp only [List.mem_cons, List.not_mem_nil, or_false, not_or] at htag
  refine ⟨value, ?_, ?_, ?_⟩
  · intro c r c' h
    exact absurd (target_tag h) htag.1
  · intro keep c typed c' h
    exact absurd h htag.2.1
  · intro keep c typed c' h
    exact absurd h htag.2.2

theorem lowerable_constant (token : Token) : Lowerable table (.marked .constant token []) := by
  refine lowerable_of_value (by simp) ?_
  intro c typed c' h
  change (liftM (constant (.marked .constant token [])) : ScopeM Typed) c = .ok typed c' at h
  rw [lift_ok] at h
  obtain ⟨h, rfl⟩ := h
  unfold constant at h
  simp only [Tree.marked] at h
  split at h
  next push ty hliteral =>
    cases h
    exact ⟨ty, [push], rfl, .constant hliteral⟩
  next => simp at h

theorem lowerable_paren {token : Token} {t : Tree} (inner : Lowerable table t) :
    Lowerable table (.marked .paren token [t]) := by
  refine lowerable_of_value (by simp) ?_
  intro c typed c' h
  change expression table t c = .ok typed c' at h
  obtain ⟨ty, code, rfl, hvalue⟩ := inner.value h
  exact ⟨ty, code, rfl, .paren hvalue⟩

theorem lowerable_negate {op : Token} {t : Tree} (operand : Lowerable table t) :
    Lowerable table (.marked .notExp op [t]) := by
  refine lowerable_of_value (by simp) ?_
  intro c typed c' h
  change negation table (.marked .notExp op [t]) [t] c = .ok typed c' at h
  obtain ⟨code, hcode, rfl⟩ := negation_iff.1 h
  exact ⟨_, _, rfl, .negate (operand.lowers hcode)⟩

theorem lowerable_unary {op : Token} {t : Tree} (operand : Lowerable table t) :
    Lowerable table (.marked .unaryExp op [t]) := by
  refine lowerable_of_value (by simp) ?_
  intro c typed c' h
  change unary table (.marked .unaryExp op [t]) [t] c = .ok typed c' at h
  obtain ⟨inner, instr, hinner, hop, rfl⟩ := unary_iff.1 h
  obtain ⟨ty, code, rfl, hvalue⟩ := operand.value hinner
  exact ⟨_, _, rfl, .unary hop hvalue⟩

theorem relational_instr {op : Token} {instr : Instr}
    (isOp : op.OneOf .operator ["<=", "<", ">", ">=", "==", "!="])
    (h : binaryInstr? op.lexeme = some instr) :
    instr ∈ [Instr.eq, .ne, .lt, .le, .gt, .ge] := by
  have htext := isOp.2
  simp only [List.mem_cons, List.not_mem_nil, or_false] at htext
  rcases htext with htext | htext | htext | htext | htext | htext <;> rw [htext] at h <;> cases h <;>
    decide

theorem lowerable_compare {op : Token} {left right : Tree}
    (isOp : op.OneOf .operator ["<=", "<", ">", ">=", "==", "!="])
    (first : Lowerable table left) (second : Lowerable table right) :
    Lowerable table (.inner .relExp [left, .marked .operator op [], right]) := by
  refine lowerable_of_value (by simp) ?_
  intro c typed c' h
  change comparison table (.inner .relExp [left, .marked .operator op [], right])
    [left, .marked .operator op [], right] c = .ok typed c' at h
  obtain ⟨l, c₁, instr, r, hl, hop, hr, hcheck, rfl⟩ := comparison_iff.1 h
  obtain ⟨ty, code, rfl, hleft⟩ := first.value hl
  obtain ⟨ty', code', rfl, hright⟩ := second.value hr
  have hinstr := binaryOperator_ok hop
  obtain ⟨hty, hdefined⟩ := checkComparison_ok (relational_instr isOp hinstr) hcheck
  cases hty
  exact ⟨_, _, rfl, .compare hinstr hdefined hleft hright⟩

theorem lowerable_location {name : Token} {children : List Tree}
    (hchildren : children = [] ∨ ∃ index, children = [index] ∧ Lowerable table index) :
    Lowerable table (.marked .mutable name children) := by
  refine ⟨?_, ?_, ?_, ?_⟩
  · intro c typed c' h
    change location table (.marked .mutable name children) children c = .ok typed c' at h
    rcases hchildren with rfl | ⟨index, rfl, hindex⟩
    · obtain ⟨symbol, hsymbol, rfl⟩ := location_variable.1 h
      obtain ⟨hfound, rfl⟩ := resolve_marked.1 hsymbol
      exact ⟨_, _, rfl, .variable hfound⟩
    · obtain ⟨symbol, c₁, element, position, hsymbol, harray, hposition, rfl⟩ := location_element.1 h
      obtain ⟨hfound, rfl⟩ := resolve_marked.1 hsymbol
      exact ⟨_, _, rfl, .element hfound harray (hindex.lowers hposition)⟩
  · intro c r c' h
    rcases hchildren with rfl | ⟨index, rfl, hindex⟩
    · obtain ⟨-, symbol, hsymbol, rfl⟩ := target_variable.1 h
      obtain ⟨hfound, rfl⟩ := resolve_marked.1 hsymbol
      exact .inl ⟨name, symbol, rfl, hfound, rfl, rfl⟩
    · obtain ⟨-, symbol, c₁, element, position, hsymbol, harray, hposition, rfl⟩ := target_element.1 h
      obtain ⟨hfound, rfl⟩ := resolve_marked.1 hsymbol
      exact .inr ⟨name, index, symbol, element, position, rfl, hfound, harray, hindex.lowers hposition, rfl⟩
  · intro keep c typed c' h
    cases h
  · intro keep c typed c' h
    cases h

theorem expression_chain (level : Level) (children : List Tree) :
    expression table (.inner level.tag children) =
      chain table (.inner level.tag children) level.ty children := by
  cases level <;> rfl

theorem lowerable_chain {level : Level} {first : Tree} {links : List Tree}
    (operand : Lowerable table first)
    (rest : ∀ {c : ScopeChain} {code : Code} {c' : ScopeChain},
      chainLinks table level.ty none links c = .ok code c' →
        Lowers table (.links level links) c .void code c') :
    Lowerable table (.inner level.tag (first :: links)) := by
  refine lowerable_of_value (by cases level <;> simp [Level.tag]) ?_
  intro c typed c' h
  rw [expression_chain] at h
  obtain ⟨code, c₁, more, hcode, hmore, rfl⟩ := chain_iff.1 h
  exact ⟨_, _, rfl, .chain (operand.lowers hcode) (rest hmore)⟩

theorem links_lower {level : Level} {op : Token} {t : Tree} {links : List Tree}
    (isOp : level.Connective op) (operand : Lowerable table t)
    (rest : ∀ {c : ScopeChain} {code : Code} {c' : ScopeChain},
      chainLinks table level.ty none links c = .ok code c' →
        Lowers table (.links level links) c .void code c')
    {c : ScopeChain} {code : Code} {c' : ScopeChain}
    (h : chainLinks table level.ty none (.marked .operator op [] :: t :: links) c = .ok code c') :
    Lowers table (.links level (.marked .operator op [] :: t :: links)) c .void code c' := by
  have hmark : expression table (.marked .operator op []) c = .ok ⟨.operator, []⟩ c := rfl
  rcases chainLinks_cons.1 h with ⟨unused, c₁, instr, hoperator, hop, h⟩ | ⟨_, _, _, _, -, hpending, -⟩
  · rw [hmark] at hoperator
    cases hoperator
    rcases chainLinks_cons.1 h with ⟨_, _, _, hoperand, -⟩ | ⟨code, c₁, _, more, hcode, hpending, hmore, rfl⟩
    · obtain ⟨_, _, htyped, -⟩ := operand.value hoperand
      cases htyped
    · cases hpending
      exact .link isOp (binaryOperator_ok hop) (operand.lowers hcode) (rest hmore)
  · cases hpending

/-! Lists of arguments. -/

theorem arguments_lower {args : List Tree} (each : ∀ t ∈ args, Lowerable table t) {types : List Ty}
    (count : args.length = types.length) {c : ScopeChain} {code : Code} {c' : ScopeChain}
    (h : arguments table types args c = .ok code c') :
    Lowers table (.arguments types args) c .void code c' := by
  induction args generalizing types c code c' with
  | nil =>
    cases types with
    | cons ty types => simp at count
    | nil =>
      obtain ⟨rfl, rfl⟩ := arguments_nil.1 h
      exact .noArguments
  | cons t args ih =>
    cases types with
    | nil => simp at count
    | cons ty types =>
      obtain ⟨argument, c₁, more, hargument, hmore, rfl⟩ := arguments_cons.1 h
      have hrest := ih (fun u hu => each u (by simp [hu])) (by simpa using count) hmore
      exact .argument ((each t (by simp)).lowers hargument) hrest

theorem printArguments_lower {args : List Tree} (each : ∀ t ∈ args, Lowerable table t)
    {c : ScopeChain} {code : Code} {c' : ScopeChain} (h : printArguments table args c = .ok code c') :
    Lowers table (.printed args) c .void code c' := by
  induction args generalizing c code c' with
  | nil =>
    obtain ⟨rfl, rfl⟩ := printArguments_nil.1 h
    exact .noPrinted
  | cons t args ih =>
    obtain ⟨ty, argument, c₁, more, hscalar, hargument, hmore, rfl⟩ := printArguments_cons.1 h
    have hrest := ih (fun u hu => each u (by simp [hu])) hmore
    exact .printed hscalar ((each t (by simp)).lowers hargument) hrest

theorem putArguments_lower {args : List Tree} (each : ∀ t ∈ args, Lowerable table t)
    {c : ScopeChain} {code : Code} {c' : ScopeChain} (h : putArguments table args c = .ok code c') :
    Lowers table (.filled args) c .void code c' := by
  induction args generalizing c code c' with
  | nil =>
    obtain ⟨rfl, rfl⟩ := putArguments_nil.1 h
    exact .noFilled
  | cons t args ih =>
    obtain ⟨r, c₁, stored, c₂, more, htarget, hscalar, hassign, hmore, rfl⟩ := putArguments_cons.1 h
    have hstoring : Storing none r.ty := by
      intro instr hinstr
      cases hinstr
    have hfirst := ((each t (by simp)).target htarget).store hstoring (.input hscalar) hassign
    exact .filled hfirst (ih (fun u hu => each u (by simp [hu])) hmore)

theorem lowerable_call {name : Token} {args : List Tree} (each : ∀ t ∈ args, Lowerable table t) :
    Lowerable table (.marked .call name args) := by
  refine lowerable_of_value (by simp) ?_
  intro c typed c' h
  obtain ⟨text, htext, h⟩ := call_iff.1 h
  cases htext
  rcases h with ⟨hprint, h⟩ | ⟨hput, hargs, code, hcode, rfl⟩ |
    ⟨hplain, signature, code, hlookup, hcount, hcode, rfl⟩
  · match args with
    | [] => simp [print, throw_ok] at h
    | [first] =>
      obtain ⟨ty, code, hscalar, hcode, rfl⟩ := print_value.1 h
      exact ⟨_, _, rfl, .print hprint hscalar ((each first (by simp)).lowers hcode)⟩
    | first :: next :: rest =>
      obtain ⟨format, c₁, values, hformat, hvalues, rfl⟩ := print_formatted.1 h
      have hmore := printArguments_lower (fun u hu => each u (List.mem_cons_of_mem _ hu)) hvalues
      exact ⟨_, _, rfl, .printFormatted hprint ((each first (by simp)).lowers hformat) hmore⟩
  · exact ⟨_, _, rfl, .put hput hargs (putArguments_lower each hcode)⟩
  · exact ⟨_, _, rfl, .call hplain hlookup hcount (arguments_lower each hcount hcode)⟩

/-! Assignments and steps, with or without their value. -/

theorem lowerable_assign {op : Token} {left right : Tree} (place : Lowerable table left)
    (value : Lowerable table right) : Lowerable table (.marked .assign op [left, right]) := by
  have hstored : ∀ {keep : Bool} {c : ScopeChain} {typed : Typed} {c' : ScopeChain},
      assignment table (.marked .assign op [left, right]) keep [left, right] c = .ok typed c' →
      ∃ ty code, typed = .value ty code ∧
        Lowers table (.stored keep (.marked .assign op [left, right])) c ty code c' := by
    intro keep c typed c' h
    obtain ⟨r, c₁, inner, c₂, instr, code, htarget, hinner, hop, hint, hassign, rfl⟩ := assignment_iff.1 h
    have hstore := (place.target htarget).store (assignmentOperator_ok hop hint)
      (.value (value.lowers hinner)) hassign
    exact ⟨_, _, rfl, .assign hop hstore⟩
  refine ⟨?_, ?_, ?_, ?_⟩
  · intro c typed c' h
    obtain ⟨ty, code, htyped, hlowers⟩ := @hstored true _ _ _ h
    exact ⟨ty, code, htyped, .kept hlowers⟩
  · intro c r c' h
    cases target_tag h
  · intro keep c typed c' _ h
    exact hstored h
  · intro keep c typed c' h
    cases h

theorem lowerable_step {op : Token} {left : Tree} (place : Lowerable table left) :
    Lowerable table (.marked .incDec op [left]) := by
  have hstored : ∀ {keep : Bool} {c : ScopeChain} {typed : Typed} {c' : ScopeChain},
      step table (.marked .incDec op [left]) keep [left] c = .ok typed c' →
      ∃ ty code, typed = .value ty code ∧
        Lowers table (.stored keep (.marked .incDec op [left])) c ty code c' := by
    intro keep c typed c' h
    obtain ⟨r, c₁, instr, code, htarget, hty, hop, hassign, rfl⟩ := step_iff.1 h
    obtain ⟨place', ty, index⟩ := r
    cases hty
    have hstore := (place.target htarget).store (stepOperator_ok hop) .one hassign
    exact ⟨_, _, rfl, .step hop hstore⟩
  refine ⟨?_, ?_, ?_, ?_⟩
  · intro c typed c' h
    obtain ⟨ty, code, htyped, hlowers⟩ := @hstored true _ _ _ h
    exact ⟨ty, code, htyped, .kept hlowers⟩
  · intro c r c' h
    cases target_tag h
  · intro keep c typed c' h
    cases h
  · intro keep c typed c' _ h
    exact hstored h

def LowersAs (table : FunctionTable) : Phrase → List Tree → Prop
  | .expression, trees | .chain _, trees | .negation, trees | .comparison, trees | .unary, trees
  | .factor, trees | .location, trees | .arguments, trees => ∀ t ∈ trees, Lowerable table t
  | .links level, trees => ∀ {c : ScopeChain} {code : Code} {c' : ScopeChain},
    chainLinks table level.ty none trees c = .ok code c' →
      Lowers table (.links level trees) c .void code c'
  | _, _ => True

theorem Lowerable.singleton {t : Tree} (h : Lowerable table t) : ∀ u ∈ [t], Lowerable table u := by
  intro u hu
  rw [List.mem_singleton.1 hu]
  exact h

theorem LowersAs.operand {level : Level} {t : Tree} (h : LowersAs table level.operandPhrase [t]) :
    Lowerable table t := by
  cases level <;> exact h t (by simp)

theorem noLinks_lower {level : Level} {c : ScopeChain} {code : Code} {c' : ScopeChain}
    (h : chainLinks table level.ty none [] c = .ok code c') :
    Lowers table (.links level []) c .void code c' := by
  obtain ⟨rfl, rfl⟩ := chainLinks_nil.1 h
  exact .noLinks

theorem lowersAs {p : Phrase} {ts : List Token} {trees : List Tree} (h : Derives p ts trees) :
    LowersAs table p trees := by
  induction h with
  | assign _ _ _ left right => exact (lowerable_assign (left _ (by simp)) (right _ (by simp))).singleton
  | step _ _ left => exact (lowerable_step (left _ (by simp))).singleton
  | simple _ value => exact value
  | single _ operand => exact operand.operand.singleton
  | several _ _ operand rest => exact (lowerable_chain operand.operand rest).singleton
  | lastLink isOp _ operand =>
    intro c code c' h
    exact links_lower isOp operand.operand noLinks_lower h
  | link isOp _ _ operand rest =>
    intro c code c' h
    exact links_lower isOp operand.operand rest h
  | negate _ _ operand => exact (lowerable_negate (operand _ (by simp))).singleton
  | positive _ operand => exact operand
  | uncompared _ operand => exact operand
  | compare _ isOp _ first second =>
    exact (lowerable_compare isOp (first _ (by simp)) (second _ (by simp))).singleton
  | unary _ _ operand => exact (lowerable_unary (operand _ (by simp))).singleton
  | plain _ operand => exact operand
  | paren _ _ _ inner => exact (lowerable_paren (inner _ (by simp))).singleton
  | callPlain _ _ _ => exact (lowerable_call (by simp)).singleton
  | call _ _ _ _ inner => exact (lowerable_call inner).singleton
  | literal _ => exact (lowerable_constant _).singleton
  | location _ place => exact place
  | named _ => exact (lowerable_location (.inl rfl)).singleton
  | indexed _ _ _ _ inner => exact (lowerable_location (.inr ⟨_, rfl, inner _ (by simp)⟩)).singleton
  | lastArgument _ value => exact value
  | argument _ _ _ value rest =>
    intro t ht
    rcases List.mem_cons.1 ht with rfl | ht
    · exact value t (by simp)
    · exact rest t ht
  | _ => trivial

/-! Stores, by what they store into. -/

theorem reserveTemp_ok {ty : Ty} {temp : Place} {c c' : ScopeChain}
    (h : reserveTemp ty c = .ok temp c') : c.reserveTemp ty = (temp, c') :=
  modifyGet_ok.1 h

theorem storeElement_ok {element : Ty} {keep : Bool} {code : Code} {c c' : ScopeChain}
    (h : Target.storeElement element keep c = .ok code c') :
    (keep = false ∧ code = [.storeElem element] ∧ c' = c) ∨
    (keep = true ∧ ∃ temp, c.reserveTemp element = (temp, c') ∧
      code = [.dup, .store temp, .storeElem element, .load temp]) := by
  unfold Target.storeElement at h
  cases keep with
  | false =>
    simp only [Bool.false_eq_true, if_false, pure_ok] at h
    exact .inl ⟨rfl, h.1.symm, h.2.symm⟩
  | true =>
    simp only [if_true, bind_ok, pure_ok] at h
    obtain ⟨temp, c₁, htemp, rfl, rfl⟩ := h
    exact .inr ⟨rfl, temp, reserveTemp_ok htemp, rfl⟩

/-- The code of the value that goes into a variable, which the variable's own value may be part of. -/
def updated (place : Place) (value : Code) : Option Instr → Code
  | none => value
  | some instr => .load place :: value ++ [instr]

theorem assign_variable_ok {place : Place} {ty : Ty} {value code : Code} {op : Option Instr}
    {keep : Bool} {c c' : ScopeChain} (h : Target.assign ⟨place, ty, none⟩ value op keep c = .ok code c') :
    c' = c ∧
      code = updated place value op ++ ((if keep then [Instr.dup] else []) ++ [Instr.store place]) := by
  unfold Target.assign at h
  cases op with
  | none =>
    simp only [pure_ok] at h
    refine ⟨h.2.symm, h.1.symm.trans ?_⟩
    simp [updated]
  | some instr =>
    simp only [pure_ok] at h
    refine ⟨h.2.symm, h.1.symm.trans ?_⟩
    simp [updated]

theorem assign_element_ok {place : Place} {ty : Ty} {position value code : Code} {op : Option Instr}
    {keep : Bool} {c c' : ScopeChain}
    (h : Target.assign ⟨place, ty, some position⟩ value op keep c = .ok code c') :
    (op = none ∧ ∃ finish, Target.storeElement ty keep c = .ok finish c' ∧
      code = Instr.load place :: position ++ value ++ finish) ∨
    ∃ instr temp c₁ finish, op = some instr ∧ c.reserveTemp .int = (temp, c₁) ∧
      Target.storeElement ty keep c₁ = .ok finish c' ∧
      code = position ++ [.store temp, .load place, .load temp, .load place, .load temp, .loadElem ty]
        ++ value ++ instr :: finish := by
  unfold Target.assign at h
  cases op with
  | none =>
    simp only [bind_ok, pure_ok] at h
    obtain ⟨finish, c₁, hfinish, rfl, rfl⟩ := h
    exact .inl ⟨rfl, finish, hfinish, rfl⟩
  | some instr =>
    simp only [bind_ok, pure_ok] at h
    obtain ⟨temp, c₁, htemp, finish, c₂, hfinish, rfl, rfl⟩ := h
    exact .inr ⟨instr, temp, c₁, finish, rfl, reserveTemp_ok htemp, hfinish, rfl⟩

open ScopeChain (Temps)

theorem temps_reserveTemp {ty : Ty} {temp : Place} {c c' : ScopeChain}
    (h : c.reserveTemp ty = (temp, c')) : Temps c c' := by
  have hc : c' = (c.reserveTemp ty).2 := by rw [h]
  rw [hc]
  exact .more .none ty

theorem temps_storeElement {element : Ty} {keep : Bool} {code : Code} {c c' : ScopeChain}
    (h : Target.storeElement element keep c = .ok code c') : Temps c c' := by
  rcases storeElement_ok h with ⟨-, -, rfl⟩ | ⟨-, temp, htemp, -⟩
  · exact .none
  · exact temps_reserveTemp htemp

theorem temps_assign {r : Target} {value code : Code} {op : Option Instr} {keep : Bool}
    {c c' : ScopeChain} (h : r.assign value op keep c = .ok code c') : Temps c c' := by
  obtain ⟨place, ty, index⟩ := r
  cases index with
  | none =>
    rw [(assign_variable_ok h).1]
    exact .none
  | some position =>
    rcases assign_element_ok h with ⟨-, finish, hfinish, -⟩ |
      ⟨instr, temp, c₁, finish, -, htemp, hfinish, -⟩
    · exact temps_storeElement hfinish
    · exact (temps_reserveTemp htemp).trans (temps_storeElement hfinish)

/-- The lowering of an expression takes temporaries and nothing else. -/
theorem Lowers.temps {form : Form} {c c' : ScopeChain} {ty : Ty} {code : Code}
    (h : Lowers table form c ty code c') : Temps c c' := by
  induction h with
  | constant | «variable» | noLinks | one | input | noArguments | noPrinted | noFilled => exact .none
  | element _ _ _ ih | paren _ ih | negate _ ih | unary _ _ ih | call _ _ _ _ ih | print _ _ _ ih
  | put _ _ _ ih | kept _ ih | assign _ _ ih | step _ _ ih | value _ ih => exact ih
  | chain _ _ first rest | link _ _ _ _ first rest | compare _ _ _ _ first rest
  | printFormatted _ _ _ first rest | argument _ _ first rest | printed _ _ _ first rest
  | filled _ _ first rest => exact first.trans rest
  | storeVariable _ _ _ hassign ih => exact ih.trans (temps_assign hassign)
  | storeElement _ _ _ _ _ hassign outer inner =>
    exact (outer.trans inner).trans (temps_assign hassign)

/-- Every expression that the grammar derives is lowered by the rules. -/
theorem lowerable_of_derives {ts : List Token} {t : Tree} (h : Derives .expression ts [t]) :
    Lowerable table t :=
  lowersAs h t (by simp)

end Lowering

end StackCompiler
