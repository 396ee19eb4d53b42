import StackCompiler.Proofs.Lowering.FormRuns
import StackCompiler.Proofs.Typing.Expressions

/-!
Failures of expressions. An expression that the grammar derives has every part that the lowering looks
for, so that a failure is never about the shape of the tree; and the line of a failure is that of a token
of the expression. `P` says which lines tokens stand on.
-/

set_option autoImplicit false
namespace StackCompiler

open Grammar (Level Phrase Derives)

variable {P : Nat → Prop}

namespace Diagnostic

def isMalformed : Diagnostic → Bool
  | malformedTree _ _ => true
  | _ => false

def PointsInto (P : Nat → Prop) (e : Diagnostic) : Prop :=
  e.isMalformed = false ∧ ∃ line, e.line? = some line ∧ P line

end Diagnostic

namespace Lowering

/-! Computations that yield a value with a property or complain about the source. -/

section Answers

variable {σ α β : Type} {Q : α → Prop} {R : β → Prop}

inductive Answers (P : Nat → Prop) (Q : α → Prop) : Except Diagnostic α → Prop where
  | ok {a : α} (value : Q a) : Answers P Q (.ok a)
  | error {e : Diagnostic} (failure : e.PointsInto P) : Answers P Q (.error e)

theorem Answers.bind {x : Except Diagnostic α} {f : α → Except Diagnostic β} (hx : Answers P Q x)
    (hf : ∀ a, Q a → Answers P R (f a)) : Answers P R (x >>= f) := by
  cases hx with
  | ok value => exact hf _ value
  | error failure => exact .error failure

inductive Ends (P : Nat → Prop) (Q : α → Prop) : EStateM.Result Diagnostic σ α → Prop where
  | ok {a : α} {s : σ} (value : Q a) : Ends P Q (.ok a s)
  | error {e : Diagnostic} {s : σ} (failure : e.PointsInto P) : Ends P Q (.error e s)

/-- From every state the computation yields a value with `Q`, or complains about the source. -/
def Yields (P : Nat → Prop) (Q : α → Prop) (m : EStateM Diagnostic σ α) : Prop :=
  ∀ s, Ends P Q (m s)

abbrev Reports (P : Nat → Prop) (m : EStateM Diagnostic σ α) : Prop :=
  Yields P (fun _ => True) m

theorem Yields.bind {m : EStateM Diagnostic σ α} {f : α → EStateM Diagnostic σ β} (hm : Yields P Q m)
    (hf : ∀ a, Q a → Yields P R (f a)) : Yields P R (m >>= f) := by
  intro s
  have hend := hm s
  change Ends P R (EStateM.bind m f s)
  unfold EStateM.bind
  generalize m s = run at hend ⊢
  cases hend with
  | ok value => exact hf _ value _
  | error failure => exact .error failure

theorem yields_pure {a : α} (h : Q a) : Yields P Q (pure a : EStateM Diagnostic σ α) :=
  fun _ => .ok h

theorem yields_throw {e : Diagnostic} (h : e.PointsInto P) :
    Yields P Q (throw e : EStateM Diagnostic σ α) :=
  fun _ => .error h

theorem yields_lift {x : Except Diagnostic α} (h : Answers P Q x) :
    Yields P Q (liftM x : EStateM Diagnostic σ α) := by
  intro s
  cases h with
  | ok value => exact .ok value
  | error failure => exact .error failure

theorem yields_get : Reports P (get : EStateM Diagnostic σ σ) :=
  fun _ => .ok trivial

theorem yields_set (s : σ) : Reports P (set s : EStateM Diagnostic σ PUnit) :=
  fun _ => .ok trivial

theorem yields_modifyGet (f : σ → α × σ) :
    Reports P (modifyGet f : EStateM Diagnostic σ α) :=
  fun _ => .ok trivial

end Answers

/-! Checks, which complain on the line they are given. -/

section Checks

variable {line : Nat}

theorem require_answers (condition : Prop) [Decidable condition] {e : Diagnostic} (h : e.PointsInto P) :
    Answers P (fun _ => True) (require condition e) := by
  unfold require
  split
  next => exact .ok trivial
  next => exact .error h

theorem expectValue_answers (found : OperandType) (expected : Ty) (hline : P line) :
    Answers P (fun _ => True) (expectValue found expected line) :=
  require_answers (found = .value expected) ⟨rfl, _, rfl, hline⟩

theorem expectType_answers (found expected : Ty) (hline : P line) :
    Answers P (fun _ => True) (expectType found expected line) :=
  require_answers (found = expected) ⟨rfl, _, rfl, hline⟩

theorem elementType_answers (symbol : Symbol) (hline : P line) :
    Answers P (fun _ => True) (elementType symbol line) := by
  unfold elementType
  split
  next => exact .ok trivial
  next => exact .error ⟨rfl, _, rfl, hline⟩

theorem printableType_answers (found : OperandType) (hline : P line) :
    Answers P (fun _ => True) (printableType found line) := by
  cases found with
  | operator => exact .error ⟨rfl, _, rfl, hline⟩
  | value ty =>
    unfold printableType
    dsimp only
    split
    next => exact .ok trivial
    next => exact .error ⟨rfl, _, rfl, hline⟩

theorem callee_answers (table : FunctionTable) (name : String) (count : Nat) (hline : P line) :
    Answers P (fun _ => True) (callee table name count line) := by
  unfold callee
  split
  next => exact .error ⟨rfl, _, rfl, hline⟩
  next =>
    split
    next => exact .ok trivial
    next => exact .error ⟨rfl, _, rfl, hline⟩

theorem checkComparison_answers (op : Instr) (left right : OperandType) (hline : P line) :
    Answers P (fun _ => True) (checkComparison op left right line) := by
  unfold checkComparison
  dsimp only
  by_cases hequality : op = .eq ∨ op = .ne
  all_goals
    simp only [hequality, if_true, if_false]
    split
    next => exact require_answers (right = left) ⟨rfl, _, rfl, hline⟩
    next => exact .error ⟨rfl, _, rfl, hline⟩

end Checks

/-! Nodes with a token. -/

section Nodes

variable {tag : Tag} {token : Token} {children : List Tree} (hline : P token.line)

include hline

theorem constant_answers :
    Answers P (fun typed => ∃ ty, typed.ty = .value ty) (constant (.marked tag token children)) := by
  unfold constant
  dsimp only [token_marked]
  split
  next push ty _ => exact .ok ⟨ty, rfl⟩
  next => exact .error ⟨rfl, _, rfl, hline⟩

theorem arrayLength_answers : Answers P (fun _ => True) (arrayLength (.marked tag token children)) := by
  unfold arrayLength
  rw [lexeme_marked, Grammar.ok_bind]
  split
  next => exact .ok trivial
  next => exact .error ⟨rfl, _, rfl, hline⟩

theorem resolve_yields : Reports P (resolve (.marked tag token children)) := by
  unfold resolve
  refine (yields_lift (.ok rfl : Answers P (· = token.lexeme) _)).bind ?_
  rintro name rfl
  refine yields_get.bind ?_
  intro c _
  split
  next => exact yields_pure trivial
  next => exact yields_throw ⟨rfl, _, rfl, hline⟩

end Nodes

/-! Operators that the grammar admits. -/

theorem binaryOperator_answers {op : Token} {instr : Instr} (h : binaryInstr? op.lexeme = some instr) :
    Answers P (fun _ => True) (binaryOperator (.marked .operator op [])) := by
  rw [binaryOperator_run h]
  exact .ok trivial

theorem comparison_instr {op : Token} (h : op.OneOf .operator ["<=", "<", ">", ">=", "==", "!="]) :
    ∃ instr, binaryInstr? op.lexeme = some instr := by
  have hlexeme := h.2
  simp only [List.mem_cons, List.not_mem_nil, or_false] at hlexeme
  rcases hlexeme with h | h | h | h | h | h <;> rw [h] <;> exact ⟨_, rfl⟩

theorem assignmentOperator_answers {op : Token} {children : List Tree}
    (h : op.OneOf .operator ["=", "+=", "-=", "*=", "/="]) :
    Answers P (fun _ => True) (assignmentOperator (.marked .assign op children)) := by
  rcases List.mem_cons.1 h.2 with hplain | hupdate
  · rw [Typing.assignmentOperator_plain.2 hplain]
    exact .ok trivial
  · obtain ⟨instr, hinstr⟩ := Typing.assignmentOperator_update.2 hupdate
    rw [hinstr]
    exact .ok trivial

theorem stepOperator_answers {op : Token} {children : List Tree} (h : op.OneOf .operator ["++", "--"]) :
    Answers P (fun _ => True) (stepOperator (.marked .incDec op children)) := by
  obtain ⟨instr, hinstr⟩ := Typing.stepOperator_iff.2 h.2
  rw [hinstr]
  exact .ok trivial

theorem unaryOperator_answers {op : Token} {children : List Tree} (operand : OperandType)
    (h : op.OneOf .operator ["-", "*", "?"]) (hline : P op.line) :
    Answers P (fun _ => True) (unaryOperator (.marked .unaryExp op children) operand) := by
  unfold unaryOperator
  rw [lexeme_marked, Grammar.ok_bind]
  split
  next => exact (expectValue_answers _ _ hline).bind fun _ _ => .ok trivial
  next => exact (expectValue_answers _ _ hline).bind fun _ _ => .ok trivial
  next =>
    split
    next => exact .ok trivial
    next => exact .error ⟨rfl, _, rfl, hline⟩
  next hminus hquestion hstar =>
    have hlexeme := h.2
    simp only [List.mem_cons, List.not_mem_nil, or_false] at hlexeme
    rcases hlexeme with hlexeme | hlexeme | hlexeme
    · exact absurd hlexeme hminus
    · exact absurd hlexeme hstar
    · exact absurd hlexeme hquestion

/-! Stores. -/

theorem storeElement_yields (element : Ty) (keep : Bool) :
    Reports P (Target.storeElement element keep) := by
  unfold Target.storeElement
  split
  next => exact (yields_modifyGet _).bind fun _ _ => yields_pure trivial
  next => exact yields_pure trivial

theorem assign_yields (target : Target) (value : Code) (op : Option Instr) (keep : Bool) :
    Reports P (target.assign value op keep) := by
  unfold Target.assign
  dsimp only
  split
  next => exact yields_pure trivial
  next => exact yields_pure trivial
  next => exact (storeElement_yields _ _).bind fun _ _ => yields_pure trivial
  next =>
    refine (yields_modifyGet _).bind ?_
    intro temp _
    exact (storeElement_yields _ _).bind fun _ _ => yields_pure trivial

/-! One lemma for each form of expression. -/

/-- Code that leaves a value; the mark of a bare operator is none. -/
def Typed.IsValue (typed : Typed) : Prop :=
  ∃ ty, typed.ty = .value ty

/-- A tree on which every use as an expression ends in a value or in a complaint about the source. -/
structure Answered (P : Nat → Prop) (table : FunctionTable) (t : Tree) : Prop where
  line : P t.line
  value : Yields P Typed.IsValue (expression table t)
  target : Reports P (target table t)
  assignment : t.tag = .assign → ∀ keep, Yields P Typed.IsValue (assignment table t keep t.children)
  step : t.tag = .incDec → ∀ keep, Yields P Typed.IsValue (step table t keep t.children)

variable {table : FunctionTable}

/-- What is not a variable or an element is no target, which is a complaint on the line of the node. -/
theorem target_yields {t : Tree} (htag : t.tag ≠ .mutable) (hline : P t.line) :
    Reports P (target table t) := by
  obtain ⟨tag, token, children⟩ := t
  rw [target]
  intro s
  rw [require, if_neg htag]
  exact .error ⟨rfl, _, rfl, hline⟩

theorem answered_of_value {t : Tree} (htag : t.tag ∉ [Tag.mutable, .assign, .incDec]) (line : P t.line)
    (value : Yields P Typed.IsValue (expression table t)) : Answered P table t := by
  simp only [List.mem_cons, List.not_mem_nil, or_false, not_or] at htag
  exact ⟨line, value, target_yields htag.1 line, fun h => absurd h htag.2.1, fun h => absurd h htag.2.2⟩

theorem answered_constant {token : Token} (hline : P token.line) :
    Answered P table (.marked .constant token []) :=
  answered_of_value (by simp) hline (yields_lift (constant_answers hline))

theorem answered_paren {token : Token} {t : Tree} (hline : P token.line) (inner : Answered P table t) :
    Answered P table (.marked .paren token [t]) :=
  answered_of_value (by simp) hline inner.value

theorem answered_negate {op : Token} {t : Tree} (hline : P op.line) (operand : Answered P table t) :
    Answered P table (.marked .notExp op [t]) := by
  refine answered_of_value (by simp) hline (operand.value.bind ?_)
  intro typed _
  exact (yields_lift (expectValue_answers _ _ hline)).bind fun _ _ => yields_pure ⟨_, rfl⟩

theorem answered_unary {op : Token} {t : Tree} (isOp : op.OneOf .operator ["-", "*", "?"])
    (hline : P op.line) (operand : Answered P table t) : Answered P table (.marked .unaryExp op [t]) := by
  refine answered_of_value (by simp) hline (operand.value.bind ?_)
  intro typed _
  exact (yields_lift (unaryOperator_answers _ isOp hline)).bind fun _ _ => yields_pure ⟨_, rfl⟩

theorem answered_compare {op : Token} {left right : Tree}
    (isOp : op.OneOf .operator ["<=", "<", ">", ">=", "==", "!="]) (hline : P op.line)
    (first : Answered P table left) (second : Answered P table right) :
    Answered P table (.inner .relExp [left, .marked .operator op [], right]) := by
  obtain ⟨instr, hinstr⟩ := comparison_instr isOp
  refine answered_of_value (by simp) first.line (first.value.bind ?_)
  intro leftTyped _
  refine (yields_lift (binaryOperator_answers hinstr)).bind ?_
  intro _ _
  refine second.value.bind ?_
  intro rightTyped _
  exact (yields_lift (checkComparison_answers _ _ _ hline)).bind fun _ _ => yields_pure ⟨_, rfl⟩

theorem answered_location {name : Token} {children : List Tree} (hline : P name.line)
    (hchildren : children = [] ∨ ∃ index, children = [index] ∧ Answered P table index) :
    Answered P table (.marked .mutable name children) := by
  refine ⟨hline, ?_, ?_, nofun, nofun⟩
  · rcases hchildren with rfl | ⟨index, rfl, hindex⟩
    · exact (resolve_yields hline).bind fun _ _ => yields_pure ⟨_, rfl⟩
    · refine (resolve_yields hline).bind ?_
      intro symbol _
      refine (yields_lift (elementType_answers symbol hline)).bind ?_
      intro element _
      refine hindex.value.bind ?_
      intro position _
      exact (yields_lift (expectValue_answers _ _ hindex.line)).bind fun _ _ => yields_pure ⟨_, rfl⟩
  · rw [Tree.marked, target]
    refine (yields_lift (require_answers _ ⟨rfl, _, rfl, hline⟩)).bind ?_
    intro _ _
    refine (resolve_yields hline).bind ?_
    intro symbol _
    rcases hchildren with rfl | ⟨index, rfl, hindex⟩
    · exact yields_pure trivial
    · refine (yields_lift (elementType_answers symbol hline)).bind ?_
      intro element _
      refine hindex.value.bind ?_
      intro position _
      exact (yields_lift (expectValue_answers _ _ hindex.line)).bind fun _ _ => yields_pure trivial

theorem answered_chain {level : Level} {first : Tree} {links : List Tree}
    (operand : Answered P table first)
    (rest : Reports P (chainLinks table level.ty none links)) :
    Answered P table (.inner level.tag (first :: links)) := by
  refine answered_of_value (by cases level <;> simp [Level.tag]) operand.line ?_
  rw [expression_chain, chain]
  refine operand.value.bind ?_
  intro typed _
  refine (yields_lift (expectValue_answers _ _ operand.line)).bind ?_
  intro _ _
  exact rest.bind fun _ _ => yields_pure ⟨_, rfl⟩

/-- An operator is noted, and joins the operand behind it, which is a value. -/
theorem links_yield {level : Level} {op : Token} {t : Tree} {links : List Tree}
    (isOp : level.Connective op) (operand : Answered P table t)
    (rest : Reports P (chainLinks table level.ty none links)) :
    Reports P (chainLinks table level.ty none (.marked .operator op [] :: t :: links)) := by
  obtain ⟨instr, hinstr⟩ := Typing.connective_instr isOp
  rw [chainLinks]
  refine (yields_pure rfl : Yields P (· = ⟨.operator, []⟩) _).bind ?_
  rintro typed rfl
  refine (yields_lift (.ok trivial : Answers P (fun _ => True) _)).bind ?_
  intro _ _
  refine (yields_lift (binaryOperator_answers hinstr)).bind ?_
  intro instr _
  rw [chainLinks]
  refine operand.value.bind ?_
  rintro ⟨_, code⟩ ⟨ty, rfl⟩
  refine (yields_lift (require_answers _ ⟨rfl, _, rfl, operand.line⟩)).bind ?_
  intro _ _
  exact rest.bind fun _ _ => yields_pure trivial

theorem arguments_yield (types : List Ty) {args : List Tree} (each : ∀ t ∈ args, Answered P table t) :
    Reports P (arguments table types args) := by
  induction args generalizing types with
  | nil =>
    rw [arguments]
    exact yields_pure trivial
  | cons first rest ih =>
    rw [List.forall_mem_cons] at each
    cases types with
    | nil =>
      rw [arguments]
      exact yields_pure trivial
    | cons ty types =>
      rw [arguments]
      refine each.1.value.bind ?_
      intro argument _
      refine (yields_lift (expectValue_answers _ _ each.1.line)).bind ?_
      intro _ _
      exact (ih types each.2).bind fun _ _ => yields_pure trivial

theorem printArguments_yield {args : List Tree} (each : ∀ t ∈ args, Answered P table t) :
    Reports P (printArguments table args) := by
  induction args with
  | nil =>
    rw [printArguments]
    exact yields_pure trivial
  | cons first rest ih =>
    rw [List.forall_mem_cons] at each
    rw [printArguments]
    refine each.1.value.bind ?_
    intro argument _
    refine (yields_lift (printableType_answers _ each.1.line)).bind ?_
    intro ty _
    exact (ih each.2).bind fun _ _ => yields_pure trivial

theorem putArguments_yield {args : List Tree} (each : ∀ t ∈ args, Answered P table t) :
    Reports P (putArguments table args) := by
  induction args with
  | nil =>
    rw [putArguments]
    exact yields_pure trivial
  | cons first rest ih =>
    rw [List.forall_mem_cons] at each
    rw [putArguments]
    refine each.1.target.bind ?_
    intro target _
    refine (yields_lift (require_answers _ ⟨rfl, _, rfl, each.1.line⟩)).bind ?_
    intro _ _
    refine (assign_yields _ _ _ _).bind ?_
    intro code _
    exact (ih each.2).bind fun _ _ => yields_pure trivial

theorem print_yields {t : Tree} (hline : P t.line) {args : List Tree}
    (each : ∀ t ∈ args, Answered P table t) : Yields P Typed.IsValue (print table t args) := by
  cases args with
  | nil =>
    rw [print]
    exact yields_throw ⟨rfl, _, rfl, hline⟩
  | cons first rest =>
    rw [List.forall_mem_cons] at each
    rw [print]
    refine each.1.value.bind ?_
    intro head _
    refine (yields_lift (printableType_answers _ each.1.line)).bind ?_
    intro ty _
    split
    next => exact yields_pure ⟨_, rfl⟩
    next =>
      refine (yields_lift (require_answers _ ⟨rfl, _, rfl, hline⟩)).bind ?_
      intro _ _
      exact (printArguments_yield each.2).bind fun _ _ => yields_pure ⟨_, rfl⟩

theorem expression_call (name : Token) (args : List Tree) :
    expression table (.marked .call name args) =
      if name.lexeme = "print" then
        print table (.marked .call name args) args
      else if name.lexeme = "put" then do
        require (!args.isEmpty) (.arityMismatch name.lexeme 1 0 (Tree.marked .call name args).line)
        let code ← putArguments table args
        return .value .void code
      else do
        let signature ← callee table name.lexeme args.length (Tree.marked .call name args).line
        let code ← arguments table signature.parameters args
        return .value signature.result (code ++ [.call signature.handle]) :=
  rfl

theorem answered_call {name : Token} {args : List Tree} (hline : P name.line)
    (each : ∀ t ∈ args, Answered P table t) : Answered P table (.marked .call name args) := by
  refine answered_of_value (by simp) hline ?_
  rw [expression_call]
  split
  next => exact print_yields hline each
  next =>
    split
    next =>
      refine (yields_lift (require_answers _ ⟨rfl, _, rfl, hline⟩)).bind ?_
      intro _ _
      exact (putArguments_yield each).bind fun _ _ => yields_pure ⟨_, rfl⟩
    next =>
      refine (yields_lift (callee_answers _ _ _ hline)).bind ?_
      intro signature _
      exact (arguments_yield _ each).bind fun _ _ => yields_pure ⟨_, rfl⟩

theorem answered_assign {op : Token} {left right : Tree}
    (isOp : op.OneOf .operator ["=", "+=", "-=", "*=", "/="]) (hline : P op.line)
    (place : Answered P table left) (value : Answered P table right) :
    Answered P table (.marked .assign op [left, right]) := by
  have hstored : ∀ keep, Yields P Typed.IsValue
      (assignment table (.marked .assign op [left, right]) keep [left, right]) := by
    intro keep
    rw [assignment]
    refine place.target.bind ?_
    intro target _
    refine value.value.bind ?_
    intro typed _
    refine (yields_lift (expectValue_answers _ _ hline)).bind ?_
    intro _ _
    refine (yields_lift (assignmentOperator_answers isOp)).bind ?_
    intro instr _
    refine (yields_lift (require_answers _ ⟨rfl, _, rfl, hline⟩)).bind ?_
    intro _ _
    exact (assign_yields _ _ _ _).bind fun _ _ => yields_pure ⟨_, rfl⟩
  exact ⟨hline, hstored true, target_yields (by simp) hline, fun _ => hstored, by simp⟩

theorem answered_step {op : Token} {left : Tree} (isOp : op.OneOf .operator ["++", "--"])
    (hline : P op.line) (place : Answered P table left) :
    Answered P table (.marked .incDec op [left]) := by
  have hstored : ∀ keep, Yields P Typed.IsValue (step table (.marked .incDec op [left]) keep [left]) := by
    intro keep
    rw [step]
    refine place.target.bind ?_
    intro target _
    refine (yields_lift (expectType_answers _ _ hline)).bind ?_
    intro _ _
    refine (yields_lift (stepOperator_answers isOp)).bind ?_
    intro instr _
    exact (assign_yields _ _ _ _).bind fun _ _ => yields_pure ⟨_, rfl⟩
  exact ⟨hline, hstored true, target_yields (by simp) hline, by simp, fun _ => hstored⟩

end Lowering

end StackCompiler
