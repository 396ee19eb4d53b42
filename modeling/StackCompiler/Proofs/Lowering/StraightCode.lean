import StackCompiler.Proofs.Lowering.Labels

/-!
The code of expressions is straight: it neither jumps nor returns, and it places no label. This holds of
every tree that is lowered without failure, also of those that no source has, so nothing is assumed of
the shape of a tree.
-/

set_option autoImplicit false
namespace StackCompiler

/-- Induction on trees: what the children of a node have passes on to the node. -/
theorem Tree.forall_of_children {P : Tree → Prop}
    (node : ∀ tag token children, (∀ t ∈ children, P t) → P ⟨tag, token, children⟩) (t : Tree) : P t := by
  refine @Tree.rec P (fun ts => ∀ t ∈ ts, P t) node ?_ ?_ t
  · simp
  · intro first rest hfirst hrest u hu
    rcases List.mem_cons.1 hu with rfl | hu
    · exact hfirst
    · exact hrest u hu

@[simp] theorem isPlain_loadElem (element : Ty) : (Instr.loadElem element).isPlain = true := rfl

@[simp] theorem isPlain_not : Instr.not.isPlain = true := rfl

@[simp] theorem isPlain_call (handle : Nat) : (Instr.call handle).isPlain = true := rfl

@[simp] theorem isPlain_box (ty : Ty) : (Instr.box ty).isPlain = true := rfl

@[simp] theorem isPlain_print : Instr.print.isPlain = true := rfl

@[simp] theorem isPlain_printFormatted (args : Nat) : (Instr.printFormatted args).isPlain = true := rfl

@[simp] theorem isPlain_read (ty : Ty) : (Instr.read ty).isPlain = true := rfl

@[simp] theorem isPlain_pop : Instr.pop.isPlain = true := rfl

namespace Lowering

open Code

/-! Operators. -/

theorem isPlain_binaryInstr {word : String} {instr : Instr} (h : binaryInstr? word = some instr) :
    instr.isPlain = true := by
  unfold binaryInstr? at h
  split at h <;> cases h <;> rfl

theorem isPlain_binaryOperator {t : Tree} {instr : Instr} (h : binaryOperator t = .ok instr) :
    instr.isPlain = true := by
  unfold binaryOperator at h
  obtain ⟨word, -, h⟩ := Grammar.bind_eq_ok.1 h
  split at h
  next hfound =>
    cases h
    exact isPlain_binaryInstr hfound
  next => cases h

theorem isPlain_unaryOperator {t : Tree} {operand : OperandType} {instr : Instr}
    (h : unaryOperator t operand = .ok instr) : instr.isPlain = true := by
  unfold unaryOperator at h
  obtain ⟨word, -, h⟩ := Grammar.bind_eq_ok.1 h
  split at h
  next =>
    obtain ⟨-, -, h⟩ := Grammar.bind_eq_ok.1 h
    cases h
    rfl
  next =>
    obtain ⟨-, -, h⟩ := Grammar.bind_eq_ok.1 h
    cases h
    rfl
  next =>
    split at h <;> cases h
    rfl
  next => cases h

theorem isPlain_assignmentOperator {t : Tree} {instr : Instr}
    (h : assignmentOperator t = .ok (some instr)) : instr.isPlain = true := by
  unfold assignmentOperator at h
  obtain ⟨word, -, h⟩ := Grammar.bind_eq_ok.1 h
  split at h <;> cases h <;> rfl

theorem isPlain_stepOperator {t : Tree} {instr : Instr} (h : stepOperator t = .ok instr) :
    instr.isPlain = true := by
  unfold stepOperator at h
  obtain ⟨word, -, h⟩ := Grammar.bind_eq_ok.1 h
  split at h <;> cases h <;> rfl

theorem isPlain_literal {token : Token} {push : Instr} {ty : Ty} (h : literal? token = some (push, ty)) :
    push.isPlain = true := by
  rcases literal_ok h with ⟨_, rfl, -⟩ | ⟨_, rfl, -⟩ | ⟨_, rfl, -⟩ | ⟨_, rfl, -⟩ <;> rfl

theorem straight_constant {t : Tree} {typed : Typed} (h : constant t = .ok typed) :
    Straight typed.code := by
  unfold constant at h
  split at h
  next => cases h
  next =>
    split at h
    next hliteral =>
      cases h
      simp [Typed.value, isPlain_literal hliteral]
    next => cases h

theorem straight_boxed {ty : Ty} {code : Code} (h : Straight code) : Straight (boxed ty code) := by
  unfold boxed
  split
  next => exact h
  next => exact (straight_append _ _).2 ⟨h, by simp⟩

/-! Stores. -/

theorem straight_storeElement {element : Ty} {keep : Bool} {code : Code} {c c' : ScopeChain}
    (h : Target.storeElement element keep c = .ok code c') : Straight code := by
  rcases storeElement_ok h with ⟨-, rfl, -⟩ | ⟨-, temp, -, rfl⟩ <;> simp

theorem straight_assign {r : Target} {value code : Code} {op : Option Instr} {keep : Bool}
    {c c' : ScopeChain} (h : r.assign value op keep c = .ok code c')
    (hindex : ∀ index, r.index = some index → Straight index) (hvalue : Straight value)
    (hop : ∀ instr, op = some instr → instr.isPlain = true) : Straight code := by
  obtain ⟨place, ty, index⟩ := r
  cases index with
  | none =>
    obtain ⟨-, rfl⟩ := assign_variable_ok h
    have hupdated : Straight (updated place value op) := by
      cases op with
      | none => exact hvalue
      | some instr => simp [updated, hvalue, hop]
    cases keep <;> simp [hupdated]
  | some position =>
    have hposition := hindex position rfl
    rcases assign_element_ok h with ⟨-, finish, hfinish, rfl⟩ |
      ⟨instr, temp, c₁, finish, rfl, -, hfinish, rfl⟩
    · simp [hposition, hvalue, straight_storeElement hfinish]
    · simp [hposition, hvalue, hop, straight_storeElement hfinish]

variable {table : FunctionTable} {t : Tree} {children : List Tree} {typed : Typed} {code : Code}
  {c c' : ScopeChain}

structure EmitsStraight (table : FunctionTable) (t : Tree) : Prop where
  value : ∀ {c : ScopeChain} {typed : Typed} {c' : ScopeChain}, expression table t c = .ok typed c' →
    Straight typed.code
  target : ∀ {c : ScopeChain} {r : Target} {c' : ScopeChain}, target table t c = .ok r c' →
    ∀ index, r.index = some index → Straight index

theorem EmitsStraight.straight {ty : Ty} (h : EmitsStraight table t)
    (hrun : expression table t c = .ok (.value ty code) c') : Straight code :=
  h.value hrun

/-! One lemma for each form of expression, from what is known about the children of the node. -/

theorem straight_location (each : ∀ u ∈ children, EmitsStraight table u)
    (h : location table t children c = .ok typed c') : Straight typed.code := by
  cases children with
  | nil =>
    obtain ⟨symbol, -, rfl⟩ := location_variable.1 h
    simp [Typed.value]
  | cons index rest =>
    obtain ⟨symbol, c₁, element, position, -, -, hposition, rfl⟩ := location_element.1 h
    have hindex := (each index (by simp)).straight hposition
    simp [Typed.value, hindex]

theorem straight_parenthesized (each : ∀ u ∈ children, EmitsStraight table u)
    (h : parenthesized table t children c = .ok typed c') : Straight typed.code := by
  cases children with
  | nil => simp [parenthesized, throw_ok] at h
  | cons inner rest =>
    rw [parenthesized_cons] at h
    exact (each inner (by simp)).value h

theorem straight_chainLinks {required : Ty} {pending : Option Instr}
    (each : ∀ u ∈ children, EmitsStraight table u)
    (hpending : ∀ instr, pending = some instr → instr.isPlain = true)
    (h : chainLinks table required pending children c = .ok code c') : Straight code := by
  induction children generalizing pending c code c' with
  | nil =>
    obtain ⟨rfl, -⟩ := chainLinks_nil.1 h
    exact straight_nil
  | cons next rest ih =>
    have hrest : ∀ u ∈ rest, EmitsStraight table u := fun u hu => each u (by simp [hu])
    rcases chainLinks_cons.1 h with ⟨unused, c₁, op, -, hop, h⟩ |
      ⟨operand, c₁, op, links, hoperand, rfl, hlinks, rfl⟩
    · refine ih hrest ?_ h
      intro instr hinstr
      cases hinstr
      exact isPlain_binaryOperator hop
    · have hcode := (each next (by simp)).straight hoperand
      have hmore := ih hrest (by simp) hlinks
      simp [hcode, hpending, hmore]

theorem straight_chain {required : Ty} (each : ∀ u ∈ children, EmitsStraight table u)
    (h : chain table t required children c = .ok typed c') : Straight typed.code := by
  cases children with
  | nil => simp [chain, throw_ok] at h
  | cons first rest =>
    obtain ⟨operand, c₁, links, hoperand, hlinks, rfl⟩ := chain_iff.1 h
    have hfirst := (each first (by simp)).straight hoperand
    have hmore := straight_chainLinks (fun u hu => each u (by simp [hu])) (by simp) hlinks
    simp [Typed.value, hfirst, hmore]

theorem straight_comparison (each : ∀ u ∈ children, EmitsStraight table u)
    (h : comparison table t children c = .ok typed c') : Straight typed.code := by
  obtain ⟨first, operator, second, rest, rfl⟩ := comparison_parts h
  obtain ⟨left, c₁, op, right, hleft, hop, hright, -, rfl⟩ := comparison_iff.1 h
  have hfirst := (each first (by simp)).value hleft
  have hsecond := (each second (by simp)).value hright
  simp [Typed.value, hfirst, hsecond, isPlain_binaryOperator hop]

theorem straight_negation (each : ∀ u ∈ children, EmitsStraight table u)
    (h : negation table t children c = .ok typed c') : Straight typed.code := by
  cases children with
  | nil => simp [negation, throw_ok] at h
  | cons inner rest =>
    obtain ⟨operand, hoperand, rfl⟩ := negation_iff.1 h
    have hinner := (each inner (by simp)).straight hoperand
    simp [Typed.value, hinner]

theorem straight_unary (each : ∀ u ∈ children, EmitsStraight table u)
    (h : unary table t children c = .ok typed c') : Straight typed.code := by
  cases children with
  | nil => simp [unary, throw_ok] at h
  | cons inner rest =>
    obtain ⟨operand, op, hoperand, hop, rfl⟩ := unary_iff.1 h
    have hinner := (each inner (by simp)).value hoperand
    simp [Typed.value, hinner, isPlain_unaryOperator hop]

theorem straight_assignment {keep : Bool} (each : ∀ u ∈ children, EmitsStraight table u)
    (h : assignment table t keep children c = .ok typed c') : Straight typed.code := by
  obtain ⟨first, second, rest, rfl⟩ := assignment_parts h
  obtain ⟨r, c₁, value, c₂, op, code, htarget, hvalue, hop, -, hassign, rfl⟩ := assignment_iff.1 h
  refine straight_assign hassign ((each first (by simp)).target htarget)
    ((each second (by simp)).straight hvalue) ?_
  rintro instr rfl
  exact isPlain_assignmentOperator hop

theorem straight_step {keep : Bool} (each : ∀ u ∈ children, EmitsStraight table u)
    (h : step table t keep children c = .ok typed c') : Straight typed.code := by
  cases children with
  | nil => simp [step, throw_ok] at h
  | cons first rest =>
    obtain ⟨r, c₁, op, code, htarget, -, hop, hassign, rfl⟩ := step_iff.1 h
    refine straight_assign hassign ((each first (by simp)).target htarget) (by simp) ?_
    intro instr hinstr
    cases hinstr
    exact isPlain_stepOperator hop

theorem straight_arguments {types : List Ty} (each : ∀ u ∈ children, EmitsStraight table u)
    (h : arguments table types children c = .ok code c') : Straight code := by
  induction children generalizing types c code c' with
  | nil =>
    obtain ⟨rfl, -⟩ := arguments_nil.1 h
    exact straight_nil
  | cons first rest ih =>
    cases types with
    | nil =>
      obtain ⟨rfl, -⟩ := arguments_beyond.1 h
      exact straight_nil
    | cons ty types =>
      obtain ⟨argument, c₁, more, hargument, hmore, rfl⟩ := arguments_cons.1 h
      have hfirst := (each first (by simp)).straight hargument
      have hrest := ih (fun u hu => each u (by simp [hu])) hmore
      exact (straight_append _ _).2 ⟨hfirst, hrest⟩

theorem straight_printArguments (each : ∀ u ∈ children, EmitsStraight table u)
    (h : printArguments table children c = .ok code c') : Straight code := by
  induction children generalizing c code c' with
  | nil =>
    obtain ⟨rfl, -⟩ := printArguments_nil.1 h
    exact straight_nil
  | cons first rest ih =>
    obtain ⟨ty, argument, c₁, more, -, hargument, hmore, rfl⟩ := printArguments_cons.1 h
    have hfirst := (each first (by simp)).straight hargument
    have hrest := ih (fun u hu => each u (by simp [hu])) hmore
    exact (straight_append _ _).2 ⟨straight_boxed hfirst, hrest⟩

theorem straight_print (each : ∀ u ∈ children, EmitsStraight table u)
    (h : print table t children c = .ok typed c') : Straight typed.code := by
  match children with
  | [] => simp [print, throw_ok] at h
  | [first] =>
    obtain ⟨ty, value, -, hvalue, rfl⟩ := print_value.1 h
    have hfirst := (each first (by simp)).straight hvalue
    simp [Typed.value, straight_boxed hfirst]
  | first :: next :: rest =>
    obtain ⟨format, c₁, values, hformat, hvalues, rfl⟩ := print_formatted.1 h
    have hfirst := (each first (by simp)).straight hformat
    have hrest := straight_printArguments (fun u hu => each u (List.mem_cons_of_mem _ hu)) hvalues
    simp [Typed.value, hfirst, hrest]

theorem straight_putArguments (each : ∀ u ∈ children, EmitsStraight table u)
    (h : putArguments table children c = .ok code c') : Straight code := by
  induction children generalizing c code c' with
  | nil =>
    obtain ⟨rfl, -⟩ := putArguments_nil.1 h
    exact straight_nil
  | cons first rest ih =>
    obtain ⟨r, c₁, stored, c₂, more, htarget, -, hassign, hmore, rfl⟩ := putArguments_cons.1 h
    have hfirst := straight_assign hassign ((each first (by simp)).target htarget)
      (by simp) (by simp)
    have hrest := ih (fun u hu => each u (by simp [hu])) hmore
    exact (straight_append _ _).2 ⟨hfirst, hrest⟩

theorem straight_call {token : Option Token} (each : ∀ u ∈ children, EmitsStraight table u)
    (h : expression table ⟨.call, token, children⟩ c = .ok typed c') : Straight typed.code := by
  obtain ⟨name, -, ⟨-, h⟩ | ⟨-, -, code, hcode, rfl⟩ | ⟨-, signature, code, -, -, hcode, rfl⟩⟩ := call_iff.1 h
  · exact straight_print each h
  · exact straight_putArguments each hcode
  · simp [Typed.value, straight_arguments each hcode]

theorem straight_target {tag : Tag} {token : Option Token} {r : Target}
    (each : ∀ u ∈ children, EmitsStraight table u)
    (h : target table ⟨tag, token, children⟩ c = .ok r c') :
    ∀ index, r.index = some index → Straight index := by
  cases children with
  | nil =>
    obtain ⟨-, symbol, -, rfl⟩ := target_variable.1 h
    simp
  | cons index rest =>
    obtain ⟨-, symbol, c₁, element, position, -, -, hposition, rfl⟩ := target_element.1 h
    intro found hfound
    cases hfound
    exact (each index (by simp)).straight hposition

theorem emitsStraight (table : FunctionTable) (t : Tree) : EmitsStraight table t := by
  induction t using Tree.forall_of_children with
  | node tag token children each =>
    refine ⟨?_, straight_target each⟩
    intro c typed c' h
    cases tag with
    | constant =>
      obtain ⟨hconstant, -⟩ := lift_ok.1 h
      exact straight_constant hconstant
    | mutable => exact straight_location each h
    | paren => exact straight_parenthesized each h
    | call => exact straight_call each h
    | operator =>
      obtain ⟨rfl, -⟩ := pure_ok.1 h
      exact straight_nil
    | simpleExp | andExp | minMaxExp | sumExp | mulExp => exact straight_chain each h
    | relExp => exact straight_comparison each h
    | notExp => exact straight_negation each h
    | unaryExp => exact straight_unary each h
    | assign => exact straight_assignment each h
    | incDec => exact straight_step each h
    | _ => exact absurd h (by simp [expression, throw_ok])

/-- The code of an expression is straight. -/
theorem straight_expression (h : expression table t c = .ok typed c') : Straight typed.code :=
  (emitsStraight table t).value h

end Lowering

end StackCompiler
