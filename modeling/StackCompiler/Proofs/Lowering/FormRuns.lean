import StackCompiler.Proofs.Lowering.Forms

/-!
The rules of `Lowers` are exact: what they derive is what the functions compute. Together with the
converse, that every successful run follows the rules, a rule can stand for the run of a function.
-/

set_option autoImplicit false
namespace StackCompiler.Lowering

open Grammar (Level)

variable {table : FunctionTable}

def Source.Runs (table : FunctionTable) (c : ScopeChain) (ty : Ty) (code : Code) (c' : ScopeChain) :
    Source → Prop
  | .value t => expression table t c = .ok (.value ty code) c'
  | .one => ty = .int ∧ code = [.pushInt 1] ∧ c' = c
  | .input type => ty = type ∧ ty.isScalar = true ∧ code = [.read ty] ∧ c' = c

def Form.Runs (table : FunctionTable) (c : ScopeChain) (ty : Ty) (code : Code) (c' : ScopeChain) :
    Form → Prop
  | .value t => expression table t c = .ok (.value ty code) c'
  | .stored keep t =>
    (t.tag = .assign ∧ assignment table t keep t.children c = .ok (.value ty code) c') ∨
      (t.tag = .incDec ∧ step table t keep t.children c = .ok (.value ty code) c')
  | .store keep op t origin => ∃ r c₁ value c₂, Lowering.target table t c = .ok r c₁ ∧ r.ty = ty ∧
    origin.Runs table c₁ ty value c₂ ∧ Storing op ty ∧ r.assign value op keep c₂ = .ok code c'
  | .source origin => origin.Runs table c ty code c'
  | .links level nodes => chainLinks table level.ty none nodes c = .ok code c'
  | .arguments types args => Lowering.arguments table types args c = .ok code c'
  | .printed args => printArguments table args c = .ok code c'
  | .filled args => putArguments table args c = .ok code c'

theorem binaryOperator_run {op : Token} {instr : Instr} (h : binaryInstr? op.lexeme = some instr) :
    binaryOperator (.marked .operator op []) = .ok instr := by
  unfold binaryOperator
  rw [lexeme_marked, Grammar.ok_bind, h]
  rfl

theorem checkComparison_run {instr : Instr} {ty : Ty} (line : Nat) (h : Compares instr ty) :
    checkComparison instr (.value ty) (.value ty) line = .ok () := by
  unfold checkComparison
  rcases h with ⟨hinstr, hscalar⟩ | ⟨hinstr, hordered⟩
  · simp only [List.mem_cons, List.not_mem_nil, or_false] at hinstr
    simp [hinstr, OperandType.value?, hscalar, require]
  · simp only [List.mem_cons, List.not_mem_nil, or_false] at hinstr
    rcases hinstr with rfl | rfl | rfl | rfl <;> simp [OperandType.value?, hordered, require]

/-- A rule of `Lowers` derives a run of the function that it is about. -/
theorem Lowers.runs {form : Form} {c c' : ScopeChain} {ty : Ty} {code : Code}
    (h : Lowers table form c ty code c') : form.Runs table c ty code c' := by
  induction h with
  | @constant token push ty c hliteral =>
    change (liftM (Lowering.constant (.marked .constant token [])) : ScopeM Typed) c = _
    rw [lift_ok]
    simp [Lowering.constant, Tree.marked, hliteral]
  | @«variable» name symbol c hfound =>
    change location table (.marked .mutable name []) [] c = _
    exact location_variable.2 ⟨symbol, resolve_marked.2 ⟨hfound, rfl⟩, rfl⟩
  | @element name index symbol element code c c' hfound harray _ ih =>
    change location table (.marked .mutable name [index]) [index] c = _
    exact location_element.2 ⟨symbol, c, element, code, resolve_marked.2 ⟨hfound, rfl⟩, harray, ih, rfl⟩
  | paren _ ih => exact ih
  | @chain level first links code more c c₁ c' _ _ hfirst hrest =>
    change expression table (.inner level.tag (first :: links)) c = _
    rw [expression_chain]
    exact chain_iff.2 ⟨code, c₁, more, hfirst, hrest, rfl⟩
  | noLinks => exact chainLinks_nil.2 ⟨rfl, rfl⟩
  | @link level op t links instr code more c c₁ c' _ hop _ _ hfirst hrest =>
    have hlink := chainLinks_cons.2 (.inr ⟨code, c₁, instr, more, hfirst, rfl, hrest, rfl⟩)
    exact chainLinks_cons.2 (.inl ⟨[], c, instr, rfl, binaryOperator_run hop, hlink⟩)
  | @compare op left right instr ty code code' c c₁ c' hop hdefined _ _ hfirst hsecond =>
    change comparison table (.inner .relExp [left, .marked .operator op [], right])
      [left, .marked .operator op [], right] c = _
    exact comparison_iff.2 ⟨_, c₁, instr, _, hfirst, binaryOperator_run hop, hsecond,
      checkComparison_run _ hdefined, rfl⟩
  | @negate op t code c c' _ ih =>
    change negation table (.marked .notExp op [t]) [t] c = _
    exact negation_iff.2 ⟨code, ih, rfl⟩
  | @unary op t instr ty code c c' hop _ ih =>
    change Lowering.unary table (.marked .unaryExp op [t]) [t] c = _
    exact unary_iff.2 ⟨_, instr, ih, hop, rfl⟩
  | call plain hlookup count _ ih =>
    exact call_iff.2 ⟨_, rfl, .inr (.inr ⟨plain, _, _, hlookup, count, ih, rfl⟩)⟩
  | print isPrint scalar _ ih =>
    exact call_iff.2 ⟨_, rfl, .inl ⟨isPrint, print_value.2 ⟨_, _, scalar, ih, rfl⟩⟩⟩
  | printFormatted isPrint _ _ hfirst hrest =>
    exact call_iff.2 ⟨_, rfl, .inl ⟨isPrint, print_formatted.2 ⟨_, _, _, hfirst, hrest, rfl⟩⟩⟩
  | put isPut nonempty _ ih => exact call_iff.2 ⟨_, rfl, .inr (.inl ⟨isPut, nonempty, _, ih, rfl⟩)⟩
  | kept inner ih =>
    rcases ih with ⟨htag, hrun⟩ | ⟨htag, hrun⟩
    · cases inner with
      | assign => exact hrun
      | step => cases htag
    · cases inner with
      | assign => cases htag
      | step => exact hrun
  | @assign keep op left right instr ty code c c' hop _ ih =>
    obtain ⟨r, c₁, value, c₂, htarget, rfl, hvalue, hstoring, hassign⟩ := ih
    have hint : instr.isNone = true ∨ r.ty = .int := by
      cases instr with
      | none => exact .inl rfl
      | some instr => exact .inr (hstoring instr rfl).1
    exact .inl ⟨rfl, assignment_iff.2 ⟨r, c₁, value, c₂, instr, code, htarget, hvalue, hop, hint, hassign, rfl⟩⟩
  | @step keep op left instr code c c' hop _ ih =>
    obtain ⟨r, c₁, value, c₂, htarget, hty, ⟨-, rfl, rfl⟩, -, hassign⟩ := ih
    exact .inr ⟨rfl, step_iff.2 ⟨r, c₂, instr, code, htarget, hty, hop, hassign, rfl⟩⟩
  | @storeVariable keep op name symbol origin value code c c₁ c' hfound hstoring _ hassign ih =>
    have htarget : Lowering.target table (.marked .mutable name []) c =
        .ok ⟨symbol.place, symbol.ty, none⟩ c :=
      target_variable.2 ⟨rfl, symbol, resolve_marked.2 ⟨hfound, rfl⟩, rfl⟩
    exact ⟨_, c, value, c₁, htarget, rfl, ih, hstoring, hassign⟩
  | @storeElement keep op name index symbol element origin position value code c c₁ c₂ c' hfound harray
      hstoring _ _ hassign hposition hvalue =>
    have htarget : Lowering.target table (.marked .mutable name [index]) c =
        .ok ⟨symbol.place, element, some position⟩ c₁ :=
      target_element.2 ⟨rfl, symbol, c, element, position, resolve_marked.2 ⟨hfound, rfl⟩, harray, hposition, rfl⟩
    exact ⟨_, c₁, value, c₂, htarget, rfl, hvalue, hstoring, hassign⟩
  | value _ ih => exact ih
  | one => exact ⟨rfl, rfl, rfl⟩
  | input scalar => exact ⟨rfl, scalar, rfl, rfl⟩
  | noArguments => exact arguments_nil.2 ⟨rfl, rfl⟩
  | argument _ _ hfirst hrest => exact arguments_cons.2 ⟨_, _, _, hfirst, hrest, rfl⟩
  | noPrinted => exact printArguments_nil.2 ⟨rfl, rfl⟩
  | printed scalar _ _ hfirst hrest => exact printArguments_cons.2 ⟨_, _, _, _, scalar, hfirst, hrest, rfl⟩
  | noFilled => exact putArguments_nil.2 ⟨rfl, rfl⟩
  | filled _ _ hfirst hrest =>
    obtain ⟨r, c₂, value, c₃, htarget, rfl, ⟨-, hscalar, rfl, rfl⟩, -, hassign⟩ := hfirst
    exact putArguments_cons.2 ⟨r, c₃, _, _, _, htarget, hscalar, hassign, hrest, rfl⟩

end StackCompiler.Lowering
