import StackCompiler.Proofs.Lowering.Outcome

/-!
Runs of the lowering of expressions, one equivalence for each shape that a function tells apart: what runs
inside it, what is checked of the types, and how the code is put together. They hold for all trees, whether
or not a source has them.
-/

set_option autoImplicit false
namespace StackCompiler.Lowering

variable {table : FunctionTable} {c c' : ScopeChain} {typed : Typed} {code : Code}

/-! What names and types are looked up as. -/

theorem resolve_iff {t : Tree} {symbol : Symbol} :
    resolve t c = .ok symbol c' ↔ ∃ name, t.lexeme = .ok name ∧ c.resolve? name = some symbol ∧ c' = c := by
  unfold resolve
  simp only [bind_ok, lift_ok, get_ok]
  constructor
  · rintro ⟨name, _, ⟨hname, rfl⟩, _, _, ⟨rfl, rfl⟩, h⟩
    cases hfound : c.resolve? name with
    | none => simp [hfound, throw_ok] at h
    | some found =>
      simp only [hfound, pure_ok] at h
      obtain ⟨rfl, rfl⟩ := h
      exact ⟨name, hname, hfound, rfl⟩
  · rintro ⟨name, hname, hfound, rfl⟩
    refine ⟨name, c', ⟨hname, rfl⟩, c', c', ⟨rfl, rfl⟩, ?_⟩
    rw [hfound, pure_ok]
    exact ⟨rfl, rfl⟩

theorem resolve_marked {tag : Tag} {name : Token} {children : List Tree} {symbol : Symbol} :
    resolve (.marked tag name children) c = .ok symbol c' ↔
      c.resolve? name.lexeme = some symbol ∧ c' = c := by
  rw [resolve_iff]
  constructor
  · rintro ⟨text, htext, h⟩
    cases htext
    exact h
  · intro h
    exact ⟨_, rfl, h⟩

theorem elementType_iff {symbol : Symbol} {line : Nat} {element : Ty} :
    elementType symbol line = .ok element ↔ symbol.ty = .array element := by
  unfold elementType
  split
  next found hfound => rw [hfound, Except.ok.injEq, Ty.array.injEq]
  next hother => exact ⟨fun h => (nomatch h), fun h => absurd h (hother element)⟩

theorem printableType_iff {found : OperandType} {line : Nat} {ty : Ty} :
    printableType found line = .ok ty ↔ found = .value ty ∧ ty.isScalar = true := by
  constructor
  · intro h
    unfold printableType at h
    split at h
    next ty' =>
      split at h
      next hscalar =>
        cases h
        exact ⟨rfl, hscalar⟩
      next => cases h
    next => cases h
  · rintro ⟨rfl, hscalar⟩
    rw [printableType, if_pos hscalar]

theorem callee_iff {name : String} {count line : Nat} {signature : Signature} :
    callee table name count line = .ok signature ↔
      table.lookup? name = some signature ∧ count = signature.parameters.length := by
  constructor
  · intro h
    unfold callee at h
    split at h
    next => cases h
    next found hfound =>
      split at h
      next hcount =>
        cases h
        exact ⟨hfound, hcount⟩
      next => cases h
  · rintro ⟨hfound, rfl⟩
    simp [callee, hfound]

/-! Variables and elements, as values and as targets. -/

theorem location_variable {t : Tree} :
    location table t [] c = .ok typed c' ↔
      ∃ symbol, resolve t c = .ok symbol c' ∧ typed = .value symbol.ty [.load symbol.place] := by
  simp only [location, bind_ok, pure_ok]
  constructor
  · rintro ⟨symbol, _, hsymbol, rfl, rfl⟩
    exact ⟨symbol, hsymbol, rfl⟩
  · rintro ⟨symbol, hsymbol, rfl⟩
    exact ⟨symbol, c', hsymbol, rfl, rfl⟩

theorem location_element {t index : Tree} {rest : List Tree} :
    location table t (index :: rest) c = .ok typed c' ↔
      ∃ symbol c₁ element position, resolve t c = .ok symbol c₁ ∧ symbol.ty = .array element ∧
        expression table index c₁ = .ok (.value .int position) c' ∧
        typed = .value element (.load symbol.place :: position ++ [.loadElem element]) := by
  simp only [location, bind_ok, lift_ok, elementType_iff, expectValue_ok, pure_ok]
  constructor
  · rintro ⟨symbol, c₁, hsymbol, element, _, ⟨harray, rfl⟩, ⟨_, position⟩, _, hposition, _, _, ⟨rfl, rfl⟩, rfl,
      rfl⟩
    exact ⟨symbol, c₁, element, position, hsymbol, harray, hposition, rfl⟩
  · rintro ⟨symbol, c₁, element, position, hsymbol, harray, hposition, rfl⟩
    exact ⟨symbol, c₁, hsymbol, element, c₁, ⟨harray, rfl⟩, _, c', hposition, (), c', ⟨rfl, rfl⟩, rfl, rfl⟩

theorem target_variable {tag : Tag} {token : Option Token} {r : Target} :
    target table ⟨tag, token, []⟩ c = .ok r c' ↔
      tag = .mutable ∧ ∃ symbol, resolve ⟨tag, token, []⟩ c = .ok symbol c' ∧
        r = ⟨symbol.place, symbol.ty, none⟩ := by
  rw [target]
  simp only [bind_ok, lift_ok, require_ok, pure_ok]
  constructor
  · rintro ⟨_, _, ⟨htag, rfl⟩, symbol, _, hsymbol, rfl, rfl⟩
    exact ⟨htag, symbol, hsymbol, rfl⟩
  · rintro ⟨htag, symbol, hsymbol, rfl⟩
    exact ⟨(), c, ⟨htag, rfl⟩, symbol, c', hsymbol, rfl, rfl⟩

theorem target_element {tag : Tag} {token : Option Token} {index : Tree} {rest : List Tree} {r : Target} :
    target table ⟨tag, token, index :: rest⟩ c = .ok r c' ↔
      tag = .mutable ∧ ∃ symbol c₁ element position, resolve ⟨tag, token, index :: rest⟩ c = .ok symbol c₁ ∧
        symbol.ty = .array element ∧ expression table index c₁ = .ok (.value .int position) c' ∧
        r = ⟨symbol.place, element, some position⟩ := by
  rw [target]
  simp only [bind_ok, lift_ok, require_ok, elementType_iff, expectValue_ok, pure_ok]
  constructor
  · rintro ⟨_, _, ⟨htag, rfl⟩, symbol, c₁, hsymbol, element, _, ⟨harray, rfl⟩, ⟨_, position⟩, _, hposition, _, _,
      ⟨rfl, rfl⟩, rfl, rfl⟩
    exact ⟨htag, symbol, c₁, element, position, hsymbol, harray, hposition, rfl⟩
  · rintro ⟨htag, symbol, c₁, element, position, hsymbol, harray, hposition, rfl⟩
    exact ⟨(), c, ⟨htag, rfl⟩, symbol, c₁, hsymbol, element, c₁, ⟨harray, rfl⟩, _, c', hposition, (), c',
      ⟨rfl, rfl⟩, rfl, rfl⟩

theorem target_tag {t : Tree} {r : Target} (h : target table t c = .ok r c') : t.tag = .mutable := by
  obtain ⟨tag, token, children⟩ := t
  cases children with
  | nil => exact (target_variable.1 h).1
  | cons index rest => exact (target_element.1 h).1

/-! Operators. -/

theorem parenthesized_cons {t inner : Tree} {rest : List Tree} :
    parenthesized table t (inner :: rest) = expression table inner :=
  rfl

section Operators

variable {t first second operator : Tree} {rest : List Tree} {required : Ty} {pending : Option Instr}

theorem chain_iff :
    chain table t required (first :: rest) c = .ok typed c' ↔
      ∃ operand c₁ links, expression table first c = .ok (.value required operand) c₁ ∧
        chainLinks table required none rest c₁ = .ok links c' ∧ typed = .value required (operand ++ links) := by
  simp only [chain, bind_ok, lift_ok, expectValue_ok, pure_ok]
  constructor
  · rintro ⟨⟨_, operand⟩, c₁, hoperand, _, _, ⟨rfl, rfl⟩, links, _, hlinks, rfl, rfl⟩
    exact ⟨operand, c₁, links, hoperand, hlinks, rfl⟩
  · rintro ⟨operand, c₁, links, hoperand, hlinks, rfl⟩
    exact ⟨_, c₁, hoperand, (), c₁, ⟨rfl, rfl⟩, links, c', hlinks, rfl, rfl⟩

theorem chainLinks_nil : chainLinks table required pending [] c = .ok code c' ↔ code = [] ∧ c' = c := by
  rw [chainLinks, pure_ok, eq_comm, eq_comm (a := c)]

/-- A link of a chain is an operator, which waits for its operand, or an operand for which one waits. -/
theorem chainLinks_cons :
    chainLinks table required pending (first :: rest) c = .ok code c' ↔
      (∃ unused c₁ op, expression table first c = .ok ⟨.operator, unused⟩ c₁ ∧ binaryOperator first = .ok op ∧
        chainLinks table required (some op) rest c₁ = .ok code c') ∨
      ∃ operand c₁ op links, expression table first c = .ok (.value required operand) c₁ ∧ pending = some op ∧
        chainLinks table required none rest c₁ = .ok links c' ∧ code = operand ++ op :: links := by
  simp only [chainLinks, bind_ok, lift_ok, require_ok]
  constructor
  · rintro ⟨⟨ty, operand⟩, c₁, hoperand, _, _, ⟨hmatches, rfl⟩, h⟩
    cases ty with
    | operator =>
      simp only [bind_ok, lift_ok] at h
      obtain ⟨op, _, ⟨hop, rfl⟩, h⟩ := h
      exact .inl ⟨operand, c₁, op, hoperand, hop, h⟩
    | value ty =>
      obtain rfl : ty = required := by simpa [OperandType.matchesType] using hmatches
      cases pending with
      | none => simp [throw_ok] at h
      | some op =>
        simp only [bind_ok, pure_ok] at h
        obtain ⟨links, _, hlinks, rfl, rfl⟩ := h
        exact .inr ⟨operand, c₁, op, links, hoperand, rfl, hlinks, rfl⟩
  · rintro (⟨unused, c₁, op, hoperand, hop, h⟩ | ⟨operand, c₁, op, links, hoperand, rfl, hlinks, rfl⟩)
    · exact ⟨_, c₁, hoperand, (), c₁, ⟨rfl, rfl⟩, bind_ok.2 ⟨op, c₁, lift_ok.2 ⟨hop, rfl⟩, h⟩⟩
    · refine ⟨_, c₁, hoperand, (), c₁, ⟨by simp [Typed.value, OperandType.matchesType], rfl⟩, ?_⟩
      exact bind_ok.2 ⟨links, c', hlinks, pure_ok.2 ⟨rfl, rfl⟩⟩

theorem comparison_iff :
    comparison table t (first :: operator :: second :: rest) c = .ok typed c' ↔
      ∃ left c₁ op right, expression table first c = .ok left c₁ ∧ binaryOperator operator = .ok op ∧
        expression table second c₁ = .ok right c' ∧
        checkComparison op left.ty right.ty operator.line = .ok () ∧
        typed = .value .bool (left.code ++ right.code ++ [op]) := by
  simp only [comparison, bind_ok, lift_ok, pure_ok]
  constructor
  · rintro ⟨left, c₁, hleft, op, _, ⟨hop, rfl⟩, right, _, hright, _, _, ⟨hcheck, rfl⟩, rfl, rfl⟩
    exact ⟨left, c₁, op, right, hleft, hop, hright, hcheck, rfl⟩
  · rintro ⟨left, c₁, op, right, hleft, hop, hright, hcheck, rfl⟩
    exact ⟨left, c₁, hleft, op, c₁, ⟨hop, rfl⟩, right, c', hright, (), c', ⟨hcheck, rfl⟩, rfl, rfl⟩

theorem comparison_parts {children : List Tree} (h : comparison table t children c = .ok typed c') :
    ∃ first operator second rest, children = first :: operator :: second :: rest := by
  match children with
  | [] => exact absurd h (by simp [comparison, throw_ok])
  | [_] => exact absurd h (by simp [comparison, bind_ok, throw_ok])
  | [_, _] => exact absurd h (by simp [comparison, bind_ok, throw_ok])
  | first :: operator :: second :: rest => exact ⟨first, operator, second, rest, rfl⟩

theorem negation_iff :
    negation table t (first :: rest) c = .ok typed c' ↔
      ∃ operand, expression table first c = .ok (.value .bool operand) c' ∧
        typed = .value .bool (operand ++ [.not]) := by
  simp only [negation, bind_ok, lift_ok, expectValue_ok, pure_ok]
  constructor
  · rintro ⟨⟨_, operand⟩, _, hoperand, _, _, ⟨rfl, rfl⟩, rfl, rfl⟩
    exact ⟨operand, hoperand, rfl⟩
  · rintro ⟨operand, hoperand, rfl⟩
    exact ⟨_, c', hoperand, (), c', ⟨rfl, rfl⟩, rfl, rfl⟩

theorem unary_iff :
    unary table t (first :: rest) c = .ok typed c' ↔
      ∃ operand op, expression table first c = .ok operand c' ∧ unaryOperator t operand.ty = .ok op ∧
        typed = .value .int (operand.code ++ [op]) := by
  simp only [unary, bind_ok, lift_ok, pure_ok]
  constructor
  · rintro ⟨operand, _, hoperand, op, _, ⟨hop, rfl⟩, rfl, rfl⟩
    exact ⟨operand, op, hoperand, hop, rfl⟩
  · rintro ⟨operand, op, hoperand, hop, rfl⟩
    exact ⟨operand, c', hoperand, op, c', ⟨hop, rfl⟩, rfl, rfl⟩

end Operators

/-! Assignments. -/

section Assignments

variable {t first second : Tree} {rest : List Tree} {keep : Bool}

theorem assignment_iff :
    assignment table t keep (first :: second :: rest) c = .ok typed c' ↔
      ∃ r c₁ value c₂ op code, target table first c = .ok r c₁ ∧
        expression table second c₁ = .ok (.value r.ty value) c₂ ∧ assignmentOperator t = .ok op ∧
        (op.isNone = true ∨ r.ty = .int) ∧ r.assign value op keep c₂ = .ok code c' ∧
        typed = .value r.ty code := by
  simp only [assignment, bind_ok, lift_ok, expectValue_ok, require_ok, pure_ok]
  constructor
  · rintro ⟨r, c₁, htarget, ⟨_, value⟩, c₂, hvalue, _, _, ⟨rfl, rfl⟩, op, _, ⟨hop, rfl⟩, _, _, ⟨hint, rfl⟩, code,
      _, hassign, rfl, rfl⟩
    exact ⟨r, c₁, value, c₂, op, code, htarget, hvalue, hop, hint, hassign, rfl⟩
  · rintro ⟨r, c₁, value, c₂, op, code, htarget, hvalue, hop, hint, hassign, rfl⟩
    exact ⟨r, c₁, htarget, _, c₂, hvalue, (), c₂, ⟨rfl, rfl⟩, op, c₂, ⟨hop, rfl⟩, (), c₂, ⟨hint, rfl⟩, code, c',
      hassign, rfl, rfl⟩

theorem assignment_parts {children : List Tree} (h : assignment table t keep children c = .ok typed c') :
    ∃ first second rest, children = first :: second :: rest := by
  match children with
  | [] => exact absurd h (by simp [assignment, throw_ok])
  | [_] => exact absurd h (by simp [assignment, bind_ok, throw_ok])
  | first :: second :: rest => exact ⟨first, second, rest, rfl⟩

theorem step_iff :
    step table t keep (first :: rest) c = .ok typed c' ↔
      ∃ r c₁ op code, target table first c = .ok r c₁ ∧ r.ty = .int ∧ stepOperator t = .ok op ∧
        r.assign [.pushInt 1] (some op) keep c₁ = .ok code c' ∧ typed = .value .int code := by
  simp only [step, bind_ok, lift_ok, expectType_ok, pure_ok]
  constructor
  · rintro ⟨r, c₁, htarget, _, _, ⟨hint, rfl⟩, op, _, ⟨hop, rfl⟩, code, _, hassign, rfl, rfl⟩
    exact ⟨r, c₁, op, code, htarget, hint, hop, hassign, rfl⟩
  · rintro ⟨r, c₁, op, code, htarget, hint, hop, hassign, rfl⟩
    exact ⟨r, c₁, htarget, (), c₁, ⟨hint, rfl⟩, op, c₁, ⟨hop, rfl⟩, code, c', hassign, rfl, rfl⟩

end Assignments

/-! Calls. -/

section Calls

variable {t first : Tree} {rest : List Tree}

theorem arguments_nil {types : List Ty} : arguments table types [] c = .ok code c' ↔ code = [] ∧ c' = c := by
  rw [arguments, pure_ok, eq_comm, eq_comm (a := c)]

/-- Arguments beyond the parameters are not looked at. -/
theorem arguments_beyond : arguments table [] (first :: rest) c = .ok code c' ↔ code = [] ∧ c' = c := by
  rw [arguments, pure_ok, eq_comm, eq_comm (a := c)]

theorem arguments_cons {ty : Ty} {types : List Ty} :
    arguments table (ty :: types) (first :: rest) c = .ok code c' ↔
      ∃ argument c₁ more, expression table first c = .ok (.value ty argument) c₁ ∧
        arguments table types rest c₁ = .ok more c' ∧ code = argument ++ more := by
  simp only [arguments, bind_ok, lift_ok, expectValue_ok, pure_ok]
  constructor
  · rintro ⟨⟨_, argument⟩, c₁, hargument, _, _, ⟨rfl, rfl⟩, more, _, hmore, rfl, rfl⟩
    exact ⟨argument, c₁, more, hargument, hmore, rfl⟩
  · rintro ⟨argument, c₁, more, hargument, hmore, rfl⟩
    exact ⟨_, c₁, hargument, (), c₁, ⟨rfl, rfl⟩, more, c', hmore, rfl, rfl⟩

theorem printArguments_nil : printArguments table [] c = .ok code c' ↔ code = [] ∧ c' = c := by
  rw [printArguments, pure_ok, eq_comm, eq_comm (a := c)]

theorem printArguments_cons :
    printArguments table (first :: rest) c = .ok code c' ↔
      ∃ ty argument c₁ more, ty.isScalar = true ∧ expression table first c = .ok (.value ty argument) c₁ ∧
        printArguments table rest c₁ = .ok more c' ∧ code = boxed ty argument ++ more := by
  simp only [printArguments, bind_ok, lift_ok, printableType_iff, pure_ok]
  constructor
  · rintro ⟨⟨_, argument⟩, c₁, hargument, ty, _, ⟨⟨rfl, hscalar⟩, rfl⟩, more, _, hmore, rfl, rfl⟩
    exact ⟨ty, argument, c₁, more, hscalar, hargument, hmore, rfl⟩
  · rintro ⟨ty, argument, c₁, more, hscalar, hargument, hmore, rfl⟩
    exact ⟨_, c₁, hargument, ty, c₁, ⟨⟨rfl, hscalar⟩, rfl⟩, more, c', hmore, rfl, rfl⟩

theorem print_value :
    print table t [first] c = .ok typed c' ↔
      ∃ ty value, ty.isScalar = true ∧ expression table first c = .ok (.value ty value) c' ∧
        typed = .value .void (boxed ty value ++ [.print]) := by
  simp only [print, bind_ok, lift_ok, printableType_iff, List.isEmpty_nil, if_true, pure_ok]
  constructor
  · rintro ⟨⟨_, value⟩, _, hvalue, ty, _, ⟨⟨rfl, hscalar⟩, rfl⟩, rfl, rfl⟩
    exact ⟨ty, value, hscalar, hvalue, rfl⟩
  · rintro ⟨ty, value, hscalar, hvalue, rfl⟩
    exact ⟨_, c', hvalue, ty, c', ⟨⟨rfl, hscalar⟩, rfl⟩, rfl, rfl⟩

theorem print_formatted {next : Tree} :
    print table t (first :: next :: rest) c = .ok typed c' ↔
      ∃ format c₁ values, expression table first c = .ok (.value .string format) c₁ ∧
        printArguments table (next :: rest) c₁ = .ok values c' ∧
        typed = .value .void (format ++ values ++ [.printFormatted (next :: rest).length]) := by
  simp only [print, bind_ok, lift_ok, printableType_iff, List.isEmpty_cons, Bool.false_eq_true, if_false,
    require_ok, pure_ok]
  constructor
  · rintro ⟨⟨_, format⟩, c₁, hformat, _, _, ⟨⟨rfl, -⟩, rfl⟩, _, _, ⟨rfl, rfl⟩, values, _, hvalues, rfl, rfl⟩
    exact ⟨format, c₁, values, hformat, hvalues, rfl⟩
  · rintro ⟨format, c₁, values, hformat, hvalues, rfl⟩
    exact ⟨_, c₁, hformat, .string, c₁, ⟨⟨rfl, rfl⟩, rfl⟩, (), c₁, ⟨rfl, rfl⟩, values, c', hvalues, rfl, rfl⟩

theorem putArguments_nil : putArguments table [] c = .ok code c' ↔ code = [] ∧ c' = c := by
  rw [putArguments, pure_ok, eq_comm, eq_comm (a := c)]

theorem putArguments_cons :
    putArguments table (first :: rest) c = .ok code c' ↔
      ∃ r c₁ stored c₂ more, target table first c = .ok r c₁ ∧ r.ty.isScalar = true ∧
        r.assign [.read r.ty] none false c₁ = .ok stored c₂ ∧ putArguments table rest c₂ = .ok more c' ∧
        code = stored ++ more := by
  simp only [putArguments, bind_ok, lift_ok, require_ok, pure_ok]
  constructor
  · rintro ⟨r, c₁, htarget, _, _, ⟨hscalar, rfl⟩, stored, c₂, hassign, more, _, hmore, rfl, rfl⟩
    exact ⟨r, c₁, stored, c₂, more, htarget, hscalar, hassign, hmore, rfl⟩
  · rintro ⟨r, c₁, stored, c₂, more, htarget, hscalar, hassign, hmore, rfl⟩
    exact ⟨r, c₁, htarget, (), c₁, ⟨hscalar, rfl⟩, stored, c₂, hassign, more, c', hmore, rfl, rfl⟩

/-- A call is a call of `print` or `put` or of a declared function. -/
theorem call_iff {token : Option Token} {args : List Tree} :
    expression table ⟨.call, token, args⟩ c = .ok typed c' ↔
      ∃ name, Tree.lexeme ⟨.call, token, args⟩ = .ok name ∧
        ((name = "print" ∧ print table ⟨.call, token, args⟩ args c = .ok typed c') ∨
        (name = "put" ∧ args ≠ [] ∧ ∃ code, putArguments table args c = .ok code c' ∧
          typed = .value .void code) ∨
        (isIntrinsic name = false ∧ ∃ signature code, table.lookup? name = some signature ∧
          args.length = signature.parameters.length ∧
          arguments table signature.parameters args c = .ok code c' ∧
          typed = .value signature.result (code ++ [.call signature.handle]))) := by
  simp only [expression, bind_ok, lift_ok]
  constructor
  · rintro ⟨name, _, ⟨hname, rfl⟩, h⟩
    refine ⟨name, hname, ?_⟩
    by_cases hprint : name = "print"
    · rw [if_pos hprint] at h
      exact .inl ⟨hprint, h⟩
    by_cases hput : name = "put"
    · rw [if_neg hprint, if_pos hput] at h
      simp only [bind_ok, lift_ok, require_ok, pure_ok] at h
      obtain ⟨_, _, ⟨hargs, rfl⟩, code, _, hcode, rfl, rfl⟩ := h
      exact .inr (.inl ⟨hput, by simpa using hargs, code, hcode, rfl⟩)
    rw [if_neg hprint, if_neg hput] at h
    simp only [bind_ok, lift_ok, callee_iff, pure_ok] at h
    obtain ⟨signature, _, ⟨⟨hlookup, hcount⟩, rfl⟩, code, _, hcode, rfl, rfl⟩ := h
    have hplain : isIntrinsic name = false := by simp [isIntrinsic, intrinsics, hprint, hput]
    exact .inr (.inr ⟨hplain, signature, code, hlookup, hcount, hcode, rfl⟩)
  · rintro ⟨name, hname, h⟩
    refine ⟨name, c, ⟨hname, rfl⟩, ?_⟩
    rcases h with ⟨rfl, h⟩ | ⟨rfl, hargs, code, hcode, rfl⟩ |
      ⟨hplain, signature, code, hlookup, hcount, hcode, rfl⟩
    · rwa [if_pos rfl]
    · rw [if_neg (by decide), if_pos rfl]
      simp only [bind_ok, lift_ok, require_ok, pure_ok]
      exact ⟨(), c, ⟨by simpa using hargs, rfl⟩, code, c', hcode, rfl, rfl⟩
    · obtain ⟨hprint, hput⟩ : name ≠ "print" ∧ name ≠ "put" := by
        simpa [isIntrinsic, intrinsics] using hplain
      rw [if_neg hprint, if_neg hput]
      simp only [bind_ok, lift_ok, callee_iff, pure_ok]
      exact ⟨signature, c, ⟨⟨hlookup, hcount⟩, rfl⟩, code, c', hcode, rfl, rfl⟩

end Calls

end StackCompiler.Lowering
