import StackCompiler.Proofs.Lowering.Forms

/-!
Types on the operand stack. `Instr.effect` says what an instruction takes from the stack and what it
leaves; `check` follows straight code through. The code of an expression turns any stack into that stack
with the type of the expression on top.
-/

set_option autoImplicit false
namespace StackCompiler

/-- What a cell of the operand stack holds: a value, or an object made for printing. -/
inductive Cell where
  | value (ty : Ty)
  | boxed
  deriving DecidableEq, Inhabited

def Cell.isPrintable : Cell → Bool
  | value ty => ty == .string
  | boxed => true

abbrev StackType := List Cell

/-- The stack with a result on top; `void` leaves none. -/
def StackType.push (ty : Ty) (stack : StackType) : StackType :=
  if ty = .void then stack else .value ty :: stack

/-- What an instruction refers to: the types of slots, and the signatures of functions by handle. -/
structure Frame where
  slots : Place → Option Ty
  functions : List Signature

namespace StackType

/-- Takes `operands`, the last one from the top, and leaves `result`. -/
def replace (operands : List Ty) (result : List Cell) (stack : StackType) : Option StackType :=
  if stack.take operands.length = (operands.map Cell.value).reverse then
    some (result ++ stack.drop operands.length)
  else
    none

def load (f : Frame) (place : Place) (stack : StackType) : Option StackType :=
  (f.slots place).map fun ty => .value ty :: stack

def store (f : Frame) (place : Place) : StackType → Option StackType
  | .value ty :: stack => if f.slots place = some ty then some stack else none
  | _ => none

def compare (defined : Ty → Bool) : StackType → Option StackType
  | .value right :: .value left :: stack =>
    if left = right ∧ defined left then some (.value .bool :: stack) else none
  | _ => none

def printFormatted (args : Nat) (stack : StackType) : Option StackType :=
  if args ≤ stack.length ∧ (stack.take args).all Cell.isPrintable then
    replace [.string] [] (stack.drop args)
  else
    none

end StackType

open StackType in
/-- The stack behind an instruction that neither jumps nor returns, if it finds what it needs. -/
def Instr.effect (f : Frame) : Instr → StackType → Option StackType
  | pushInt _, stack => some (.value .int :: stack)
  | pushBool _, stack => some (.value .bool :: stack)
  | pushChar _, stack => some (.value .char :: stack)
  | pushString _, stack => some (.value .string :: stack)
  | loadStatic slot, stack => StackType.load f ⟨.static, slot⟩ stack
  | storeStatic slot, stack => StackType.store f ⟨.static, slot⟩ stack
  | loadLocal slot, stack => StackType.load f ⟨.local, slot⟩ stack
  | storeLocal slot, stack => StackType.store f ⟨.local, slot⟩ stack
  | loadArg slot, stack => StackType.load f ⟨.arg, slot⟩ stack
  | storeArg slot, stack => StackType.store f ⟨.arg, slot⟩ stack
  | newArray element, stack => replace [.int] [.value (.array element)] stack
  | loadElem element, stack => replace [.array element, .int] [.value element] stack
  | storeElem element, stack => replace [.array element, .int, element] [] stack
  | add, stack | sub, stack | mul, stack | div, stack | rem, stack | max, stack | min, stack =>
    replace [.int, .int] [.value .int] stack
  | neg, stack | random, stack => replace [.int] [.value .int] stack
  | and, stack | or, stack => replace [.bool, .bool] [.value .bool] stack
  | not, stack => replace [.bool] [.value .bool] stack
  | eq, stack | ne, stack => compare Ty.isScalar stack
  | gt, stack | lt, stack | ge, stack | le, stack => compare Ty.isOrdered stack
  | length, .value (.array _) :: stack => some (.value .int :: stack)
  | dup, cell :: stack => some (cell :: cell :: stack)
  | pop, _ :: stack => some stack
  | call handle, stack =>
    (f.functions[handle]?).bind fun callee => replace callee.parameters (push callee.result []) stack
  | box scalar, stack => if scalar.isScalar then replace [scalar] [.boxed] stack else none
  | print, cell :: stack => if cell.isPrintable then some stack else none
  | Instr.printFormatted args, stack => StackType.printFormatted args stack
  | read scalar, stack => if scalar.isScalar then some (.value scalar :: stack) else none
  | _, _ => none

def Code.check (f : Frame) (stack : StackType) (code : Code) : Option StackType :=
  code.foldlM (fun stack instr => instr.effect f stack) stack

namespace StackType

@[simp] theorem push_of_storable {ty : Ty} (h : ty.isStorable = true) (stack : StackType) :
    push ty stack = .value ty :: stack := by
  rw [push, if_neg]
  rintro rfl
  simp [Ty.isStorable, Ty.isScalar] at h

theorem push_of_scalar {ty : Ty} (h : ty.isScalar = true) (stack : StackType) :
    push ty stack = .value ty :: stack := by
  rw [push, if_neg]
  rintro rfl
  simp [Ty.isScalar] at h

@[simp] theorem push_void (stack : StackType) : push .void stack = stack := rfl

@[simp] theorem push_int (stack : StackType) : push .int stack = .value .int :: stack := rfl

@[simp] theorem push_bool (stack : StackType) : push .bool stack = .value .bool :: stack := rfl

@[simp] theorem push_string (stack : StackType) : push .string stack = .value .string :: stack := rfl

theorem push_append (ty : Ty) (stack : StackType) :
    push ty [] ++ stack = push ty stack := by
  unfold push
  split <;> rfl

@[simp] theorem replace_one (a : Ty) (result : List Cell) (stack : StackType) :
    replace [a] result (.value a :: stack) = some (result ++ stack) := by
  simp [replace]

@[simp] theorem replace_two (a b : Ty) (result : List Cell) (stack : StackType) :
    replace [a, b] result (.value b :: .value a :: stack) = some (result ++ stack) := by
  simp [replace]

@[simp] theorem replace_three (a b c : Ty) (result : List Cell) (stack : StackType) :
    replace [a, b, c] result (.value c :: .value b :: .value a :: stack) =
      some (result ++ stack) := by
  simp [replace]

theorem replace_all (operands : List Ty) (result : List Cell) (stack : StackType) :
    replace operands result ((operands.map Cell.value).reverse ++ stack) = some (result ++ stack) := by
  have hlength : (operands.map Cell.value).reverse.length = operands.length := by simp
  rw [replace, ← hlength, List.take_left, List.drop_left, if_pos rfl]

end StackType

namespace Code

variable {f : Frame}

@[simp] theorem check_nil (stack : StackType) : Code.check f stack [] = some stack := rfl

@[simp] theorem check_cons (stack : StackType) (instr : Instr) (code : Code) :
    Code.check f stack (instr :: code) =
      (instr.effect f stack).bind fun stack => Code.check f stack code := rfl

@[simp] theorem check_append (stack : StackType) (code more : Code) :
    Code.check f stack (code ++ more) =
      (Code.check f stack code).bind fun stack => Code.check f stack more :=
  List.foldlM_append

end Code

@[simp] theorem effect_load {f : Frame} {place : Place} {ty : Ty} (h : f.slots place = some ty)
    (stack : StackType) : (Instr.load place).effect f stack = some (.value ty :: stack) := by
  obtain ⟨storage, slot⟩ := place
  have hload : StackType.load f ⟨storage, slot⟩ stack = some (.value ty :: stack) := by
    simp [StackType.load, h]
  cases storage <;> exact hload

@[simp] theorem effect_store {f : Frame} {place : Place} {ty : Ty} (h : f.slots place = some ty)
    (stack : StackType) : (Instr.store place).effect f (.value ty :: stack) = some stack := by
  obtain ⟨storage, slot⟩ := place
  have hstore : StackType.store f ⟨storage, slot⟩ (.value ty :: stack) = some stack := by
    simp [StackType.store, h]
  cases storage <;> exact hstore

section Effects

variable (f : Frame) (stack : StackType)

@[simp] theorem effect_pushInt (n : Int32) :
    (Instr.pushInt n).effect f stack = some (.value .int :: stack) := rfl

@[simp] theorem effect_dup (cell : Cell) :
    Instr.dup.effect f (cell :: stack) = some (cell :: cell :: stack) := rfl

@[simp] theorem effect_pop (cell : Cell) : Instr.pop.effect f (cell :: stack) = some stack := rfl

@[simp] theorem effect_newArray (element : Ty) :
    (Instr.newArray element).effect f (.value .int :: stack) =
      some (.value (.array element) :: stack) := rfl

@[simp] theorem effect_loadElem (element : Ty) :
    (Instr.loadElem element).effect f (.value .int :: .value (.array element) :: stack) =
      some (.value element :: stack) :=
  StackType.replace_two _ _ _ _

@[simp] theorem effect_storeElem (element : Ty) :
    (Instr.storeElem element).effect f
      (.value element :: .value .int :: .value (.array element) :: stack) = some stack :=
  StackType.replace_three _ _ _ _ _

@[simp] theorem effect_add : Instr.add.effect f (.value .int :: .value .int :: stack) =
    some (.value .int :: stack) := rfl

@[simp] theorem effect_not :
    Instr.not.effect f (.value .bool :: stack) = some (.value .bool :: stack) := rfl

@[simp] theorem effect_le :
    Instr.le.effect f (.value .int :: .value .int :: stack) = some (.value .bool :: stack) := rfl

@[simp] theorem effect_lt :
    Instr.lt.effect f (.value .int :: .value .int :: stack) = some (.value .bool :: stack) := rfl

theorem effect_box_eq (ty : Ty) : (Instr.box ty).effect f stack =
    if ty.isScalar then StackType.replace [ty] [.boxed] stack else none := rfl

theorem effect_print_eq (cell : Cell) : Instr.print.effect f (cell :: stack) =
    if cell.isPrintable then some stack else none := rfl

theorem effect_read_eq (ty : Ty) : (Instr.read ty).effect f stack =
    if ty.isScalar then some (.value ty :: stack) else none := rfl

theorem effect_call_eq (handle : Nat) : (Instr.call handle).effect f stack =
    (f.functions[handle]?).bind fun callee =>
      StackType.replace callee.parameters (StackType.push callee.result []) stack := rfl

@[simp] theorem effect_box {ty : Ty} (h : ty.isScalar = true) :
    (Instr.box ty).effect f (.value ty :: stack) = some (.boxed :: stack) := by
  simp [effect_box_eq, h]

@[simp] theorem effect_print {cell : Cell} (h : cell.isPrintable = true) :
    Instr.print.effect f (cell :: stack) = some stack := by
  simp [effect_print_eq, h]

@[simp] theorem effect_read {ty : Ty} (h : ty.isScalar = true) :
    (Instr.read ty).effect f stack = some (.value ty :: stack) := by
  simp [effect_read_eq, h]

theorem effect_call {handle : Nat} {callee : Signature} (h : f.functions[handle]? = some callee) :
    (Instr.call handle).effect f ((callee.parameters.map Cell.value).reverse ++ stack) =
      some (.push callee.result stack) := by
  rw [effect_call_eq, h, Option.bind_some, StackType.replace_all, StackType.push_append]

theorem effect_printFormatted {cells : List Cell} (h : cells.all Cell.isPrintable = true) :
    (Instr.printFormatted cells.length).effect f (cells ++ .value .string :: stack) = some stack := by
  change StackType.printFormatted _ _ = _
  simp only [StackType.printFormatted, List.take_left, List.drop_left, h]
  simp

end Effects

/-- The slots of a frame that code between two chains of scopes can use: those of visible variables and
those taken in between. -/
structure Frame.Covers (f : Frame) (params : List Ty) (c c' : ScopeChain) : Prop where
  visible : ∀ scope ∈ c.scopes, ∀ s ∈ scope.symbols, f.slots s.place = some s.ty
  taken : ∀ place ty, c.slotType params place = none → c'.slotType params place = some ty →
    f.slots place = some ty

namespace Frame.Covers

open ScopeChain

variable {f : Frame} {params : List Ty} {c c₁ c' : ScopeChain}

theorem first (h : f.Covers params c c') (hgrows : Grows c₁ c') : f.Covers params c c₁ :=
  ⟨h.visible, fun place ty hnone hty => h.taken place ty hnone (hgrows.slotType hty)⟩

theorem rest (h : f.Covers params c c') (htemps : Temps c c₁) (hc : Reachable params c) :
    f.Covers params c₁ c' := by
  refine ⟨?_, ?_⟩
  · intro scope hscope s hs
    rcases List.mem_cons.1 hscope with rfl | hmem
    · rw [htemps.symbols] at hs
      exact h.visible c.innermost (by simp [scopes]) s hs
    · rw [htemps.enclosing] at hmem
      exact h.visible scope (by simp [scopes, hmem]) s hs
  · intro place ty hnone hty
    refine h.taken place ty ?_ hty
    cases hplace : c.slotType params place with
    | none => rfl
    | some found => simp [(htemps.grows hc).slotType hplace] at hnone

theorem resolve (h : f.Covers params c c') {name : String} {symbol : Symbol}
    (hsymbol : c.resolve? name = some symbol) : f.slots symbol.place = some symbol.ty := by
  obtain ⟨scope, hscope, hs⟩ := mem_of_resolve hsymbol
  exact h.visible scope hscope symbol hs

theorem temp (h : f.Covers params c c') (hc : Reachable params c) {ty : Ty} {place : Place}
    (htemp : c.reserveTemp ty = (place, c')) : f.slots place = some ty := by
  rw [reserveTemp_eq] at htemp
  obtain ⟨rfl, rfl⟩ := Prod.mk.inj htemp
  exact h.taken _ _ (slotType_before hc.sound ty (fits_tempStorage c))
    (slotType_reserve hc.sound ty (fits_tempStorage c))

end Frame.Covers

theorem storable_of_resolve {params : List Ty} {c : ScopeChain} (hc : ScopeChain.Reachable params c)
    {name : String} {symbol : Symbol} (h : c.resolve? name = some symbol) :
    symbol.ty.isStorable = true := by
  obtain ⟨scope, hscope, hs⟩ := ScopeChain.mem_of_resolve h
  exact (hc.sound.typed scope hscope symbol hs).2

namespace Lowering

open Grammar (Level) in
theorem effect_connective {f : Frame} {level : Level} {op : Token} {instr : Instr}
    (isOp : level.Connective op) (hop : binaryInstr? op.lexeme = some instr) (stack : StackType) :
    instr.effect f (.value level.ty :: .value level.ty :: stack) =
      some (.value level.ty :: stack) := by
  cases level with
  | or | and =>
    rcases isOp with ⟨-, h⟩ | ⟨-, h⟩ <;> rw [List.mem_singleton.1 h] at hop <;> cases hop <;>
      exact StackType.replace_two _ _ _ _
  | minMax | sum =>
    obtain ⟨-, h⟩ := isOp
    simp only [List.mem_cons, List.not_mem_nil, or_false] at h
    rcases h with h | h <;> rw [h] at hop <;> cases hop <;> exact StackType.replace_two _ _ _ _
  | mul =>
    obtain ⟨-, h⟩ := isOp
    simp only [List.mem_cons, List.not_mem_nil, or_false] at h
    rcases h with h | h | h <;> rw [h] at hop <;> cases hop <;> exact StackType.replace_two _ _ _ _

theorem effect_compare {f : Frame} {instr : Instr} {ty : Ty} (h : Compares instr ty)
    (stack : StackType) :
    instr.effect f (.value ty :: .value ty :: stack) = some (.value .bool :: stack) := by
  have hcompare : ∀ {p : Ty → Bool}, p ty = true →
      StackType.compare p (.value ty :: .value ty :: stack) = some (.value .bool :: stack) := by
    intro p hp
    simp [StackType.compare, hp]
  rcases h with ⟨hop, hty⟩ | ⟨hop, hty⟩
  · simp only [List.mem_cons, List.not_mem_nil, or_false] at hop
    rcases hop with rfl | rfl <;> exact hcompare hty
  · simp only [List.mem_cons, List.not_mem_nil, or_false] at hop
    rcases hop with rfl | rfl | rfl | rfl <;> exact hcompare hty

theorem Compares.scalar {instr : Instr} {ty : Ty} (h : Compares instr ty) : ty.isScalar = true := by
  rcases h with ⟨-, hty⟩ | ⟨-, hty⟩
  · exact hty
  · cases ty <;> simp_all [Ty.isOrdered, Ty.isScalar]

theorem effect_unary {f : Frame} {op : Token} {t : Tree} {instr : Instr} {ty : Ty}
    (h : unaryOperator (.marked .unaryExp op [t]) (.value ty) = .ok instr) (stack : StackType) :
    instr.effect f (.push ty stack) = some (.value .int :: stack) := by
  unfold unaryOperator at h
  rw [lexeme_marked, Grammar.ok_bind] at h
  split at h
  next =>
    rw [Grammar.bind_eq_ok] at h
    obtain ⟨u, hu, h⟩ := h
    cases expectValue_ok.1 hu
    cases h
    exact StackType.replace_one _ _ _
  next =>
    rw [Grammar.bind_eq_ok] at h
    obtain ⟨u, hu, h⟩ := h
    cases expectValue_ok.1 hu
    cases h
    exact StackType.replace_one _ _ _
  next =>
    split at h
    next element heq =>
      cases heq
      cases h
      rfl
    next => cases h
  next => cases h

theorem check_literal {f : Frame} {token : Token} {push : Instr} {ty : Ty}
    (h : literal? token = some (push, ty)) (stack : StackType) :
    push.effect f stack = some (.push ty stack) := by
  rcases literal_ok h with ⟨n, rfl, rfl⟩ | ⟨b, rfl, rfl⟩ | ⟨c, rfl, rfl⟩ | ⟨text, rfl, rfl⟩ <;> rfl

@[simp] theorem push_level (level : Grammar.Level) (stack : StackType) :
    StackType.push level.ty stack = .value level.ty :: stack := by
  cases level <;> rfl

def Checks (f : Frame) : Form → Ty → Code → Prop
  | .value _, ty, code | .source _, ty, code => ∀ stack, Code.check f stack code = some (.push ty stack)
  | .stored keep _, ty, code | .store keep _ _ _, ty, code => ty.isStorable = true ∧
    ∀ stack, Code.check f stack code = some (if keep then .value ty :: stack else stack)
  | .links level _, _, code => ∀ stack,
    Code.check f (.value level.ty :: stack) code = some (.value level.ty :: stack)
  | .arguments types _, _, code => (∀ ty ∈ types, ty.isStorable = true) → ∀ stack,
    Code.check f stack code = some ((types.map Cell.value).reverse ++ stack)
  | .printed args, _, code => ∀ stack, ∃ cells : List Cell, cells.length = args.length ∧
    cells.all Cell.isPrintable = true ∧ Code.check f stack code = some (cells ++ stack)
  | .filled _, _, code => ∀ stack, Code.check f stack code = some stack

open ScopeChain

variable {table : FunctionTable} {f : Frame} {params : List Ty}

theorem check_boxed {ty : Ty} (scalar : ty.isScalar = true) {code : Code} {stack : StackType}
    (h : Code.check f stack code = some (.push ty stack)) :
    ∃ cell : Cell, cell.isPrintable = true ∧
      Code.check f stack (boxed ty code) = some (cell :: stack) := by
  rw [StackType.push_of_scalar scalar] at h
  unfold boxed
  split
  next hstring =>
    subst hstring
    exact ⟨.value .string, rfl, h⟩
  next => exact ⟨.boxed, rfl, by simp [h, scalar]⟩

theorem check_storeElement {element : Ty} {keep : Bool} {code : Code} {c c' : ScopeChain}
    (hc : Reachable params c) (hcovers : f.Covers params c c')
    (h : Target.storeElement element keep c = .ok code c') (stack : StackType) :
    Code.check f (.value element :: .value .int :: .value (.array element) :: stack) code =
      some (if keep then .value element :: stack else stack) := by
  rcases storeElement_ok h with ⟨rfl, rfl, -⟩ | ⟨rfl, temp, htemp, rfl⟩
  · simp
  · have hslot := hcovers.temp hc htemp
    simp only [Code.check_cons, effect_dup, effect_store hslot, effect_storeElem, effect_load hslot,
      Option.bind_some, Code.check_nil, if_true]

theorem effect_storing {op : Option Instr} {ty : Ty} (h : Storing op ty) {instr : Instr}
    (hop : op = some instr) (stack : StackType) :
    instr.effect f (.value ty :: .value ty :: stack) = some (.value ty :: stack) := by
  obtain ⟨rfl, hinstr⟩ := h instr hop
  simp only [List.mem_cons, List.not_mem_nil, or_false] at hinstr
  rcases hinstr with rfl | rfl | rfl | rfl <;> exact StackType.replace_two _ _ _ _

theorem check_assign_variable {place : Place} {ty : Ty} {op : Option Instr} {keep : Bool}
    {value code : Code} {c c' : ScopeChain} (hslot : f.slots place = some ty)
    (storable : ty.isStorable = true) (storing : Storing op ty)
    (hvalue : ∀ stack, Code.check f stack value = some (.push ty stack))
    (h : Target.assign ⟨place, ty, none⟩ value op keep c = .ok code c') (stack : StackType) :
    Code.check f stack code = some (if keep then .value ty :: stack else stack) := by
  obtain ⟨-, rfl⟩ := assign_variable_ok h
  have hfinish : Code.check f (.value ty :: stack) ((if keep then [Instr.dup] else []) ++
      [Instr.store place]) = some (if keep then .value ty :: stack else stack) := by
    cases keep <;> simp [effect_store hslot]
  rw [Code.check_append]
  cases op with
  | none =>
    simp only [updated, hvalue, StackType.push_of_storable storable, Option.bind_some]
    exact hfinish
  | some instr =>
    simp only [updated, List.cons_append, Code.check_cons, Code.check_append, effect_load hslot, hvalue,
      StackType.push_of_storable storable, effect_storing storing rfl, Code.check_nil, Option.bind_some]
    simpa using hfinish

theorem check_assign_element {place : Place} {element : Ty} {op : Option Instr} {keep : Bool}
    {position value code : Code} {c c' : ScopeChain} (hc : Reachable params c)
    (hcovers : f.Covers params c c') (hslot : f.slots place = some (.array element))
    (storable : element.isStorable = true) (storing : Storing op element)
    (hposition : ∀ stack, Code.check f stack position = some (.value .int :: stack))
    (hvalue : ∀ stack, Code.check f stack value = some (.push element stack))
    (h : Target.assign ⟨place, element, some position⟩ value op keep c = .ok code c')
    (stack : StackType) :
    Code.check f stack code = some (if keep then .value element :: stack else stack) := by
  rcases assign_element_ok h with ⟨rfl, finish, hfinish, rfl⟩ |
    ⟨instr, temp, c₁, finish, rfl, htemp, hfinish, rfl⟩
  · simp only [List.cons_append, Code.check_cons, Code.check_append, effect_load hslot, hposition,
      hvalue, StackType.push_of_storable storable, Option.bind_some]
    exact check_storeElement hc hcovers hfinish stack
  · have htemps := temps_reserveTemp htemp
    have hc₁ := htemps.reachable hc
    have htempslot := (hcovers.first ((temps_storeElement hfinish).grows hc₁)).temp hc htemp
    simp only [Code.check_cons, Code.check_append, effect_load hslot, hposition, hvalue,
      effect_store htempslot, effect_load htempslot, effect_loadElem,
      StackType.push_of_storable storable, effect_storing storing rfl, Option.bind_some, Code.check_nil]
    exact check_storeElement hc₁ (hcovers.rest htemps hc) hfinish stack

theorem storable_element {params : List Ty} {c : ScopeChain} (hc : Reachable params c) {name : String}
    {symbol : Symbol} {element : Ty} (h : c.resolve? name = some symbol)
    (isArray : symbol.ty = .array element) : element.isStorable = true := by
  have hstorable := storable_of_resolve hc h
  rw [isArray] at hstorable
  cases element <;> simp_all [Ty.isStorable, Ty.isScalar]

/-- The code of an expression leaves its value on the stack and finds every slot at its type. -/
theorem Lowers.checks {form : Form} {c c' : ScopeChain} {ty : Ty} {code : Code}
    (h : Lowers table form c ty code c') (htable : table.Sound) (hf : f.functions = table.signatures)
    (hc : Reachable params c) (hcovers : f.Covers params c c') : Checks f form ty code := by
  induction h with
  | constant hliteral =>
    intro stack
    simp [check_literal hliteral]
  | «variable» hsymbol =>
    intro stack
    simp [effect_load (hcovers.resolve hsymbol), storable_of_resolve hc hsymbol]
  | element hsymbol isArray position ih =>
    intro stack
    have hslot := hcovers.resolve hsymbol
    rw [isArray] at hslot
    have hposition := ih hc hcovers
    simp [effect_load hslot, hposition _, storable_element hc hsymbol isArray]
  | paren _ ih => exact ih hc hcovers
  | chain operand rest first more =>
    intro stack
    have hgrows := rest.temps.grows (operand.temps.reachable hc)
    have hfirst := first hc (hcovers.first hgrows) stack
    have hmore := more (operand.temps.reachable hc) (hcovers.rest operand.temps hc) stack
    rw [push_level] at hfirst ⊢
    simp [hfirst, hmore]
  | noLinks =>
    intro stack
    rfl
  | link isOp hop operand rest first more =>
    intro stack
    have hgrows := rest.temps.grows (operand.temps.reachable hc)
    have hfirst := first hc (hcovers.first hgrows)
    have hmore := more (operand.temps.reachable hc) (hcovers.rest operand.temps hc) stack
    simp [hfirst _, hmore, effect_connective isOp hop]
  | compare hop defined operand rest first second =>
    intro stack
    have hgrows := rest.temps.grows (operand.temps.reachable hc)
    have hfirst := first hc (hcovers.first hgrows) stack
    have hsecond := second (operand.temps.reachable hc) (hcovers.rest operand.temps hc)
    rw [StackType.push_of_scalar defined.scalar] at hfirst
    simp [hfirst, hsecond _, StackType.push_of_scalar defined.scalar, effect_compare defined]
  | negate _ ih =>
    intro stack
    simp [ih hc hcovers _]
  | unary hop _ ih =>
    intro stack
    simp [ih hc hcovers _, effect_unary hop]
  | call plain hlookup count _ ih =>
    intro stack
    have hcallee := htable.getElem_handle hlookup
    have hparams := htable.parameters _ (List.mem_of_getElem? hcallee)
    rw [← hf] at hcallee
    simp [ih hc hcovers hparams _, effect_call f _ hcallee]
  | print isPrint scalar _ ih =>
    intro stack
    obtain ⟨cell, hcell, hcode⟩ := check_boxed scalar (ih hc hcovers stack)
    simp [hcode, hcell]
  | printFormatted isPrint format values first more =>
    intro stack
    have hgrows := values.temps.grows (format.temps.reachable hc)
    have hfirst := first hc (hcovers.first hgrows) stack
    obtain ⟨cells, hlength, hcells, hmore⟩ :=
      more (format.temps.reachable hc) (hcovers.rest format.temps hc) (.value .string :: stack)
    rw [← hlength]
    simp only [Code.check_append, hfirst, StackType.push_string, Option.bind_some, hmore, Code.check_cons,
      effect_printFormatted f stack hcells, Code.check_nil, StackType.push_void]
  | put isPut _ _ ih =>
    intro stack
    exact ih hc hcovers stack
  | kept _ ih =>
    intro stack
    obtain ⟨hstorable, hcode⟩ := ih hc hcovers
    rw [StackType.push_of_storable hstorable]
    exact hcode stack
  | assign _ _ ih => exact ih hc hcovers
  | step _ _ ih => exact ih hc hcovers
  | storeVariable hsymbol storing inner hassign ih =>
    have hstorable := storable_of_resolve hc hsymbol
    have hgrows := (temps_assign hassign).grows (inner.temps.reachable hc)
    have hvalue := ih hc (hcovers.first hgrows)
    exact ⟨hstorable, check_assign_variable (hcovers.resolve hsymbol) hstorable storing hvalue hassign⟩
  | storeElement hsymbol isArray storing outer inner hassign ihouter ihinner =>
    have hslot := hcovers.resolve hsymbol
    rw [isArray] at hslot
    have hstorable := storable_element hc hsymbol isArray
    have hc₁ := outer.temps.reachable hc
    have hc₂ := inner.temps.reachable hc₁
    have hgrows := (temps_assign hassign).grows hc₂
    have hposition := ihouter hc (hcovers.first ((inner.temps.grows hc₁).trans hgrows))
    have hrest := hcovers.rest outer.temps hc
    have hvalue := ihinner hc₁ (hrest.first hgrows)
    exact ⟨hstorable, check_assign_element hc₂ (hrest.rest inner.temps hc₁) hslot hstorable storing
      hposition hvalue hassign⟩
  | value _ ih => exact ih hc hcovers
  | one =>
    intro stack
    rfl
  | input scalar =>
    intro stack
    simp [scalar, StackType.push_of_scalar scalar]
  | noArguments =>
    intro _ stack
    rfl
  | argument operand rest first more =>
    intro htypes stack
    have hgrows := rest.temps.grows (operand.temps.reachable hc)
    have hfirst := first hc (hcovers.first hgrows) stack
    have hmore := more (operand.temps.reachable hc) (hcovers.rest operand.temps hc)
      (fun ty hty => htypes ty (by simp [hty]))
    rw [StackType.push_of_storable (htypes _ (by simp))] at hfirst
    simp [hfirst, hmore _]
  | noPrinted =>
    intro stack
    exact ⟨[], rfl, rfl, rfl⟩
  | printed scalar operand rest first more =>
    intro stack
    have hgrows := rest.temps.grows (operand.temps.reachable hc)
    obtain ⟨cell, hcell, hcode⟩ := check_boxed scalar (first hc (hcovers.first hgrows) stack)
    obtain ⟨cells, hlength, hcells, hmore⟩ :=
      more (operand.temps.reachable hc) (hcovers.rest operand.temps hc) (cell :: stack)
    refine ⟨cells ++ [cell], by simp [hlength], by simp [hcells, hcell], ?_⟩
    simp [hcode, hmore]
  | noFilled =>
    intro stack
    rfl
  | filled operand rest first more =>
    intro stack
    have hgrows := rest.temps.grows (operand.temps.reachable hc)
    have hfirst := (first hc (hcovers.first hgrows)).2 stack
    have hmore := more (operand.temps.reachable hc) (hcovers.rest operand.temps hc) stack
    simpa [hfirst] using hmore

end Lowering

end StackCompiler
