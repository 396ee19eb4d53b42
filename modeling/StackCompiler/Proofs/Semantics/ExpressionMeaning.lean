import StackCompiler.Proofs.Grammar.ExpressionCompleteness
import StackCompiler.Proofs.Lowering.StackTypes
import StackCompiler.Proofs.Semantics.Evaluation

/-!
The code of an expression computes what the expression means. Code and evaluation run side by side on
memories that agree except in the temporaries; `Follows` says that they stay so, and that they fail
together.
-/

set_option autoImplicit false
namespace StackCompiler

variable {V W : Type}

def Eval.Yields (present : Bool) (ev : Eval V W (Option V)) : Prop :=
  ∀ (m : Memory V W) (v : Option V) (m' : Memory V W), ev m = some (v, m') → v.isSome = present

namespace Eval.Yields

variable {α : Type} {b : Bool}

theorem bind {x : Eval V W α} {f : α → Eval V W (Option V)} (h : ∀ a, (f a).Yields b) :
    Yields b (x >>= f) := by
  intro m v m' hv
  change ((x m).bind fun r => f r.1 r.2) = some (v, m') at hv
  rw [Option.bind_eq_some_iff] at hv
  obtain ⟨r, -, hr⟩ := hv
  exact h r.1 r.2 v m' hr

theorem some (v : V) : Yields true (pure (some v) : Eval V W (Option V)) := by
  intro m w m' hw
  change Option.some (Option.some v, m) = Option.some (w, m') at hw
  cases hw
  rfl

theorem perform (I : Interpretation V W) (table : FunctionTable) (instr : Instr) (operands : List V) :
    Yields (instr.yields table.signatures) (I.perform table instr operands) := by
  intro m v m' hv
  unfold Interpretation.perform Interpretation.apply at hv
  rw [Option.map_eq_some_iff] at hv
  obtain ⟨r, -, hr⟩ := hv
  cases hr
  cases instr.yields table.signatures <;> rfl

/-- An expression that always has a value can be asked for it. -/
theorem value_bind {ev : Eval V W (Option V)} (h : ev.Yields true) (f : Option V → Eval V W α) :
    (ev >>= f) = ev.value >>= fun v => f (Option.some v) := by
  funext m
  change ((ev m).bind fun r => f r.1 r.2) =
    ((ev m).bind fun r => (r.1.map fun a => (a, r.2))).bind fun r => f (Option.some r.1) r.2
  cases hev : ev m with
  | none => rfl
  | some r =>
    obtain ⟨v, m'⟩ := r
    obtain ⟨w, rfl⟩ := Option.isSome_iff_exists.1 (h m v m' hev)
    rfl

theorem none_bind {ev : Eval V W (Option V)} (h : ev.Yields false) (f : Option V → Eval V W α) :
    (ev >>= f) = ev >>= fun _ => f none := by
  funext m
  change ((ev m).bind fun r => f r.1 r.2) = (ev m).bind fun r => f Option.none r.2
  cases hev : ev m with
  | none => rfl
  | some r =>
    obtain ⟨v, m'⟩ := r
    cases v with
    | none => rfl
    | some v => simpa using h m _ m' hev

end Eval.Yields

variable (I : Interpretation V W) (table : FunctionTable) (T : Place → Prop)

/-- From the stack `stack`, `code` does what the evaluation does, which yields the stack behind it. -/
def Follows (stack : List V) (code : Code) (ev : Eval V W (List V)) : Prop :=
  ∀ m m₀ : Memory V W, m.Agree T m₀ →
    Option.Rel (fun s r => s.stack = r.1 ∧ s.memory.Agree T r.2)
      (I.run table.signatures code ⟨stack, m⟩) (ev m₀)

variable {I table T}

section Rules

variable {α : Type} {stack : List V} {code more : Code}

theorem follows_nil : Follows I table T stack [] (pure stack) := by
  intro m m₀ h
  exact .some ⟨rfl, h⟩

/-- One piece of code behind another, which starts where the first ends. -/
theorem Follows.append_of {x : Eval V W α} {next : α → List V} {g : α → Eval V W (List V)}
    (h : Follows I table T stack code (do let a ← x; return next a))
    (h' : ∀ a, (∃ m m', x m = some (a, m')) → Follows I table T (next a) more (g a)) :
    Follows I table T stack (code ++ more) (x >>= g) := by
  intro m m₀ hm
  rw [Interpretation.run_append]
  have hfirst := h m m₀ hm
  change Option.Rel _ (I.run table.signatures code ⟨stack, m⟩)
    ((x m₀).bind fun r => some (next r.1, r.2)) at hfirst
  change Option.Rel _ _ ((x m₀).bind fun r => g r.1 r.2)
  rcases rel_iff.1 hfirst with ⟨hrun, hx⟩ | ⟨⟨stack', m'⟩, r, hrun, hx, hstack, hm'⟩
  · rw [hrun]
    cases hxm : x m₀ with
    | none => exact .none
    | some r => simp [hxm] at hx
  · rw [hrun]
    cases hxm : x m₀ with
    | none => simp [hxm] at hx
    | some r =>
      rw [hxm, Option.bind_some] at hx
      cases hx
      cases hstack
      exact h' r.1 ⟨m₀, r.2, hxm⟩ m' r.2 hm'

theorem Follows.append {x : Eval V W α} {next : α → List V} {g : α → Eval V W (List V)}
    (h : Follows I table T stack code (do let a ← x; return next a))
    (h' : ∀ a, Follows I table T (next a) more (g a)) :
    Follows I table T stack (code ++ more) (x >>= g) :=
  h.append_of fun a _ => h' a

theorem Follows.cons {instr : Instr} {x : Eval V W α} {next : α → List V} {g : α → Eval V W (List V)}
    (h : Follows I table T stack [instr] (do let a ← x; return next a))
    (h' : ∀ a, Follows I table T (next a) more (g a)) :
    Follows I table T stack (instr :: more) (x >>= g) :=
  h.append h'

theorem follows_load {place : Place} (hplace : ¬T place) :
    Follows I table T stack [.load place] (do let v ← Eval.read place; return v :: stack) := by
  intro m m₀ h
  rw [Interpretation.run_cons, Interpretation.exec_load]
  exact .some ⟨by simp [h.cell place hplace], h⟩

theorem follows_store {place : Place} {v : V} :
    Follows I table T (v :: stack) [.store place] (do Eval.write place v; return stack) := by
  intro m m₀ h
  rw [Interpretation.run_cons, Interpretation.exec_store]
  exact .some ⟨rfl, h.set place v⟩

theorem follows_perform (hI : I.Ignores T) (instr : Instr) (operands stack : List V)
    (harity : instr.arity table.signatures = some operands.length) :
    Follows I table T (operands.reverse ++ stack) [instr]
      (do let v ← I.perform table instr operands; return v.toList ++ stack) := by
  intro m m₀ h
  rw [Interpretation.run_cons, Interpretation.exec_apply I _ operands harity]
  change Option.Rel _ _ ((I.apply table.signatures instr operands m₀).bind
    fun r => some (r.1.toList ++ stack, r.2))
  rcases rel_iff.1 (hI.apply h table.signatures instr operands) with ⟨hr, hr₀⟩ |
    ⟨⟨v, m'⟩, ⟨v₀, m₀'⟩, hr, hr₀, rfl, hm', -⟩
  · rw [hr, hr₀]
    exact .none
  · rw [hr, hr₀]
    exact .some ⟨rfl, hm'⟩

theorem Follows.value {ev : Eval V W (Option V)} (hev : ev.Yields true)
    (h : Follows I table T stack code (do let v ← ev; return v.toList ++ stack)) :
    Follows I table T stack code (do let v ← ev.value; return v :: stack) := by
  rw [hev.value_bind] at h
  exact h

theorem follows_perform_value (hI : I.Ignores T) (instr : Instr) (operands stack : List V)
    (harity : instr.arity table.signatures = some operands.length)
    (hyields : instr.yields table.signatures = true) :
    Follows I table T (operands.reverse ++ stack) [instr]
      (do let v ← (I.perform table instr operands).value; return v :: stack) := by
  have hperform := Eval.Yields.perform I table instr operands
  rw [hyields] at hperform
  have hfollows := follows_perform hI instr operands stack harity
  rw [hperform.value_bind] at hfollows
  exact hfollows

open Lowering

/-- The end of a store into an element. The temporary is read where nothing has written to it since. -/
theorem follows_storeElement (hI : I.Ignores T) {element : Ty} {keep : Bool} {c c' : ScopeChain}
    (h : Target.storeElement element keep c = .ok code c')
    (htemp : ∀ temp, c.reserveTemp element = (temp, c') → T temp) {array i v : V} :
    Follows I table T (v :: i :: array :: stack) code (do
      let _ ← I.perform table (.storeElem element) [array, i, v]
      return (if keep then [v] else []) ++ stack) := by
  rcases storeElement_ok h with ⟨rfl, rfl, -⟩ | ⟨rfl, temp, hreserve, rfl⟩
  · have hperform := Eval.Yields.perform I table (.storeElem element) [array, i, v]
    have hfollows : Follows I table T (v :: i :: array :: stack) [.storeElem element]
        (do let o ← I.perform table (.storeElem element) [array, i, v]; return o.toList ++ stack) :=
      follows_perform hI (.storeElem element) [array, i, v] stack rfl
    rw [hperform.none_bind] at hfollows
    exact hfollows
  · have hT := htemp temp hreserve
    intro m m₀ hm
    have hexec : I.exec table.signatures (.storeElem element) ⟨v :: i :: array :: stack, m.set temp v⟩ =
        (I.apply table.signatures (.storeElem element) [array, i, v] (m.set temp v)).map
          fun r => ⟨r.1.toList ++ stack, r.2⟩ :=
      I.exec_apply table.signatures [array, i, v] rfl stack (m.set temp v)
    have hyields := Eval.Yields.perform I table (.storeElem element) [array, i, v] (m.set temp v)
    rw [Interpretation.run_cons, Interpretation.exec_dup, Option.bind_some, Interpretation.run_cons,
      Interpretation.exec_store, Option.bind_some, Interpretation.run_cons, hexec]
    change Option.Rel _ _ ((I.apply table.signatures (.storeElem element) [array, i, v] m₀).bind
      fun r => some ([v] ++ stack, r.2))
    rcases rel_iff.1 (hI.apply (hm.set_left hT v) table.signatures (.storeElem element) [array, i, v])
      with ⟨hr, hr₀⟩ | ⟨⟨o, m'⟩, ⟨o₀, m₀'⟩, hr, hr₀, -, hm', hsame⟩
    · rw [hr, hr₀]
      exact .none
    · have hsome : o.isSome = false := hyields o m' hr
      have ho : o = none := by simpa using hsome
      rw [hr, hr₀, Option.map_some, Option.bind_some, Interpretation.run_cons, Interpretation.exec_load]
      refine .some ⟨?_, hm'⟩
      simp [ho, hsame temp hT]

/-- The old element that an assignment with an operator starts from. The index is in a temporary, and
array and index stay on the stack for the store at the end. -/
theorem follows_loadElement (hI : I.Ignores T) {element : Ty} {place temp : Place} (hplace : ¬T place)
    (htemp : T temp) {i : V} {g : V → V → Eval V W (List V)}
    (h : ∀ array old, Follows I table T (old :: i :: array :: stack) more (g array old)) :
    Follows I table T (i :: stack)
      ([.store temp, .load place, .load temp, .load place, .load temp, .loadElem element] ++ more) (do
        let array ← Eval.read place
        let old ← (I.perform table (.loadElem element) [array, i]).value
        g array old) := by
  have hfirst : Follows I table T (i :: stack)
      [.store temp, .load place, .load temp, .load place, .load temp, .loadElem element] (do
        let found ← (do
          let array ← Eval.read place
          let old ← (I.perform table (.loadElem element) [array, i]).value
          return (array, old))
        return found.2 :: i :: found.1 :: stack) := by
    intro m m₀ hm
    have hne : place ≠ temp := by
      rintro rfl
      exact hplace htemp
    have hcell : (m.set temp i).cell place = m₀.cell place := by
      rw [Memory.cell_set, if_neg hne, hm.cell place hplace]
    have hload : Follows I table T ([m₀.cell place, i].reverse ++ i :: m₀.cell place :: stack)
        [.loadElem element] _ :=
      follows_perform_value hI (.loadElem element) [m₀.cell place, i] (i :: m₀.cell place :: stack) rfl
        rfl
    rw [Interpretation.run_cons, Interpretation.exec_store, Option.bind_some]
    simp only [Interpretation.run_cons, Interpretation.exec_load, Option.bind_some, hcell,
      Memory.cell_set_self, bind_assoc, pure_bind]
    exact hload (m.set temp i) m₀ (hm.set_left htemp i)
  have hall := hfirst.append fun found => h found.1 found.2
  simpa only [bind_assoc, pure_bind] using hall

end Rules

open Lowering

namespace Interpretation

variable (I table) (scope : String → Option Symbol)

def source : Source → Eval V W V
  | .value t => (I.eval table scope t).value
  | .one => pure (I.int 1)
  | .input ty => (I.perform table (.read ty) []).value

/-- Stores into the element `i` of `array`, and yields what is stored. With `op`, the old element is read
before `source` is evaluated. -/
def storeAt (element : Ty) (op : Option Instr) (source : Eval V W V) (array i : V) : Eval V W V :=
  match op with
  | none => do
    let v ← source
    let _ ← I.perform table (.storeElem element) [array, i, v]
    return v
  | some instr => do
    let old ← (I.perform table (.loadElem element) [array, i]).value
    let v ← source
    let new ← (I.perform table instr [old, v]).value
    let _ ← I.perform table (.storeElem element) [array, i, new]
    return new

end Interpretation

def Computes (I : Interpretation V W) (table : FunctionTable) (T : Place → Prop)
    (scope : String → Option Symbol) : Form → Ty → Code → Prop
  | .value t, ty, code => staticType table scope t = some ty ∧
    (I.eval table scope t).Yields (ty ≠ .void) ∧
    ∀ stack, Follows I table T stack code (do
      let v ← I.eval table scope t
      return v.toList ++ stack)
  | .stored keep t, ty, code => ty ≠ .void ∧ staticType table scope t = some ty ∧
    (I.eval table scope t).Yields true ∧
    ∀ stack, Follows I table T stack code (do
      let v ← (I.eval table scope t).value
      return (if keep then [v] else []) ++ stack)
  | .store keep op target source, ty, code => ty ≠ .void ∧ staticType table scope target = some ty ∧
    ∀ stack, Follows I table T stack code (do
      let v ← I.evalStore table scope op (I.source table scope source) target
      return (if keep then [v] else []) ++ stack)
  | .source source, ty, code => ty ≠ .void → ∀ stack, Follows I table T stack code (do
      let v ← I.source table scope source
      return v :: stack)
  | .links _ links, _, code => ∀ v stack, Follows I table T (v :: stack) code (do
      let r ← I.evalLinks table scope v links
      return r :: stack)
  | .arguments types args, _, code => (∀ ty ∈ types, ty.isStorable = true) →
    ∀ stack, Follows I table T stack code (do
      let values ← I.evalArguments table scope args
      return values.reverse ++ stack)
  | .printed args, _, code => ∀ stack, Follows I table T stack code (do
      let values ← I.evalPrinted table scope args
      return values.reverse ++ stack)
  | .filled args, _, code => (I.evalPut table scope args).Yields false ∧
    ∀ stack, Follows I table T stack code (do
      let _ ← I.evalPut table scope args
      return stack)

/-! The evaluator and the code generator read operators and literals alike. -/

theorem operatorInstr_eq (text : String) : operatorInstr? text = binaryInstr? text := by
  unfold operatorInstr?
  split <;> simp_all [binaryInstr?]

theorem literalType_of_literal {token : Token} {push : Instr} {ty : Ty}
    (h : literal? token = some (push, ty)) : literalType? token = some ty := by
  unfold literal? at h
  unfold literalType?
  cases hkind : token.kind <;> simp only [hkind] at h ⊢
  case number | character | string =>
    obtain ⟨_, -, h⟩ := Option.map_eq_some_iff.1 h
    cases h
    rfl
  case keyword =>
    split at h
    next =>
      cases h
      rfl
    next =>
      split at h <;> cases h
      rfl
  all_goals cases h

/-- The instruction of a literal pushes the value that the literal has, and there is none where it has none. -/
theorem exec_literal (I : Interpretation V W) (functions : List Signature) (token : Token) (s : State V W) :
    ((literal? token).bind fun literal => I.exec functions literal.1 s) =
      (I.literal token).map fun v => ⟨v :: s.stack, s.memory⟩ := by
  unfold literal? Interpretation.literal
  cases token.kind with
  | number => cases Text.readWord? token.lexeme <;> rfl
  | character => rcases token.lexeme.toList with _ | ⟨_, _ | ⟨c, _⟩⟩ <;> rfl
  | string =>
    cases token.lexeme.toList with
    | nil => rfl
    | cons opening text =>
      by_cases hopening : opening = '"'
      · subst hopening
        by_cases hlast : text.getLast? = some '"' <;> simp [unquote?, hlast]
      · simp [unquote?, hopening]
  | keyword =>
    by_cases htrue : token.lexeme = "true"
    · simp [htrue]
    · by_cases hfalse : token.lexeme = "false" <;> simp [hfalse, htrue]
  | identifier | operator | symbol | bad => rfl

theorem binaryInstr_arity {text : String} {instr : Instr} (h : binaryInstr? text = some instr)
    (functions : List Signature) :
    instr.arity functions = some 2 ∧ instr.yields functions = true := by
  unfold binaryInstr? at h
  split at h <;> cases h <;> exact ⟨rfl, rfl⟩

theorem unaryInstr_arity {text : String} {instr : Instr} (h : unaryInstr? text = some instr)
    (functions : List Signature) :
    instr.arity functions = some 1 ∧ instr.yields functions = true := by
  unfold unaryInstr? at h
  split at h <;> cases h <;> exact ⟨rfl, rfl⟩

theorem storing_arity {op : Option Instr} {ty : Ty} (h : Storing op ty) {instr : Instr}
    (hop : op = some instr) (functions : List Signature) :
    instr.arity functions = some 2 ∧ instr.yields functions = true := by
  have hinstr := (h instr hop).2
  simp only [List.mem_cons, List.not_mem_nil, or_false] at hinstr
  rcases hinstr with rfl | rfl | rfl | rfl <;> exact ⟨rfl, rfl⟩

theorem unaryInstr_of_ok {op : Token} {t : Tree} {ty : OperandType} {instr : Instr}
    (h : unaryOperator (.marked .unaryExp op [t]) ty = .ok instr) :
    unaryInstr? op.lexeme = some instr := by
  unfold unaryOperator at h
  rw [lexeme_marked, Grammar.ok_bind] at h
  split at h
  next heq =>
    obtain ⟨u, -, h⟩ := Grammar.bind_eq_ok.1 h
    cases h
    rw [heq]
    rfl
  next heq =>
    obtain ⟨u, -, h⟩ := Grammar.bind_eq_ok.1 h
    cases h
    rw [heq]
    rfl
  next heq =>
    split at h
    next =>
      cases h
      rw [heq]
      rfl
    next => cases h
  next => cases h

theorem updateInstr_of_assign {op : Token} {children : List Tree} {instr : Option Instr}
    (h : assignmentOperator (.marked .assign op children) = .ok instr) :
    updateInstr? op.lexeme = some instr := by
  unfold assignmentOperator at h
  rw [lexeme_marked, Grammar.ok_bind] at h
  split at h <;> cases h <;> rename_i heq <;> rw [heq] <;> rfl

theorem updateInstr_of_step {op : Token} {children : List Tree} {instr : Instr}
    (h : stepOperator (.marked .incDec op children) = .ok instr) :
    updateInstr? op.lexeme = some (some instr) := by
  unfold stepOperator at h
  rw [lexeme_marked, Grammar.ok_bind] at h
  split at h <;> cases h <;> rename_i heq <;> rw [heq] <;> rfl

section Forms

variable {scope : String → Option Symbol} {stack : List V} {code : Code}

/-- An expression of a type other than `void`, as an operand. -/
theorem Computes.operand {t : Tree} {ty : Ty} (h : Computes I table T scope (.value t) ty code)
    (hty : ty ≠ .void) (stack : List V) :
    Follows I table T stack code (do
      let v ← (I.eval table scope t).value
      return v :: stack) := by
  obtain ⟨-, hyields, hcode⟩ := h
  rw [decide_eq_true hty] at hyields
  exact (hcode stack).value hyields

theorem computes_constant {token : Token} {push : Instr} {ty : Ty}
    (h : literal? token = some (push, ty)) :
    Computes I table T scope (.value (.marked .constant token [])) ty [push] := by
  have heval : I.eval table scope (.marked .constant token []) =
      (do let v ← Eval.present (I.literal token); return some v) := rfl
  have htype : staticType table scope (.marked .constant token []) = literalType? token := rfl
  rw [Computes, heval, htype, literalType_of_literal h]
  refine ⟨rfl, ?_, ?_⟩
  · rw [decide_eq_true (ne_void_of_literal h)]
    exact .bind fun v => .some v
  · intro stack m m₀ hm
    have hpush := exec_literal I table.signatures token ⟨stack, m⟩
    rw [h, Option.bind_some] at hpush
    rw [Interpretation.run_cons, hpush]
    cases I.literal token with
    | none => exact .none
    | some v => exact .some ⟨rfl, hm⟩

theorem computes_variable {name : Token} {symbol : Symbol} (h : scope name.lexeme = some symbol)
    (hplace : ¬T symbol.place) (hstorable : symbol.ty.isStorable = true) :
    Computes I table T scope (.value (.marked .mutable name [])) symbol.ty [.load symbol.place] := by
  have heval : I.eval table scope (.marked .mutable name []) =
      (do let v ← Eval.read symbol.place; return some v) := by
    change (do
      let symbol ← Eval.present (scope name.lexeme)
      let v ← Eval.read symbol.place
      return some v) = _
    rw [h, Eval.present_some, pure_bind]
  have htype : staticType table scope (.marked .mutable name []) =
      (scope name.lexeme).map Symbol.ty := rfl
  rw [Computes, heval, htype, h]
  refine ⟨rfl, ?_, ?_⟩
  · rw [decide_eq_true (ne_void_of_storable hstorable)]
    exact .bind fun v => .some v
  · intro stack
    rw [bind_assoc]
    exact follows_load hplace

theorem computes_element (hI : I.Ignores T) {name : Token} {index : Tree} {symbol : Symbol}
    {element : Ty} (h : scope name.lexeme = some symbol) (isArray : symbol.ty = .array element)
    (hplace : ¬T symbol.place) (hstorable : element.isStorable = true)
    (position : Computes I table T scope (.value index) .int code) :
    Computes I table T scope (.value (.marked .mutable name [index])) element
      (.load symbol.place :: code ++ [.loadElem element]) := by
  have heval : I.eval table scope (.marked .mutable name [index]) = (do
      let array ← Eval.read symbol.place
      let i ← (I.eval table scope index).value
      I.perform table (.loadElem element) [array, i]) := by
    change (do
      let symbol ← Eval.present (scope name.lexeme)
      let element ← Eval.present symbol.ty.element?
      let array ← Eval.read symbol.place
      let i ← (I.eval table scope index).value
      I.perform table (.loadElem element) [array, i]) = _
    simp only [h, isArray, Ty.element?, Eval.present_some, pure_bind]
  have htype : staticType table scope (.marked .mutable name [index]) =
      (scope name.lexeme).bind fun symbol => symbol.ty.element? := rfl
  rw [Computes, heval, htype, h, Option.bind_some, isArray]
  refine ⟨rfl, ?_, ?_⟩
  · rw [decide_eq_true (ne_void_of_storable hstorable)]
    exact .bind fun array => .bind fun i => .perform I table (.loadElem element) [array, i]
  · intro stack
    simp only [bind_assoc]
    rw [List.cons_append]
    refine Follows.cons (follows_load hplace) fun array => ?_
    refine Follows.append (position.operand (by simp) (array :: stack)) fun i => ?_
    exact follows_perform hI (.loadElem element) [array, i] stack rfl

theorem computes_chain {level : Grammar.Level} {first : Tree} {links : List Tree} {more : Code}
    (operand : Computes I table T scope (.value first) level.ty code)
    (rest : Computes I table T scope (.links level links) .void more) :
    Computes I table T scope (.value (.inner level.tag (first :: links))) level.ty (code ++ more) := by
  have hty := ne_void_level level
  have heval : I.eval table scope (.inner level.tag (first :: links)) = (do
      let v ← (I.eval table scope first).value
      let result ← I.evalLinks table scope v links
      return some result) := by
    cases level <;> rfl
  have htype : staticType table scope (.inner level.tag (first :: links)) = some level.ty := by
    cases level <;> rfl
  rw [Computes, heval, htype]
  refine ⟨rfl, ?_, ?_⟩
  · rw [decide_eq_true hty]
    exact .bind fun v => .bind fun result => .some result
  · intro stack
    simp only [bind_assoc, pure_bind]
    exact Follows.append (operand.operand hty stack) fun v => rest v stack

theorem computes_link (hI : I.Ignores T) {level : Grammar.Level} {op : Token} {t : Tree}
    {links : List Tree} {instr : Instr} {more : Code} (hop : binaryInstr? op.lexeme = some instr)
    (operand : Computes I table T scope (.value t) level.ty code)
    (rest : Computes I table T scope (.links level links) .void more) :
    Computes I table T scope (.links level (.marked .operator op [] :: t :: links)) .void
      (code ++ instr :: more) := by
  have hty := ne_void_level level
  obtain ⟨harity, hyields⟩ := binaryInstr_arity hop table.signatures
  intro v stack
  have heval : I.evalLinks table scope v (.marked .operator op [] :: t :: links) = (do
      let right ← (I.eval table scope t).value
      let result ← (I.perform table instr [v, right]).value
      I.evalLinks table scope result links) := by
    change (do
      let right ← (I.eval table scope t).value
      let op ← Eval.present (operatorInstr? op.lexeme)
      let result ← (I.perform table op [v, right]).value
      I.evalLinks table scope result links) = _
    simp only [operatorInstr_eq, hop, Eval.present_some, pure_bind]
  rw [heval]
  simp only [bind_assoc]
  refine Follows.append (operand.operand hty (v :: stack)) fun right => ?_
  refine Follows.cons (follows_perform_value hI instr [v, right] stack harity hyields) fun result => ?_
  exact rest result stack

theorem computes_compare (hI : I.Ignores T) {op : Token} {left right : Tree} {instr : Instr} {ty : Ty}
    {code' : Code} (hop : binaryInstr? op.lexeme = some instr) (defined : Compares instr ty)
    (first : Computes I table T scope (.value left) ty code)
    (second : Computes I table T scope (.value right) ty code') :
    Computes I table T scope (.value (.inner .relExp [left, .marked .operator op [], right])) .bool
      (code ++ code' ++ [instr]) := by
  have hty := ne_void_of_compares defined
  obtain ⟨harity, hyields⟩ := binaryInstr_arity hop table.signatures
  have heval : I.eval table scope (.inner .relExp [left, .marked .operator op [], right]) = (do
      let l ← (I.eval table scope left).value
      let r ← (I.eval table scope right).value
      I.perform table instr [l, r]) := by
    change (do
      let l ← (I.eval table scope left).value
      let r ← (I.eval table scope right).value
      let op ← Eval.present (operatorInstr? op.lexeme)
      I.perform table op [l, r]) = _
    simp only [operatorInstr_eq, hop, Eval.present_some, pure_bind]
  rw [Computes, heval]
  refine ⟨rfl, ?_, ?_⟩
  · have hperform := Eval.Yields.perform I table instr
    rw [hyields] at hperform
    exact .bind fun l => .bind fun r => hperform [l, r]
  · intro stack
    simp only [bind_assoc, List.append_assoc]
    refine Follows.append (first.operand hty stack) fun l => ?_
    refine Follows.append (second.operand hty (l :: stack)) fun r => ?_
    exact follows_perform hI instr [l, r] stack harity

/-- An operator with one operand. -/
theorem computes_unary (hI : I.Ignores T) {t operand : Tree} {instr : Instr} {ty result : Ty}
    (harity : instr.arity table.signatures = some 1) (hyields : instr.yields table.signatures = true)
    (heval : I.eval table scope t = (do
      let v ← (I.eval table scope operand).value
      I.perform table instr [v]))
    (htype : staticType table scope t = some result) (hresult : result ≠ .void) (hty : ty ≠ .void)
    (inner : Computes I table T scope (.value operand) ty code) :
    Computes I table T scope (.value t) result (code ++ [instr]) := by
  rw [Computes, heval]
  refine ⟨htype, ?_, ?_⟩
  · have hperform := Eval.Yields.perform I table instr
    rw [hyields] at hperform
    rw [decide_eq_true hresult]
    exact .bind fun v => hperform [v]
  · intro stack
    rw [bind_assoc]
    refine Follows.append (inner.operand hty stack) fun v => ?_
    exact follows_perform hI instr [v] stack harity

/-- The end of a store into a variable. -/
theorem follows_storeVariable {place : Place} {keep : Bool} {v : V} :
    Follows I table T (v :: stack) ((if keep then [Instr.dup] else []) ++ [Instr.store place]) (do
      Eval.write place v
      return (if keep then [v] else []) ++ stack) := by
  cases keep with
  | false => exact follows_store
  | true =>
    intro m m₀ hm
    exact follows_store m m₀ hm

theorem computes_storeVariable (hI : I.Ignores T) {keep : Bool} {op : Option Instr} {name : Token}
    {symbol : Symbol} {source : Source} {value : Code} {c c' : ScopeChain}
    (h : scope name.lexeme = some symbol) (hplace : ¬T symbol.place)
    (hstorable : symbol.ty.isStorable = true) (storing : Storing op symbol.ty)
    (inner : Computes I table T scope (.source source) symbol.ty value)
    (hassign : Target.assign ⟨symbol.place, symbol.ty, none⟩ value op keep c = .ok code c') :
    Computes I table T scope (.store keep op (.marked .mutable name []) source) symbol.ty code := by
  obtain ⟨-, rfl⟩ := assign_variable_ok hassign
  have hinner := inner (ne_void_of_storable hstorable)
  have htype : staticType table scope (.marked .mutable name []) =
      (scope name.lexeme).map Symbol.ty := rfl
  rw [Computes, htype, h]
  refine ⟨ne_void_of_storable hstorable, rfl, ?_⟩
  intro stack
  cases op with
  | none =>
    have heval : I.evalStore table scope none (I.source table scope source) (.marked .mutable name []) =
        (do
          let v ← I.source table scope source
          Eval.write symbol.place v
          return v) := by
      change (do
        let name ← Eval.present (some name)
        let symbol ← Eval.present (scope name.lexeme)
        let v ← I.source table scope source
        Eval.write symbol.place v
        return v) = _
      simp only [Eval.present_some, pure_bind, h]
    rw [heval, updated]
    simp only [bind_assoc, pure_bind]
    exact Follows.append (hinner stack) fun v => follows_storeVariable
  | some instr =>
    obtain ⟨harity, hyields⟩ := storing_arity storing rfl table.signatures
    have heval : I.evalStore table scope (some instr) (I.source table scope source)
        (.marked .mutable name []) = (do
          let old ← Eval.read symbol.place
          let v ← I.source table scope source
          let new ← (I.perform table instr [old, v]).value
          Eval.write symbol.place new
          return new) := by
      change (do
        let name ← Eval.present (some name)
        let symbol ← Eval.present (scope name.lexeme)
        let old ← Eval.read symbol.place
        let v ← I.source table scope source
        let new ← (I.perform table instr [old, v]).value
        Eval.write symbol.place new
        return new) = _
      simp only [Eval.present_some, pure_bind, h]
    rw [heval, updated]
    simp only [bind_assoc, pure_bind, List.cons_append, List.append_assoc]
    refine Follows.cons (follows_load hplace) fun old => ?_
    refine Follows.append (hinner (old :: stack)) fun v => ?_
    refine Follows.cons (follows_perform_value hI instr [old, v] stack harity hyields) fun new => ?_
    exact follows_storeVariable

section Elements

variable {name : Token} {index : Tree} {symbol : Symbol} {element : Ty}

/-- A plain store reads the array, evaluates the index and then the value. -/
theorem evalStore_element_plain (h : scope name.lexeme = some symbol) (isArray : symbol.ty = .array element)
    (source : Eval V W V) : I.evalStore table scope none source (.marked .mutable name [index]) = (do
      let array ← Eval.read symbol.place
      let i ← (I.eval table scope index).value
      I.storeAt table element none source array i) := by
  change (do
    let name ← Eval.present (some name)
    let symbol ← Eval.present (scope name.lexeme)
    let element ← Eval.present symbol.ty.element?
    let array ← Eval.read symbol.place
    let i ← (I.eval table scope index).value
    let v ← source
    let _ ← I.perform table (.storeElem element) [array, i, v]
    return v) = _
  simp only [Eval.present_some, pure_bind, h, isArray, Ty.element?, Interpretation.storeAt]

/-- An update evaluates the index before it reads the array. -/
theorem evalStore_element_update (h : scope name.lexeme = some symbol) (isArray : symbol.ty = .array element)
    (instr : Instr) (source : Eval V W V) :
    I.evalStore table scope (some instr) source (.marked .mutable name [index]) = (do
      let i ← (I.eval table scope index).value
      let array ← Eval.read symbol.place
      I.storeAt table element (some instr) source array i) := by
  change (do
    let name ← Eval.present (some name)
    let symbol ← Eval.present (scope name.lexeme)
    let element ← Eval.present symbol.ty.element?
    let i ← (I.eval table scope index).value
    let array ← Eval.read symbol.place
    let old ← (I.perform table (.loadElem element) [array, i]).value
    let v ← source
    let new ← (I.perform table instr [old, v]).value
    let _ ← I.perform table (.storeElem element) [array, i, new]
    return new) = _
  simp only [Eval.present_some, pure_bind, h, isArray, Ty.element?, Interpretation.storeAt]

end Elements

theorem computes_storeElement (hI : I.Ignores T) {keep : Bool} {op : Option Instr} {name : Token}
    {index : Tree} {symbol : Symbol} {element : Ty} {source : Source} {position value : Code}
    {c c' : ScopeChain} (h : scope name.lexeme = some symbol) (isArray : symbol.ty = .array element)
    (hplace : ¬T symbol.place) (hstorable : element.isStorable = true) (storing : Storing op element)
    (outer : Computes I table T scope (.value index) .int position)
    (inner : Computes I table T scope (.source source) element value)
    (hassign : Target.assign ⟨symbol.place, element, some position⟩ value op keep c = .ok code c')
    (htemps : ∀ ty temp c₁ c₂, c.Temps c₁ → c₁.reserveTemp ty = (temp, c₂) → c₂.Temps c' → T temp) :
    Computes I table T scope (.store keep op (.marked .mutable name [index]) source) element code := by
  have hinner := inner (ne_void_of_storable hstorable)
  have hposition := outer.operand (by simp)
  have htype : staticType table scope (.marked .mutable name [index]) =
      (scope name.lexeme).bind fun symbol => symbol.ty.element? := rfl
  rw [Computes, htype, h, Option.bind_some, isArray]
  refine ⟨ne_void_of_storable hstorable, rfl, ?_⟩
  intro stack
  rcases assign_element_ok hassign with ⟨rfl, finish, hfinish, rfl⟩ |
    ⟨instr, temp, c₁, finish, rfl, hreserve, hfinish, rfl⟩
  · rw [evalStore_element_plain h isArray]
    simp only [Interpretation.storeAt, bind_assoc, pure_bind, List.cons_append, List.append_assoc]
    refine Follows.cons (follows_load hplace) fun array => ?_
    refine Follows.append (hposition (array :: stack)) fun i => ?_
    refine Follows.append (hinner (i :: array :: stack)) fun v => ?_
    exact follows_storeElement hI hfinish fun temp ht => htemps element temp c c' .none ht .none
  · obtain ⟨harity, hyields⟩ := storing_arity storing rfl table.signatures
    have htemp : T temp := htemps .int temp c c₁ .none hreserve (temps_storeElement hfinish)
    rw [evalStore_element_update h isArray]
    simp only [Interpretation.storeAt, bind_assoc, pure_bind, List.append_assoc]
    refine Follows.append (hposition stack) fun i => ?_
    refine follows_loadElement hI hplace htemp fun array old => ?_
    refine Follows.append (hinner (old :: i :: array :: stack)) fun v => ?_
    refine Follows.cons
      (follows_perform_value hI instr [old, v] (i :: array :: stack) harity hyields) fun new => ?_
    exact follows_storeElement hI hfinish fun last hlast =>
      htemps element last c₁ c' (temps_reserveTemp hreserve) hlast .none

theorem bind_some {α β : Type} {x : Eval V W α} {f : α → Eval V W β} {m m' : Memory V W} {b : β}
    (h : (x >>= f) m = some (b, m')) : ∃ a m₁, x m = some (a, m₁) ∧ f a m₁ = some (b, m') := by
  change ((x m).bind fun r => f r.1 r.2) = some (b, m') at h
  obtain ⟨r, hx, hf⟩ := Option.bind_eq_some_iff.1 h
  exact ⟨r.1, r.2, hx, hf⟩

theorem evalArguments_length {args : List Tree} {values : List V} {m m' : Memory V W}
    (h : I.evalArguments table scope args m = some (values, m')) : values.length = args.length := by
  induction args generalizing values m m' with
  | nil =>
    cases h
    rfl
  | cons t args ih =>
    obtain ⟨v, m₁, -, h⟩ := bind_some h
    obtain ⟨rest, m₂, hrest, h⟩ := bind_some h
    cases h
    rw [List.length_cons, List.length_cons, ih hrest]

theorem evalPrinted_length {args : List Tree} {values : List V} {m m' : Memory V W}
    (h : I.evalPrinted table scope args m = some (values, m')) : values.length = args.length := by
  induction args generalizing values m m' with
  | nil =>
    cases h
    rfl
  | cons t args ih =>
    obtain ⟨v, m₁, -, h⟩ := bind_some h
    obtain ⟨shown, m₂, -, h⟩ := bind_some h
    obtain ⟨rest, m₃, hrest, h⟩ := bind_some h
    cases h
    rw [List.length_cons, List.length_cons, ih hrest]

theorem computes_argument {ty : Ty} {types : List Ty} {t : Tree} {args : List Tree} {more : Code}
    (first : Computes I table T scope (.value t) ty code)
    (rest : Computes I table T scope (.arguments types args) .void more) :
    Computes I table T scope (.arguments (ty :: types) (t :: args)) .void (code ++ more) := by
  intro htypes stack
  have hfirst := first.operand (ne_void_of_storable (htypes ty (by simp))) stack
  have hrest := rest fun u hu => htypes u (by simp [hu])
  change Follows I table T stack (code ++ more) (do
    let values ← (do
      let v ← (I.eval table scope t).value
      let values ← I.evalArguments table scope args
      return v :: values)
    return values.reverse ++ stack)
  simp only [bind_assoc, pure_bind]
  refine Follows.append hfirst fun v => ?_
  simpa using hrest (v :: stack)

/-- A value made ready for printing. -/
theorem follows_printable (hI : I.Ignores T) {t : Tree} {ty : Ty} (scalar : ty.isScalar = true)
    (h : Computes I table T scope (.value t) ty code) (stack : List V) :
    Follows I table T stack (boxed ty code) (do
      let v ← (I.eval table scope t).value
      let shown ← I.printable table scope t v
      return shown :: stack) := by
  have hoperand := h.operand (ne_void_of_scalar scalar) stack
  unfold Interpretation.printable
  simp only [h.1, Eval.present_some, pure_bind]
  unfold boxed
  by_cases hstring : ty = .string
  · subst hstring
    simpa using hoperand
  · rw [if_neg hstring]
    refine Follows.append hoperand fun v => ?_
    have hbox : Follows I table T (v :: stack) [.box ty] (do
        let shown ← (I.perform table (.box ty) [v]).value
        return shown :: stack) := follows_perform_value hI (.box ty) [v] stack rfl rfl
    cases ty <;> first | exact absurd rfl hstring | exact hbox

theorem computes_print (hI : I.Ignores T) {name : Token} {t : Tree} {ty : Ty}
    (isPrint : name.lexeme = "print") (scalar : ty.isScalar = true)
    (h : Computes I table T scope (.value t) ty code) :
    Computes I table T scope (.value (.marked .call name [t])) .void (boxed ty code ++ [.print]) := by
  have heval : I.eval table scope (.marked .call name [t]) = (do
      let v ← (I.eval table scope t).value
      let shown ← I.printable table scope t v
      I.perform table .print [shown]) := by
    change (if name.lexeme = "print" then _ else _) = _
    rw [if_pos isPrint]
    rfl
  have htype : staticType table scope (.marked .call name [t]) = some .void := by
    change (if isIntrinsic name.lexeme then _ else _) = _
    rw [if_pos (by rw [isPrint]; rfl)]
  rw [Computes, heval, htype]
  refine ⟨rfl, ?_, ?_⟩
  · exact .bind fun v => .bind fun shown => .perform I table .print [shown]
  · intro stack
    have hfirst := follows_printable hI scalar h stack
    rw [← bind_assoc] at hfirst
    rw [← bind_assoc, bind_assoc]
    refine Follows.append hfirst fun shown => ?_
    exact follows_perform hI .print [shown] stack rfl

theorem computes_printed (hI : I.Ignores T) {ty : Ty} {t : Tree} {args : List Tree} {more : Code}
    (scalar : ty.isScalar = true) (first : Computes I table T scope (.value t) ty code)
    (rest : Computes I table T scope (.printed args) .void more) :
    Computes I table T scope (.printed (t :: args)) .void (boxed ty code ++ more) := by
  intro stack
  have hfirst := follows_printable hI scalar first stack
  rw [← bind_assoc] at hfirst
  change Follows I table T stack (boxed ty code ++ more) (do
    let values ← (do
      let v ← (I.eval table scope t).value
      let shown ← I.printable table scope t v
      let values ← I.evalPrinted table scope args
      return shown :: values)
    return values.reverse ++ stack)
  simp only [bind_assoc, pure_bind]
  rw [← bind_assoc]
  refine Follows.append hfirst fun shown => ?_
  simpa using rest (shown :: stack)

theorem computes_printFormatted (hI : I.Ignores T) {name : Token} {first next : Tree} {rest : List Tree}
    {more : Code} (isPrint : name.lexeme = "print")
    (format : Computes I table T scope (.value first) .string code)
    (values : Computes I table T scope (.printed (next :: rest)) .void more) :
    Computes I table T scope (.value (.marked .call name (first :: next :: rest))) .void
      (code ++ more ++ [.printFormatted (next :: rest).length]) := by
  have heval : I.eval table scope (.marked .call name (first :: next :: rest)) = (do
      let v ← (I.eval table scope first).value
      let values ← I.evalPrinted table scope (next :: rest)
      I.perform table (.printFormatted (next :: rest).length) (v :: values)) := by
    change (if name.lexeme = "print" then _ else _) = _
    rw [if_pos isPrint]
    rfl
  have htype : staticType table scope (.marked .call name (first :: next :: rest)) = some .void := by
    change (if isIntrinsic name.lexeme then _ else _) = _
    rw [if_pos (by rw [isPrint]; rfl)]
  rw [Computes, heval, htype]
  refine ⟨rfl, ?_, ?_⟩
  · exact .bind fun v => .bind fun values => .perform I table (.printFormatted _) (v :: values)
  · intro stack
    simp only [bind_assoc, List.append_assoc]
    refine Follows.append (format.operand (by simp) stack) fun v => ?_
    refine Follows.append_of (values (v :: stack)) fun shown hshown => ?_
    obtain ⟨m, m', hshown⟩ := hshown
    have hlength := evalPrinted_length hshown
    have harity : (Instr.printFormatted (next :: rest).length).arity table.signatures =
        some (v :: shown).length := by
      simp [Instr.arity, hlength]
    simpa using follows_perform hI (.printFormatted (next :: rest).length) (v :: shown) stack harity

theorem computes_call (hI : I.Ignores T) (htable : table.Sound) {name : Token} {args : List Tree}
    {signature : Signature} (plain : isIntrinsic name.lexeme = false)
    (h : table.lookup? name.lexeme = some signature)
    (count : args.length = signature.parameters.length)
    (inner : Computes I table T scope (.arguments signature.parameters args) .void code) :
    Computes I table T scope (.value (.marked .call name args)) signature.result
      (code ++ [.call signature.handle]) := by
  have hcallee := htable.getElem_handle h
  have hinner := inner (htable.parameters signature (List.mem_of_getElem? hcallee))
  have hname : name.lexeme ≠ "print" ∧ name.lexeme ≠ "put" := by
    simpa [isIntrinsic, intrinsics] using plain
  have heval : I.eval table scope (.marked .call name args) = (do
      let values ← I.evalArguments table scope args
      I.perform table (.call signature.handle) values) := by
    change (if name.lexeme = "print" then _ else if name.lexeme = "put" then _ else do
      let callee ← Eval.present (table.lookup? name.lexeme)
      let values ← I.evalArguments table scope args
      I.perform table (.call callee.handle) values) = _
    rw [if_neg hname.1, if_neg hname.2, h, Eval.present_some, pure_bind]
  have htype : staticType table scope (.marked .call name args) = some signature.result := by
    change (if isIntrinsic name.lexeme then _ else (table.lookup? name.lexeme).map Signature.result) = _
    rw [plain, h]
    rfl
  have hyields : (Instr.call signature.handle).yields table.signatures =
      decide (signature.result ≠ .void) := by
    simp [Instr.yields, hcallee]
  rw [Computes, heval, htype, ← hyields]
  refine ⟨rfl, ?_, ?_⟩
  · exact .bind fun values => .perform I table (.call signature.handle) values
  · intro stack
    rw [bind_assoc]
    refine Follows.append_of (hinner stack) fun values hvalues => ?_
    obtain ⟨m, m', hvalues⟩ := hvalues
    have hlength := evalArguments_length hvalues
    exact follows_perform hI (.call signature.handle) values stack
      (by simp [Instr.arity, hcallee, hlength, count])

theorem computes_put {name : Token} {args : List Tree} (isPut : name.lexeme = "put")
    (h : Computes I table T scope (.filled args) .void code) :
    Computes I table T scope (.value (.marked .call name args)) .void code := by
  have heval : I.eval table scope (.marked .call name args) = I.evalPut table scope args := by
    change (if name.lexeme = "print" then _ else if name.lexeme = "put" then _ else _) = _
    rw [if_neg (by rw [isPut]; decide), if_pos isPut]
  have htype : staticType table scope (.marked .call name args) = some .void := by
    change (if isIntrinsic name.lexeme then _ else _) = _
    rw [if_pos (by rw [isPut]; rfl)]
  obtain ⟨hyields, hcode⟩ := h
  rw [Computes, heval, htype]
  refine ⟨rfl, hyields, ?_⟩
  intro stack
  rw [hyields.none_bind]
  exact hcode stack

theorem computes_filled {ty : Ty} {t : Tree} {args : List Tree} {more : Code}
    (first : Computes I table T scope (.store false none t (.input ty)) ty code)
    (rest : Computes I table T scope (.filled args) .void more) :
    Computes I table T scope (.filled (t :: args)) .void (code ++ more) := by
  obtain ⟨-, htype, hfirst⟩ := first
  obtain ⟨hyields, hrest⟩ := rest
  have heval : I.evalPut table scope (t :: args) = (do
      let _ ← I.evalStore table scope none (I.source table scope (.input ty)) t
      I.evalPut table scope args) := by
    change (do
      let ty ← Eval.present (staticType table scope t)
      let _ ← I.evalStore table scope none (I.perform table (.read ty) []).value t
      I.evalPut table scope args) = _
    rw [htype, Eval.present_some, pure_bind]
    rfl
  rw [Computes, heval]
  refine ⟨.bind fun _ => hyields, ?_⟩
  intro stack
  rw [bind_assoc]
  exact Follows.append (hfirst stack) fun _ => hrest stack

/-- An assignment or a step: its value is the stored one. -/
theorem computes_stored {keep : Bool} {t target : Tree} {op : Option Instr} {source : Source} {ty : Ty}
    (heval : I.eval table scope t = (do
      let v ← I.evalStore table scope op (I.source table scope source) target
      return some v))
    (htype : staticType table scope target = some ty → staticType table scope t = some ty)
    (h : Computes I table T scope (.store keep op target source) ty code) :
    Computes I table T scope (.stored keep t) ty code := by
  obtain ⟨hvoid, hty, hcode⟩ := h
  have hyields : (I.eval table scope t).Yields true := by
    rw [heval]
    exact .bind fun v => .some v
  have hvalue : (I.eval table scope t).value =
      I.evalStore table scope op (I.source table scope source) target := by
    rw [Eval.value, heval]
    simp
  rw [Computes, hvalue]
  exact ⟨hvoid, htype hty, hyields, hcode⟩

end Forms

section Temporaries

open ScopeChain

variable {params : List Ty} {c₀ c₁ c c' : ScopeChain}

theorem taken_of_reserveTemp (hc₀ : Reachable params c₀) (h₀ : Temps c₀ c) {ty : Ty} {temp : Place}
    (htemp : c.reserveTemp ty = (temp, c')) (h₁ : Temps c' c₁) : Taken params c₀ c₁ temp := by
  have hc := h₀.reachable hc₀
  have hc' := (temps_reserveTemp htemp).reachable hc
  exact ((taken_reserveTemp hc htemp).first (h₁.grows hc')).rest (h₀.grows hc₀)

/-- The slot of a variable is no temporary. -/
theorem not_taken_of_resolve (hc₀ : Reachable params c₀) {name : String} {symbol : Symbol}
    (h : c₀.resolve? name = some symbol) : ¬Taken params c₀ c₁ symbol.place := by
  rintro ⟨hnone, -⟩
  obtain ⟨scope, hscope, hs⟩ := mem_of_resolve h
  simp [(hc₀.sound.typed scope hscope symbol hs).1] at hnone

/-- The code of every form computes what the form means. -/
theorem Lowering.Lowers.computes {form : Form} {ty : Ty} {code : Code}
    (h : Lowers table form c ty code c') (htable : table.Sound) (hc₀ : Reachable params c₀)
    (hI : I.Ignores (Taken params c₀ c₁)) (h₀ : Temps c₀ c) (h₁ : Temps c' c₁) :
    Computes I table (Taken params c₀ c₁) c₀.resolve? form ty code := by
  induction h with
  | constant hliteral => exact computes_constant hliteral
  | «variable» hsymbol =>
    rw [h₀.resolve] at hsymbol
    exact computes_variable hsymbol (not_taken_of_resolve hc₀ hsymbol) (storable_of_resolve hc₀ hsymbol)
  | element hsymbol isArray _ ih =>
    rw [h₀.resolve] at hsymbol
    exact computes_element hI hsymbol isArray (not_taken_of_resolve hc₀ hsymbol)
      (storable_element hc₀ hsymbol isArray) (ih h₀ h₁)
  | paren _ ih => exact ih h₀ h₁
  | chain operand rest first more =>
    exact computes_chain (first h₀ (rest.temps.trans h₁)) (more (h₀.trans operand.temps) h₁)
  | noLinks =>
    intro v stack
    exact follows_nil
  | link isOp hop operand rest first more =>
    exact computes_link hI hop (first h₀ (rest.temps.trans h₁)) (more (h₀.trans operand.temps) h₁)
  | compare hop defined operand rest first second =>
    exact computes_compare hI hop defined (first h₀ (rest.temps.trans h₁))
      (second (h₀.trans operand.temps) h₁)
  | negate _ ih =>
    exact computes_unary hI rfl rfl rfl rfl (by simp) (by simp) (ih h₀ h₁)
  | unary hop _ ih =>
    have hinstr := unaryInstr_of_ok hop
    obtain ⟨harity, hyields⟩ := unaryInstr_arity hinstr table.signatures
    refine computes_unary hI harity hyields ?_ rfl (by simp) ?_ (ih h₀ h₁)
    · change (do
        let v ← (I.eval table c₀.resolve? _).value
        let op ← Eval.present (unaryInstr? _)
        I.perform table op [v]) = _
      simp only [hinstr, Eval.present_some, pure_bind]
    · exact ne_void_of_unary hop
  | call plain hlookup count _ ih => exact computes_call hI htable plain hlookup count (ih h₀ h₁)
  | print isPrint scalar _ ih => exact computes_print hI isPrint scalar (ih h₀ h₁)
  | printFormatted isPrint format values first more =>
    exact computes_printFormatted hI isPrint (first h₀ (values.temps.trans h₁))
      (more (h₀.trans format.temps) h₁)
  | put isPut _ _ ih => exact computes_put isPut (ih h₀ h₁)
  | kept _ ih =>
    obtain ⟨hvoid, htype, hyields, hcode⟩ := ih h₀ h₁
    refine ⟨htype, by rw [decide_eq_true hvoid]; exact hyields, ?_⟩
    intro stack
    rw [hyields.value_bind]
    exact hcode stack
  | @assign _ op target value _ _ _ _ _ hop _ ih =>
    have htype : staticType table c₀.resolve? (.marked .assign op [target, value]) =
      staticType table c₀.resolve? target := rfl
    refine computes_stored ?_ htype.trans (ih h₀ h₁)
    change (do
      let op ← Eval.present (updateInstr? op.lexeme)
      let v ← I.evalStore table c₀.resolve? op (I.eval table c₀.resolve? value).value target
      return some v) = _
    rw [updateInstr_of_assign hop, Eval.present_some, pure_bind]
    rfl
  | @step _ op target _ _ _ _ hop _ ih =>
    refine computes_stored ?_ (fun _ => rfl) (ih h₀ h₁)
    change (do
      let op ← Eval.present (updateInstr? op.lexeme)
      let v ← I.evalStore table c₀.resolve? op (pure (I.int 1)) target
      return some v) = _
    rw [updateInstr_of_step hop, Eval.present_some, pure_bind]
    rfl
  | storeVariable hsymbol storing inner hassign ih =>
    rw [h₀.resolve] at hsymbol
    exact computes_storeVariable hI hsymbol (not_taken_of_resolve hc₀ hsymbol)
      (storable_of_resolve hc₀ hsymbol) storing (ih h₀ ((temps_assign hassign).trans h₁)) hassign
  | storeElement hsymbol isArray storing outer inner hassign ihouter ihinner =>
    rw [h₀.resolve] at hsymbol
    have hlast := (temps_assign hassign).trans h₁
    refine computes_storeElement hI hsymbol isArray (not_taken_of_resolve hc₀ hsymbol)
      (storable_element hc₀ hsymbol isArray) storing (ihouter h₀ (inner.temps.trans hlast))
      (ihinner (h₀.trans outer.temps) hlast) hassign ?_
    intro ty temp c₂ c₃ hbefore htemp hafter
    exact taken_of_reserveTemp hc₀ (((h₀.trans outer.temps).trans inner.temps).trans hbefore) htemp
      (hafter.trans h₁)
  | value _ ih =>
    intro hty stack
    exact (ih h₀ h₁).operand hty stack
  | one =>
    intro _ stack m m₀ hm
    exact .some ⟨rfl, hm⟩
  | input scalar =>
    intro _ stack
    exact follows_perform_value hI (.read _) [] stack rfl rfl
  | noArguments =>
    intro _ stack
    exact follows_nil
  | argument operand rest first more =>
    exact computes_argument (first h₀ (rest.temps.trans h₁)) (more (h₀.trans operand.temps) h₁)
  | noPrinted =>
    intro stack
    exact follows_nil
  | printed scalar operand rest first more =>
    exact computes_printed hI scalar (first h₀ (rest.temps.trans h₁)) (more (h₀.trans operand.temps) h₁)
  | noFilled =>
    refine ⟨?_, fun stack => follows_nil⟩
    intro m v m' hv
    cases hv
    rfl
  | filled operand rest first more =>
    exact computes_filled (first h₀ (rest.temps.trans h₁)) (more (h₀.trans operand.temps) h₁)

end Temporaries

/-- From every stack and memory, code and evaluation fail together; else the code leaves the stack as it
was with the value on top, where it is kept and there is one, and the memory as the evaluation does
outside of `T`. -/
def Refines (I : Interpretation V W) (table : FunctionTable) (T : Place → Prop) (keep : Bool)
    (code : Code) (ev : Eval V W (Option V)) : Prop :=
  ∀ (stack : List V) (m : Memory V W),
    Option.Rel (fun s r => s.stack = (if keep then r.1.toList else []) ++ stack ∧ s.memory.Agree T r.2)
      (I.run table.signatures code ⟨stack, m⟩) (ev m)

/-- Code that follows an evaluation ends where the evaluation does, started on the same memory. -/
theorem Follows.rel {α : Type} {T : Place → Prop} {stack : List V} {code : Code} {x : Eval V W α}
    {next : α → List V} (h : Follows I table T stack code (do let a ← x; return next a)) (m : Memory V W) :
    Option.Rel (fun s r => s.stack = next r.1 ∧ s.memory.Agree T r.2)
      (I.run table.signatures code ⟨stack, m⟩) (x m) := by
  have hfollows := h m m (.refl m)
  change Option.Rel _ _ ((x m).bind fun r => some (next r.1, r.2)) at hfollows
  cases hx : x m with
  | none =>
    rw [hx] at hfollows
    rcases rel_iff.1 hfollows with ⟨hrun, -⟩ | ⟨s, r, -, hr, -⟩
    · exact rel_iff.2 (.inl ⟨hrun, rfl⟩)
    · simp at hr
  | some r =>
    rw [hx] at hfollows
    rcases rel_iff.1 hfollows with ⟨-, hr⟩ | ⟨s, r', hrun, hr, hs⟩
    · simp at hr
    · cases hr
      exact rel_iff.2 (.inr ⟨s, r, hrun, rfl, hs⟩)

theorem refines_of_follows {T : Place → Prop} {keep : Bool} {code : Code} {ev : Eval V W (Option V)}
    (h : ∀ stack, Follows I table T stack code (do
      let v ← ev
      return (if keep then v.toList else []) ++ stack)) : Refines I table T keep code ev :=
  fun stack m => (h stack).rel m

open Lowering ScopeChain in
/-- The code of an expression does what the expression means, under every interpretation that leaves the
temporaries alone; so does the code of an assignment or a step whose value is dropped. -/
theorem lowered_expression_correct (I : Interpretation V W) {table : FunctionTable}
    (htable : table.Reachable) {params : List Ty} {c : ScopeChain} (hc : Reachable params c)
    {ts : List Token} {parsed : Grammar.Read Tree ts.length}
    (hparsed : Grammar.expression true ts = .ok (some parsed)) :
    (∀ typed c', expression table parsed.value c = .ok typed c' → I.Ignores (Taken params c c') →
      ∃ ty, typed.ty = .value ty ∧ (I.eval table c.resolve? parsed.value).Yields (ty ≠ .void) ∧
        Refines I table (Taken params c c') true typed.code (I.eval table c.resolve? parsed.value)) ∧
    (parsed.value.tag = .assign → ∀ typed c',
      assignment table parsed.value false parsed.value.children c = .ok typed c' →
      I.Ignores (Taken params c c') →
        Refines I table (Taken params c c') false typed.code (I.eval table c.resolve? parsed.value)) ∧
    (parsed.value.tag = .incDec → ∀ typed c',
      step table parsed.value false parsed.value.children c = .ok typed c' →
      I.Ignores (Taken params c c') →
        Refines I table (Taken params c c') false typed.code (I.eval table c.resolve? parsed.value)) := by
  obtain ⟨used, -, hderives⟩ := Grammar.expression_reads hparsed
  have hlowerable : Lowerable table parsed.value := lowerable_of_derives hderives
  refine ⟨?_, ?_, ?_⟩
  · intro typed c' hcode hI
    obtain ⟨ty, code, rfl, hlowers⟩ := hlowerable.value hcode
    obtain ⟨-, hyields, hfollows⟩ := hlowers.computes htable.sound hc hI .none .none
    exact ⟨ty, rfl, hyields, refines_of_follows hfollows⟩
  · intro htag typed c' hcode hI
    obtain ⟨ty, code, rfl, hlowers⟩ := hlowerable.assignment htag hcode
    obtain ⟨-, -, hyields, hfollows⟩ := hlowers.computes htable.sound hc hI .none .none
    refine refines_of_follows fun stack => ?_
    rw [hyields.value_bind]
    exact hfollows stack
  · intro htag typed c' hcode hI
    obtain ⟨ty, code, rfl, hlowers⟩ := hlowerable.step htag hcode
    obtain ⟨-, -, hyields, hfollows⟩ := hlowers.computes htable.sound hc hI .none .none
    refine refines_of_follows fun stack => ?_
    rw [hyields.value_bind]
    exact hfollows stack

/-- A machine with one array of ints, which is its world. -/
def arrayMachine : Interpretation Int (Int → Int) where
  int n := n.toInt
  bool b := if b then 1 else 0
  char c := c.toNat
  string text := text.length
  act instr operands g :=
    match instr, operands with
    | .add, [a, b] => some (a + b, g)
    | .loadElem _, [_, i] => some (g.world i, g)
    | .storeElem _, [_, i, v] => some (v, { g with world := fun j => if j = i then v else g.world j })
    | _, _ => none
  truth v := some (v ≠ 0)

theorem arrayMachine_ignores (T : Place → Prop) : arrayMachine.Ignores T := by
  rintro instr operands ⟨statics, world⟩ ⟨statics₀, _⟩ rfl hstatics
  unfold arrayMachine
  dsimp only
  split <;> first | exact .none | exact .some ⟨rfl, rfl, hstatics, fun _ _ => rfl⟩

open Lowering ScopeChain in
/-- At file scope, with `int a[3], x;` declared: the index and the sum are kept in static slots. -/
theorem lowered_expression_correct_element :
    let c : ScopeChain := ⟨⟨.file, [⟨"x", .int, ⟨.static, 1⟩, none, 1⟩,
      ⟨"a", .array .int, ⟨.static, 0⟩, some 3, 1⟩], 0, 0⟩, [], [.array .int, .int], []⟩
    ∃ parsed typed c', Grammar.expression true (tokenize "x = a[1] += 2") = .ok (some parsed) ∧
      expression .empty parsed.value c = .ok typed c' ∧
      typed.code = [.pushInt 1, .storeStatic 2, .loadStatic 0, .loadStatic 2, .loadStatic 0, .loadStatic 2,
        .loadElem .int, .pushInt 2, .add, .dup, .storeStatic 3, .storeElem .int, .loadStatic 3, .dup,
        .storeStatic 1] ∧
      Refines arrayMachine .empty (Taken [] c c') true typed.code
        (arrayMachine.eval .empty c.resolve? parsed.value) := by
  intro c
  have ha : ScopeChain.empty.declare "a" (.array .int) .static (some 3) 1 = .ok (0, _) := rfl
  have hx : ScopeChain.declare
      ⟨⟨.file, [⟨"a", .array .int, ⟨.static, 0⟩, some 3, 1⟩], 0, 0⟩, [], [.array .int], []⟩
      "x" .int .static none 1 = .ok (1, c) := rfl
  have hc : Reachable [] c := .declare (.declare .empty (.inl rfl) rfl ha) (.inl rfl) rfl hx
  have hcode : (match Grammar.expression true (tokenize "x = a[1] += 2") with
      | .ok (some parsed) =>
        match expression .empty parsed.value c with
        | .ok typed _ => decide (typed.code = [.pushInt 1, .storeStatic 2, .loadStatic 0, .loadStatic 2,
            .loadStatic 0, .loadStatic 2, .loadElem .int, .pushInt 2, .add, .dup, .storeStatic 3,
            .storeElem .int, .loadStatic 3, .dup, .storeStatic 1])
        | .error _ _ => false
      | .ok none => false
      | .error _ => false) = true := by
    decide +kernel
  split at hcode
  next parsed hparsed =>
    split at hcode
    next typed c' htyped =>
      obtain ⟨hvalue, -⟩ := lowered_expression_correct arrayMachine .empty hc hparsed
      obtain ⟨ty, -, -, hrefines⟩ := hvalue typed c' htyped (arrayMachine_ignores _)
      exact ⟨parsed, typed, c', hparsed, htyped, of_decide_eq_true hcode, hrefines⟩
    next => cases hcode
  next => cases hcode
  next => cases hcode

end StackCompiler
