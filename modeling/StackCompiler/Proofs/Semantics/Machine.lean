import StackCompiler.Image

/-!
A machine for straight code. Slots, pushes and the handling of the stack are fixed; what the other
instructions compute is left to an interpretation, which sees the static slots and the world (arrays,
input and output, anything else) but neither the locals nor the arguments of the running function.
-/

set_option autoImplicit false
namespace StackCompiler

/-- What a called function can reach. -/
structure Globals (V W : Type) where
  statics : Nat → V
  world : W

structure Memory (V W : Type) where
  globals : Globals V W
  locals : Nat → V
  args : Nat → V

/-- A meaning for the instructions that compute. `act` may fail; the value it yields counts only where
the instruction leaves one on the stack. `truth` is what a conditional jump makes of a value. -/
structure Interpretation (V W : Type) where
  int : Int32 → V
  bool : Bool → V
  char : Char → V
  string : String → V
  act : Instr → List V → Globals V W → Option (V × Globals V W)
  truth : V → Option Bool

/-- The running function's operand stack, the top first, and its memory. -/
@[ext]
structure State (V W : Type) where
  stack : List V
  memory : Memory V W

namespace Memory

variable {V W : Type}

def cell (m : Memory V W) : Place → V
  | ⟨.static, slot⟩ => m.globals.statics slot
  | ⟨.local, slot⟩ => m.locals slot
  | ⟨.arg, slot⟩ => m.args slot

def replace (cells : Nat → V) (slot : Nat) (v : V) : Nat → V :=
  fun n => if n = slot then v else cells n

def set (m : Memory V W) (place : Place) (v : V) : Memory V W :=
  match place with
  | ⟨.static, slot⟩ =>
    { m with globals := { m.globals with statics := replace m.globals.statics slot v } }
  | ⟨.local, slot⟩ => { m with locals := replace m.locals slot v }
  | ⟨.arg, slot⟩ => { m with args := replace m.args slot v }

theorem cell_set (m : Memory V W) (place other : Place) (v : V) :
    (m.set place v).cell other = if other = place then v else m.cell other := by
  obtain ⟨storage, slot⟩ := place
  obtain ⟨storage', slot'⟩ := other
  cases storage <;> cases storage' <;> simp [set, cell, replace]

@[simp] theorem cell_set_self (m : Memory V W) (place : Place) (v : V) :
    (m.set place v).cell place = v := by
  rw [cell_set, if_pos rfl]

@[simp] theorem world_set (m : Memory V W) (place : Place) (v : V) :
    (m.set place v).globals.world = m.globals.world := by
  obtain ⟨storage, slot⟩ := place
  cases storage <;> rfl

end Memory

variable {V W : Type}

structure Memory.Agree (T : Place → Prop) (m m₀ : Memory V W) : Prop where
  world : m.globals.world = m₀.globals.world
  cell : ∀ place, ¬T place → m.cell place = m₀.cell place

namespace Memory.Agree

variable {T : Place → Prop} {m m₀ : Memory V W}

theorem refl (m : Memory V W) : m.Agree T m :=
  ⟨rfl, fun _ _ => rfl⟩

theorem set (h : m.Agree T m₀) (place : Place) (v : V) : (m.set place v).Agree T (m₀.set place v) := by
  refine ⟨by rw [world_set, world_set, h.world], ?_⟩
  intro other hother
  rw [cell_set, cell_set, h.cell other hother]

theorem set_left (h : m.Agree T m₀) {place : Place} (hplace : T place) (v : V) :
    (m.set place v).Agree T m₀ := by
  refine ⟨by rw [world_set, h.world], ?_⟩
  intro other hother
  rw [cell_set, if_neg, h.cell other hother]
  rintro rfl
  exact hother hplace

end Memory.Agree

/-- Two computations that fail together and have related results. -/
theorem rel_iff {α β : Type} {R : α → β → Prop} {x : Option α} {y : Option β} :
    Option.Rel R x y ↔ (x = none ∧ y = none) ∨ ∃ a b, x = some a ∧ y = some b ∧ R a b := by
  constructor
  · intro h
    cases h with
    | none => exact .inl ⟨rfl, rfl⟩
    | some hab => exact .inr ⟨_, _, rfl, rfl, hab⟩
  · rintro (⟨rfl, rfl⟩ | ⟨a, b, rfl, rfl, hab⟩)
    · exact .none
    · exact .some hab

theorem rel_some_right {α β : Type} {R : α → β → Prop} {x : Option α} {y : Option β} {b : β}
    (h : Option.Rel R x y) (hb : y = some b) : ∃ a, x = some a ∧ R a b := by
  cases h with
  | none => cases hb
  | some hab =>
    cases hb
    exact ⟨_, rfl, hab⟩

theorem rel_some_left {α β : Type} {R : α → β → Prop} {x : Option α} {y : Option β} {a : α}
    (h : Option.Rel R x y) (ha : x = some a) : ∃ b, y = some b ∧ R a b := by
  cases h with
  | none => cases ha
  | some hab =>
    cases ha
    exact ⟨_, rfl, hab⟩

theorem rel_none_right {α β : Type} {R : α → β → Prop} {x : Option α} {y : Option β}
    (h : Option.Rel R x y) (hy : y = none) : x = none := by
  cases h with
  | none => rfl
  | some => cases hy

theorem rel_bind {α β γ δ : Type} {R : α → β → Prop} {S : γ → δ → Prop} {x : Option α} {y : Option β}
    {f : α → Option γ} {g : β → Option δ} (h : Option.Rel R x y)
    (hnext : ∀ a b, R a b → Option.Rel S (f a) (g b)) : Option.Rel S (x.bind f) (y.bind g) := by
  cases h with
  | none => exact .none
  | some hab => exact hnext _ _ hab

namespace Instr

def arity (functions : List Signature) : Instr → Option Nat
  | read _ => some 0
  | newArray _ | neg | not | length | random | box _ | print => some 1
  | loadElem _ | add | sub | mul | div | rem | max | min | and | or | eq | ne | gt | lt | ge | le => some 2
  | storeElem _ => some 3
  | call handle => (functions[handle]?).map fun callee => callee.parameters.length
  | printFormatted args => some (args + 1)
  | _ => none

def yields (functions : List Signature) : Instr → Bool
  | storeElem _ | print | printFormatted _ => false
  | call handle => (functions[handle]?).any fun callee => callee.result ≠ .void
  | _ => true

end Instr

namespace Interpretation

variable {V W : Type} (I : Interpretation V W) (functions : List Signature)

/-- An interpreted instruction on operands in the order in which they were pushed. -/
def apply (instr : Instr) (operands : List V) (m : Memory V W) : Option (Option V × Memory V W) :=
  (I.act instr operands m.globals).map fun (v, globals) =>
    (if instr.yields functions then some v else none, { m with globals })

def interpret (instr : Instr) (s : State V W) : Option (State V W) :=
  (instr.arity functions).bind fun n =>
    if n ≤ s.stack.length then
      (I.apply functions instr (s.stack.take n).reverse s.memory).map fun (v, memory) =>
        ⟨v.toList ++ s.stack.drop n, memory⟩
    else
      none

def exec (instr : Instr) (s : State V W) : Option (State V W) :=
  match instr, s.stack with
  | .pushInt n, stack => some ⟨I.int n :: stack, s.memory⟩
  | .pushBool b, stack => some ⟨I.bool b :: stack, s.memory⟩
  | .pushChar c, stack => some ⟨I.char c :: stack, s.memory⟩
  | .pushString text, stack => some ⟨I.string text :: stack, s.memory⟩
  | .loadStatic slot, stack => some ⟨s.memory.cell ⟨.static, slot⟩ :: stack, s.memory⟩
  | .loadLocal slot, stack => some ⟨s.memory.cell ⟨.local, slot⟩ :: stack, s.memory⟩
  | .loadArg slot, stack => some ⟨s.memory.cell ⟨.arg, slot⟩ :: stack, s.memory⟩
  | .storeStatic slot, v :: stack => some ⟨stack, s.memory.set ⟨.static, slot⟩ v⟩
  | .storeLocal slot, v :: stack => some ⟨stack, s.memory.set ⟨.local, slot⟩ v⟩
  | .storeArg slot, v :: stack => some ⟨stack, s.memory.set ⟨.arg, slot⟩ v⟩
  | .dup, v :: stack => some ⟨v :: v :: stack, s.memory⟩
  | .pop, _ :: stack => some ⟨stack, s.memory⟩
  | instr, _ => I.interpret functions instr s

def run (code : Code) (s : State V W) : Option (State V W) :=
  code.foldlM (fun s instr => I.exec functions instr s) s

@[simp] theorem run_nil (s : State V W) : I.run functions [] s = some s := rfl

theorem run_cons (instr : Instr) (code : Code) (s : State V W) :
    I.run functions (instr :: code) s = (I.exec functions instr s).bind (I.run functions code) := rfl

theorem run_append (code more : Code) (s : State V W) :
    I.run functions (code ++ more) s = (I.run functions code s).bind (I.run functions more) :=
  List.foldlM_append

@[simp] theorem exec_load (place : Place) (s : State V W) :
    I.exec functions (.load place) s = some ⟨s.memory.cell place :: s.stack, s.memory⟩ := by
  obtain ⟨storage, slot⟩ := place
  cases storage <;> rfl

@[simp] theorem exec_store (place : Place) (v : V) (stack : List V) (m : Memory V W) :
    I.exec functions (.store place) ⟨v :: stack, m⟩ = some ⟨stack, m.set place v⟩ := by
  obtain ⟨storage, slot⟩ := place
  cases storage <;> rfl

@[simp] theorem exec_dup (v : V) (stack : List V) (m : Memory V W) :
    I.exec functions .dup ⟨v :: stack, m⟩ = some ⟨v :: v :: stack, m⟩ := rfl

@[simp] theorem exec_pushInt (n : Int32) (s : State V W) :
    I.exec functions (.pushInt n) s = some ⟨I.int n :: s.stack, s.memory⟩ := rfl

@[simp] theorem exec_pushBool (b : Bool) (s : State V W) :
    I.exec functions (.pushBool b) s = some ⟨I.bool b :: s.stack, s.memory⟩ := rfl

@[simp] theorem exec_pushString (text : String) (s : State V W) :
    I.exec functions (.pushString text) s = some ⟨I.string text :: s.stack, s.memory⟩ := rfl

/-- An interpreted instruction that finds its operands. -/
theorem exec_apply {instr : Instr} (operands : List V)
    (harity : instr.arity functions = some operands.length) (stack : List V) (m : Memory V W) :
    I.exec functions instr ⟨operands.reverse ++ stack, m⟩ =
      (I.apply functions instr operands m).map fun (v, memory) => ⟨v.toList ++ stack, memory⟩ := by
  have hlength : operands.reverse.length = operands.length := by simp
  have hexec : I.exec functions instr ⟨operands.reverse ++ stack, m⟩ =
      I.interpret functions instr ⟨operands.reverse ++ stack, m⟩ := by
    cases instr <;> first | rfl | simp [Instr.arity] at harity
  rw [hexec, interpret, harity, Option.bind_some, if_pos (by simp), ← hlength, List.take_left,
    List.drop_left, List.reverse_reverse]

end Interpretation

/-- The instructions neither see nor change the static slots among `T`. -/
def Interpretation.Ignores (I : Interpretation V W) (T : Place → Prop) : Prop :=
  ∀ (instr : Instr) (operands : List V) (g g₀ : Globals V W), g.world = g₀.world →
    (∀ n, ¬T ⟨.static, n⟩ → g.statics n = g₀.statics n) →
    Option.Rel (fun r r₀ => r.1 = r₀.1 ∧ r.2.world = r₀.2.world ∧
        (∀ n, ¬T ⟨.static, n⟩ → r.2.statics n = r₀.2.statics n) ∧
        ∀ n, T ⟨.static, n⟩ → r.2.statics n = g.statics n)
      (I.act instr operands g) (I.act instr operands g₀)

/-- An interpreted instruction keeps memories in agreement, and the temporaries as they are. -/
theorem Interpretation.Ignores.apply {I : Interpretation V W} {T : Place → Prop} (hI : I.Ignores T)
    {m m₀ : Memory V W} (h : m.Agree T m₀) (functions : List Signature) (instr : Instr)
    (operands : List V) :
    Option.Rel (fun r r₀ => r.1 = r₀.1 ∧ r.2.Agree T r₀.2 ∧ ∀ place, T place → r.2.cell place = m.cell place)
      (I.apply functions instr operands m) (I.apply functions instr operands m₀) := by
  unfold Interpretation.apply
  have hact := hI instr operands m.globals m₀.globals h.world fun n hn => h.cell ⟨.static, n⟩ hn
  rcases rel_iff.1 hact with ⟨hr, hr₀⟩ | ⟨⟨v, g⟩, ⟨v₀, g₀⟩, hr, hr₀, rfl, hworld, hother, hsame⟩
  · rw [hr, hr₀]
    exact .none
  · rw [hr, hr₀]
    refine .some ⟨rfl, ⟨hworld, ?_⟩, ?_⟩
    · rintro ⟨storage, slot⟩ hplace
      cases storage with
      | static => exact hother slot hplace
      | «local» => exact h.cell ⟨.local, slot⟩ hplace
      | arg => exact h.cell ⟨.arg, slot⟩ hplace
    · rintro ⟨storage, slot⟩ hplace
      cases storage with
      | static => exact hsame slot hplace
      | «local» => rfl
      | arg => rfl

/-- Ints are 32-bit words: a sum wraps around, and a comparison is that of the signed values. -/
structure Interpretation.Words (I : Interpretation V W) : Prop where
  add : ∀ (a b : Int32) (g : Globals V W), I.act .add [I.int a, I.int b] g = some (I.int (a + b), g)
  le : ∀ (a b : Int32) (g : Globals V W),
    I.act .le [I.int a, I.int b] g = some (I.bool (decide (a ≤ b)), g)
  lt : ∀ (a b : Int32) (g : Globals V W),
    I.act .lt [I.int a, I.int b] g = some (I.bool (decide (a < b)), g)
  truth : ∀ b, I.truth (I.bool b) = some b

/-- Words that are compared can be told apart. -/
theorem Interpretation.Words.int_inj {I : Interpretation V W} (hI : I.Words) (g : Globals V W) {a b : Int32}
    (h : I.int a = I.int b) : a = b := by
  have hle : ∀ {a b : Int32}, I.int a = I.int b → a ≤ b := by
    intro a b h
    have hboth : I.act .le [I.int a, I.int b] g = I.act .le [I.int b, I.int b] g := by rw [h]
    rw [hI.le, hI.le] at hboth
    have htruth : I.truth (I.bool (decide (a ≤ b))) = I.truth (I.bool (decide (b ≤ b))) :=
      congrArg (fun r => I.truth r.1) (Option.some.inj hboth)
    rw [hI.truth, hI.truth] at htruth
    simpa using htruth
  exact Int32.le_antisymm (hle h) (hle h.symm)

end StackCompiler
