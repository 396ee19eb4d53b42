import StackCompiler.Proofs.Lowering.Outline
import StackCompiler.Proofs.Semantics.Machine

/-!
Two ways to run a function body on one interpretation of the instructions: its flat code, from position to
position along labels and jumps, and its outline, statement by statement. The outline keeps the end and
the step of a `for` statement as values and does not use the slots that the code has for them.
-/

set_option autoImplicit false
namespace StackCompiler

open Lowering

def Code.position (code : Code) (l : Label) : Option Nat :=
  code.findIdx? fun instr => instr = .label l

namespace Interpretation

variable {V W : Type} (I : Interpretation V W) (functions : List Signature) (code : Code)

/-- A conditional jump, taken when the value on the stack counts as `on`. -/
def branch (on : Bool) (l : Label) (pc : Nat) (s : State V W) : Option (Nat × State V W) :=
  match s.stack with
  | [] => none
  | v :: stack => (I.truth v).bind fun b =>
    if b = on then
      (code.position l).map fun pc => (pc, ⟨stack, s.memory⟩)
    else
      some (pc + 1, ⟨stack, s.memory⟩)

/-- One step of flat code. None is left at a return, and none where an instruction fails. -/
def step (c : Nat × State V W) : Option (Nat × State V W) :=
  match code[c.1]? with
  | none | some .return => none
  | some (.label _) => some (c.1 + 1, c.2)
  | some (.jump l) => (code.position l).map fun pc => (pc, c.2)
  | some (.jumpIfFalse l) => I.branch code false l c.1 c.2
  | some (.jumpIfTrue l) => I.branch code true l c.1 c.2
  | some instr => (I.exec functions instr c.2).map fun s => (c.1 + 1, s)

def steps : Nat → Nat × State V W → Option (Nat × State V W)
  | 0, c => some c
  | n + 1, c => (I.step functions code c).bind (steps n)

/-- The code, run from its start on an empty stack, reaches a return with just the returned value, if
there is one, on the stack. -/
def Returns (m : Memory V W) (v : Option V) (m' : Memory V W) : Prop :=
  ∃ n pc, I.steps functions code n (0, ⟨[], m⟩) = some (pc, ⟨v.toList, m'⟩) ∧
    code[pc]? = some .return

def evaluate (m : Memory V W) : Option (V × Memory V W) :=
  match I.run functions code ⟨[], m⟩ with
  | some ⟨[v], m'⟩ => some (v, m')
  | _ => none

def runBlock (m : Memory V W) : Option (Memory V W) :=
  match I.run functions code ⟨[], m⟩ with
  | some ⟨[], m'⟩ => some m'
  | _ => none

def decides (m : Memory V W) : Option (Bool × Memory V W) :=
  (I.evaluate functions code m).bind fun (v, m') => (I.truth v).map fun b => (b, m')

def compute (instr : Instr) (a b : V) (m : Memory V W) : Option (V × Memory V W) :=
  (I.act instr [a, b] m.globals).map fun (v, globals) => (v, { m with globals })

/-- Counter and end of a `for` statement. The start is stored before the end is evaluated; without an end
the bound is the start. -/
def enterRange (r : Counting) (m : Memory V W) : Option (V × Memory V W) := do
  let (start, m₁) ← I.evaluate functions r.start m
  match r.stop with
  | some stop => I.evaluate functions stop (m₁.set r.counter start)
  | none => some (start, m₁.set r.counter start)

/-- End and step of a `for` statement, evaluated once and in this order; without a step it is one. -/
def enterLoop (r : Counting) (m : Memory V W) : Option (V × V × Memory V W) := do
  let (bound, m₁) ← I.enterRange functions r m
  match r.step with
  | some (step, _) => (I.evaluate functions step m₁).map fun (stride, m₂) => (bound, stride, m₂)
  | none => some (bound, I.int 1, m₁)

def atMost (counter : Place) (bound : V) (m : Memory V W) : Option (Bool × Memory V W) :=
  (I.compute .le (m.cell counter) bound m).bind fun (v, m') => (I.truth v).map fun b => (b, m')

def increase (counter : Place) (stride : V) (m : Memory V W) : Option (Memory V W) :=
  (I.compute .add (m.cell counter) stride m).map fun (v, m') => m'.set counter v

/-- What a function returns when control reaches the end of its body. -/
def default : Ty → Option V
  | .int => some (I.int 0)
  | .bool => some (I.bool false)
  | .char => some (I.char '\x00')
  | .string => some (I.string "")
  | .void | .array _ => none

end Interpretation

/-- How a statement ends: at its end, at a `break` of the loop around it, or with a return. -/
inductive Outcome (V W : Type) where
  | normal (m : Memory V W)
  | broke (m : Memory V W)
  | returned (v : Option V) (m : Memory V W)

namespace Outcome

variable {V W : Type}

def memory : Outcome V W → Memory V W
  | normal m | broke m | returned _ m => m

def isNormal : Outcome V W → Bool
  | normal _ => true
  | _ => false

end Outcome

/-- What is to be executed: a statement, or the rest of a loop, from the test on. -/
inductive Task (V W : Type) where
  | run (b : Stmt)
  | loop (test : Memory V W → Option (Bool × Memory V W)) (advance : Memory V W → Option (Memory V W))
      (body : Stmt)

inductive Executes {V W : Type} (I : Interpretation V W) (functions : List Signature) :
    Task V W → Memory V W → Outcome V W → Prop where
  | skip {m : Memory V W} : Executes I functions (.run .skip) m (.normal m)
  | seq {first second : Stmt} {m m₁ : Memory V W} {o : Outcome V W}
      (head : Executes I functions (.run first) m (.normal m₁))
      (tail : Executes I functions (.run second) m₁ o) :
      Executes I functions (.run (.seq first second)) m o
  | seqEnd {first second : Stmt} {m : Memory V W} {o : Outcome V W}
      (head : Executes I functions (.run first) m o) (stops : o.isNormal = false) :
      Executes I functions (.run (.seq first second)) m o
  | block {code : Code} {m m' : Memory V W} (h : I.runBlock functions code m = some m') :
      Executes I functions (.run (.block code)) m (.normal m')
  | setup {prepared : Setup} {n : Nat} {m m' : Memory V W}
      (h : I.steps functions (prepared.code 0) n (0, ⟨[], m⟩) =
        some ((prepared.code 0).length, ⟨[], m'⟩)) :
      Executes I functions (.run (.setup prepared)) m (.normal m')
  | ifThen {test : Code} {yes : Stmt} {m m₁ : Memory V W} {o : Outcome V W}
      (h : I.decides functions test m = some (true, m₁))
      (branch : Executes I functions (.run yes) m₁ o) :
      Executes I functions (.run (.ifThen test yes)) m o
  | ifNot {test : Code} {yes : Stmt} {m m₁ : Memory V W}
      (h : I.decides functions test m = some (false, m₁)) :
      Executes I functions (.run (.ifThen test yes)) m (.normal m₁)
  | ifElse {test : Code} {yes no : Stmt} {b : Bool} {m m₁ : Memory V W} {o : Outcome V W}
      (h : I.decides functions test m = some (b, m₁))
      (branch : Executes I functions (.run (if b then yes else no)) m₁ o) :
      Executes I functions (.run (.ifElse test yes no)) m o
  | whileDo {test : Code} {body : Stmt} {m : Memory V W} {o : Outcome V W}
      (rest : Executes I functions (.loop (I.decides functions test) some body) m o) :
      Executes I functions (.run (.whileDo test body)) m o
  | forTo {r : Counting} {body : Stmt} {bound stride : V} {m m₁ : Memory V W} {o : Outcome V W}
      (h : I.enterLoop functions r m = some (bound, stride, m₁))
      (rest : Executes I functions
        (.loop (I.atMost r.counter bound) (I.increase r.counter stride) body) m₁ o) :
      Executes I functions (.run (.forTo r body)) m o
  | return {value : Code} {v : Option V} {m m' : Memory V W}
      (h : I.run functions value ⟨[], m⟩ = some ⟨v.toList, m'⟩) :
      Executes I functions (.run (.return value)) m (.returned v m')
  | breakLoop {m : Memory V W} : Executes I functions (.run .breakLoop) m (.broke m)
  | loopEnd {test : Memory V W → Option (Bool × Memory V W)} {advance : Memory V W → Option (Memory V W)}
      {body : Stmt} {m m₁ : Memory V W} (h : test m = some (false, m₁)) :
      Executes I functions (.loop test advance body) m (.normal m₁)
  | loopNext {test : Memory V W → Option (Bool × Memory V W)} {advance : Memory V W → Option (Memory V W)}
      {body : Stmt} {m m₁ m₂ m₃ : Memory V W} {o : Outcome V W} (h : test m = some (true, m₁))
      (inner : Executes I functions (.run body) m₁ (.normal m₂)) (step : advance m₂ = some m₃)
      (rest : Executes I functions (.loop test advance body) m₃ o) :
      Executes I functions (.loop test advance body) m o
  | loopBreak {test : Memory V W → Option (Bool × Memory V W)} {advance : Memory V W → Option (Memory V W)}
      {body : Stmt} {m m₁ m₂ : Memory V W} (h : test m = some (true, m₁))
      (inner : Executes I functions (.run body) m₁ (.broke m₂)) :
      Executes I functions (.loop test advance body) m (.normal m₂)
  | loopReturn {test : Memory V W → Option (Bool × Memory V W)}
      {advance : Memory V W → Option (Memory V W)} {body : Stmt} {v : Option V} {m m₁ m₂ : Memory V W}
      (h : test m = some (true, m₁)) (inner : Executes I functions (.run body) m₁ (.returned v m₂)) :
      Executes I functions (.loop test advance body) m (.returned v m₂)

/-- The structured execution of a whole body: a return, or the end of the body and the default value. -/
def Stmt.Returns {V W : Type} (body : Stmt) (I : Interpretation V W) (functions : List Signature)
    (result : Ty) (m : Memory V W) (v : Option V) (m' : Memory V W) : Prop :=
  Executes I functions (.run body) m (.returned v m') ∨
    Executes I functions (.run body) m (.normal m') ∧ v = I.default result

end StackCompiler
