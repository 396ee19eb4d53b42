import StackCompiler.Proofs.Semantics.Counted
import StackCompiler.Proofs.Semantics.Relocation

/-!
The simulation between the outline of a function body and its flat code. A structured execution is followed
by the code to the place that its outcome names, and a run of the code that comes to a return follows a
structured execution. The memories of the two agree outside of the slots that counted loops use.
-/

set_option autoImplicit false
namespace StackCompiler

open Code Lowering

variable {V W : Type} {I : Interpretation V W} {f : Frame} {code : Code}

def Instr.jumpIf (on : Bool) (l : Label) : Instr :=
  if on then .jumpIfTrue l else .jumpIfFalse l

section Branches

variable {test : Code} {on : Bool} {l : Label} {p : Nat} {m : Memory V W}

theorem step_jumpIf (h : code[p]? = some (.jumpIf on l)) (s : State V W) :
    I.step f.functions code (p, s) = I.branch code on l p s := by
  cases on with
  | true => exact Interpretation.step_jumpIfTrue h s
  | false => exact Interpretation.step_jumpIfFalse h s

theorem steps_label (h : code[p]? = some (.label l)) (s : State V W) :
    I.steps f.functions code 1 (p, s) = some (p + 1, s) :=
  Interpretation.steps_one (Interpretation.step_label h s)

theorem steps_leave {target : Nat} (hplaced : code.placed.Nodup) (h : code[p]? = some (.jump l))
    (htarget : code[target]? = some (.label l)) (s : State V W) :
    I.steps f.functions code 1 (p, s) = some (target, s) := by
  refine Interpretation.steps_one ?_
  rw [Interpretation.step_jump h, position_of_getElem? hplaced htarget]
  rfl

/-- A condition and its jump. -/
theorem steps_branch {b : Bool} {m₁ : Memory V W} {target : Nat}
    (hat : At code p (test ++ [.jumpIf on l])) (hstraight : Straight test)
    (htarget : code.position l = some target) (h : I.decides f.functions test m = some (b, m₁)) :
    I.steps f.functions code (test.length + 1) (p, ⟨[], m⟩) =
      some (if b = on then target else p + test.length + 1, ⟨[], m₁⟩) := by
  obtain ⟨v, hrun, hb⟩ := Interpretation.decides_ok h
  have hblock := Interpretation.steps_straight hat.left hstraight hrun
  have hstep : I.step f.functions code (p + test.length, ⟨[v], m₁⟩) =
      some (if b = on then target else p + test.length + 1, ⟨[], m₁⟩) := by
    rw [step_jumpIf hat.right.head]
    simp only [Interpretation.branch, hb, Option.bind_some, htarget]
    split <;> rfl
  exact Interpretation.steps_trans hblock (Interpretation.steps_one hstep)

/-- A run to a return that starts at a condition decides it. -/
theorem decides_of_halts {cell : Cell} {n : Nat} {r : Nat × State V W}
    (hat : At code p (test ++ [.jumpIf on l])) (hcheck : Code.check f [] test = some [cell])
    (h : I.Halts f.functions code n (p, ⟨[], m⟩) r) :
    ∃ b m₁, I.decides f.functions test m = some (b, m₁) := by
  obtain ⟨s, j, hrun, -, hrest⟩ := h.straight hat.left (straight_of_check hcheck)
  rw [run_eq_evaluate hcheck] at hrun
  obtain ⟨⟨v, m₁⟩, heval, rfl⟩ := Option.map_eq_some_iff.1 hrun
  have hne : Instr.jumpIf on l ≠ .return := by cases on <;> simp [Instr.jumpIf]
  obtain ⟨c, -, hstep, -, -⟩ := hrest.step hat.right.head hne
  rw [step_jumpIf hat.right.head] at hstep
  obtain ⟨b, hb, -⟩ := Option.bind_eq_some_iff.1 hstep
  exact ⟨b, m₁, by simp [Interpretation.decides, heval, hb]⟩

end Branches

/-- Where a run has come to after a statement: behind it, at the exit of the loop around it, or at a return
with the value on the stack. -/
def Arrives (code : Code) (exit : Option Label) (behind : Nat) : Outcome V W → Nat → List V → Prop
  | .normal _, pc, stack => pc = behind ∧ stack = []
  | .broke _, pc, stack => (∃ l, exit = some l ∧ code.position l = some pc) ∧ stack = []
  | .returned v _, pc, stack => code[pc]? = some .return ∧ stack = v.toList

/-- The code runs from a position to where an outcome leads, and its memory agrees with that of the outcome.
Of the hidden slots it changes at most the slots `own`. -/
def Reaches (I : Interpretation V W) (functions : List Signature) (code : Code) (hidden own : List Place)
    (exit : Option Label) (p : Nat) (m : Memory V W) (behind : Nat) (o : Outcome V W) : Prop :=
  ∃ n pc stack m', I.steps functions code n (p, ⟨[], m⟩) = some (pc, ⟨stack, m'⟩) ∧
    Arrives code exit behind o pc stack ∧ m'.AgreeOff hidden o.memory ∧ m.Keeps hidden own m'

namespace Reaches

variable {hidden own own' : List Place} {exit : Option Label} {p behind : Nat} {m : Memory V W}
  {o : Outcome V W} {functions : List Signature}

theorem normal {n : Nat} {m' m₀ : Memory V W}
    (h : I.steps functions code n (p, ⟨[], m⟩) = some (behind, ⟨[], m'⟩))
    (hagree : m'.AgreeOff hidden m₀) (hkeeps : m.Keeps hidden own m') :
    Reaches I functions code hidden own exit p m behind (.normal m₀) :=
  ⟨n, behind, [], m', h, ⟨rfl, rfl⟩, hagree, hkeeps⟩

theorem mono (h : Reaches I functions code hidden own exit p m behind o)
    (hsub : ∀ place ∈ own, place ∈ own') : Reaches I functions code hidden own' exit p m behind o := by
  obtain ⟨n, pc, stack, m', hsteps, harrives, hagree, hkeeps⟩ := h
  exact ⟨n, pc, stack, m', hsteps, harrives, hagree, hkeeps.mono hsub⟩

/-- Steps before a run that reaches an outcome. -/
theorem after {n q : Nat} {m₁ : Memory V W}
    (hsteps : I.steps functions code n (p, ⟨[], m⟩) = some (q, ⟨[], m₁⟩))
    (hkeeps : m.Keeps hidden own m₁) (h : Reaches I functions code hidden own exit q m₁ behind o) :
    Reaches I functions code hidden own exit p m behind o := by
  obtain ⟨k, pc, stack, m', hrest, harrives, hagree, hkeeps'⟩ := h
  exact ⟨n + k, pc, stack, m', Interpretation.steps_trans hsteps hrest, harrives, hagree,
    hkeeps.trans hkeeps'⟩

/-- An outcome other than the normal one does not depend on what comes behind the statement. -/
theorem stops (h : Reaches I functions code hidden own exit p m behind o) (ho : o.isNormal = false)
    (behind' : Nat) : Reaches I functions code hidden own exit p m behind' o := by
  obtain ⟨n, pc, stack, m', hsteps, harrives, hrest⟩ := h
  refine ⟨n, pc, stack, m', hsteps, ?_, hrest⟩
  cases o with
  | normal => cases ho
  | broke | returned => exact harrives

/-- A return does not depend on what comes behind the loop either. -/
theorem leaves {v : Option V} {m₀ : Memory V W}
    (h : Reaches I functions code hidden own exit p m behind (.returned v m₀)) (exit' : Option Label)
    (behind' : Nat) : Reaches I functions code hidden own exit' p m behind' (.returned v m₀) :=
  h

/-- Steps behind a statement that leave the memory as it is. -/
theorem onward {k behind' : Nat} (h : Reaches I functions code hidden own exit p m behind o)
    (hsteps : ∀ m', I.steps functions code k (behind, ⟨[], m'⟩) = some (behind', ⟨[], m'⟩)) :
    Reaches I functions code hidden own exit p m behind' o := by
  by_cases ho : o.isNormal = false
  · exact h.stops ho behind'
  obtain ⟨n, pc, stack, m', hfirst, harrives, hrest⟩ := h
  cases o with
  | broke | returned => exact absurd rfl ho
  | normal m₀ =>
    obtain ⟨rfl, rfl⟩ := harrives
    exact ⟨n + k, behind', [], m', Interpretation.steps_trans hfirst (hsteps m'), ⟨rfl, rfl⟩, hrest⟩

end Reaches

/-- The parts of a loop in code, `q` being the place of the test. -/
structure LoopAt (code : Code) (p q : Nat) (l : Label) (body advance test : Code) : Prop where
  enter : code[p]? = some (.jump (l + 1))
  start : code[p + 1]? = some (.label l)
  bodyAt : At code (p + 2) body
  advanceAt : At code (p + 2 + body.length) advance
  place : q = p + 2 + body.length + advance.length
  again : code[q]? = some (.label (l + 1))
  testAt : At code (q + 1) (test ++ [.jumpIf true l])
  exit : code[q + 1 + test.length + 1]? = some (.label (l + 2))

theorem loopAt {p : Nat} {l : Label} {body advance test : Code}
    (h : At code p (loopCode l body advance test)) :
    LoopAt code p (p + 2 + body.length + advance.length) l body advance test := by
  have hsplit : loopCode l body advance test = [Instr.jump (l + 1), .label l] ++ (body ++ (advance ++
      (Instr.label (l + 1) :: ((test ++ [Instr.jumpIf true l]) ++ [Instr.label (l + 2)])))) := by
    simp [loopCode, Instr.jumpIf]
  rw [hsplit] at h
  have hlast := h.right.right.right.tail.right.head
  rw [List.length_append] at hlast
  exact ⟨h.head, h.tail.head, h.right.left, h.right.right.left, rfl, h.right.right.right.head,
    h.right.right.right.tail.left, hlast⟩

theorem loopCode_length (l : Label) (body advance test : Code) :
    (loopCode l body advance test).length = body.length + advance.length + test.length + 5 := by
  simp [loopCode]
  omega

/-- A loop of the code and a loop of the structured execution. Test and advance agree while the memory
satisfies `hold`, and the body does not spoil this. -/
structure SameLoop (I : Interpretation V W) (f : Frame) (hidden : List Place) (body : Stmt)
    (advance test : Code) (hold : Memory V W → Prop) (test₀ : Memory V W → Option (Bool × Memory V W))
    (advance₀ : Memory V W → Option (Memory V W)) : Prop where
  checkTest : ∃ cell, Code.check f [] test = some [cell]
  checkAdvance : Code.check f [] advance = some []
  keeps : ∀ m m', m.Keeps hidden body.temps m' → hold m → hold m'
  test : ∀ m m₀, m.AgreeOff hidden m₀ → hold m →
    Option.Rel (fun r r₀ => r.1 = r₀.1 ∧ r.2.AgreeOff hidden r₀.2 ∧ m.Keeps hidden [] r.2)
      (I.decides f.functions test m) (test₀ m₀)
  advance : ∀ m m₀, m.AgreeOff hidden m₀ → hold m →
    Option.Rel (fun m' m₀' => m'.AgreeOff hidden m₀' ∧ m.Keeps hidden [] m')
      (I.runBlock f.functions advance m) (advance₀ m₀)

section Loops

variable {hidden : List Place} {p q : Nat} {l : Label} {body : Stmt} {bodyCode advance test : Code}
  {hold : Memory V W → Prop} {test₀ : Memory V W → Option (Bool × Memory V W)}
  {advance₀ : Memory V W → Option (Memory V W)} (hplaced : code.placed.Nodup)
  (hloop : LoopAt code p q l bodyCode advance test)
  (hsame : SameLoop I f hidden body advance test hold test₀ advance₀) {m m₀ : Memory V W}

include hplaced hloop

include hsame

/-- The test of a loop leads to the body or behind the loop. -/
theorem steps_test (hagree : m.AgreeOff hidden m₀) (hold : hold m) {b : Bool} {m₀₁ : Memory V W}
    (h : test₀ m₀ = some (b, m₀₁)) :
    ∃ n m₁, I.steps f.functions code (n + 1) (q, ⟨[], m⟩) =
        some (if b then p + 2 else q + test.length + 3, ⟨[], m₁⟩) ∧
      m₁.AgreeOff hidden m₀₁ ∧ m.Keeps hidden [] m₁ := by
  obtain ⟨cell, hcheck⟩ := hsame.checkTest
  obtain ⟨⟨b₁, m₁⟩, hdecides, heq, hagree₁, hkeeps₁⟩ :=
    rel_some_right (hsame.test m m₀ hagree hold) h
  have heq : b₁ = b := heq
  rw [heq] at hdecides
  have hlabel : I.steps f.functions code 1 (q, ⟨[], m⟩) = _ := steps_label hloop.again _
  have hbranch := steps_branch hloop.testAt (straight_of_check hcheck)
    (position_of_getElem? hplaced hloop.start) hdecides
  have htest := Interpretation.steps_trans hlabel hbranch
  cases b with
  | true =>
    have hnext : I.steps f.functions code 1 (p + 1, ⟨[], m₁⟩) = _ := steps_label hloop.start _
    exact ⟨_, m₁, Interpretation.steps_trans htest hnext, hagree₁, hkeeps₁⟩
  | false =>
    have hnext : I.steps f.functions code 1 (q + 1 + test.length + 1, ⟨[], m₁⟩) = _ :=
      steps_label hloop.exit _
    have hall := Interpretation.steps_trans htest hnext
    have hbehind : q + 1 + test.length + 1 + 1 = q + test.length + 3 := by omega
    rw [hbehind] at hall
    exact ⟨_, m₁, hall, hagree₁, hkeeps₁⟩

omit hplaced in
/-- Behind the body the loop advances and comes back to the test. -/
theorem steps_advance (hagree : m.AgreeOff hidden m₀) (hold : hold m) {m₀₁ : Memory V W}
    (h : advance₀ m₀ = some m₀₁) :
    ∃ n m₁, I.steps f.functions code n (p + 2 + bodyCode.length, ⟨[], m⟩) = some (q, ⟨[], m₁⟩) ∧
      m₁.AgreeOff hidden m₀₁ ∧ m.Keeps hidden [] m₁ := by
  obtain ⟨m₁, hrun, hagree₁, hkeeps₁⟩ := rel_some_right (hsame.advance m m₀ hagree hold) h
  have hblock : I.run f.functions advance ⟨[], m⟩ = some ⟨[], m₁⟩ := by
    rw [run_eq_runBlock hsame.checkAdvance, hrun]
    rfl
  have hsteps :=
    Interpretation.steps_straight hloop.advanceAt (straight_of_check hsame.checkAdvance) hblock
  rw [← hloop.place] at hsteps
  exact ⟨_, m₁, hsteps, hagree₁, hkeeps₁⟩

end Loops

section Instances

variable {hidden : List Place} (hlocal : ∀ place ∈ hidden, place.storage = .local)
include hlocal

theorem sameLoop_while {test : Code} (body : Stmt)
    (h : Code.check (f.without hidden) [] test = some [.value .bool]) :
    SameLoop I f hidden body [] test (fun _ => True) (I.decides f.functions test) some := by
  refine ⟨⟨_, check_of_without h⟩, rfl, fun _ _ _ _ => trivial, ?_, ?_⟩
  · intro m m₀ hagree _
    exact decides_alike hlocal (avoids_of_check h) hagree
  · intro m m₀ hagree _
    exact .some ⟨hagree, .refl m⟩

theorem sameLoop_for {r : Counting} {body : Stmt} (h : r.Typed f hidden)
    (hown : ∀ place ∈ r.temps, place ∉ body.temps) (bound stride : V) :
    SameLoop I f hidden body r.range.advance r.range.test (r.Holds I bound stride)
      (I.atMost r.counter bound) (I.increase r.counter stride) := by
  obtain ⟨-, hadvance, htest⟩ := h.checks
  refine ⟨⟨_, htest⟩, hadvance, ?_, ?_, ?_⟩
  · intro m m' hkeeps hholds
    exact hholds.kept fun place hplace => hkeeps place (h.temps place hplace).2 (hown place hplace)
  · intro m m₀ hagree hold
    rw [hold.test_eq]
    exact atMost_alike hlocal h.counter_visible hagree bound
  · intro m m₀ hagree hold
    rw [hold.advance_eq]
    exact increase_alike hlocal h.counter_visible hagree stride

end Instances

def Exits (code : Code) (inLoop : Bool) (exit : Option Label) : Prop :=
  inLoop = true → ∃ l pc, exit = some l ∧ code.position l = some pc

def Followed (I : Interpretation V W) (f : Frame) (hidden : List Place) (result : Ty) (code : Code)
    (task : Task V W) (m₀ : Memory V W) (o : Outcome V W) : Prop :=
  match task with
  | .run b => ∀ {p next exit inLoop} {m : Memory V W}, At code p (b.code exit next) →
      b.Typed f hidden result inLoop → Exits code inLoop exit → m.AgreeOff hidden m₀ →
      Reaches I f.functions code hidden b.temps exit p m (p + (b.code exit next).length) o
  | .loop test₀ advance₀ body => ∀ {p q l advance test hold exit} {m : Memory V W},
      LoopAt code p q l (body.code (some (l + 2)) (l + 3)) advance test →
      body.Typed f hidden result true → SameLoop I f hidden body advance test hold test₀ advance₀ →
      hold m → m.AgreeOff hidden m₀ →
      Reaches I f.functions code hidden body.temps exit q m (q + test.length + 3) o

section Forward

variable {hidden : List Place} {result : Ty} (hlocal : ∀ place ∈ hidden, place.storage = .local)
include hlocal

theorem followed_block {block : Code} {m₀ m₀' : Memory V W}
    (h : I.runBlock f.functions block m₀ = some m₀') :
    Followed I f hidden result code (.run (.block block)) m₀ (.normal m₀') := by
  intro p next exit inLoop m hat htyped _ hagree
  have hrel : Option.Rel _ (I.runBlock f.functions block m) (I.runBlock f.functions block m₀) :=
    runBlock_alike hlocal (avoids_of_check htyped) hagree
  obtain ⟨m', hblock, hagree', hkeeps⟩ := rel_some_right hrel h
  have hcheck := check_of_without htyped
  have hrun : I.run f.functions block ⟨[], m⟩ = some ⟨[], m'⟩ := by
    rw [run_eq_runBlock hcheck, hblock]
    rfl
  exact .normal (Interpretation.steps_straight hat (straight_of_check hcheck) hrun) hagree' hkeeps

theorem followed_return {value : Code} {v : Option V} {m₀ m₀' : Memory V W}
    (h : I.run f.functions value ⟨[], m₀⟩ = some ⟨v.toList, m₀'⟩) :
    Followed I f hidden result code (.run (.return value)) m₀ (.returned v m₀') := by
  intro p next exit inLoop m hat htyped _ hagree
  have hrel : Option.Rel _ (I.run f.functions value ⟨[], m⟩) (I.run f.functions value ⟨[], m₀⟩) :=
    run_alike hlocal (avoids_of_check htyped) hagree []
  obtain ⟨⟨_, m'⟩, hrun, rfl, hagree', hkeeps⟩ := rel_some_right hrel h
  have hstraight := straight_of_check (check_of_without htyped)
  have hsteps := Interpretation.steps_straight hat.left hstraight hrun
  exact ⟨_, _, _, m', hsteps, ⟨hat.right.head, rfl⟩, hagree', hkeeps⟩

variable (hplaced : code.placed.Nodup)
include hplaced

theorem followed_setup {prepared : Setup} {n : Nat} {m₀ m₀' : Memory V W}
    (h : I.steps f.functions (prepared.code 0) n (0, ⟨[], m₀⟩) =
      some ((prepared.code 0).length, ⟨[], m₀'⟩)) :
    Followed I f hidden result code (.run (.setup prepared)) m₀ (.normal m₀') := by
  intro p next exit inLoop m hat htyped _ hagree
  have htyped : prepared.Typed (f.without hidden) := htyped
  obtain ⟨m', hsteps, hagree', hkeeps⟩ := htyped.steps hplaced hat hlocal hagree h
  exact .normal hsteps hagree' hkeeps

/-- A condition of an `if` statement leads on, or to the label of the jump. -/
theorem steps_condition {test : Code} {l : Label} {p target : Nat} {b : Bool} {m m₀ m₀₁ : Memory V W}
    (hcheck : Code.check (f.without hidden) [] test = some [.value .bool])
    (hat : At code p (test ++ [.jumpIf false l])) (htarget : code[target]? = some (.label l))
    (hagree : m.AgreeOff hidden m₀) (h : I.decides f.functions test m₀ = some (b, m₀₁)) :
    ∃ n m₁, I.steps f.functions code n (p, ⟨[], m⟩) =
        some (if b then p + test.length + 1 else target, ⟨[], m₁⟩) ∧
      m₁.AgreeOff hidden m₀₁ ∧ m.Keeps hidden [] m₁ := by
  have hrel : Option.Rel _ (I.decides f.functions test m) (I.decides f.functions test m₀) :=
    decides_alike hlocal (avoids_of_check hcheck) hagree
  obtain ⟨⟨b₁, m₁⟩, hdecides, heq, hagree₁, hkeeps₁⟩ := rel_some_right hrel h
  have heq : b₁ = b := heq
  rw [heq] at hdecides
  have hsteps := steps_branch hat (straight_of_check (check_of_without hcheck))
    (position_of_getElem? hplaced htarget) hdecides
  refine ⟨_, m₁, hsteps.trans ?_, hagree₁, hkeeps₁⟩
  cases b <;> rfl

end Forward

structure IfThenAt (code : Code) (p next : Nat) (test yes : Code) : Prop where
  testAt : At code p (test ++ [.jumpIf false next])
  yesAt : At code (p + test.length + 1) yes
  exit : code[p + test.length + 1 + yes.length]? = some (.label next)

theorem ifThenAt {test : Code} {yes : Stmt} {exit : Option Label} {p next : Nat}
    (h : At code p (Stmt.code exit next (.ifThen test yes))) :
    IfThenAt code p next test (yes.code exit (next + 1)) := by
  have hsplit : Stmt.code exit next (.ifThen test yes) =
      (test ++ [Instr.jumpIf false next]) ++ (yes.code exit (next + 1) ++ [Instr.label next]) := by
    simp [Stmt.code, Instr.jumpIf]
  rw [hsplit] at h
  have hlength : p + (test ++ [Instr.jumpIf false next]).length = p + test.length + 1 := by
    simp [Nat.add_assoc]
  have hrest := h.right
  rw [hlength] at hrest
  exact ⟨h.left, hrest.left, hrest.right.head⟩

structure IfElseAt (code : Code) (p next : Nat) (test yes no : Code) : Prop where
  testAt : At code p (test ++ [.jumpIf false next])
  yesAt : At code (p + test.length + 1) yes
  leave : code[p + test.length + 1 + yes.length]? = some (.jump (next + 1))
  other : code[p + test.length + 1 + yes.length + 1]? = some (.label next)
  noAt : At code (p + test.length + 1 + yes.length + 2) no
  exit : code[p + test.length + 1 + yes.length + 2 + no.length]? = some (.label (next + 1))

theorem ifElseAt {test : Code} {yes no : Stmt} {exit : Option Label} {p next : Nat}
    (h : At code p (Stmt.code exit next (.ifElse test yes no))) :
    IfElseAt code p next test (yes.code exit (next + 2)) (no.code exit (next + 2 + yes.labels)) := by
  have hsplit : Stmt.code exit next (.ifElse test yes no) = (test ++ [Instr.jumpIf false next]) ++
      (yes.code exit (next + 2) ++ (Instr.jump (next + 1) :: .label next ::
        (no.code exit (next + 2 + yes.labels) ++ [Instr.label (next + 1)]))) := by
    simp [Stmt.code, Instr.jumpIf]
  rw [hsplit] at h
  have hlength : p + (test ++ [Instr.jumpIf false next]).length = p + test.length + 1 := by
    simp [Nat.add_assoc]
  have hrest := h.right
  rw [hlength] at hrest
  exact ⟨h.left, hrest.left, hrest.right.head, hrest.right.tail.head, hrest.right.tail.tail.left,
    hrest.right.tail.tail.right.head⟩

section Rounds

variable {hidden : List Place} {result : Ty} {p q : Nat} {l : Label} {body : Stmt} {advance test : Code}
  {hold : Memory V W → Prop} {test₀ : Memory V W → Option (Bool × Memory V W)}
  {advance₀ : Memory V W → Option (Memory V W)} {m m₀ : Memory V W} {o : Outcome V W}
  (hplaced : code.placed.Nodup) (htyped : body.Typed f hidden result true)
  (hsame : SameLoop I f hidden body advance test hold test₀ advance₀) (hhold : hold m)
  (hagree : m.AgreeOff hidden m₀)
include hplaced htyped hsame hhold hagree

/-- One more round of a loop: the test holds, and the body runs. -/
theorem reaches_round (hloop : LoopAt code p q l (body.code (some (l + 2)) (l + 3)) advance test)
    {m₀₁ : Memory V W} (htest : test₀ m₀ = some (true, m₀₁))
    (ih : Followed I f hidden result code (.run body) m₀₁ o) :
    Reaches I f.functions code hidden body.temps (some (l + 2)) q m
      (p + 2 + (body.code (some (l + 2)) (l + 3)).length) o := by
  obtain ⟨n, m₁, hsteps, hagree₁, hkeeps₁⟩ := steps_test hplaced hloop hsame hagree hhold htest
  have hexits : Exits code true (some (l + 2)) :=
    fun _ => ⟨_, _, rfl, position_of_getElem? hplaced hloop.exit⟩
  exact .after hsteps (hkeeps₁.mono (by simp)) (ih hloop.bodyAt htyped hexits hagree₁)

/-- A whole loop, from the jump to its test on. -/
theorem reaches_loop {exit : Option Label}
    (hat : At code p (loopCode l (body.code (some (l + 2)) (l + 3)) advance test))
    (ih : Followed I f hidden result code (.loop test₀ advance₀ body) m₀ o) :
    Reaches I f.functions code hidden body.temps exit p m
      (p + (loopCode l (body.code (some (l + 2)) (l + 3)) advance test).length) o := by
  have hloop := loopAt hat
  have hrest : Reaches I f.functions code hidden body.temps exit _ m _ o :=
    ih hloop htyped hsame hhold hagree
  have hbehind : p + 2 + (body.code (some (l + 2)) (l + 3)).length + advance.length + test.length + 3 =
      p + (loopCode l (body.code (some (l + 2)) (l + 3)) advance test).length := by
    rw [loopCode_length]
    omega
  rw [hbehind] at hrest
  exact .after (steps_leave hplaced hloop.enter hloop.again _) (.refl m) hrest

end Rounds

section Forward

variable {hidden : List Place} {result : Ty} (hlocal : ∀ place ∈ hidden, place.storage = .local)
  (hplaced : code.placed.Nodup)
include hlocal hplaced

/-- The code follows every structured execution. -/
theorem Executes.followed {task : Task V W} {m₀ : Memory V W} {o : Outcome V W}
    (h : Executes I f.functions task m₀ o) : Followed I f hidden result code task m₀ o := by
  induction h with
  | skip =>
    intro p next exit inLoop m _ _ _ hagree
    exact .normal (show I.steps _ _ 0 _ = _ from rfl) hagree (.refl m)
  | @seq first second m₀ m₀₁ o _ _ ih₁ ih₂ =>
    intro p next exit inLoop m hat htyped hexit hagree
    obtain ⟨n, _, _, m₁, hsteps, ⟨rfl, rfl⟩, hagree₁, hkeeps₁⟩ := ih₁ hat.left htyped.1 hexit hagree
    have hrest := ih₂ hat.right htyped.2 hexit hagree₁
    rw [Nat.add_assoc, ← List.length_append] at hrest
    exact .after hsteps (hkeeps₁.mono (by simp +contextual [Stmt.temps]))
      (hrest.mono (by simp +contextual [Stmt.temps]))
  | seqEnd _ stops ih =>
    intro p next exit inLoop m hat htyped hexit hagree
    have hfirst := ih hat.left htyped.1 hexit hagree
    exact (hfirst.mono (by simp +contextual [Stmt.temps])).stops stops _
  | block h => exact followed_block hlocal h
  | setup h => exact followed_setup hlocal hplaced h
  | @ifThen test yes _ _ _ h _ ih =>
    intro p next exit inLoop m hat htyped hexit hagree
    have hif := ifThenAt hat
    obtain ⟨n, m₁, hsteps, hagree₁, hkeeps₁⟩ :=
      steps_condition hlocal hplaced htyped.1 hif.testAt hif.exit hagree h
    have hyes := ih hif.yesAt htyped.2 hexit hagree₁
    have hbehind : p + (Stmt.code exit next (.ifThen test yes)).length =
        p + test.length + 1 + (yes.code exit (next + 1)).length + 1 := by
      simp [Stmt.code]
      omega
    rw [hbehind]
    exact .after hsteps (hkeeps₁.mono (by simp)) (hyes.onward fun m' => steps_label hif.exit _)
  | @ifNot test yes _ _ h =>
    intro p next exit inLoop m hat htyped hexit hagree
    have hif := ifThenAt hat
    obtain ⟨n, m₁, hsteps, hagree₁, hkeeps₁⟩ :=
      steps_condition hlocal hplaced htyped.1 hif.testAt hif.exit hagree h
    have hbehind : p + (Stmt.code exit next (.ifThen test yes)).length =
        p + test.length + 1 + (yes.code exit (next + 1)).length + 1 := by
      simp [Stmt.code]
      omega
    rw [hbehind]
    exact .normal (Interpretation.steps_trans hsteps (steps_label hif.exit _)) hagree₁
      (hkeeps₁.mono (by simp))
  | @ifElse test yes no b _ _ _ h _ ih =>
    intro p next exit inLoop m hat htyped hexit hagree
    have hif := ifElseAt hat
    obtain ⟨n, m₁, hsteps, hagree₁, hkeeps₁⟩ :=
      steps_condition hlocal hplaced htyped.1 hif.testAt hif.other hagree h
    have hbehind : p + (Stmt.code exit next (.ifElse test yes no)).length =
        p + test.length + 1 + (yes.code exit (next + 2)).length + 2 +
          (no.code exit (next + 2 + yes.labels)).length + 1 := by
      simp [Stmt.code]
      omega
    have hkeeps₁ : m.Keeps hidden (yes.temps ++ no.temps) m₁ := hkeeps₁.mono (by simp)
    rw [hbehind]
    cases b with
    | true =>
      have hyes : Reaches I f.functions code hidden yes.temps exit _ m₁ _ _ :=
        ih hif.yesAt htyped.2.1 hexit hagree₁
      have hyes := hyes.mono fun place hplace => List.mem_append_left no.temps hplace
      exact .after hsteps hkeeps₁ (hyes.onward fun m' =>
        Interpretation.steps_trans (steps_leave hplaced hif.leave hif.exit _) (steps_label hif.exit _))
    | false =>
      have hno : Reaches I f.functions code hidden no.temps exit _ m₁ _ _ :=
        ih hif.noAt htyped.2.2 hexit hagree₁
      have hno := hno.mono fun place hplace => List.mem_append_right yes.temps hplace
      have hskip := Interpretation.steps_trans hsteps (steps_label hif.other _)
      exact .after hskip hkeeps₁ (hno.onward fun m' => steps_label hif.exit _)
  | @whileDo test body _ _ _ ih =>
    intro p next exit inLoop m hat htyped hexit hagree
    exact reaches_loop hplaced htyped.2 (sameLoop_while hlocal body htyped.1) trivial hagree hat ih
  | @forTo r body bound stride _ _ _ h _ ih =>
    intro p next exit inLoop m hat htyped hexit hagree
    obtain ⟨hrange, hown, hbody⟩ := htyped
    have hrel : Option.Rel _ (I.run f.functions r.range.code ⟨[], m⟩) _ :=
      enterLoop_alike hlocal hrange hagree
    obtain ⟨⟨stack, m₁⟩, hrun, hstack, hagree₁, hholds, hkeeps₁⟩ := rel_some_right hrel h
    simp only at hstack hagree₁ hholds hkeeps₁
    subst hstack
    have hsteps := Interpretation.steps_straight hat.left (straight_of_check hrange.checks.1) hrun
    have hsame : SameLoop I f hidden body _ _ _ _ _ := sameLoop_for hlocal hrange hown bound stride
    have hrest : Reaches I f.functions code hidden body.temps exit _ m₁ _ _ :=
      reaches_loop hplaced hbody hsame hholds hagree₁ hat.right ih
    rw [Nat.add_assoc, ← List.length_append] at hrest
    exact .after hsteps (hkeeps₁.mono (by simp +contextual [Stmt.temps]))
      (hrest.mono (by simp +contextual [Stmt.temps]))
  | «return» h => exact followed_return hlocal h
  | breakLoop =>
    intro p next exit inLoop m hat htyped hexit hagree
    obtain ⟨l, pc, rfl, hposition⟩ := hexit htyped
    have hstep : I.step f.functions code (p, ⟨[], m⟩) = some (pc, ⟨[], m⟩) := by
      rw [Interpretation.step_jump hat.head, hposition]
      rfl
    exact ⟨1, pc, [], m, Interpretation.steps_one hstep, ⟨⟨l, rfl, hposition⟩, rfl⟩, hagree, .refl m⟩
  | loopEnd h =>
    intro p q l advance test hold exit m hloop htyped hsame hhold hagree
    obtain ⟨n, m₁, hsteps, hagree₁, hkeeps₁⟩ := steps_test hplaced hloop hsame hagree hhold h
    exact .normal hsteps hagree₁ (hkeeps₁.mono (by simp))
  | @loopNext _ _ body _ _ _ _ _ h _ step _ ih₁ ih₂ =>
    intro p q l advance test hold exit m hloop htyped hsame hhold hagree
    obtain ⟨n, _, _, m₂, hround, ⟨rfl, rfl⟩, hagree₂, hkeeps₂⟩ :=
      reaches_round hplaced htyped hsame hhold hagree hloop h ih₁
    have hhold₂ := hsame.keeps m m₂ hkeeps₂ hhold
    obtain ⟨k, m₃, hback, hagree₃, hkeeps₃⟩ := steps_advance hloop hsame hagree₂ hhold₂ step
    have hkeeps₃ : m₂.Keeps hidden body.temps m₃ := hkeeps₃.mono (by simp)
    have hrest : Reaches I f.functions code hidden body.temps exit _ m₃ _ _ :=
      ih₂ hloop htyped hsame (hsame.keeps m₂ m₃ hkeeps₃ hhold₂) hagree₃
    exact .after (Interpretation.steps_trans hround hback) (hkeeps₂.trans hkeeps₃) hrest
  | loopBreak h _ ih =>
    intro p q l advance test hold exit m hloop htyped hsame hhold hagree
    obtain ⟨n, pc, _, m₂, hround, ⟨⟨_, hl, hpc⟩, rfl⟩, hagree₂, hkeeps₂⟩ :=
      reaches_round hplaced htyped hsame hhold hagree hloop h ih
    cases hl
    rw [position_of_getElem? hplaced hloop.exit] at hpc
    cases hpc
    have hall := Interpretation.steps_trans hround (steps_label hloop.exit _)
    have hbehind : q + 1 + test.length + 1 + 1 = q + test.length + 3 := by omega
    rw [hbehind] at hall
    exact .normal hall hagree₂ hkeeps₂
  | loopReturn h _ ih =>
    intro p q l advance test hold exit m hloop htyped hsame hhold hagree
    have hround := reaches_round hplaced htyped hsame hhold hagree hloop h ih
    exact hround.leaves exit _

end Forward

/-- A run to a return that starts at a statement executes it. -/
def Completes (I : Interpretation V W) (f : Frame) (hidden : List Place) (result : Ty) (code : Code)
    (b : Stmt) : Prop :=
  ∀ {p next exit inLoop n r} {m m₀ : Memory V W}, At code p (b.code exit next) →
    b.Typed f hidden result inLoop → Exits code inLoop exit → m.AgreeOff hidden m₀ →
    I.Halts f.functions code n (p, ⟨[], m⟩) r → ∃ o, Executes I f.functions (.run b) m₀ o

section Backward

variable {hidden : List Place} {result : Ty} (hlocal : ∀ place ∈ hidden, place.storage = .local)
include hlocal

theorem completes_return (value : Code) : Completes I f hidden result code (.return value) := by
  intro p next exit inLoop n r m m₀ hat htyped _ hagree h
  have hcheck := check_of_without htyped
  obtain ⟨s, -, hrun, -, -⟩ := h.straight hat.left (straight_of_check hcheck)
  have hrel : Option.Rel _ (I.run f.functions value ⟨[], m⟩) (I.run f.functions value ⟨[], m₀⟩) :=
    run_alike hlocal (avoids_of_check htyped) hagree []
  obtain ⟨⟨stack, m₀'⟩, hrun₀, -⟩ := rel_some_left hrel hrun
  -- a result leaves one value on the stack, and `void` leaves none
  have hlength : stack.length = (StackType.push result []).length := run_length hcheck hrun₀ rfl
  have hstack : stack = stack.head?.toList := by
    match stack with
    | [] | [v] => rfl
    | v :: w :: stack =>
      unfold StackType.push at hlength
      split at hlength <;> simp at hlength
  rw [hstack] at hrun₀
  exact ⟨_, .return hrun₀⟩

variable (hplaced : code.placed.Nodup)
include hplaced

/-- A run that comes behind a statement in the course of a structured execution goes on from there. -/
theorem halts_behind {b : Stmt} {p next n : Nat} {exit : Option Label} {inLoop : Bool}
    {r : Nat × State V W} {m m₀ m₀' : Memory V W} (hat : At code p (b.code exit next))
    (htyped : b.Typed f hidden result inLoop) (hexits : Exits code inLoop exit)
    (hagree : m.AgreeOff hidden m₀) (hexec : Executes I f.functions (.run b) m₀ (.normal m₀'))
    (h : I.Halts f.functions code n (p, ⟨[], m⟩) r) :
    ∃ m' j, j ≤ n ∧ m'.AgreeOff hidden m₀' ∧ m.Keeps hidden b.temps m' ∧
      I.Halts f.functions code j (p + (b.code exit next).length, ⟨[], m'⟩) r := by
  obtain ⟨k, _, _, m', hsteps, ⟨rfl, rfl⟩, hagree', hkeeps⟩ :=
    hexec.followed hlocal hplaced hat htyped hexits hagree
  obtain ⟨j, rfl, hrest⟩ := h.after hsteps
  exact ⟨m', j, Nat.le_add_left j k, hagree', hkeeps, hrest⟩

/-- The rest of a loop, from the test on. The induction is on the length of the run, for every round takes
some of it. -/
theorem completes_loop {p q n : Nat} {l : Label} {body : Stmt} {advance test : Code}
    {hold : Memory V W → Prop} {test₀ : Memory V W → Option (Bool × Memory V W)}
    {advance₀ : Memory V W → Option (Memory V W)} {m m₀ : Memory V W} {r : Nat × State V W}
    (hbody : Completes I f hidden result code body) (htyped : body.Typed f hidden result true)
    (hsame : SameLoop I f hidden body advance test hold test₀ advance₀)
    (hloop : LoopAt code p q l (body.code (some (l + 2)) (l + 3)) advance test) (hhold : hold m)
    (hagree : m.AgreeOff hidden m₀) (h : I.Halts f.functions code n (q, ⟨[], m⟩) r) :
    ∃ o, Executes I f.functions (.loop test₀ advance₀ body) m₀ o := by
  induction n using Nat.strongRecOn generalizing m m₀ with
  | _ n ih =>
    obtain ⟨cell, hcheck⟩ := hsame.checkTest
    obtain ⟨j, -, hafter⟩ := h.after (steps_label hloop.again _)
    obtain ⟨b, m₁, hdecides⟩ := decides_of_halts hloop.testAt hcheck hafter
    obtain ⟨⟨b₀, m₀₁⟩, htest, -⟩ := rel_some_left (hsame.test m m₀ hagree hhold) hdecides
    cases b₀ with
    | false => exact ⟨_, .loopEnd htest⟩
    | true =>
      obtain ⟨k, m₁, hsteps, hagree₁, hkeeps₁⟩ := steps_test hplaced hloop hsame hagree hhold htest
      obtain ⟨j, rfl, hinside⟩ := h.after hsteps
      have hexits : Exits code true (some (l + 2)) :=
        fun _ => ⟨_, _, rfl, position_of_getElem? hplaced hloop.exit⟩
      obtain ⟨o, hexec⟩ := hbody hloop.bodyAt htyped hexits hagree₁ hinside
      cases o with
      | broke m₀₂ => exact ⟨_, .loopBreak htest hexec⟩
      | returned v m₀₂ => exact ⟨_, .loopReturn htest hexec⟩
      | normal m₀₂ =>
        obtain ⟨m₂, i, hi, hagree₂, hkeeps₂, hbehind⟩ :=
          halts_behind hlocal hplaced hloop.bodyAt htyped hexits hagree₁ hexec hinside
        have hkeeps₁ : m.Keeps hidden body.temps m₁ := hkeeps₁.mono (by simp)
        have hhold₂ := hsame.keeps m m₂ (hkeeps₁.trans hkeeps₂) hhold
        obtain ⟨s, -, hrun, -, -⟩ := hbehind.straight hloop.advanceAt (straight_of_check hsame.checkAdvance)
        rw [run_eq_runBlock hsame.checkAdvance] at hrun
        obtain ⟨m₃, hadvance, -⟩ := Option.map_eq_some_iff.1 hrun
        obtain ⟨m₀₃, hadvance₀, -⟩ := rel_some_left (hsame.advance m₂ m₀₂ hagree₂ hhold₂) hadvance
        obtain ⟨a, m₃, hback, hagree₃, hkeeps₃⟩ := steps_advance hloop hsame hagree₂ hhold₂ hadvance₀
        obtain ⟨i', rfl, hagain⟩ := hbehind.after hback
        have hhold₃ := hsame.keeps m₂ m₃ (hkeeps₃.mono (by simp)) hhold₂
        obtain ⟨o, hrest⟩ := ih i' (by omega) hhold₃ hagree₃ hagain
        exact ⟨o, .loopNext htest hexec hadvance₀ hrest⟩

/-- A whole loop, from the jump to its test on. -/
theorem completes_whole_loop {p n : Nat} {l : Label} {body : Stmt} {advance test : Code}
    {hold : Memory V W → Prop} {test₀ : Memory V W → Option (Bool × Memory V W)}
    {advance₀ : Memory V W → Option (Memory V W)} {m m₀ : Memory V W} {r : Nat × State V W}
    (hbody : Completes I f hidden result code body) (htyped : body.Typed f hidden result true)
    (hsame : SameLoop I f hidden body advance test hold test₀ advance₀)
    (hat : At code p (loopCode l (body.code (some (l + 2)) (l + 3)) advance test)) (hhold : hold m)
    (hagree : m.AgreeOff hidden m₀) (h : I.Halts f.functions code n (p, ⟨[], m⟩) r) :
    ∃ o, Executes I f.functions (.loop test₀ advance₀ body) m₀ o := by
  have hloop := loopAt hat
  obtain ⟨j, -, htest⟩ := h.after (steps_leave hplaced hloop.enter hloop.again _)
  exact completes_loop hlocal hplaced hbody htyped hsame hloop hhold hagree htest

/-- A condition that a run to a return starts at is decided, and the run goes on in the branch. -/
theorem halts_condition {test : Code} {l : Label} {p target n : Nat} {r : Nat × State V W}
    {m m₀ : Memory V W} (hcheck : Code.check (f.without hidden) [] test = some [.value .bool])
    (hat : At code p (test ++ [.jumpIf false l])) (htarget : code[target]? = some (.label l))
    (hagree : m.AgreeOff hidden m₀) (h : I.Halts f.functions code n (p, ⟨[], m⟩) r) :
    ∃ b m₀₁ m₁ j, I.decides f.functions test m₀ = some (b, m₀₁) ∧ m₁.AgreeOff hidden m₀₁ ∧
      I.Halts f.functions code j (if b then p + test.length + 1 else target, ⟨[], m₁⟩) r := by
  obtain ⟨b, m₁, hdecides⟩ := decides_of_halts hat (check_of_without hcheck) h
  have hrel : Option.Rel _ (I.decides f.functions test m) (I.decides f.functions test m₀) :=
    decides_alike hlocal (avoids_of_check hcheck) hagree
  obtain ⟨⟨b₀, m₀₁⟩, hdecides₀, -⟩ := rel_some_left hrel hdecides
  obtain ⟨k, m₁, hsteps, hagree₁, -⟩ :=
    steps_condition hlocal hplaced hcheck hat htarget hagree hdecides₀
  obtain ⟨j, -, hrest⟩ := h.after hsteps
  exact ⟨b₀, m₀₁, m₁, j, hdecides₀, hagree₁, hrest⟩

/-- Every run to a return that starts at a statement executes it. -/
theorem completes (b : Stmt) : Completes I f hidden result code b := by
  induction b with
  | skip =>
    intro p next exit inLoop n r m m₀ _ _ _ _ _
    exact ⟨_, .skip⟩
  | seq first second ih₁ ih₂ =>
    intro p next exit inLoop n r m m₀ hat htyped hexits hagree h
    obtain ⟨o, hfirst⟩ := ih₁ hat.left htyped.1 hexits hagree h
    by_cases ho : o.isNormal = false
    · exact ⟨o, .seqEnd hfirst ho⟩
    · cases o with
      | broke | returned => exact absurd rfl ho
      | normal m₀₁ =>
        obtain ⟨m₁, j, -, hagree₁, -, hbehind⟩ :=
          halts_behind hlocal hplaced hat.left htyped.1 hexits hagree hfirst h
        obtain ⟨o, hsecond⟩ := ih₂ hat.right htyped.2 hexits hagree₁ hbehind
        exact ⟨o, .seq hfirst hsecond⟩
  | block block =>
    intro p next exit inLoop n r m m₀ hat htyped _ hagree h
    have hat : At code p block := hat
    have hcheck := check_of_without htyped
    obtain ⟨s, -, hrun, -, -⟩ := h.straight hat (straight_of_check hcheck)
    rw [run_eq_runBlock hcheck] at hrun
    obtain ⟨m', hblock, -⟩ := Option.map_eq_some_iff.1 hrun
    have hrel : Option.Rel _ (I.runBlock f.functions block m) (I.runBlock f.functions block m₀) :=
      runBlock_alike hlocal (avoids_of_check htyped) hagree
    obtain ⟨m₀', hblock₀, -⟩ := rel_some_left hrel hblock
    exact ⟨_, .block hblock₀⟩
  | setup prepared =>
    intro p next exit inLoop n r m m₀ hat htyped _ hagree h
    have htyped : prepared.Typed (f.without hidden) := htyped
    obtain ⟨k, m₀', hsteps⟩ := htyped.steps_of_halts hplaced hat hlocal hagree h
    exact ⟨_, .setup hsteps⟩
  | ifThen test yes ih =>
    intro p next exit inLoop n r m m₀ hat htyped hexits hagree h
    have hif := ifThenAt hat
    obtain ⟨b, m₀₁, m₁, j, hdecides, hagree₁, hrest⟩ :=
      halts_condition hlocal hplaced htyped.1 hif.testAt hif.exit hagree h
    cases b with
    | false => exact ⟨_, .ifNot hdecides⟩
    | true =>
      obtain ⟨o, hyes⟩ := ih hif.yesAt htyped.2 hexits hagree₁ hrest
      exact ⟨o, .ifThen hdecides hyes⟩
  | ifElse test yes no ih₁ ih₂ =>
    intro p next exit inLoop n r m m₀ hat htyped hexits hagree h
    have hif := ifElseAt hat
    obtain ⟨b, m₀₁, m₁, j, hdecides, hagree₁, hrest⟩ :=
      halts_condition hlocal hplaced htyped.1 hif.testAt hif.other hagree h
    cases b with
    | true =>
      obtain ⟨o, hyes⟩ := ih₁ hif.yesAt htyped.2.1 hexits hagree₁ hrest
      exact ⟨o, .ifElse hdecides hyes⟩
    | false =>
      obtain ⟨k, -, hno⟩ := hrest.after (steps_label hif.other _)
      obtain ⟨o, hno⟩ := ih₂ hif.noAt htyped.2.2 hexits hagree₁ hno
      exact ⟨o, .ifElse hdecides hno⟩
  | whileDo test body ih =>
    intro p next exit inLoop n r m m₀ hat htyped _ hagree h
    obtain ⟨o, hloop⟩ := completes_whole_loop hlocal hplaced ih htyped.2
      (sameLoop_while hlocal body htyped.1) hat trivial hagree h
    exact ⟨o, .whileDo hloop⟩
  | forTo r body ih =>
    intro p next exit inLoop n c m m₀ hat htyped _ hagree h
    obtain ⟨hrange, hown, hbody⟩ := htyped
    obtain ⟨s, j, hrun, -, hrest⟩ := h.straight hat.left (straight_of_check hrange.checks.1)
    have hrel : Option.Rel _ (I.run f.functions r.range.code ⟨[], m⟩) _ :=
      enterLoop_alike hlocal hrange hagree
    obtain ⟨⟨bound, stride, m₀₁⟩, henter, hstack, hagree₁, hholds, -⟩ := rel_some_left hrel hrun
    obtain ⟨stack, m₁⟩ := s
    cases hstack
    obtain ⟨o, hloop⟩ := completes_whole_loop hlocal hplaced ih hbody
      (sameLoop_for hlocal hrange hown bound stride) hat.right hholds hagree₁ hrest
    exact ⟨o, .forTo henter hloop⟩
  | «return» value => exact completes_return hlocal value
  | breakLoop =>
    intro p next exit inLoop n r m m₀ _ _ _ _ _
    exact ⟨_, .breakLoop⟩

end Backward

end StackCompiler
