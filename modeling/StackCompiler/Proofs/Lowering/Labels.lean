import StackCompiler.Proofs.Lowering.BodyTypes

/-!
Labels in function bodies. Straight code has none. The code of a statement places the labels it is given,
each once, and jumps to these and to the exit of the loop around it only.
-/

set_option autoImplicit false
namespace StackCompiler

open Lowering

/-- Instructions that neither jump nor return and stand for no place in the code. -/
def Instr.isPlain : Instr → Bool
  | .return | jump _ | jumpIfFalse _ | jumpIfTrue _ | label _ => false
  | _ => true

theorem isPlain_of_effect {f : Frame} {instr : Instr} {stack stack' : StackType}
    (h : instr.effect f stack = some stack') : instr.isPlain = true := by
  cases instr <;> first | rfl | cases h

namespace Code

def placed (code : Code) : List Nat :=
  code.filterMap Instr.placed?

def targets (code : Code) : List Nat :=
  code.filterMap Instr.target?

def Straight (code : Code) : Prop :=
  ∀ instr ∈ code, instr.isPlain = true

theorem straight_of_check {f : Frame} {stack stack' : StackType} {code : Code}
    (h : Code.check f stack code = some stack') : Straight code := by
  induction code generalizing stack with
  | nil => simp [Straight]
  | cons instr code ih =>
    obtain ⟨stack₁, heffect, hcode⟩ := Option.bind_eq_some_iff.1 h
    intro found hfound
    rcases List.mem_cons.1 hfound with rfl | hfound
    · exact isPlain_of_effect heffect
    · exact ih hcode found hfound

theorem Straight.placed {code : Code} (h : Straight code) : Code.placed code = [] := by
  refine List.filterMap_eq_nil_iff.2 ?_
  intro instr hinstr
  have hplain := h instr hinstr
  cases instr <;> first | rfl | cases hplain

theorem Straight.targets {code : Code} (h : Straight code) : Code.targets code = [] := by
  refine List.filterMap_eq_nil_iff.2 ?_
  intro instr hinstr
  have hplain := h instr hinstr
  cases instr <;> first | rfl | cases hplain

@[simp] theorem placed_nil : placed [] = [] := rfl

@[simp] theorem targets_nil : targets [] = [] := rfl

@[simp] theorem placed_append (code more : Code) : placed (code ++ more) = placed code ++ placed more :=
  List.filterMap_append

@[simp] theorem targets_append (code more : Code) :
    targets (code ++ more) = targets code ++ targets more :=
  List.filterMap_append

@[simp] theorem placed_label (l : Label) (code : Code) : placed (.label l :: code) = l :: placed code := rfl

@[simp] theorem placed_jump (l : Label) (code : Code) : placed (.jump l :: code) = placed code := rfl

@[simp] theorem placed_jumpIfFalse (l : Label) (code : Code) :
    placed (.jumpIfFalse l :: code) = placed code := rfl

@[simp] theorem placed_jumpIfTrue (l : Label) (code : Code) :
    placed (.jumpIfTrue l :: code) = placed code := rfl

@[simp] theorem placed_return (code : Code) : placed (.return :: code) = placed code := rfl

@[simp] theorem targets_return (code : Code) : targets (.return :: code) = targets code := rfl

@[simp] theorem targets_label (l : Label) (code : Code) : targets (.label l :: code) = targets code := rfl

@[simp] theorem targets_jump (l : Label) (code : Code) : targets (.jump l :: code) = l :: targets code := rfl

@[simp] theorem targets_jumpIfFalse (l : Label) (code : Code) :
    targets (.jumpIfFalse l :: code) = l :: targets code := rfl

@[simp] theorem targets_jumpIfTrue (l : Label) (code : Code) :
    targets (.jumpIfTrue l :: code) = l :: targets code := rfl

@[simp] theorem straight_nil : Straight [] := by
  simp [Straight]

@[simp] theorem straight_cons (instr : Instr) (code : Code) :
    Straight (instr :: code) ↔ instr.isPlain = true ∧ Straight code :=
  List.forall_mem_cons

@[simp] theorem straight_append (code more : Code) :
    Straight (code ++ more) ↔ Straight code ∧ Straight more :=
  List.forall_mem_append

end Code

@[simp] theorem isPlain_load (place : Place) : (Instr.load place).isPlain = true := by
  obtain ⟨storage, slot⟩ := place
  cases storage <;> rfl

@[simp] theorem isPlain_store (place : Place) : (Instr.store place).isPlain = true := by
  obtain ⟨storage, slot⟩ := place
  cases storage <;> rfl

@[simp] theorem isPlain_dup : Instr.dup.isPlain = true := rfl

@[simp] theorem isPlain_pushInt (n : Int32) : (Instr.pushInt n).isPlain = true := rfl

@[simp] theorem isPlain_add : Instr.add.isPlain = true := rfl

@[simp] theorem isPlain_le : Instr.le.isPlain = true := rfl

@[simp] theorem isPlain_lt : Instr.lt.isPlain = true := rfl

@[simp] theorem isPlain_newArray (element : Ty) : (Instr.newArray element).isPlain = true := rfl

@[simp] theorem isPlain_storeElem (element : Ty) : (Instr.storeElem element).isPlain = true := rfl

open Code

theorem Counting.Typed.checks {f : Frame} {hidden : List Place} {r : Counting} (h : r.Typed f hidden) :
    Code.check f [] r.range.code = some [] ∧ Code.check f [] r.range.advance = some [] ∧
      Code.check f [] r.range.test = some [.value .bool] := by
  have hcounter : f.slots r.counter = some .int := Frame.slots_of_without h.counter
  have hbound : f.slots r.bound = some .int := (h.temps r.bound (by simp [Counting.temps])).1
  have hstart := check_of_without h.start
  have hstep : ∀ step temp, r.step = some (step, temp) →
      Code.check f [] step = some [.value .int] ∧ f.slots temp = some .int := by
    intro step temp heq
    exact ⟨check_of_without (h.step step temp heq), (h.temps temp (by simp [Counting.temps, heq])).1⟩
  have hhead : Code.check f [] r.head = some [] := by
    unfold Counting.head
    split
    next stop hstop =>
      have hcode := check_of_without (h.stop stop hstop)
      simp [hstart, hcode, effect_store hcounter, effect_store hbound]
    next => simp [hstart, effect_store hcounter, effect_store hbound]
  refine ⟨?_, ?_, ?_⟩
  · cases hr : r.step with
    | none => simpa [Counting.range, hr] using hhead
    | some pair =>
      obtain ⟨hcode, htemp⟩ := hstep pair.1 pair.2 hr
      simp [Counting.range, hr, hhead, hcode, effect_store htemp]
  · cases hr : r.step with
    | none => simp [Counting.range, hr, Range.advance, effect_load hcounter, effect_store hcounter]
    | some pair =>
      obtain ⟨-, htemp⟩ := hstep pair.1 pair.2 hr
      simp [Counting.range, hr, Range.advance, effect_load hcounter, effect_load htemp,
        effect_store hcounter]
  · cases hr : r.step <;>
      simp [Counting.range, hr, Range.test, effect_load hcounter, effect_load hbound]

/-- The labels of code: those it places lie in a range and are placed once, and it jumps to these and to
the exit only. -/
structure Labelled (code : Code) (exit : Option Label) (next count : Nat) : Prop where
  range : ∀ l : Nat, l ∈ placed code → next ≤ l ∧ l < next + count
  once : (placed code).Nodup
  jumps : ∀ l ∈ targets code, l ∈ placed code ∨ exit = some l

namespace Lowering.Fill

/-! The code of a fill in pieces: what runs once, what runs for every index, and the test. -/

def prologue (fill : Fill) (array : Place) (element : Ty) (length : Int32) : Code :=
  [.pushInt length, .newArray element, .store array] ++ fill.value ++
    [.store fill.valueTemp, .pushInt 0, .store fill.indexTemp]

def advance (fill : Fill) (array : Place) (element : Ty) : Code :=
  [.load array, .load fill.indexTemp, .load fill.valueTemp, .storeElem element, .load fill.indexTemp,
    .pushInt 1, .add, .store fill.indexTemp]

def test (fill : Fill) (length : Int32) : Code :=
  [.load fill.indexTemp, .pushInt length, .lt]

end Lowering.Fill

open Lowering.Fill in
theorem setup_code_filled (fill : Fill) (place : Place) (element : Ty) (length : Int32) (next : Label) :
    Setup.code next (.array place element length (some fill)) =
      prologue fill place element length ++ .jump (next + 1) :: .label next ::
        (advance fill place element ++ .label (next + 1) :: (test fill length ++ [.jumpIfTrue next])) := by
  simp [Setup.code, Fill.code, prologue, advance, test]

/-- The parts of a typed fill. -/
theorem Lowering.Setup.Typed.fill {f : Frame} {fill : Fill} {place : Place} {element : Ty} {length : Int32}
    (h : (Setup.array place element length (some fill)).Typed f) :
    Code.check f [] (fill.prologue place element length) = some [] ∧
      Code.check f [] (fill.advance place element) = some [] ∧
        Code.check f [] (fill.test length) = some [.value .bool] := by
  obtain ⟨hplace, hfill⟩ := h
  obtain ⟨hvalue, hvalueTemp, hindexTemp⟩ := hfill fill rfl
  refine ⟨?_, ?_, ?_⟩
  · simp [Fill.prologue, hvalue, effect_store hplace, effect_store hvalueTemp, effect_store hindexTemp]
  · simp [Fill.advance, effect_load hplace, effect_load hvalueTemp, effect_load hindexTemp,
      effect_store hindexTemp]
  · simp [Fill.test, effect_load hindexTemp]

theorem labelled_straight {code : Code} (h : Straight code) (exit : Option Label) (next : Nat) :
    Labelled code exit next 0 :=
  ⟨by simp [h.placed], by simp [h.placed], by simp [h.targets]⟩

def Lowering.Setup.Straight (prepared : Setup) : Prop :=
  match prepared with
  | .nothing => True
  | .scalar _ value => Code.Straight value
  | .array _ _ _ fill => ∀ fill', fill = some fill' → Code.Straight fill'.value

theorem Lowering.Setup.Straight.labelled {prepared : Setup} (h : prepared.Straight)
    (exit : Option Label) (next : Label) :
    Labelled (prepared.code next) exit next prepared.labels := by
  cases prepared with
  | nothing => exact labelled_straight straight_nil exit next
  | scalar place value =>
    have hvalue : Code.Straight value := h
    exact labelled_straight (by simp [Setup.code, hvalue]) exit next
  | array place element length fill =>
    cases fill with
    | none => exact labelled_straight (by simp [Setup.code]) exit next
    | some fill =>
      have hvalue := h fill rfl
      have hprologue : Code.Straight (fill.prologue place element length) := by
        simp [Fill.prologue, hvalue]
      have hadvance : Code.Straight (fill.advance place element) := by simp [Fill.advance]
      have htest : Code.Straight (fill.test length) := by simp [Fill.test]
      rw [setup_code_filled]
      refine ⟨?_, ?_, ?_⟩
      · simp only [placed_append, placed_jump, placed_label, placed_jumpIfTrue, hprologue.placed,
          hadvance.placed, htest.placed, placed_nil, List.nil_append, List.mem_cons, List.not_mem_nil,
          or_false, Setup.labels]
        rintro l (rfl | rfl)
        · exact ⟨Nat.le_refl _, Nat.lt_add_of_pos_right (by decide)⟩
        · exact ⟨Nat.le_succ _, Nat.lt_succ_self _⟩
      · simp [hprologue.placed, hadvance.placed, htest.placed]
      · simp [hprologue.placed, hadvance.placed, htest.placed, hprologue.targets, hadvance.targets,
          htest.targets]

theorem Lowering.Setup.Typed.straight {f : Frame} {prepared : Setup} (h : prepared.Typed f) :
    prepared.Straight := by
  cases prepared with
  | nothing => trivial
  | scalar place value =>
    obtain ⟨ty, -, hvalue⟩ := h
    exact straight_of_check hvalue
  | array place element length fill => exact fun fill' hfill => straight_of_check (h.2 fill' hfill).1

/-- The labels of code that follows other code. -/
theorem Labelled.append {code more : Code} {exit : Option Label} {next count count' : Nat}
    (h : Labelled code exit next count) (h' : Labelled more exit (next + count) count') :
    Labelled (code ++ more) exit next (count + count') := by
  refine ⟨?_, ?_, ?_⟩
  · intro l hl
    rw [placed_append] at hl
    rcases List.mem_append.1 hl with hl | hl
    · have := h.range l hl
      omega
    · have := h'.range l hl
      omega
  · rw [placed_append]
    refine List.nodup_append.2 ⟨h.once, h'.once, ?_⟩
    rintro (l : Nat) hl _ hl' rfl
    have := h.range l hl
    have := h'.range l hl'
    omega
  · intro l hl
    rw [targets_append] at hl
    rw [placed_append, List.mem_append]
    rcases List.mem_append.1 hl with hl | hl
    · exact (h.jumps l hl).imp .inl id
    · exact (h'.jumps l hl).imp .inr id

/-- A loop places its three labels around those of its body. -/
theorem labelled_loop {body advance test : Code} {exit : Option Label} {next count : Nat}
    (h : Labelled body (some (next + 2)) (next + 3) count) (hadvance : Straight advance)
    (htest : Straight test) : Labelled (loopCode next body advance test) exit next (count + 3) := by
  have hplaced : placed (loopCode next body advance test) =
      next :: (placed body ++ [next + 1, next + 2]) := by
    simp [loopCode, hadvance.placed, htest.placed]
  have htargets : targets (loopCode next body advance test) =
      (next + 1) :: (targets body ++ [next]) := by
    simp [loopCode, hadvance.targets, htest.targets]
  refine ⟨?_, ?_, ?_⟩
  · intro l hl
    simp only [hplaced, List.mem_cons, List.mem_append, List.not_mem_nil, or_false] at hl
    rcases hl with rfl | hl | rfl | rfl
    · omega
    · have := h.range l hl
      omega
    · omega
    · omega
  · have hfresh : ∀ l : Nat, l < next + 3 → l ∉ placed body := by
      intro l hlt hl
      have := h.range l hl
      omega
    rw [hplaced]
    simp only [List.nodup_cons, List.nodup_append, List.mem_cons, List.mem_append, List.not_mem_nil,
      or_false, not_or]
    refine ⟨⟨hfresh _ (by omega), by omega, by omega⟩, h.once, by simp, ?_⟩
    rintro l hl l' (rfl | rfl) rfl
    · exact hfresh _ (by omega) hl
    · exact hfresh _ (by omega) hl
  · intro l hl
    rw [htargets] at hl
    rw [hplaced]
    simp only [List.mem_cons, List.mem_append, List.not_mem_nil, or_false] at hl ⊢
    rcases hl with rfl | hl | rfl
    · exact .inl (.inr (.inr (.inl rfl)))
    · rcases h.jumps l hl with hl | hl
      · exact .inl (.inr (.inl hl))
      · cases hl
        exact .inl (.inr (.inr (.inr rfl)))
    · exact .inl (.inl rfl)

theorem Labelled.straight_append {code more : Code} {exit : Option Label} {next count : Nat}
    (hcode : Straight code) (h : Labelled more exit next count) :
    Labelled (code ++ more) exit next count := by
  have happend := (labelled_straight hcode exit next).append h
  rw [Nat.zero_add] at happend
  exact happend

/-- A branch alone places its label behind itself. -/
theorem labelled_ifThen {test yes : Code} {exit : Option Label} {next count : Nat} (htest : Straight test)
    (hyes : Labelled yes exit (next + 1) count) :
    Labelled (test ++ .jumpIfFalse next :: yes ++ [.label next]) exit next (count + 1) := by
  have hplaced : placed (test ++ .jumpIfFalse next :: yes ++ [.label next]) = placed yes ++ [next] := by
    simp [htest.placed]
  have htargets : targets (test ++ .jumpIfFalse next :: yes ++ [.label next]) = next :: targets yes := by
    simp [htest.targets]
  refine ⟨?_, ?_, ?_⟩
  · intro l hl
    rw [hplaced] at hl
    have := hyes.range l
    grind
  · rw [hplaced]
    have := hyes.range next
    have := hyes.once
    grind [List.nodup_append]
  · intro l hl
    rw [htargets] at hl
    rw [hplaced]
    have := hyes.jumps l
    grind

/-- Of two branches the first jumps over the second, and each is followed by a label. -/
theorem labelled_ifElse {test yes no : Code} {exit : Option Label} {next count count' : Nat}
    (htest : Straight test) (hyes : Labelled yes exit (next + 2) count)
    (hno : Labelled no exit (next + 2 + count) count') :
    Labelled (test ++ Instr.jumpIfFalse next :: yes ++ [Instr.jump (next + 1), .label next] ++ no
      ++ [Instr.label (next + 1)]) exit next (count + count' + 2) := by
  have hplaced : placed (test ++ Instr.jumpIfFalse next :: yes ++ [Instr.jump (next + 1), .label next] ++ no
      ++ [Instr.label (next + 1)]) = placed yes ++ next :: (placed no ++ [next + 1]) := by
    simp [htest.placed]
  have htargets : targets (test ++ Instr.jumpIfFalse next :: yes ++ [Instr.jump (next + 1), .label next] ++ no
      ++ [Instr.label (next + 1)]) = next :: (targets yes ++ (next + 1) :: targets no) := by
    simp [htest.targets]
  refine ⟨?_, ?_, ?_⟩
  · intro l hl
    rw [hplaced] at hl
    have := hyes.range l
    have := hno.range l
    grind
  · rw [hplaced]
    clear hplaced htargets
    have := hyes.range
    have := hno.range
    have := hyes.once
    have := hno.once
    grind [List.nodup_append]
  · intro l hl
    rw [htargets] at hl
    rw [hplaced]
    have := hyes.jumps l
    have := hno.jumps l
    grind

theorem labelled_return {code : Code} (h : Straight code) (exit : Option Label) (next : Nat) :
    Labelled (code ++ [.return]) exit next 0 :=
  ⟨by simp [h.placed], by simp [h.placed], by simp [h.targets]⟩

theorem Stmt.Typed.labelled {f : Frame} {hidden : List Place} {result : Ty} {inLoop : Bool} {b : Stmt}
    (h : b.Typed f hidden result inLoop) (exit : Option Label) (next : Nat) :
    Labelled (b.code exit next) exit next b.labels := by
  induction b generalizing inLoop exit next with
  | skip => exact labelled_straight straight_nil exit next
  | seq first second ih₁ ih₂ => exact (ih₁ h.1 exit next).append (ih₂ h.2 exit (next + first.labels))
  | block code => exact labelled_straight (straight_of_check h) exit next
  | setup prepared => exact (Setup.Typed.straight h).labelled exit next
  | ifThen test yes ih => exact labelled_ifThen (straight_of_check h.1) (ih h.2 exit (next + 1))
  | ifElse test yes no ih₁ ih₂ =>
    exact labelled_ifElse (straight_of_check h.1) (ih₁ h.2.1 exit (next + 2))
      (ih₂ h.2.2 exit (next + 2 + yes.labels))
  | whileDo test body ih =>
    exact labelled_loop (ih h.2 (some (next + 2)) (next + 3)) straight_nil (straight_of_check h.1)
  | forTo r body ih =>
    obtain ⟨hcode, hadvance, htest⟩ := h.1.checks
    refine Labelled.straight_append (straight_of_check hcode) ?_
    exact labelled_loop (ih h.2.2 (some (next + 2)) (next + 3)) (straight_of_check hadvance)
      (straight_of_check htest)
  | «return» value => exact labelled_return (straight_of_check h) exit next
  | breakLoop =>
    cases exit with
    | none => exact labelled_straight straight_nil none next
    | some exit => exact ⟨by simp [Stmt.code], by simp [Stmt.code], by simp [Stmt.code]⟩

end StackCompiler
