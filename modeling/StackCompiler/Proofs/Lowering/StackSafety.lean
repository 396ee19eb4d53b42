import StackCompiler.Proofs.Grammar.ProgramSoundness
import StackCompiler.Proofs.Lowering.Labels
import StackCompiler.Proofs.Lowering.Routines

/-!
Safety of compiled code. Every position of a function's code has a type of the operand stack, empty where
the function starts and at every label, under which every instruction finds its operands and agrees with
whatever runs next. The types are found by one pass over the code, since jumps leave the stack empty.
-/

set_option autoImplicit false
namespace StackCompiler

open Lowering

/-- The stack behind an instruction. A return has to find the result and nothing else. -/
def Instr.leaves (f : Frame) (result : Ty) : Instr → StackType → Option StackType
  | .return, stack => if stack = .push result [] then some [] else none
  | jump _, stack | label _, stack => some stack
  | jumpIfFalse _, stack | jumpIfTrue _, stack => stack.replace [.bool] []
  | instr, stack => instr.effect f stack

namespace Code

inductive Successor (code : Code) : Nat → Nat → Prop where
  | next {i : Nat} {instr : Instr} (h : code[i]? = some instr) (passes : instr.isTerminator = false) :
      Successor code i (i + 1)
  | target {i j : Nat} {instr : Instr} {l : Label} (h : code[i]? = some instr)
      (jumps : instr.target? = some l) (placed : code[j]? = some (.label l)) : Successor code i j

/-- Types of the operand stack under which code is safe to run from its start. -/
structure StackTyping (f : Frame) (result : Ty) (code : Code) (types : Nat → StackType) : Prop where
  start : 0 < code.length ∧ types 0 = []
  labels : ∀ (i : Nat) l, code[i]? = some (Instr.label l) → types i = []
  steps : ∀ (i : Nat) (instr : Instr), code[i]? = some instr → ∃ stack, instr.leaves f result (types i) = some stack ∧
    ∀ j, Successor code i j → j < code.length ∧ types j = stack
  jumps : ∀ (i : Nat) (instr : Instr) l, code[i]? = some instr → instr.target? = some l →
    ∃ j : Nat, code[j]? = some (Instr.label l)

end Code

/-- One instruction of a pass over the code. Jumps and labels need an empty stack, so that the next
position starts with the same one. -/
def Instr.passes (f : Frame) (result : Ty) (instr : Instr) (stack : StackType) : Option StackType :=
  (instr.leaves f result stack).bind fun after =>
    if instr.isPlain ∨ after = [] then some after else none

def Code.scan (f : Frame) (result : Ty) (stack : StackType) (code : Code) : Option StackType :=
  code.foldlM (fun stack instr => instr.passes f result stack) stack

section Scan

variable {f : Frame} {result : Ty} {stack stack' : StackType} {code : Code}

@[simp] theorem scan_nil : Code.scan f result stack [] = some stack := rfl

@[simp] theorem scan_cons (instr : Instr) (code : Code) :
    Code.scan f result stack (instr :: code) =
      (instr.passes f result stack).bind fun stack => Code.scan f result stack code := rfl

@[simp] theorem scan_append (code more : Code) :
    Code.scan f result stack (code ++ more) =
      (Code.scan f result stack code).bind fun stack => Code.scan f result stack more :=
  List.foldlM_append

theorem passes_of_effect {instr : Instr} (h : instr.effect f stack = some stack') :
    instr.passes f result stack = some stack' := by
  have hplain := isPlain_of_effect h
  have hleaves : instr.leaves f result stack = some stack' := by
    cases instr <;> first | exact h | cases hplain
  rw [Instr.passes, hleaves, Option.bind_some, if_pos (.inl hplain)]

theorem scan_of_check (h : Code.check f stack code = some stack') :
    Code.scan f result stack code = some stack' := by
  induction code generalizing stack with
  | nil => exact h
  | cons instr code ih =>
    obtain ⟨stack₁, heffect, hcode⟩ := Option.bind_eq_some_iff.1 h
    rw [scan_cons, passes_of_effect heffect]
    exact ih hcode

theorem scan_of_without {hidden : List Place} (h : Code.check (f.without hidden) stack code = some stack') :
    Code.scan f result stack code = some stack' :=
  scan_of_check (check_of_without h)

@[simp] theorem passes_jump (l : Label) : (Instr.jump l).passes f result [] = some [] := rfl

@[simp] theorem passes_label (l : Label) : (Instr.label l).passes f result [] = some [] := rfl

@[simp] theorem passes_jumpIfFalse (l : Label) :
    (Instr.jumpIfFalse l).passes f result [.value .bool] = some [] := rfl

@[simp] theorem passes_jumpIfTrue (l : Label) :
    (Instr.jumpIfTrue l).passes f result [.value .bool] = some [] := rfl

@[simp] theorem passes_return : Instr.return.passes f result (.push result []) = some [] := by
  simp [Instr.passes, Instr.leaves]

theorem scan_setup {prepared : Setup} {hidden : List Place}
    (htyped : prepared.Typed (f.without hidden)) (next : Label) :
    Code.scan f result [] (prepared.code next) = some [] := by
  cases prepared with
  | nothing => rfl
  | scalar place value =>
    obtain ⟨ty, hplace, hvalue⟩ := htyped
    have hslot := Frame.slots_of_without hplace
    exact scan_of_check (by simp [Setup.code, check_of_without hvalue, effect_store hslot])
  | array place element length fill =>
    have hslot := Frame.slots_of_without htyped.1
    cases fill with
    | none => exact scan_of_check (by simp [Setup.code, effect_store hslot])
    | some fill =>
      obtain ⟨hprologue, hadvance, htest⟩ := htyped.fill
      simp [setup_code_filled, scan_of_without hprologue, scan_of_without hadvance,
        scan_of_without htest]

theorem scan_range (result : Ty) {r : Counting} {hidden : List Place} (h : r.Typed f hidden) :
    Code.scan f result [] r.range.code = some [] ∧ Code.scan f result [] r.range.advance = some [] ∧
      Code.scan f result [] r.range.test = some [.value .bool] := by
  obtain ⟨hcode, hadvance, htest⟩ := h.checks
  exact ⟨scan_of_check hcode, scan_of_check hadvance, scan_of_check htest⟩

theorem scan_loop {body advance test : Code} (hbody : Code.scan f result [] body = some [])
    (hadvance : Code.scan f result [] advance = some [])
    (htest : Code.scan f result [] test = some [.value .bool]) (next : Label) :
    Code.scan f result [] (loopCode next body advance test) = some [] := by
  simp [loopCode, hbody, hadvance, htest]

/-- A pass over a typed statement finds the stack empty behind it. -/
theorem Stmt.Typed.scan {hidden : List Place} {inLoop : Bool} {b : Stmt}
    (h : b.Typed f hidden result inLoop) (exit : Option Label) (next : Nat) :
    Code.scan f result [] (b.code exit next) = some [] := by
  induction b generalizing inLoop exit next with
  | skip => rfl
  | seq first second ih₁ ih₂ => simp [Stmt.code, ih₁ h.1, ih₂ h.2]
  | block code => exact scan_of_without h
  | setup prepared => exact scan_setup h next
  | ifThen test yes ih => simp [Stmt.code, scan_of_without h.1, ih h.2]
  | ifElse test yes no ih₁ ih₂ => simp [Stmt.code, scan_of_without h.1, ih₁ h.2.1, ih₂ h.2.2]
  | whileDo test body ih => exact scan_loop (ih h.2 _ _) scan_nil (scan_of_without h.1) next
  | forTo r body ih =>
    obtain ⟨hcode, hadvance, htest⟩ := scan_range result h.1
    simp [Stmt.code, hcode, scan_loop (ih h.2.2 _ _) hadvance htest]
  | «return» value =>
    have hvalue : Code.scan f result [] value = some (.push result []) := scan_of_without h
    simp [Stmt.code, hvalue]
  | breakLoop => cases exit <;> simp [Stmt.code]

theorem scan_closeBody (hresult : result = .void ∨ result.isScalar = true)
    (h : Code.scan f result [] code = some []) :
    Code.scan f result [] (Session.closeBody result code) = some [] := by
  unfold Session.closeBody
  split
  next => exact h
  next =>
    have hdefault : Code.scan f result [] (Session.defaultValue result) = some (.push result []) := by
      rcases hresult with rfl | hscalar
      · rfl
      · cases result <;> first | rfl | cases hscalar
    simp [h, hdefault]

def Code.passTypes (f : Frame) (result : Ty) (code : Code) (i : Nat) : StackType :=
  (Code.scan f result [] (code.take i)).getD []

theorem passTypes_step (h : Code.scan f result [] code = some stack') {i : Nat} {instr : Instr}
    (hi : code[i]? = some instr) :
    instr.passes f result (code.passTypes f result i) = some (code.passTypes f result (i + 1)) := by
  have hlength : i < code.length := (List.getElem?_eq_some_iff.1 hi).1
  have hsplit : code = code.take (i + 1) ++ code.drop (i + 1) := (List.take_append_drop _ _).symm
  have htake : code.take (i + 1) = code.take i ++ [instr] := by
    rw [List.take_add_one, hi]
    rfl
  rw [hsplit, scan_append] at h
  obtain ⟨after, hafter, -⟩ := Option.bind_eq_some_iff.1 h
  have hprefix := hafter
  rw [htake, scan_append] at hprefix
  obtain ⟨before, hbefore, hinstr⟩ := Option.bind_eq_some_iff.1 hprefix
  rw [scan_cons] at hinstr
  obtain ⟨next, hnext, hnil⟩ := Option.bind_eq_some_iff.1 hinstr
  cases hnil
  rw [Code.passTypes, Code.passTypes, hbefore, hafter]
  exact hnext

theorem passes_leaves {instr : Instr} (h : instr.passes f result stack = some stack') :
    instr.leaves f result stack = some stack' ∧ (instr.isPlain = false → stack' = []) := by
  obtain ⟨after, hafter, hif⟩ := Option.bind_eq_some_iff.1 h
  split at hif
  next hcond =>
    cases hif
    refine ⟨hafter, ?_⟩
    intro hplain
    rcases hcond with hcond | hcond
    · rw [hplain] at hcond
      cases hcond
    · exact hcond
  next => cases hif

theorem passTypes_label (h : Code.scan f result [] code = some stack') {i : Nat} {l : Label}
    (hi : code[i]? = some (Instr.label l)) : code.passTypes f result i = [] := by
  obtain ⟨hleaves, hempty⟩ := passes_leaves (passTypes_step h hi)
  have heq : code.passTypes f result i = code.passTypes f result (i + 1) := Option.some.inj hleaves
  rw [heq]
  exact hempty rfl

/-- Code that a pass gets through, that ends in a terminator and that jumps to its own labels only, is
safe. -/
theorem stackTyping_of_scan (h : Code.scan f result [] code = some stack')
    (hlast : ∃ instr, code.getLast? = some instr ∧ instr.isTerminator = true)
    (hjumps : ∀ l ∈ code.targets, l ∈ code.placed) :
    Code.StackTyping f result code (code.passTypes f result) := by
  obtain ⟨last, hlast, hterminator⟩ := hlast
  refine ⟨⟨?_, rfl⟩, fun i l => passTypes_label h, ?_, ?_⟩
  · cases code with
    | nil => cases hlast
    | cons instr code => exact Nat.succ_pos _
  · intro i instr hi
    obtain ⟨hleaves, hempty⟩ := passes_leaves (passTypes_step h hi)
    refine ⟨_, hleaves, ?_⟩
    intro j hj
    cases hj with
    | next hi' hpasses =>
      rw [hi] at hi'
      cases hi'
      refine ⟨?_, rfl⟩
      -- the last instruction is a terminator, so this one is not the last
      have hlength : i < code.length := (List.getElem?_eq_some_iff.1 hi).1
      rw [List.getLast?_eq_getElem?] at hlast
      by_cases hend : i = code.length - 1
      · rw [hend, hlast] at hi
        cases hi
        rw [hterminator] at hpasses
        cases hpasses
      · omega
    | target hi' hjump hplaced =>
      rw [hi] at hi'
      cases hi'
      refine ⟨(List.getElem?_eq_some_iff.1 hplaced).1, ?_⟩
      rw [passTypes_label h hplaced, hempty]
      cases instr <;> first | rfl | cases hjump
  · intro i instr l hi hjump
    have hmem : l ∈ code.placed :=
      hjumps l (List.mem_filterMap.2 ⟨instr, List.mem_of_getElem? hi, hjump⟩)
    obtain ⟨found, hfound, hplaced⟩ := List.mem_filterMap.1 hmem
    obtain ⟨j, hj⟩ := List.mem_iff_getElem?.1 hfound
    refine ⟨j, ?_⟩
    rw [hj]
    cases found <;> cases hplaced
    rfl

end Scan

theorem closeBody_last (result : Ty) (code : Code) :
    (Session.closeBody result code).getLast? = some .return := by
  unfold Session.closeBody
  split
  next h => exact h
  next => simp

theorem closeBody_labels (result : Ty) (code : Code) :
    (Session.closeBody result code).targets = code.targets ∧
      (Session.closeBody result code).placed = code.placed := by
  unfold Session.closeBody
  split
  next => exact ⟨rfl, rfl⟩
  next => cases result <;> simp [Session.defaultValue] <;> exact ⟨rfl, rfl⟩

/-- The code of a typed body is safe in a frame that hosts the body. -/
theorem Stmt.Typed.stackTyping {f : Frame} {hidden : List Place} {result : Ty} {body : Stmt}
    (h : body.Typed f hidden result false) (hresult : result = .void ∨ result.isScalar = true) :
    ∃ types, Code.StackTyping f result (Session.closeBody result (body.code none 0)) types := by
  have hlabels := closeBody_labels result (body.code none 0)
  refine ⟨_, stackTyping_of_scan (scan_closeBody hresult (h.scan none 0)) ⟨.return, closeBody_last _ _, rfl⟩ ?_⟩
  intro l hl
  rw [hlabels.1] at hl
  rw [hlabels.2]
  rcases (h.labelled none 0).jumps l hl with hplaced | hexit
  · exact hplaced
  · cases hexit

/-- The code of every compiled function is safe: there are types of the operand stack for all its
positions under which every instruction finds what it needs, every slot has its type, every return finds
the result alone on the stack, and control stays inside the code. -/
theorem compiled_code_stack_safe {source : String} {image : Image} (h : compile source = .ok image) :
    ∀ g ∈ image.functions, ∃ types,
      Code.StackTyping (image.frame g) g.signature.result g.code types := by
  intro g hg
  obtain ⟨program, s, hparse, hcompile⟩ := Session.compile_ok h
  obtain ⟨i, hi⟩ := List.mem_iff_getElem?.1 hg
  obtain ⟨body, houtlined⟩ := image_outlined (Grammar.derives_of_parse hparse) hcompile hi
  obtain ⟨types, htypes⟩ := houtlined.typed.stackTyping houtlined.result
  rw [← houtlined.code] at htypes
  exact ⟨types, htypes⟩

/-- A loop that counts a parameter down. -/
theorem compiled_code_stack_safe_countdown :
    ∃ image, compile "int f(int n) \x7b while n > 0 do n--; return n; \x7d" = .ok image ∧
      ∃ g ∈ image.functions,
        g.code = [.jump 1, .label 0, .loadArg 0, .pushInt 1, .sub, .storeArg 0, .label 1, .loadArg 0,
          .pushInt 0, .gt, .jumpIfTrue 0, .label 2, .loadArg 0, .return] ∧
        ∃ types, Code.StackTyping (image.frame g) g.signature.result g.code types := by
  have hcompile : compile "int f(int n) \x7b while n > 0 do n--; return n; \x7d" =
      .ok ⟨[⟨⟨"f", .int, [.int], 0⟩, [], [.jump 1, .label 0, .loadArg 0, .pushInt 1, .sub, .storeArg 0,
        .label 1, .loadArg 0, .pushInt 0, .gt, .jumpIfTrue 0, .label 2, .loadArg 0, .return]⟩], [], []⟩ :=
    ok_of_toOption (by decide +kernel)
  exact ⟨_, hcompile, _, List.mem_singleton_self _, rfl,
    compiled_code_stack_safe hcompile _ (List.mem_singleton_self _)⟩

end StackCompiler
