import StackCompiler.Proofs.Lowering.StackSafety
import StackCompiler.Proofs.Semantics.Agreement
import StackCompiler.Proofs.Semantics.Jumps

/-!
Relocated code. Code that jumps to its own labels only runs the same way when it stands in other code, with
other labels, and on a memory that differs in slots it does not use. The setup of a declared variable is
such code.
-/

set_option autoImplicit false
namespace StackCompiler

open Lowering

def Instr.moved (offset : Nat) : Instr → Instr
  | jump l => jump (l + offset)
  | jumpIfFalse l => jumpIfFalse (l + offset)
  | jumpIfTrue l => jumpIfTrue (l + offset)
  | label l => label (l + offset)
  | instr => instr

theorem moved_plain {instr : Instr} (h : instr.isPlain = true) (offset : Nat) :
    instr.moved offset = instr := by
  cases instr <;> first | rfl | cases h

namespace Code

theorem Straight.moved {code : Code} (h : Straight code) (offset : Nat) :
    code.map (Instr.moved offset) = code := by
  refine (List.map_congr_left ?_).trans (List.map_id code)
  intro instr hinstr
  exact moved_plain (h instr hinstr) offset

/-- A label that is found stands there. -/
theorem getElem?_of_position {code : Code} {l : Label} {p : Nat} (h : code.position l = some p) :
    code[p]? = some (.label l) := by
  obtain ⟨hlt, hlabel, -⟩ := List.findIdx?_eq_some_iff_getElem.1 h
  rw [List.getElem?_eq_getElem hlt]
  simpa using hlabel

theorem exists_position {code : Code} {l : Label} (h : l ∈ code.placed) :
    ∃ p, code.position l = some p := by
  obtain ⟨instr, hinstr, hplaced⟩ := List.mem_filterMap.1 h
  have hlabel : instr = .label l := by
    cases instr <;> cases hplaced
    rfl
  have hsome : (code.position l).isSome = true := by
    rw [position, List.findIdx?_isSome, List.any_eq_true]
    exact ⟨instr, hinstr, by simp [hlabel]⟩
  exact Option.isSome_iff_exists.1 hsome

theorem position_lt {code : Code} {l : Label} {p : Nat} (h : code.position l = some p) :
    p < code.length :=
  (List.getElem?_eq_some_iff.1 (getElem?_of_position h)).1

structure Relocated (code : Code) (p offset : Nat) (sub : Code) : Prop where
  stands : At code p (sub.map (Instr.moved offset))
  placed : code.placed.Nodup
  closed : ∀ l ∈ sub.targets, l ∈ sub.placed

namespace Relocated

variable {code sub : Code} {p offset : Nat}

theorem getElem? (h : Relocated code p offset sub) {pc : Nat} {instr : Instr}
    (hinstr : sub[pc]? = some instr) : code[p + pc]? = some (instr.moved offset) := by
  have hlt : pc < sub.length := (List.getElem?_eq_some_iff.1 hinstr).1
  rw [h.stands.getElem? (by rw [List.length_map]; exact hlt), List.getElem?_map, hinstr]
  rfl

/-- Where a jump leads in the code and in the place it was moved to. -/
theorem position (h : Relocated code p offset sub) {instr : Instr} {l : Label} (hinstr : instr ∈ sub)
    (htarget : instr.target? = some l) :
    ∃ pc, sub.position l = some pc ∧ code.position (l + offset) = some (p + pc) := by
  have hplaced := h.closed l (List.mem_filterMap.2 ⟨instr, hinstr, htarget⟩)
  obtain ⟨pc, hpc⟩ := exists_position hplaced
  refine ⟨pc, hpc, ?_⟩
  exact position_of_getElem? h.placed (h.getElem? (getElem?_of_position hpc))

end Relocated

end Code

open Code

variable {V W : Type} {I : Interpretation V W} {functions : List Signature}

/-- What a step does: it executes a plain instruction, or it goes on or jumps with the memory as it is. -/
theorem step_ok {code : Code} {c c' : Nat × State V W} (h : I.step functions code c = some c') :
    ∃ instr, code[c.1]? = some instr ∧ instr ≠ .return ∧
      ((c'.1 = c.1 + 1 ∧ I.exec functions instr c.2 = some c'.2) ∨
        (c'.2.memory = c.2.memory ∧ (c'.1 = c.1 + 1 ∨ ∃ l, code.position l = some c'.1))) := by
  obtain ⟨pc, s⟩ := c
  cases hinstr : code[pc]? with
  | none => simp [Interpretation.step, hinstr] at h
  | some instr =>
    refine ⟨instr, rfl, ?_⟩
    have hbranch : ∀ on l, I.branch code on l pc s = some c' →
        c'.2.memory = s.memory ∧ (c'.1 = pc + 1 ∨ ∃ l, code.position l = some c'.1) := by
      intro on l hbranch
      unfold Interpretation.branch at hbranch
      split at hbranch
      next => cases hbranch
      next v stack =>
        obtain ⟨b, -, hb⟩ := Option.bind_eq_some_iff.1 hbranch
        split at hb
        next =>
          obtain ⟨target, htarget, rfl⟩ := Option.map_eq_some_iff.1 hb
          exact ⟨rfl, .inr ⟨l, htarget⟩⟩
        next =>
          cases hb
          exact ⟨rfl, .inl rfl⟩
    by_cases hplain : instr.isPlain = true
    · rw [Interpretation.step_plain hinstr hplain] at h
      obtain ⟨s', hexec, rfl⟩ := Option.map_eq_some_iff.1 h
      refine ⟨?_, .inl ⟨rfl, hexec⟩⟩
      rintro rfl
      cases hplain
    · cases instr with
      | «return» => simp [Interpretation.step, hinstr] at h
      | label l =>
        rw [Interpretation.step_label hinstr] at h
        cases h
        exact ⟨by simp, .inr ⟨rfl, .inl rfl⟩⟩
      | jump l =>
        rw [Interpretation.step_jump hinstr] at h
        obtain ⟨target, htarget, rfl⟩ := Option.map_eq_some_iff.1 h
        exact ⟨by simp, .inr ⟨rfl, .inr ⟨l, htarget⟩⟩⟩
      | jumpIfFalse l =>
        rw [Interpretation.step_jumpIfFalse hinstr] at h
        exact ⟨by simp, .inr (hbranch _ _ h)⟩
      | jumpIfTrue l =>
        rw [Interpretation.step_jumpIfTrue hinstr] at h
        exact ⟨by simp, .inr (hbranch _ _ h)⟩
      | _ => exact absurd rfl hplain

/-- A step leads to the next position or to a label. -/
theorem step_next {code : Code} {c c' : Nat × State V W} (h : I.step functions code c = some c') :
    (c'.1 = c.1 + 1 ∧ ∃ instr, code[c.1]? = some instr ∧ instr ≠ .return) ∨
      ∃ l, code.position l = some c'.1 := by
  obtain ⟨instr, hinstr, hne, ⟨hnext, -⟩ | ⟨-, hnext | hlabel⟩⟩ := step_ok h
  · exact .inl ⟨hnext, instr, hinstr, hne⟩
  · exact .inl ⟨hnext, instr, hinstr, hne⟩
  · exact .inr hlabel

theorem step_le {code : Code} {c c' : Nat × State V W} (h : I.step functions code c = some c') :
    c.1 < code.length ∧ c'.1 ≤ code.length := by
  have hlt : c.1 < code.length := by
    refine Nat.lt_of_not_le fun hle => ?_
    simp [Interpretation.step, List.getElem?_eq_none hle] at h
  rcases step_next h with ⟨heq, -⟩ | ⟨l, hl⟩
  · omega
  · exact ⟨hlt, Nat.le_of_lt (position_lt hl)⟩

def Abreast (p : Nat) (hidden : List Place) (m : Memory V W) (c c₀ : Nat × State V W) : Prop :=
  c.1 = p + c₀.1 ∧ Alike hidden m c.2 c₀.2

section Steps

variable {hidden : List Place} {code sub : Code} {p offset : Nat}
  (hlocal : ∀ place ∈ hidden, place.storage = .local) (hat : Relocated code p offset sub)
  (havoids : sub.Avoids hidden)
include hat

theorem branch_relocated {on : Bool} {l : Label} {instr : Instr} {pc : Nat} {m : Memory V W}
    {s s₀ : State V W} (hinstr : instr ∈ sub) (htarget : instr.target? = some l)
    (h : Alike hidden m s s₀) :
    Option.Rel (Abreast p hidden m) (I.branch code on (l + offset) (p + pc) s)
      (I.branch sub on l pc s₀) := by
  obtain ⟨stack, m₁⟩ := s
  obtain ⟨_, m₀⟩ := s₀
  obtain ⟨rfl, hagree, hkeeps⟩ := h
  obtain ⟨target, htarget₀, htarget₁⟩ := hat.position hinstr htarget
  cases stack with
  | nil => exact .none
  | cons v stack =>
    simp only [Interpretation.branch, htarget₀, htarget₁]
    cases I.truth v with
    | none => exact .none
    | some b =>
      rw [Option.bind_some, Option.bind_some]
      split
      next => exact .some ⟨rfl, rfl, hagree, hkeeps⟩
      next => exact .some ⟨rfl, rfl, hagree, hkeeps⟩

include hlocal havoids

/-- One step of relocated code. -/
theorem step_relocated {m : Memory V W} {pc : Nat} {s s₀ : State V W} (hpc : pc < sub.length)
    (h : Alike hidden m s s₀) :
    Option.Rel (Abreast p hidden m) (I.step functions code (p + pc, s))
      (I.step functions sub (pc, s₀)) := by
  obtain ⟨instr, hinstr⟩ : ∃ instr, sub[pc]? = some instr := ⟨_, List.getElem?_eq_getElem hpc⟩
  have hmem : instr ∈ sub := List.mem_of_getElem? hinstr
  have hcode := hat.getElem? hinstr
  by_cases hplain : instr.isPlain = true
  · rw [moved_plain hplain] at hcode
    rw [Interpretation.step_plain hcode hplain, Interpretation.step_plain hinstr hplain]
    obtain ⟨stack, m₁⟩ := s
    obtain ⟨_, m₀⟩ := s₀
    obtain ⟨rfl, hagree, hkeeps⟩ := h
    have hexec : Option.Rel (Alike hidden m₁) (I.exec functions instr ⟨stack, m₁⟩)
        (I.exec functions instr ⟨stack, m₀⟩) := exec_alike hlocal (havoids instr hmem) hagree stack
    rcases rel_iff.1 hexec with ⟨hr, hr₀⟩ | ⟨s₁, s₀₁, hr, hr₀, hstack, hagree₁, hkeeps₁⟩
    · rw [hr, hr₀]
      exact .none
    · rw [hr, hr₀]
      exact .some ⟨rfl, hstack, hagree₁, hkeeps.trans hkeeps₁⟩
  · cases instr with
    | «return» =>
      rw [Interpretation.step_return hcode, Interpretation.step_return hinstr]
      exact .none
    | label l =>
      rw [Interpretation.step_label hinstr, Interpretation.step_label hcode]
      exact .some ⟨rfl, h⟩
    | jump l =>
      obtain ⟨target, htarget₀, htarget₁⟩ := hat.position hmem rfl
      rw [Interpretation.step_jump hinstr, Interpretation.step_jump hcode, htarget₀, htarget₁]
      exact .some ⟨rfl, h⟩
    | jumpIfFalse l =>
      rw [Interpretation.step_jumpIfFalse hinstr, Interpretation.step_jumpIfFalse hcode]
      exact branch_relocated hat hmem rfl h
    | jumpIfTrue l =>
      rw [Interpretation.step_jumpIfTrue hinstr, Interpretation.step_jumpIfTrue hcode]
      exact branch_relocated hat hmem rfl h
    | _ => exact absurd rfl hplain

/-- Relocated code does what the code does. -/
theorem steps_relocated {m : Memory V W} {n pc : Nat} {s s₀ : State V W} {c₀ : Nat × State V W}
    (h : Alike hidden m s s₀) (hsteps : I.steps functions sub n (pc, s₀) = some c₀) :
    ∃ c, I.steps functions code n (p + pc, s) = some c ∧ Abreast p hidden m c c₀ := by
  induction n generalizing pc s s₀ with
  | zero =>
    cases hsteps
    exact ⟨_, rfl, rfl, h⟩
  | succ n ih =>
    obtain ⟨⟨pc₁, s₀₁⟩, hstep, hrest⟩ := Option.bind_eq_some_iff.1 hsteps
    have hpc : pc < sub.length := (step_le hstep).1
    have hrel : Option.Rel (Abreast p hidden m) (I.step functions code (p + pc, s)) _ :=
      step_relocated hlocal hat havoids hpc h
    obtain ⟨⟨_, s₁⟩, hcode, rfl, halike⟩ := rel_some_right hrel hstep
    obtain ⟨c, hc, habreast⟩ := ih halike hrest
    refine ⟨c, ?_, habreast⟩
    change (I.step functions code (p + pc, s)).bind _ = some c
    rw [hcode]
    exact hc

/-- A run to a return that starts in relocated code gets to its end, and so does the code itself. -/
theorem Interpretation.Halts.relocated {m : Memory V W} {n pc : Nat} {s s₀ : State V W}
    {r : Nat × State V W} (hpasses : ∀ instr ∈ sub, instr ≠ .return) (h : Alike hidden m s s₀)
    (hpc : pc ≤ sub.length) (hhalts : I.Halts functions code n (p + pc, s) r) :
    ∃ k s₀', I.steps functions sub k (pc, s₀) = some (sub.length, s₀') := by
  induction n using Nat.strongRecOn generalizing pc s s₀ with
  | _ n ih =>
    by_cases hend : pc = sub.length
    · subst hend
      exact ⟨0, s₀, rfl⟩
    have hlt : pc < sub.length := by omega
    obtain ⟨instr, hinstr⟩ : ∃ instr, sub[pc]? = some instr := ⟨_, List.getElem?_eq_getElem hlt⟩
    have hne : instr.moved offset ≠ .return := by
      have hother := hpasses instr (List.mem_of_getElem? hinstr)
      cases instr <;> simp_all [Instr.moved]
    obtain ⟨c, j, hstep, rfl, hrest⟩ := hhalts.step (hat.getElem? hinstr) hne
    have hrel : Option.Rel (Abreast p hidden m) (I.step functions code (p + pc, s)) _ :=
      step_relocated hlocal hat havoids hlt h
    obtain ⟨⟨pc₁, s₀₁⟩, hsub, hpc₁, halike⟩ := rel_some_left hrel hstep
    obtain ⟨_, s₁⟩ := c
    cases hpc₁
    obtain ⟨k, s₀', hk⟩ := ih j (Nat.lt_succ_self j) halike (step_le hsub).2 hrest
    refine ⟨k + 1, s₀', ?_⟩
    change (I.step functions sub (pc, s₀)).bind _ = _
    rw [hsub]
    exact hk

end Steps

section Stack

variable {f : Frame} {result : Ty} {code : Code}

/-- A step leaves as many values on the stack as the type of the position it leads to says. -/
theorem step_length (h : Code.scan f result [] code = some []) {c c' : Nat × State V W}
    (hlength : c.2.stack.length = (code.passTypes f result c.1).length)
    (hstep : I.step f.functions code c = some c') :
    c'.2.stack.length = (code.passTypes f result c'.1).length := by
  obtain ⟨pc, s⟩ := c
  cases hinstr : code[pc]? with
  | none => simp [Interpretation.step, hinstr] at hstep
  | some instr =>
    obtain ⟨hleaves, hempty⟩ := passes_leaves (passTypes_step h hinstr)
    have htarget : ∀ {l target}, code.position l = some target →
        code.passTypes f result target = [] := by
      intro l target hposition
      exact passTypes_label h (getElem?_of_position hposition)
    have hbranch : ∀ on l, (code.passTypes f result pc).replace [.bool] [] = some [] →
        code.passTypes f result (pc + 1) = [] → I.branch code on l pc s = some c' →
        c'.2.stack.length = (code.passTypes f result c'.1).length := by
      intro on l hreplace hnext hbranch
      have hone := replace_length hreplace
      unfold Interpretation.branch at hbranch
      split at hbranch
      next => cases hbranch
      next v stack hstack =>
        have hstack : stack = [] := by
          simp only [hstack, List.length_cons, List.length_nil] at hlength hone
          exact List.eq_nil_of_length_eq_zero (by omega)
        obtain ⟨b, -, hb⟩ := Option.bind_eq_some_iff.1 hbranch
        split at hb
        next =>
          obtain ⟨target, hposition, rfl⟩ := Option.map_eq_some_iff.1 hb
          rw [htarget hposition, hstack]
          rfl
        next =>
          cases hb
          rw [hnext, hstack]
          rfl
    by_cases hplain : instr.isPlain = true
    · rw [Interpretation.step_plain hinstr hplain] at hstep
      obtain ⟨s', hexec, rfl⟩ := Option.map_eq_some_iff.1 hstep
      have heffect : instr.effect f (code.passTypes f result pc) =
          some (code.passTypes f result (pc + 1)) := by
        cases instr <;> first | exact hleaves | cases hplain
      exact exec_length heffect hexec hlength
    · have hnext := hempty (by simpa using hplain)
      cases instr with
      | «return» => simp [Interpretation.step, hinstr] at hstep
      | label l =>
        rw [Interpretation.step_label hinstr] at hstep
        cases hstep
        rw [Option.some.inj hleaves] at hlength
        exact hlength
      | jump l =>
        rw [Interpretation.step_jump hinstr] at hstep
        obtain ⟨target, hposition, rfl⟩ := Option.map_eq_some_iff.1 hstep
        rw [Option.some.inj hleaves, hnext] at hlength
        rw [htarget hposition]
        exact hlength
      | jumpIfFalse l =>
        rw [Interpretation.step_jumpIfFalse hinstr] at hstep
        rw [hnext] at hleaves
        exact hbranch _ _ hleaves hnext hstep
      | jumpIfTrue l =>
        rw [Interpretation.step_jumpIfTrue hinstr] at hstep
        rw [hnext] at hleaves
        exact hbranch _ _ hleaves hnext hstep
      | _ => exact absurd rfl hplain

/-- Code that a pass gets through with an empty stack ends with an empty stack. -/
theorem steps_length (h : Code.scan f result [] code = some []) {n : Nat} {c c' : Nat × State V W}
    (hlength : c.2.stack.length = (code.passTypes f result c.1).length)
    (hsteps : I.steps f.functions code n c = some c') :
    c'.2.stack.length = (code.passTypes f result c'.1).length := by
  induction n generalizing c with
  | zero =>
    cases hsteps
    exact hlength
  | succ n ih =>
    obtain ⟨c₁, hstep, hrest⟩ := Option.bind_eq_some_iff.1 hsteps
    exact ih (step_length h hlength hstep) hrest

theorem steps_empty (h : Code.scan f result [] code = some []) {n : Nat} {m : Memory V W}
    {s : State V W} (hsteps : I.steps f.functions code n (0, ⟨[], m⟩) = some (code.length, s)) :
    s = ⟨[], s.memory⟩ := by
  have hlength := steps_length h (by simp [Code.passTypes]) hsteps
  simp only [Code.passTypes, List.take_length, h, Option.getD_some] at hlength
  exact State.ext (List.eq_nil_of_length_eq_zero hlength) rfl

end Stack

/-! Setups. -/

theorem Lowering.Setup.Typed.relocated {f : Frame} {prepared : Setup} (h : prepared.Typed f) (next : Nat) :
    prepared.code next = (prepared.code 0).map (Instr.moved next) := by
  cases prepared with
  | nothing => rfl
  | scalar place value =>
    obtain ⟨ty, -, hvalue⟩ := h
    have hstraight : Code.Straight (Setup.code 0 (.scalar place value)) := by
      simp [Setup.code, straight_of_check hvalue]
    exact (hstraight.moved next).symm
  | array place element length fill =>
    cases fill with
    | none =>
      have hstraight : Code.Straight (Setup.code 0 (.array place element length none)) := by
        simp [Setup.code]
      exact (hstraight.moved next).symm
    | some fill =>
      obtain ⟨hprologue, hadvance, htest⟩ := h.fill
      simp only [setup_code_filled, List.map_append, List.map_cons, List.map_nil,
        (straight_of_check hprologue).moved, (straight_of_check hadvance).moved,
        (straight_of_check htest).moved, Instr.moved, Nat.zero_add, Nat.add_comm next 1]

theorem avoids_nil (hidden : List Place) : Code.Avoids hidden [] := by
  intro instr hinstr
  cases hinstr

theorem avoids_append {hidden : List Place} {code more : Code} (h : code.Avoids hidden)
    (h' : more.Avoids hidden) : Code.Avoids hidden (code ++ more) := by
  intro instr hinstr
  rcases List.mem_append.1 hinstr with hinstr | hinstr
  · exact h instr hinstr
  · exact h' instr hinstr

theorem avoids_cons {hidden : List Place} {instr : Instr} {code : Code} (h : instr.place? = none)
    (h' : code.Avoids hidden) : Code.Avoids hidden (instr :: code) := by
  intro found hfound place hplace
  rcases List.mem_cons.1 hfound with rfl | hfound
  · rw [h] at hplace
    cases hplace
  · exact h' found hfound place hplace

namespace Lowering.Setup.Typed

variable {f : Frame} {hidden : List Place} {prepared : Setup} (h : prepared.Typed (f.without hidden))
include h

theorem avoids (next : Nat) : (prepared.code next).Avoids hidden := by
  cases prepared with
  | nothing => exact avoids_nil hidden
  | scalar place value =>
    obtain ⟨ty, hplace, hvalue⟩ := h
    have hcheck : Code.check (f.without hidden) [] (value ++ [.store place]) = some [] := by
      simp [hvalue, effect_store hplace]
    exact avoids_of_check hcheck
  | array place element length fill =>
    cases fill with
    | none =>
      have hcheck : Code.check (f.without hidden) []
          (Setup.code next (.array place element length none)) = some [] := by
        simp [Setup.code, effect_store h.1]
      exact avoids_of_check hcheck
    | some fill =>
      obtain ⟨hprologue, hadvance, htest⟩ := h.fill
      rw [setup_code_filled]
      refine avoids_append (avoids_of_check hprologue) (avoids_cons rfl (avoids_cons rfl ?_))
      refine avoids_append (avoids_of_check hadvance) (avoids_cons rfl ?_)
      exact avoids_append (avoids_of_check htest) (avoids_cons rfl (avoids_nil hidden))

theorem passes (next : Nat) : ∀ instr ∈ prepared.code next, instr ≠ .return := by
  have hstraight : ∀ {code : Code}, Code.Straight code → ∀ instr ∈ code, instr ≠ .return := by
    rintro code hcode _ hinstr rfl
    cases hcode _ hinstr
  cases prepared with
  | nothing => exact hstraight straight_nil
  | scalar place value =>
    obtain ⟨ty, -, hvalue⟩ := h
    exact hstraight (by simp [Setup.code, straight_of_check hvalue])
  | array place element length fill =>
    cases fill with
    | none => exact hstraight (by simp [Setup.code])
    | some fill =>
      obtain ⟨hprologue, hadvance, htest⟩ := h.fill
      have hprologue := hstraight (straight_of_check hprologue)
      have hadvance := hstraight (straight_of_check hadvance)
      have htest := hstraight (straight_of_check htest)
      rw [setup_code_filled]
      intro instr hinstr
      simp only [List.mem_append, List.mem_cons, List.not_mem_nil, or_false] at hinstr
      rcases hinstr with hinstr | rfl | rfl | hinstr | rfl | hinstr | rfl
      · exact hprologue instr hinstr
      · simp
      · simp
      · exact hadvance instr hinstr
      · simp
      · exact htest instr hinstr
      · simp

variable {code : Code} {p next : Nat} (hplaced : code.placed.Nodup)
  (hat : At code p (prepared.code next))
include hplaced hat

theorem relocated_code : Relocated code p next (prepared.code 0) := by
  refine ⟨by rw [← h.relocated]; exact hat, hplaced, ?_⟩
  intro l hl
  rcases (h.straight.labelled none 0).jumps l hl with hmem | hexit
  · exact hmem
  · cases hexit

variable (hlocal : ∀ place ∈ hidden, place.storage = .local) {m m₀ : Memory V W}
  (hagree : m.AgreeOff hidden m₀)
include hlocal hagree

/-- A setup in the code of a function does what it does alone. -/
theorem steps {n : Nat} {m₀' : Memory V W}
    (hsteps : I.steps functions (prepared.code 0) n (0, ⟨[], m₀⟩) =
      some ((prepared.code 0).length, ⟨[], m₀'⟩)) :
    ∃ m', I.steps functions code n (p, ⟨[], m⟩) = some (p + (prepared.code next).length, ⟨[], m'⟩) ∧
      m'.AgreeOff hidden m₀' ∧ m.Keeps hidden [] m' := by
  have hrelocated := h.relocated_code hplaced hat
  have halike : Alike hidden m ⟨[], m⟩ ⟨[], m₀⟩ := ⟨rfl, hagree, .refl m⟩
  obtain ⟨⟨pc, ⟨stack, m'⟩⟩, hcode, hpc, hstack, hagree', hkeeps⟩ :=
    steps_relocated hlocal hrelocated (h.avoids 0) halike hsteps
  simp only at hpc hstack
  subst hpc hstack
  refine ⟨m', ?_, hagree', hkeeps⟩
  rw [h.relocated, List.length_map]
  exact hcode

theorem steps_of_halts {n : Nat} {r : Nat × State V W}
    (hhalts : I.Halts f.functions code n (p, ⟨[], m⟩) r) :
    ∃ k m₀', I.steps f.functions (prepared.code 0) k (0, ⟨[], m₀⟩) =
      some ((prepared.code 0).length, ⟨[], m₀'⟩) := by
  have hrelocated := h.relocated_code hplaced hat
  have halike : Alike hidden m ⟨[], m⟩ ⟨[], m₀⟩ := ⟨rfl, hagree, .refl m⟩
  obtain ⟨k, s₀, hsteps⟩ :=
    hhalts.relocated hlocal hrelocated (h.avoids 0) (h.passes 0) halike (Nat.zero_le _)
  have hscan : Code.scan f .void [] (prepared.code 0) = some [] := scan_setup h 0
  rw [steps_empty hscan hsteps] at hsteps
  exact ⟨k, _, hsteps⟩

end Lowering.Setup.Typed

end StackCompiler
