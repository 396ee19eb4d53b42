import StackCompiler.Proofs.Lowering.Labels
import StackCompiler.Proofs.Semantics.Structured

/-!
Runs of flat code. A run that comes to a return is taken apart here: it passes through every block that it
starts on, and a jump leads to the one place where its label stands.
-/

set_option autoImplicit false
namespace StackCompiler

namespace Code

def At (code : Code) (p : Nat) (sub : Code) : Prop :=
  ∃ before behind, code = before ++ (sub ++ behind) ∧ before.length = p

namespace At

variable {code sub more : Code} {p : Nat} {instr : Instr}

theorem left (h : At code p (sub ++ more)) : At code p sub := by
  obtain ⟨before, behind, rfl, rfl⟩ := h
  exact ⟨before, more ++ behind, by simp, rfl⟩

theorem right (h : At code p (sub ++ more)) : At code (p + sub.length) more := by
  obtain ⟨before, behind, rfl, rfl⟩ := h
  exact ⟨before ++ sub, behind, by simp, by simp⟩

theorem getElem? (h : At code p sub) {i : Nat} (hi : i < sub.length) : code[p + i]? = sub[i]? := by
  obtain ⟨before, behind, rfl, rfl⟩ := h
  rw [List.getElem?_append_right (Nat.le_add_right _ _), Nat.add_sub_cancel_left,
    List.getElem?_append_left hi]

theorem head (h : At code p (instr :: more)) : code[p]? = some instr := by
  have hfirst := h.getElem? (Nat.succ_pos more.length)
  exact hfirst

theorem tail (h : At code p (instr :: more)) : At code (p + 1) more := by
  have hall : At code p ([instr] ++ more) := h
  exact hall.right

end At

/-- A label that is placed once stands where it is found. -/
theorem position_of_getElem? {code : Code} (hplaced : code.placed.Nodup) {p : Nat} {l : Label}
    (h : code[p]? = some (.label l)) : code.position l = some p := by
  induction code generalizing p with
  | nil => simp at h
  | cons instr code ih =>
    rw [position, List.findIdx?_cons]
    cases p with
    | zero =>
      cases h
      simp
    | succ p =>
      have hrest : code[p]? = some (.label l) := h
      have hmem : l ∈ Code.placed code := List.mem_filterMap.2 ⟨_, List.mem_of_getElem? hrest, rfl⟩
      have hother : instr ≠ .label l := by
        rintro rfl
        rw [placed_label, List.nodup_cons] at hplaced
        exact hplaced.1 hmem
      have hnodup : (Code.placed code).Nodup :=
        hplaced.sublist (List.Sublist.filterMap _ (List.sublist_cons_self _ _))
      have hfound := ih hnodup hrest
      rw [position] at hfound
      simp [hother, hfound]

end Code

open Code

namespace Interpretation

variable {V W : Type} {I : Interpretation V W} {functions : List Signature} {code sub : Code}

theorem steps_add (n k : Nat) (c : Nat × State V W) :
    I.steps functions code (n + k) c =
      (I.steps functions code n c).bind (I.steps functions code k) := by
  induction n generalizing c with
  | zero => rw [Nat.zero_add]; rfl
  | succ n ih =>
    rw [Nat.succ_add]
    change (I.step functions code c).bind _ = ((I.step functions code c).bind _).bind _
    cases I.step functions code c with
    | none => rfl
    | some c' => exact ih c'

theorem steps_trans {n k : Nat} {a b c : Nat × State V W} (h : I.steps functions code n a = some b)
    (h' : I.steps functions code k b = some c) : I.steps functions code (n + k) a = some c := by
  rw [steps_add, h]
  exact h'

theorem steps_one {a b : Nat × State V W} (h : I.step functions code a = some b) :
    I.steps functions code 1 a = some b := by
  change (I.step functions code a).bind _ = _
  rw [h]
  rfl

theorem step_return {c : Nat × State V W} (h : code[c.1]? = some .return) :
    I.step functions code c = none := by
  simp only [step, h]

theorem step_label {p : Nat} {l : Label} (h : code[p]? = some (.label l)) (s : State V W) :
    I.step functions code (p, s) = some (p + 1, s) := by
  simp only [step, h]

theorem step_jump {p : Nat} {l : Label} (h : code[p]? = some (.jump l)) (s : State V W) :
    I.step functions code (p, s) = (code.position l).map fun pc => (pc, s) := by
  simp only [step, h]

theorem step_jumpIfFalse {p : Nat} {l : Label} (h : code[p]? = some (.jumpIfFalse l)) (s : State V W) :
    I.step functions code (p, s) = I.branch code false l p s := by
  simp only [step, h]

theorem step_jumpIfTrue {p : Nat} {l : Label} (h : code[p]? = some (.jumpIfTrue l)) (s : State V W) :
    I.step functions code (p, s) = I.branch code true l p s := by
  simp only [step, h]

theorem step_plain {p : Nat} {instr : Instr} (h : code[p]? = some instr) (hplain : instr.isPlain = true)
    (s : State V W) :
    I.step functions code (p, s) = (I.exec functions instr s).map fun s => (p + 1, s) := by
  cases instr <;> simp only [step, h] <;> cases hplain

/-- A condition that is decided leaves a value that counts as the decision. -/
theorem decides_ok {test : Code} {m m₁ : Memory V W} {b : Bool}
    (h : I.decides functions test m = some (b, m₁)) :
    ∃ v, I.run functions test ⟨[], m⟩ = some ⟨[v], m₁⟩ ∧ I.truth v = some b := by
  unfold decides evaluate at h
  obtain ⟨⟨v, m'⟩, heval, htruth⟩ := Option.bind_eq_some_iff.1 h
  obtain ⟨_, hb, hpair⟩ := Option.map_eq_some_iff.1 htruth
  cases hpair
  split at heval
  next hrun =>
    cases heval
    exact ⟨v, hrun, hb⟩
  next => cases heval

def Halts (I : Interpretation V W) (functions : List Signature) (code : Code) (n : Nat)
    (c r : Nat × State V W) : Prop :=
  I.steps functions code n c = some r ∧ code[r.1]? = some .return

namespace Halts

variable {n : Nat} {c r : Nat × State V W}

/-- A run to a return passes through every place that can be reached from its start. -/
theorem after {k : Nat} {b : Nat × State V W} (h : I.Halts functions code n c r)
    (hk : I.steps functions code k c = some b) : ∃ j, n = k + j ∧ I.Halts functions code j b r := by
  obtain ⟨hsteps, hreturn⟩ := h
  by_cases hle : k ≤ n
  · obtain ⟨j, rfl⟩ := Nat.exists_eq_add_of_le hle
    rw [steps_add, hk] at hsteps
    exact ⟨j, rfl, hsteps, hreturn⟩
  · obtain ⟨j, rfl⟩ := Nat.exists_eq_add_of_lt (Nat.lt_of_not_le hle)
    rw [Nat.add_assoc, steps_add, hsteps] at hk
    change (I.step functions code r).bind _ = some b at hk
    rw [step_return hreturn] at hk
    cases hk

theorem step {instr : Instr} (h : I.Halts functions code n c r) (hinstr : code[c.1]? = some instr)
    (hne : instr ≠ .return) :
    ∃ c' j, I.step functions code c = some c' ∧ n = j + 1 ∧ I.Halts functions code j c' r := by
  obtain ⟨hsteps, hreturn⟩ := h
  cases n with
  | zero =>
    cases hsteps
    rw [hinstr] at hreturn
    exact absurd (Option.some.inj hreturn) hne
  | succ j =>
    obtain ⟨c', hc', hrest⟩ := Option.bind_eq_some_iff.1 hsteps
    exact ⟨c', j, hc', rfl, hrest, hreturn⟩

end Halts

/-- A run of straight code begins with a step over its first instruction. -/
theorem step_of_run_cons {p : Nat} {instr : Instr} {s s' : State V W} (hat : At code p (instr :: sub))
    (hplain : instr.isPlain = true) (hrun : I.run functions (instr :: sub) s = some s') :
    ∃ s₁, I.step functions code (p, s) = some (p + 1, s₁) ∧ I.run functions sub s₁ = some s' := by
  rw [run_cons] at hrun
  obtain ⟨s₁, hexec, hrest⟩ := Option.bind_eq_some_iff.1 hrun
  refine ⟨s₁, ?_, hrest⟩
  rw [step_plain hat.head hplain, hexec]
  rfl

/-- Straight code runs from its first position to the one behind it. -/
theorem steps_straight {p : Nat} {s s' : State V W} (hat : At code p sub) (hstraight : Straight sub)
    (hrun : I.run functions sub s = some s') :
    I.steps functions code sub.length (p, s) = some (p + sub.length, s') := by
  induction sub generalizing p s with
  | nil =>
    cases hrun
    rfl
  | cons instr sub ih =>
    rw [straight_cons] at hstraight
    obtain ⟨s₁, hstep, hrest⟩ := step_of_run_cons hat hstraight.1 hrun
    have hsteps := ih hat.tail hstraight.2 hrest
    rw [List.length_cons, Nat.add_comm sub.length 1]
    have hall := steps_trans (steps_one hstep) hsteps
    rw [hall, Nat.add_assoc]

theorem Halts.straight {n p : Nat} {s : State V W} {r : Nat × State V W}
    (h : I.Halts functions code n (p, s) r) (hat : At code p sub) (hstraight : Straight sub) :
    ∃ s' j, I.run functions sub s = some s' ∧ n = sub.length + j ∧
      I.Halts functions code j (p + sub.length, s') r := by
  induction sub generalizing p s n with
  | nil => exact ⟨s, n, rfl, (Nat.zero_add n).symm, h⟩
  | cons instr sub ih =>
    rw [straight_cons] at hstraight
    have hne : instr ≠ .return := by
      rintro rfl
      cases hstraight.1
    obtain ⟨c', j, hstep, rfl, hrest⟩ := h.step hat.head hne
    rw [step_plain hat.head hstraight.1] at hstep
    obtain ⟨s₁, hexec, rfl⟩ := Option.map_eq_some_iff.1 hstep
    obtain ⟨s', k, hrun, rfl, hend⟩ := ih hrest hat.tail hstraight.2
    refine ⟨s', k, ?_, ?_, ?_⟩
    · rw [run_cons, hexec]
      exact hrun
    · rw [List.length_cons]
      omega
    · rw [List.length_cons, Nat.add_comm sub.length 1, ← Nat.add_assoc]
      exact hend

end Interpretation

end StackCompiler
