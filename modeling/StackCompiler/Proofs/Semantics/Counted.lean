import StackCompiler.Proofs.Semantics.Agreement

/-!
Counted loops. The code of a `for` statement keeps end and step in slots that nothing else uses; while these
hold the two values, its test and its advance are those of the structured execution.
-/

set_option autoImplicit false
namespace StackCompiler

variable {V W : Type} {I : Interpretation V W} {functions : List Signature}

def Counting.Holds (r : Counting) (I : Interpretation V W) (bound stride : V) (m : Memory V W) : Prop :=
  m.cell r.bound = bound ∧ match r.step with
    | some (_, temp) => m.cell temp = stride
    | none => I.int 1 = stride

theorem run_single (instr : Instr) (s : State V W) :
    I.run functions [instr] s = I.exec functions instr s := by
  rw [Interpretation.run_cons]
  cases I.exec functions instr s <;> rfl

theorem exec_compute {instr : Instr} (harity : instr.arity functions = some 2)
    (hyields : instr.yields functions = true) (a b : V) (m : Memory V W) :
    I.exec functions instr ⟨[b, a], m⟩ = (I.compute instr a b m).map fun r => ⟨[r.1], r.2⟩ := by
  have hexec : I.exec functions instr ⟨[b, a], m⟩ = _ :=
    Interpretation.exec_apply I functions [a, b] harity [] m
  rw [hexec, Interpretation.apply, Interpretation.compute, hyields]
  cases I.act instr [a, b] m.globals <;> rfl

namespace Counting.Holds

variable {r : Counting} {bound stride : V} {m : Memory V W} (h : r.Holds I bound stride m)
include h

theorem test_eq : I.decides functions r.range.test m = I.atMost r.counter bound m := by
  have htest : r.range.test = [.load r.counter, .load r.bound] ++ [.le] := by
    unfold Counting.range
    split <;> rfl
  have hle : I.exec functions .le ⟨[bound, m.cell r.counter], m⟩ = _ :=
    exec_compute rfl rfl (m.cell r.counter) bound m
  have hrun : I.run functions r.range.test ⟨[], m⟩ =
      (I.compute .le (m.cell r.counter) bound m).map fun r => ⟨[r.1], r.2⟩ := by
    have hoperands : I.run functions [.load r.counter, .load r.bound] ⟨[], m⟩ =
        some ⟨[bound, m.cell r.counter], m⟩ := by
      simp [Interpretation.run_cons, h.1]
    rw [htest, Interpretation.run_append, hoperands, Option.bind_some, run_single, hle]
  rw [Interpretation.decides, Interpretation.atMost, Interpretation.evaluate, hrun]
  cases I.compute .le (m.cell r.counter) bound m <;> rfl

theorem advance_eq : I.runBlock functions r.range.advance m = I.increase r.counter stride m := by
  have hadvance : r.range.advance = [.load r.counter, r.range.step] ++ [.add, .store r.counter] := by
    unfold Counting.range
    split <;> rfl
  have hoperands : I.run functions [.load r.counter, r.range.step] ⟨[], m⟩ =
      some ⟨[stride, m.cell r.counter], m⟩ := by
    obtain ⟨-, hstride⟩ := h
    cases hstep : r.step with
    | none =>
      simp only [hstep] at hstride
      simp [Counting.range, hstep, Interpretation.run_cons, hstride]
    | some step =>
      simp only [hstep] at hstride
      simp [Counting.range, hstep, Interpretation.run_cons, hstride]
  have hadd : I.exec functions .add ⟨[stride, m.cell r.counter], m⟩ = _ :=
    exec_compute rfl rfl (m.cell r.counter) stride m
  have hrun : I.run functions r.range.advance ⟨[], m⟩ =
      (I.increase r.counter stride m).map fun m' => ⟨[], m'⟩ := by
    rw [hadvance, Interpretation.run_append, hoperands, Option.bind_some, Interpretation.run_cons, hadd]
    unfold Interpretation.increase
    cases I.compute .add (m.cell r.counter) stride m <;> simp [run_single]
  rw [Interpretation.runBlock, hrun]
  cases I.increase r.counter stride m <;> rfl

end Counting.Holds

/-- The slots of a counted loop go on holding its end and its step while they are not stored to. -/
theorem Counting.Holds.kept {r : Counting} {bound stride : V} {m m' : Memory V W} (h : r.Holds I bound stride m)
    (hsame : ∀ place ∈ r.temps, m'.cell place = m.cell place) : r.Holds I bound stride m' := by
  obtain ⟨hbound, hstride⟩ := h
  refine ⟨by rw [hsame _ (by simp [Counting.temps]), hbound], ?_⟩
  cases hr : r.step with
  | none => simpa [hr] using hstride
  | some pair =>
    simp only [hr] at hstride
    rw [← hstride]
    exact hsame _ (by simp [Counting.temps, hr])

theorem run_evaluate {f : Frame} {hidden : List Place} {cell : Cell} {code : Code}
    (h : Code.check (f.without hidden) [] code = some [cell]) (more : Code) (m : Memory V W) :
    I.run f.functions (code ++ more) ⟨[], m⟩ =
      (I.evaluate f.functions code m).bind fun r => I.run f.functions more ⟨[r.1], r.2⟩ := by
  rw [Interpretation.run_append, run_eq_evaluate (check_of_without h)]
  cases I.evaluate f.functions code m <;> rfl

theorem run_store {f : Frame} {hidden : List Place} {cell : Cell} {code : Code}
    (h : Code.check (f.without hidden) [] code = some [cell]) (place : Place) (m : Memory V W) :
    I.run f.functions (code ++ [.store place]) ⟨[], m⟩ =
      (I.evaluate f.functions code m).map fun r => ⟨[], r.2.set place r.1⟩ := by
  rw [run_evaluate h]
  simp only [run_single, Interpretation.exec_store]
  cases I.evaluate f.functions code m <;> rfl

theorem Counting.Typed.counter_visible {f : Frame} {hidden : List Place} {r : Counting}
    (h : r.Typed f hidden) : r.counter ∉ hidden := by
  intro hmem
  have hcounter := h.counter
  simp [Frame.without, hmem] at hcounter

section Enter

variable {f : Frame} {hidden : List Place} {r : Counting}
  (hlocal : ∀ place ∈ hidden, place.storage = .local) (htyped : r.Typed f hidden)
include hlocal htyped

/-- The code before a counted loop: the counter is set, and the end is kept in its slot. -/
theorem enterRange_alike {m m₀ : Memory V W} (h : m.AgreeOff hidden m₀) :
    Option.Rel (fun s e => s.stack = [] ∧ s.memory.AgreeOff hidden e.2 ∧
        s.memory.cell r.bound = e.1 ∧ m.Keeps hidden r.temps s.memory)
      (I.run f.functions r.head ⟨[], m⟩) (I.enterRange f.functions r m₀) := by
  have hbound : r.bound ∈ r.temps := by simp [Counting.temps]
  have hhidden : r.bound ∈ hidden := (htyped.temps _ hbound).2
  have hcounter := htyped.counter_visible
  have hne : r.bound ≠ r.counter := fun heq => hcounter (heq ▸ hhidden)
  have hfirst : Option.Rel _ (I.evaluate f.functions r.start m) (I.evaluate f.functions r.start m₀) :=
    evaluate_alike hlocal (avoids_of_check htyped.start) h
  cases hr : r.stop with
  | none =>
    simp only [Interpretation.enterRange, Counting.head, hr, run_evaluate htyped.start]
    refine rel_bind hfirst ?_
    rintro ⟨v, m₁⟩ ⟨_, m₀₁⟩ ⟨rfl, hagree, hkeeps⟩
    have hrun : I.run f.functions [.dup, .store r.bound, .store r.counter] ⟨[v], m₁⟩ =
        some ⟨[], (m₁.set r.bound v).set r.counter v⟩ := by
      simp [Interpretation.run_cons]
    simp only [hrun]
    refine .some ⟨rfl, (hagree.set_left hhidden v).set r.counter v, ?_, ?_⟩
    · rw [Memory.cell_set, if_neg hne, Memory.cell_set_self]
    · have hall : m.Keeps hidden r.temps m₁ := hkeeps.mono (by simp)
      exact (hall.set (.inr hbound) v).set (.inl hcounter) v
  | some stop =>
    have hcheck := htyped.stop stop hr
    simp only [Interpretation.enterRange, Counting.head, hr, List.append_assoc, run_evaluate htyped.start]
    refine rel_bind hfirst ?_
    rintro ⟨v, m₁⟩ ⟨_, m₀₁⟩ ⟨rfl, hagree, hkeeps⟩
    have hrun : I.run f.functions (.store r.counter :: stop ++ [.store r.bound]) ⟨[v], m₁⟩ =
        (I.evaluate f.functions stop (m₁.set r.counter v)).map fun e =>
          ⟨[], e.2.set r.bound e.1⟩ := by
      rw [List.cons_append, Interpretation.run_cons, Interpretation.exec_store, Option.bind_some,
        run_store hcheck]
    have hsecond : Option.Rel _ (I.evaluate f.functions stop (m₁.set r.counter v))
        (I.evaluate f.functions stop (m₀₁.set r.counter v)) :=
      evaluate_alike hlocal (avoids_of_check hcheck) (hagree.set r.counter v)
    simp only [hrun]
    rcases rel_iff.1 hsecond with ⟨he, he₀⟩ | ⟨⟨bound, m₂⟩, ⟨_, m₀₂⟩, he, he₀, rfl, hagree', hkeeps'⟩
    · rw [he, he₀]
      exact .none
    · rw [he, he₀]
      refine .some ⟨rfl, hagree'.set_left hhidden bound, Memory.cell_set_self _ _ _, ?_⟩
      have hall : m.Keeps hidden [] m₂ := (hkeeps.set (.inl hcounter) v).trans hkeeps'
      exact (hall.mono (by simp)).set (.inr hbound) bound

/-- The code before a counted loop does what the structured execution does on entering it. -/
theorem enterLoop_alike {m m₀ : Memory V W} (h : m.AgreeOff hidden m₀) :
    Option.Rel (fun s e => s.stack = [] ∧ s.memory.AgreeOff hidden e.2.2 ∧
        r.Holds I e.1 e.2.1 s.memory ∧ m.Keeps hidden r.temps s.memory)
      (I.run f.functions r.range.code ⟨[], m⟩) (I.enterLoop f.functions r m₀) := by
  have hfirst : Option.Rel _ (I.run f.functions r.head ⟨[], m⟩) (I.enterRange f.functions r m₀) :=
    enterRange_alike hlocal htyped h
  unfold Interpretation.enterLoop
  cases hr : r.step with
  | none =>
    have hcode : r.range.code = r.head := by simp [Counting.range, hr]
    rw [hcode]
    rcases rel_iff.1 hfirst with ⟨hs, he⟩ | ⟨s, ⟨bound, m₀₁⟩, hs, he, hstack, hagree, hbound, hkeeps⟩
    · rw [hs, he]
      exact .none
    · rw [hs, he]
      exact .some ⟨hstack, hagree, ⟨hbound, by simp [hr]⟩, hkeeps⟩
  | some pair =>
    obtain ⟨step, temp⟩ := pair
    have hcheck := htyped.step step temp hr
    have htemp : temp ∈ r.temps := by simp [Counting.temps, hr]
    have hhidden := (htyped.temps temp htemp).2
    have hother : r.bound ≠ temp := by
      have hdistinct := htyped.distinct
      simpa [Counting.temps, hr] using hdistinct
    have hcode : r.range.code = r.head ++ (step ++ [.store temp]) := by simp [Counting.range, hr]
    rw [hcode, Interpretation.run_append]
    refine rel_bind hfirst ?_
    rintro ⟨stack, m₁⟩ ⟨bound, m₀₁⟩ ⟨hstack, hagree, hbound, hkeeps⟩
    simp only at hstack hagree hbound hkeeps
    subst hstack
    have hsecond : Option.Rel _ (I.evaluate f.functions step m₁) (I.evaluate f.functions step m₀₁) :=
      evaluate_alike hlocal (avoids_of_check hcheck) hagree
    rw [run_store hcheck]
    rcases rel_iff.1 hsecond with ⟨he, he₀⟩ | ⟨⟨stride, m₂⟩, ⟨_, m₀₂⟩, he, he₀, rfl, hagree', hkeeps'⟩
    · simp only [he, he₀]
      exact .none
    · simp only [he, he₀]
      refine .some ⟨rfl, hagree'.set_left hhidden stride, ⟨?_, ?_⟩, ?_⟩
      · rw [Memory.cell_set, if_neg hother, hkeeps' _ (htyped.temps _ (by simp [Counting.temps])).2 (by simp),
          hbound]
      · simp [hr]
      · exact (hkeeps.trans (hkeeps'.mono (by simp))).set (.inr htemp) stride

end Enter

end StackCompiler
