import StackCompiler.Proofs.Lowering.Routines
import StackCompiler.Proofs.Semantics.Passages

/-!
The rounds of a counted loop on a machine whose ints are 32-bit words. The counter runs from its first value
in equal strides, and the loop is left after the last value up to the end, unless the stride behind this
value wraps around: then the test holds again, and the loop goes on.
-/

set_option autoImplicit false
namespace StackCompiler

open Code Lowering

variable {V W : Type}

def counted (first stride : Int32) (i : Nat) : Int32 :=
  Int32.ofInt (first.toInt + i * stride.toInt)

@[simp] theorem counted_zero (first stride : Int32) : counted first stride 0 = first := by
  simp [counted]

theorem counted_succ (first stride : Int32) (i : Nat) :
    counted first stride (i + 1) = counted first stride i + stride := by
  have hnext : first.toInt + ((i + 1 : Nat) : Int) * stride.toInt =
      first.toInt + i * stride.toInt + stride.toInt := by
    rw [Int.natCast_succ, Int.add_mul, Int.one_mul, Int.add_assoc]
  rw [counted, hnext, Int32.ofInt_add, Int32.ofInt_toInt, counted]

theorem le_counted {first stride : Int32} (hstride : 0 < stride) (i : Nat) :
    first.toInt ≤ first.toInt + i * stride.toInt := by
  have hpos : 0 < stride.toInt := Int32.lt_iff_toInt_lt.1 hstride
  have hnonneg : 0 ≤ (i : Int) * stride.toInt := Int.mul_nonneg (by omega) (by omega)
  omega

/-- No value of the counter in the range of the words has wrapped around. -/
theorem toInt_counted {first stride : Int32} {i : Nat} (hstride : 0 < stride)
    (h : first.toInt + i * stride.toInt < 2147483648) :
    (counted first stride i).toInt = first.toInt + i * stride.toInt :=
  Int32.toInt_ofInt_of_le (Int.le_trans first.le_toInt (le_counted hstride i)) h

/-- How many values there are up to an end. -/
theorem exists_rounds (first last : Int) {stride : Int} (h : 0 < stride) :
    ∃ n : Nat, (∀ i < n, first + i * stride ≤ last) ∧ last < first + n * stride := by
  have hlast := Int.lt_ediv_add_one_mul_self (last - first) h
  by_cases hle : first ≤ last
  · have hnonneg : 0 ≤ (last - first) / stride := Int.ediv_nonneg (by omega) (by omega)
    obtain ⟨n, hn⟩ := Int.eq_ofNat_of_zero_le hnonneg
    rw [hn] at hlast
    refine ⟨n + 1, ?_, by rw [Int.natCast_succ]; omega⟩
    intro i hi
    have hbelow : (i : Int) ≤ (last - first) / stride := by omega
    have hmul := (Int.le_ediv_iff_mul_le h).1 hbelow
    omega
  · exact ⟨0, by simp, by simpa using hle⟩

section Values

variable {first last stride : Int32} {n : Nat} (hstride : 0 < stride)
  (hbelow : ∀ i < n, first.toInt + i * stride.toInt ≤ last.toInt)
include hstride hbelow

theorem counted_le {i : Nat} (hi : i < n) : first ≤ counted first stride i ∧ counted first stride i ≤ last := by
  have hle := hbelow i hi
  have hlast := last.toInt_lt
  have hvalue : (counted first stride i).toInt = _ := toInt_counted hstride (by omega)
  rw [Int32.le_iff_toInt_le, Int32.le_iff_toInt_le, hvalue]
  exact ⟨le_counted hstride i, hle⟩

/-- Behind the last value the test fails, unless the counter has wrapped around. -/
theorem counted_le_iff (hbeyond : last.toInt < first.toInt + n * stride.toInt) :
    counted first stride n ≤ last ↔ ¬first.toInt + n * stride.toInt < 2147483648 := by
  rw [Int32.le_iff_toInt_le]
  have hlast := last.toInt_lt
  by_cases hwrap : first.toInt + n * stride.toInt < 2147483648
  · rw [toInt_counted hstride hwrap]
    omega
  · refine iff_of_true ?_ hwrap
    have hfirst := first.toInt_lt
    cases n with
    | zero => simp only [Int.natCast_zero, Int.zero_mul] at hwrap; omega
    | succ n =>
      have hvalue := hbelow n (Nat.lt_succ_self n)
      have hlimit := stride.toInt_lt
      rw [counted, Int32.toInt_ofInt]
      rw [Int.natCast_succ, Int.add_mul, Int.one_mul] at hwrap ⊢
      unfold Int.bmod
      simp only [Int32.size]
      omega

end Values

/-! Slots that a loop keeps for itself are not named in its body. -/

theorem Frame.without_without (f : Frame) {own hidden : List Place} (hsub : ∀ place ∈ own, place ∈ hidden) :
    (f.without own).without hidden = f.without hidden := by
  unfold Frame.without
  congr 1
  funext place
  by_cases hplace : place ∈ hidden
  · simp [hplace]
  · have hown : place ∉ own := fun h => hplace (hsub place h)
    simp [hplace, hown]

theorem Code.Avoids.mono {hidden own : List Place} {code : Code} (h : code.Avoids hidden)
    (hsub : ∀ place ∈ own, place ∈ hidden) : code.Avoids own :=
  fun instr hinstr place hplace hown => h instr hinstr place hplace (hsub place hown)

theorem avoids_loopCode {hidden : List Place} {body advance test : Code} (hbody : body.Avoids hidden)
    (hadvance : advance.Avoids hidden) (htest : test.Avoids hidden) (l : Label) :
    (loopCode l body advance test).Avoids hidden := by
  have hend : Code.Avoids hidden [.jumpIfTrue l, .label (l + 2)] :=
    avoids_cons rfl (avoids_cons rfl (avoids_nil hidden))
  have hagain : Code.Avoids hidden (.label (l + 1) :: test) := avoids_cons rfl htest
  have hinner := avoids_append (avoids_append hbody hadvance) (avoids_append hagain hend)
  have hall : Code.Avoids hidden (.jump (l + 1) :: .label l :: _) := avoids_cons rfl (avoids_cons rfl hinner)
  simpa [loopCode] using hall

section Avoids

variable {f : Frame} {hidden own : List Place} (hsub : ∀ place ∈ own, place ∈ hidden)
include hsub

theorem Counting.Typed.without {r : Counting} (h : r.Typed f hidden) (hown : ∀ place ∈ own, place ∉ r.temps) :
    r.Typed (f.without own) hidden := by
  have hframe := f.without_without hsub
  refine ⟨hframe ▸ h.counter, hframe ▸ h.start, fun stop hstop => hframe ▸ h.stop stop hstop,
    fun step temp hstep => hframe ▸ h.step step temp hstep, ?_, h.distinct⟩
  intro place hplace
  obtain ⟨hslot, hhidden⟩ := h.temps place hplace
  exact ⟨Frame.slots_without hslot fun hmem => hown place hmem hplace, hhidden⟩

/-- Of the hidden slots, a statement names those that its own loops use. -/
theorem Stmt.Typed.avoids {result : Ty} {inLoop : Bool} {b : Stmt} (h : b.Typed f hidden result inLoop)
    (hown : ∀ place ∈ own, place ∉ b.temps) (exit : Option Label) (next : Label) :
    (b.code exit next).Avoids own := by
  induction b generalizing inLoop exit next with
  | skip => exact avoids_nil own
  | seq first second ih₁ ih₂ =>
    simp only [Stmt.temps, List.mem_append, not_or] at hown
    exact avoids_append (ih₁ h.1 (fun place hplace => (hown place hplace).1) exit next)
      (ih₂ h.2 (fun place hplace => (hown place hplace).2) exit _)
  | block code => exact (avoids_of_check h).mono hsub
  | setup prepared =>
    have htyped : prepared.Typed (f.without hidden) := h
    exact (htyped.avoids next).mono hsub
  | ifThen test yes ih =>
    have htest := (avoids_of_check h.1).mono hsub
    have hend : Code.Avoids own [.label next] := avoids_cons rfl (avoids_nil own)
    have hyes : Code.Avoids own (.jumpIfFalse next :: _) :=
      avoids_cons rfl (avoids_append (ih h.2 hown exit (next + 1)) hend)
    simpa [Stmt.code] using avoids_append htest hyes
  | ifElse test yes no ih₁ ih₂ =>
    simp only [Stmt.temps, List.mem_append, not_or] at hown
    have htest := (avoids_of_check h.1).mono hsub
    have hyes := ih₁ h.2.1 (fun place hplace => (hown place hplace).1) exit (next + 2)
    have hno := ih₂ h.2.2 (fun place hplace => (hown place hplace).2) exit (next + 2 + yes.labels)
    have hend : Code.Avoids own [.label (next + 1)] := avoids_cons rfl (avoids_nil own)
    have hother : Code.Avoids own (.jump (next + 1) :: .label next :: _) :=
      avoids_cons rfl (avoids_cons rfl (avoids_append hno hend))
    have hbranches : Code.Avoids own (.jumpIfFalse next :: _) := avoids_cons rfl (avoids_append hyes hother)
    simpa [Stmt.code] using avoids_append htest hbranches
  | whileDo test body ih =>
    exact avoids_loopCode (ih h.2 hown _ _) (avoids_nil own) ((avoids_of_check h.1).mono hsub) next
  | forTo r body ih =>
    simp only [Stmt.temps, List.mem_append, not_or] at hown
    obtain ⟨hrange, hadvance, htest⟩ := (h.1.without hsub fun place hplace => (hown place hplace).1).checks
    have hbody := ih h.2.2 (fun place hplace => (hown place hplace).2) (some (next + 2)) (next + 3)
    exact avoids_append (avoids_of_check hrange)
      (avoids_loopCode hbody (avoids_of_check hadvance) (avoids_of_check htest) next)
  | «return» value =>
    exact avoids_append ((avoids_of_check h).mono hsub) (avoids_cons rfl (avoids_nil own))
  | breakLoop =>
    cases exit with
    | none => exact avoids_nil own
    | some l => exact avoids_cons rfl (avoids_nil own)

end Avoids

theorem LoopAt.tested {code body advance test : Code} {p q : Nat} {l : Label}
    (h : LoopAt code p q l body advance test) (hstraight : Straight test) :
    Interpretation.TestedAt code p q l test := by
  refine ⟨h.enter, h.start, h.again, h.testAt, hstraight, ?_⟩
  rw [h.place]
  omega

section Loop

variable {I : Interpretation V W} {f : Frame} {hidden : List Place} {r : Counting} {code : Code}
  {first last stride : Int32} {Inv : Memory V W → Prop}

theorem Interpretation.Words.decides_test (hI : I.Words) {m : Memory V W} {v : Int32}
    (hholds : r.Holds I (I.int last) (I.int stride) m) (hcounter : m.cell r.counter = I.int v) :
    I.decides f.functions r.range.test m = some (decide (v ≤ last), m) := by
  rw [hholds.test_eq]
  simp [atMost, compute, hcounter, hI.le, hI.truth]

theorem Interpretation.Words.run_advance (hI : I.Words) {m : Memory V W} {v : Int32}
    (hrange : r.Typed f hidden) (hholds : r.Holds I (I.int last) (I.int stride) m)
    (hcounter : m.cell r.counter = I.int v) :
    I.run f.functions r.range.advance ⟨[], m⟩ = some ⟨[], m.set r.counter (I.int (v + stride))⟩ := by
  rw [run_eq_runBlock hrange.checks.2.1, hholds.advance_eq]
  simp [increase, compute, hcounter, hI.add]

/-- Code from `lo` to `hi` that, whatever value up to `last` the counter has, ends behind itself with the
counter as it was. What it relies on holds again once the counter has been moved on. -/
def Interpretation.EndsNormally (I : Interpretation V W) (functions : List Signature) (code : Code)
    (lo hi : Nat) (counter : Place) (first last stride : Int32) (Inv : Memory V W → Prop) : Prop :=
  ∀ (v : Int32) (m : Memory V W), first ≤ v → v ≤ last → m.cell counter = I.int v → Inv m →
    ∃ k m', I.Within functions code lo hi k (lo, ⟨[], m⟩) (hi, ⟨[], m'⟩) ∧ m'.cell counter = I.int v ∧
      Inv (m'.set counter (I.int (v + stride)))

structure Counting.Behind (r : Counting) (I : Interpretation V W) (first last stride : Int32)
    (Inv : Memory V W → Prop) (i : Nat) (m : Memory V W) : Prop where
  counter : m.cell r.counter = I.int (counted first stride i)
  holds : r.Holds I (I.int last) (I.int stride) m
  inv : Inv m

variable {p q : Nat} {l : Label} {body : Code}
  (hI : I.Words) (hlocal : ∀ place ∈ hidden, place.storage = .local) (hrange : r.Typed f hidden)
  (hloop : LoopAt code p q l body r.range.advance r.range.test) (havoids : body.Avoids r.temps)
  (hbody : I.EndsNormally f.functions code (p + 2) (p + 2 + body.length) r.counter first last stride Inv)
include hI hlocal hrange hloop havoids hbody

/-- One round: the body, then the advance, which comes to the test with the next value. -/
theorem behind_round {i : Nat} {m : Memory V W} (hm : r.Behind I first last stride Inv i m)
    (hfirst : first ≤ counted first stride i) (hlast : counted first stride i ≤ last) :
    ∃ k m', I.Within f.functions code (p + 1) q k (p + 1, ⟨[], m⟩) (q, ⟨[], m'⟩) ∧
      r.Behind I first last stride Inv (i + 1) m' ∧
      I.visits f.functions code (p + 1) k (p + 1, ⟨[], m⟩) = [⟨[], m⟩] := by
  obtain ⟨j, m₁, hinner, hcounter, hinv⟩ := hbody _ m hfirst hlast hm.counter hm.inv
  have htemps : ∀ place ∈ r.temps, place.storage = .local :=
    fun place hplace => hlocal place (hrange.temps place hplace).2
  have hkeeps : m.Keeps r.temps [] m₁ := hinner.keeps htemps hloop.bodyAt havoids
  have hholds : r.Holds I (I.int last) (I.int stride) m₁ :=
    hm.holds.kept fun place hplace => hkeeps place hplace (by simp)
  have hadvance := Interpretation.within_straight hloop.advanceAt (straight_of_check hrange.checks.2.1)
    (hI.run_advance hrange hholds hcounter)
  rw [← hloop.place] at hadvance
  have hlabel : I.step f.functions code (p + 1, ⟨[], m⟩) = some (p + 2, ⟨[], m⟩) :=
    Interpretation.step_label hloop.start _
  have hplace := hloop.place
  have hrest := (hinner.mono (Nat.le_refl _) (by omega : _ ≤ q)).trans
    (hadvance.mono (by omega : p + 2 ≤ _) (Nat.le_refl q))
  have hcounterOut : ∀ place ∈ r.temps, place ≠ r.counter := by
    rintro place hplace rfl
    exact hrange.counter_visible (hrange.temps _ hplace).2
  refine ⟨1 + _, _, (Interpretation.Within.one hlabel (Nat.le_refl _) (by simp only; omega)).trans
    (hrest.mono (by omega) (Nat.le_refl q)), ⟨?_, ?_, hinv⟩, ?_⟩
  · rw [Memory.cell_set_self, counted_succ]
  · refine hholds.kept fun place hplace => ?_
    rw [Memory.cell_set, if_neg (hcounterOut place hplace)]
  · rw [Interpretation.visits_add (Interpretation.steps_one hlabel), Interpretation.visits_one hlabel,
      if_pos rfl, hrest.visits (.inl (by omega))]
    rfl

omit havoids in
/-- The loop, from the jump to its test on, when `n` values lie in its range. -/
theorem behind_rounds (hplaced : code.placed.Nodup) (havoids : body.Avoids r.temps) (hstride : 0 < stride)
    {n : Nat} (hbelow : ∀ i < n, first.toInt + i * stride.toInt ≤ last.toInt)
    (hbeyond : last.toInt < first.toInt + n * stride.toInt) {m : Memory V W}
    (hm : r.Behind I first last stride Inv 0 m) :
    ∃ k m', I.steps f.functions code k (p, ⟨[], m⟩) =
        some (if first.toInt + n * stride.toInt < 2147483648 then q + r.range.test.length + 2 else p + 1,
          ⟨[], m'⟩) ∧
      r.Behind I first last stride Inv n m' ∧
      (I.visits f.functions code (p + 1) k (p, ⟨[], m⟩)).map (fun s => s.memory.cell r.counter) =
        (List.range n).map fun i => I.int (counted first stride i) := by
  have htested := hloop.tested (straight_of_check hrange.checks.2.2)
  have hround : ∀ i < n, ∀ m, r.Behind I first last stride Inv i m → ∃ m₁ k m',
      I.decides f.functions r.range.test m = some (true, m₁) ∧
      I.Within f.functions code (p + 1) q k (p + 1, ⟨[], m₁⟩) (q, ⟨[], m'⟩) ∧
      r.Behind I first last stride Inv (i + 1) m' ∧
      ∀ x ∈ [p + 1], (I.visits f.functions code x k (p + 1, ⟨[], m₁⟩)).map
        (fun s => s.memory.cell r.counter) = [I.int (counted first stride i)] := by
    intro i hi m hm
    obtain ⟨hfirst, hlast⟩ := counted_le hstride hbelow hi
    obtain ⟨k, m', hwithin, hm', hvisits⟩ :=
      behind_round hI hlocal hrange hloop havoids hbody hm hfirst hlast
    have htest : I.decides f.functions r.range.test m = _ := hI.decides_test hm.holds hm.counter
    rw [decide_eq_true hlast] at htest
    refine ⟨m, k, m', htest, hwithin, hm', List.forall_mem_singleton.2 ?_⟩
    rw [hvisits, List.map_singleton, hm.counter]
  obtain ⟨k, m', hrun, hm', hseen⟩ := htested.run hplaced
    (List.forall_mem_singleton.2 ⟨Nat.lt_succ_self p, htested.order⟩) hround
    (fun m hm => hI.decides_test hm.holds hm.counter) hm
  refine ⟨k, m', ?_, hm', ?_⟩
  · have hiff := counted_le_iff hstride hbelow hbeyond
    rw [hrun.steps]
    by_cases hwrap : first.toInt + n * stride.toInt < 2147483648
    · have hfalse : ¬counted first stride n ≤ last := fun hle => hiff.1 hle hwrap
      rw [if_pos hwrap, decide_eq_false hfalse]
      rfl
    · have htrue : counted first stride n ≤ last := hiff.2 hwrap
      rw [if_neg hwrap, decide_eq_true htrue]
      rfl
  · rw [hseen _ (List.mem_singleton_self _), ← List.map_eq_flatMap]

end Loop

/-- A counted loop is entered: its range is evaluated, counter, end and step are these three ints. -/
structure Counting.Enters (r : Counting) (I : Interpretation V W) (functions : List Signature)
    (m : Memory V W) (first last stride : Int32) (m₁ : Memory V W) : Prop where
  run : I.run functions r.range.code ⟨[], m⟩ = some ⟨[], m₁⟩
  counter : m₁.cell r.counter = I.int first
  bounds : ∃ m₀, I.enterLoop functions r m = some (I.int last, I.int stride, m₀)

/-- How a counted loop runs whose body starts at the label at `x` and whose exit is the label at `exit`: the
body is executed `n` times, for the values from `first` to `last` in order, and then the loop is left. But
if the value that follows is no word, the body is entered once more, with what the sum wraps around to. -/
structure Counting.Runs (r : Counting) (I : Interpretation V W) (functions : List Signature) (code : Code)
    (p x exit : Nat) (first last stride : Int32) (m : Memory V W) (n : Nat) : Prop where
  below : ∀ i < n, first.toInt + i * stride.toInt ≤ last.toInt
  beyond : last.toInt < first.toInt + n * stride.toInt
  once : r.stop = none → n = 1
  each : r.step = none → n = (last.toInt - first.toInt + 1).toNat
  run : ∃ k m', I.steps functions code k (p, ⟨[], m⟩) =
      some (if first.toInt + n * stride.toInt < 2147483648 then exit else x, ⟨[], m'⟩) ∧
    m'.cell r.counter = I.int (counted first stride n) ∧
    (I.visits functions code x k (p, ⟨[], m⟩)).map (fun s => s.memory.cell r.counter) =
      (List.range n).map fun i => I.int (counted first stride i)

namespace Counting.Enters

variable {I : Interpretation V W} {f : Frame} {hidden : List Place} {r : Counting} {m m₁ : Memory V W}
  {first last stride : Int32} (h : r.Enters I f.functions m first last stride m₁)
  (hlocal : ∀ place ∈ hidden, place.storage = .local) (hrange : r.Typed f hidden)
include h hlocal hrange

theorem holds : r.Holds I (I.int last) (I.int stride) m₁ := by
  obtain ⟨m₀, hbounds⟩ := h.bounds
  have hrel : Option.Rel _ (I.run f.functions r.range.code ⟨[], m⟩) _ :=
    enterLoop_alike hlocal hrange (.refl m)
  obtain ⟨e, he, -, -, hholds, -⟩ := rel_some_left hrel h.run
  rw [hbounds] at he
  cases he
  exact hholds

/-- Without an end the counter starts there. -/
theorem counter_eq (hstop : r.stop = none) (hstep : r.step = none) : m₁.cell r.counter = I.int last := by
  obtain ⟨m₀, hbounds⟩ := h.bounds
  have hrel : Option.Rel _ (I.run f.functions r.range.code ⟨[], m⟩) _ :=
    enterLoop_alike hlocal hrange (.refl m)
  obtain ⟨e, he, -, hagree, -, -⟩ := rel_some_left hrel h.run
  rw [hagree.cell _ hrange.counter_visible]
  rw [hbounds] at he
  cases he
  simp only [Interpretation.enterLoop, Interpretation.enterRange, hstop, hstep] at hbounds
  cases hstart : I.evaluate f.functions r.start m with
  | none => simp [hstart] at hbounds
  | some start =>
    simp only [hstart, Option.bind_eq_bind, Option.bind_some, Option.some.injEq, Prod.mk.injEq] at hbounds
    obtain ⟨hlast, -, rfl⟩ := hbounds
    rw [Memory.cell_set_self, hlast]

end Counting.Enters

/-- How many values there are, in numbers, when the loop has no end or no step. -/
theorem rounds_of_plain {first last stride : Int32} {n : Nat} (hstride : 0 < stride)
    (hbelow : ∀ i < n, first.toInt + i * stride.toInt ≤ last.toInt)
    (hbeyond : last.toInt < first.toInt + n * stride.toInt) :
    (first = last → n = 1) ∧ (stride = 1 → n = (last.toInt - first.toInt + 1).toNat) := by
  have hpos : 0 < stride.toInt := Int32.lt_iff_toInt_lt.1 hstride
  refine ⟨?_, ?_⟩
  · rintro rfl
    match n with
    | 0 => simp at hbeyond
    | 1 => rfl
    | n + 2 =>
      have hsecond := hbelow 1 (by omega)
      simp only [Int.natCast_one, Int.one_mul] at hsecond
      omega
  · rintro rfl
    have hone : (1 : Int32).toInt = 1 := rfl
    simp only [hone, Int.mul_one] at hbelow hbeyond
    cases n with
    | zero => omega
    | succ n =>
      have hlast := hbelow n (Nat.lt_succ_self n)
      omega

section Code

variable {I : Interpretation V W} {f : Frame} {hidden : List Place} {r : Counting} {m m₁ : Memory V W}
  {first last stride : Int32} {Inv : Memory V W → Prop} {code body : Code} {p x exit : Nat} {l : Label}

/-- The code of a counted loop, entered at its range. -/
theorem Counting.Enters.runs (h : r.Enters I f.functions m first last stride m₁) (hI : I.Words)
    (hlocal : ∀ place ∈ hidden, place.storage = .local) (hrange : r.Typed f hidden)
    (hplain : r.stop = none → r.step = none) (havoids : body.Avoids r.temps) (hplaced : code.placed.Nodup)
    (hat : At code p (r.range.code ++ loopCode l body r.range.advance r.range.test))
    (hx : x = p + r.range.code.length + 1)
    (hexit : exit = p + r.range.code.length + 2 + body.length + r.range.advance.length +
      r.range.test.length + 2)
    (hstride : 0 < stride) (hinv : Inv m₁)
    (hbody : I.EndsNormally f.functions code (x + 1) (x + 1 + body.length) r.counter first last stride Inv) :
    ∃ n, r.Runs I f.functions code p x exit first last stride m n := by
  subst hx hexit
  obtain ⟨n, hbelow, hbeyond⟩ := exists_rounds first.toInt last.toInt (Int32.lt_iff_toInt_lt.1 hstride)
  obtain ⟨honce, heach⟩ := rounds_of_plain hstride hbelow hbeyond
  have hholds := h.holds hlocal hrange
  have hm₁ : r.Behind I first last stride Inv 0 m₁ := ⟨by rw [counted_zero, h.counter], hholds, hinv⟩
  obtain ⟨k, m', hsteps, hm', hseen⟩ := behind_rounds hI hlocal hrange (loopAt hat.right) hbody hplaced havoids
    hstride hbelow hbeyond hm₁
  have henter := Interpretation.within_straight hat.left (straight_of_check hrange.checks.1) h.run
  refine ⟨n, hbelow, hbeyond, ?_, ?_, r.range.code.length + k, m', ?_, hm'.counter, ?_⟩
  · intro hstop
    refine honce (hI.int_inj m.globals ?_)
    rw [← h.counter, h.counter_eq hlocal hrange hstop (hplain hstop)]
  · intro hstep
    have hone := hholds.2
    simp only [hstep] at hone
    exact heach (hI.int_inj m.globals hone.symm)
  · exact Interpretation.steps_trans henter.steps hsteps
  · rw [Interpretation.visits_add henter.steps, henter.visits (.inr (Nat.le_succ _)), List.nil_append, hseen]

end Code

theorem Lowering.Counts.step_eq_none {table : FunctionTable} {counter : Place} {bounds : List Tree}
    {r : Counting} {c c' : ScopeChain} (h : Counts table counter bounds c r c') (hstop : r.stop = none) :
    r.step = none := by
  cases h with
  | start | upTo => rfl
  | stride => cases hstop

theorem Lowering.forStatement_parts {table : FunctionTable} {ts : List Token} {name : Token}
    {bounds : List Tree} {body : Tree}
    (h : Grammar.Derives .statement ts [.marked .forStmt name [.inner .iterRange bounds, body]]) :
    IsRange bounds ∧ body.tag ≠ .varDecl ∧ Outlinable table body := by
  cases h with
  | compound hblock => cases hblock
  | forDo _ _ _ range _ loop =>
    obtain ⟨_, hparts, hbounds⟩ := @outlinedAs table _ _ _ range _ (List.mem_singleton_self _)
    cases hparts
    exact ⟨hbounds, outlinedAs loop _ (List.mem_singleton_self _)⟩

/-- The code of a `for` statement, in a function and in any code that places its labels once. If its body
always ends normally, with the counter as it was, then it is executed for each of the values that the
range says, in order; the loop goes on behind the last one if and only if the counter wraps around. -/
theorem for_statement_rounds {table : FunctionTable} (htable : table.Reachable) {params : List Ty}
    {ts : List Token} {name : Token} {bounds : List Tree} {body : Tree}
    (hparsed : Grammar.Derives .statement ts [.marked .forStmt name [.inner .iterRange bounds, body]])
    {ctx : Context} {s s' : BodyState} (hscopes : ScopeChain.Reachable params s.scopes)
    (inside : s.scopes.enclosing ≠ []) {code : Code}
    (h : statement table ctx (.marked .forStmt name [.inner .iterRange bounds, body]) s = .ok code s') :
    ∃ symbol r c₁ inner, s.scopes.resolve? name.lexeme = some symbol ∧
      Counts table symbol.place bounds s.scopes r c₁ ∧
      statement table { ctx with loopExit := some (s.nextLabel + 2) } body
        { s with scopes := c₁, nextLabel := s.nextLabel + 3 } = .ok inner s' ∧
      ∀ (whole : Code) (p : Nat), At whole p code → whole.placed.Nodup →
        ∃ x exit, whole.position s.nextLabel = some x ∧ whole.position (s.nextLabel + 2) = some exit ∧
          At whole (x + 1) inner ∧
          ∀ {V W : Type} (I : Interpretation V W) (first last stride : Int32) (m m₁ : Memory V W)
            (Inv : Memory V W → Prop), I.Words → 0 < stride →
            r.Enters I table.signatures m first last stride m₁ → Inv m₁ →
            I.EndsNormally table.signatures whole (x + 1) (x + 1 + inner.length) r.counter first last stride
              Inv →
            ∃ n, r.Runs I table.signatures whole p x exit first last stride m n := by
  obtain ⟨hbounds, hstmt, houtlinable⟩ := forStatement_parts hparsed
  obtain ⟨symbol, r, c₁, inner, hfound, hint, hcounts, hinner, rfl⟩ := forStatement_ok hbounds h
  refine ⟨symbol, r, c₁, inner, hfound, hcounts, hinner, ?_⟩
  obtain ⟨b, hb, rfl, -⟩ := houtlinable.statement hstmt hinner
  have hfor : Outlines table ctx.result false
      (.statement (.marked .forStmt name [.inner .iterRange bounds, body])) s.scopes (.forTo r b) s'.scopes :=
    .forTo hfound hint hcounts hb
  have hextends := hfor.extends hscopes inside
  have hhosts : Hosts ⟨s'.scopes.slotType params, table.signatures⟩ (Stmt.forTo r b).temps
      (Stmt.forTo r b).temps params s.scopes s'.scopes :=
    ⟨fun _ _ hty => hty, hidden_temps hextends hscopes, fun _ _ hplace => hplace, fun _ hplace => hplace⟩
  obtain ⟨⟨hrange, hown, hbody⟩, -⟩ := hfor.typed htable.sound rfl hscopes inside hhosts
  have hlocal := hextends.inFrame inside
  intro whole p hat hplaced
  have hloop := loopAt hat.right
  refine ⟨_, _, position_of_getElem? hplaced hloop.start, position_of_getElem? hplaced hloop.exit,
    hloop.bodyAt, ?_⟩
  intro V W I first last stride m m₁ Inv hI hstride henters hinv hends
  exact henters.runs hI hlocal hrange hcounts.step_eq_none
    (hbody.avoids (fun place hplace => List.mem_append_left _ hplace) hown _ _) hplaced hat rfl (by omega)
    hstride hinv hends

def wordMachine : Interpretation Int32 Unit where
  int n := n
  bool b := if b then 1 else 0
  char _ := 0
  string _ := 0
  act instr operands g :=
    match instr, operands with
    | .add, [a, b] => some (a + b, g)
    | .le, [a, b] => some (if a ≤ b then 1 else 0, g)
    | .lt, [a, b] => some (if a < b then 1 else 0, g)
    | _, _ => none
  truth v := some (v ≠ 0)

theorem wordMachine_words : wordMachine.Words := by
  refine ⟨fun _ _ _ => rfl, ?_, ?_, ?_⟩
  · intro a b g
    by_cases h : a ≤ b <;> simp [wordMachine, h]
  · intro a b g
    by_cases h : a < b <;> simp [wordMachine, h]
  · intro b
    cases b <;> rfl

theorem Grammar.Derives.of_factor {ts : List Token} {t : Tree} (h : Derives .factor ts [t]) :
    Derives (.chain .or) ts [t] :=
  .single (.single (.positive (.uncompared (.single (.single (.single (.plain h)))))))

/-- `for i = 1 to 5 by 2 do s += i;` with `i` and `s` in the first two local slots. -/
theorem for_statement_rounds_by_two :
    let i : Token := ⟨.identifier, "i", 1⟩
    let sum : Token := ⟨.identifier, "s", 1⟩
    let number (text : String) : Tree := .marked .constant ⟨.number, text, 1⟩ []
    let body : Tree := .marked .expStmt ⟨.symbol, ";", 1⟩
      [.marked .assign ⟨.operator, "+=", 1⟩ [.marked .mutable sum [], .marked .mutable i []]]
    let s : BodyState := ⟨⟨⟨.function, [⟨"s", .int, ⟨.local, 1⟩, none, 1⟩, ⟨"i", .int, ⟨.local, 0⟩, none, 1⟩],
      2, 0⟩, [⟨.file, [], 0, 0⟩], [], [.int, .int]⟩, ⟨[], 0⟩, 0⟩
    ∃ code s', statement .empty ⟨.void, none⟩
        (.marked .forStmt i [.inner .iterRange [number "1", number "5", number "2"], body]) s = .ok code s' ∧
      code = [.pushInt 1, .storeLocal 0, .pushInt 5, .storeLocal 2, .pushInt 2, .storeLocal 3, .jump 1,
        .label 0, .loadLocal 1, .loadLocal 0, .add, .storeLocal 1, .loadLocal 0, .loadLocal 3, .add,
        .storeLocal 0, .label 1, .loadLocal 0, .loadLocal 2, .le, .jumpIfTrue 0, .label 2] ∧
      ∃ (r : Counting) (n : Nat), r.Runs wordMachine [] code 0 7 21 1 5 2 ⟨⟨fun _ => 0, ()⟩, fun _ => 0, fun _ => 0⟩ n := by
  intro i sum number body s
  have hliteral : ∀ text, Grammar.Derives (.chain .or) [⟨.number, text, 1⟩] [number text] :=
    fun text => .of_factor (.literal (.inl rfl))
  have hrange : Grammar.Derives .range _ [.inner .iterRange [number "1", number "5", number "2"]] :=
    @Grammar.Derives.rangeBy ⟨.keyword, "to", 1⟩ ⟨.keyword, "by", 1⟩ _ _ _ _ _ _ (hliteral "1")
      ⟨rfl, by decide⟩ (hliteral "5") ⟨rfl, by decide⟩ (hliteral "2")
  have hbody : Grammar.Derives .statement _ [body] :=
    .expStmt (@Grammar.Derives.assign ⟨.operator, "+=", 1⟩ _ _ _ _ (.named rfl) ⟨rfl, by decide⟩
      (.simple (.of_factor (.location (.named rfl))))) ⟨rfl, by decide⟩
  have hparsed := @Grammar.Derives.forDo ⟨.keyword, "for", 1⟩ i ⟨.operator, "=", 1⟩ ⟨.keyword, "do", 1⟩ _ _ _ _
    ⟨rfl, by decide⟩ rfl ⟨rfl, by decide⟩ hrange ⟨rfl, by decide⟩ hbody
  have hi : (ScopeChain.empty.enter .function).declare "i" .int .local none 1 = .ok (0, _) := rfl
  have hsum : ScopeChain.declare ⟨⟨.function, [⟨"i", .int, ⟨.local, 0⟩, none, 1⟩], 1, 0⟩, [⟨.file, [], 0, 0⟩], [],
    [.int]⟩ "s" .int .local none 1 = .ok (1, s.scopes) := rfl
  have hscopes : ScopeChain.Reachable [] s.scopes :=
    .declare (.declare (.enterFunction .empty rfl) (.inr ⟨rfl, List.cons_ne_nil _ _⟩) rfl hi)
      (.inr ⟨rfl, List.cons_ne_nil _ _⟩) rfl hsum
  have hcode : statement .empty ⟨.void, none⟩ (.marked .forStmt i
      [.inner .iterRange [number "1", number "5", number "2"], body]) s = .ok _ _ := rfl
  refine ⟨_, _, hcode, rfl, ?_⟩
  obtain ⟨symbol, r, c₁, inner, hsymbol, hcounts, hinner, hruns⟩ :=
    for_statement_rounds .empty hparsed hscopes (List.cons_ne_nil _ _) hcode
  cases hsymbol
  cases hcounts with
  | stride initial final increment limit held =>
    obtain ⟨hstart, -⟩ := initial
    cases hstart
    obtain ⟨hstop, -⟩ := final
    cases hstop
    obtain ⟨hstep, -⟩ := increment
    cases hstep
    cases limit
    cases held
    cases hinner
    obtain ⟨x, exit, hx, hexit, hat, hall⟩ := hruns _ 0 ⟨[], [], rfl, rfl⟩ (by decide)
    cases hx
    cases hexit
    refine ⟨_, hall wordMachine 1 5 2 _ ⟨⟨fun _ => 0, ()⟩, _, fun _ => 0⟩ (fun _ => True) wordMachine_words
      (by decide) ⟨rfl, rfl, _, rfl⟩ trivial ?_⟩
    intro v m _ _ hcounter _
    have hadd : wordMachine.run [] [.loadLocal 1, .loadLocal 0, .add, .storeLocal 1] ⟨[], m⟩ =
        some ⟨[], m.set ⟨.local, 1⟩ (m.cell ⟨.local, 1⟩ + m.cell ⟨.local, 0⟩)⟩ := rfl
    have hstraight : Straight [.loadLocal 1, .loadLocal 0, .add, .storeLocal 1] := by
      simp [Instr.isPlain]
    refine ⟨_, _, Interpretation.within_straight hat hstraight hadd, ?_, trivial⟩
    rw [Memory.cell_set, if_neg (by decide)]
    exact hcounter

/-- Without an end the loop starts at its last value. At the largest word it comes back to its body. -/
theorem for_repeats_largest :
    wordMachine.Words ∧
    ∃ g, compile "int f() \x7b int i; for i = 2147483647 do ; return i; \x7d" = .ok ⟨[g], [], []⟩ ∧
      g.code[5]? = some (.label 0) ∧
      (wordMachine.visits [g.signature] g.code 5 21
          (0, ⟨[], ⟨⟨fun _ => 0, ()⟩, fun _ => 0, fun _ => 0⟩⟩)).map (fun s => s.memory.cell ⟨.local, 0⟩) =
        [2147483647, -2147483648] := by
  have hcompile : compile "int f() \x7b int i; for i = 2147483647 do ; return i; \x7d" =
      .ok ⟨[⟨⟨"f", .int, [], 0⟩, [.int, .int], [.pushInt 2147483647, .dup, .storeLocal 1, .storeLocal 0,
        .jump 1, .label 0, .loadLocal 0, .pushInt 1, .add, .storeLocal 0, .label 1, .loadLocal 0,
        .loadLocal 1, .le, .jumpIfTrue 0, .label 2, .loadLocal 0, .return]⟩], [], []⟩ :=
    ok_of_toOption (by decide +kernel)
  exact ⟨wordMachine_words, _, hcompile, rfl, by decide +kernel⟩

end StackCompiler
