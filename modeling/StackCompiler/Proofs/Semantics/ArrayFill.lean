import StackCompiler.Proofs.Lowering.LabelResolution
import StackCompiler.Proofs.Semantics.Passages

/-!
Arrays that are allocated and filled. The setup of an array with an initial value allocates the array, runs
the code of the value once, and stores the value at every index. This changes the slot of the array, the two
slots that the fill keeps its value and its index in, and nothing else.
-/

set_option autoImplicit false
namespace StackCompiler

open Code Lowering

/-- A view of the world: the elements of the arrays, by the values that refer to these, and all the rest. -/
structure ArrayStore (V W R : Type) where
  elements : W → V → Option (List V)
  rest : W → R

variable {V W R : Type}

def Memory.inWorld (m : Memory V W) (w : W) : Memory V W :=
  { m with globals := { m.globals with world := w } }

@[simp] theorem Memory.cell_inWorld (m : Memory V W) (w : W) (place : Place) :
    (m.inWorld w).cell place = m.cell place := by
  obtain ⟨storage, slot⟩ := place
  cases storage <;> rfl

namespace ArrayStore

/-- A change of the world: the array `a` has the elements `xs`, and all else is as it was. -/
structure Writes (S : ArrayStore V W R) (a : V) (xs : List V) (w w' : W) : Prop where
  array : S.elements w' a = some xs
  others : ∀ b, b ≠ a → S.elements w' b = S.elements w b
  rest : S.rest w' = S.rest w

theorem Writes.trans {S : ArrayStore V W R} {a : V} {xs ys : List V} {w w₁ w' : W} (h : S.Writes a xs w w₁)
    (h' : S.Writes a ys w₁ w') : S.Writes a ys w w' :=
  ⟨h'.array, fun b hb => (h'.others b hb).trans (h.others b hb), h'.rest.trans h.rest⟩

theorem Writes.refl {S : ArrayStore V W R} {a : V} {xs : List V} {w : W} (h : S.elements w a = some xs) :
    S.Writes a xs w w :=
  ⟨h, fun _ _ => rfl, rfl⟩

structure Changes (S : ArrayStore V W R) (slots : List Place) (a : V) (xs : List V)
    (m m' : Memory V W) : Prop where
  cells : ∀ place, place ∉ slots → m'.cell place = m.cell place
  world : S.Writes a xs m.globals.world m'.globals.world

namespace Changes

variable {S : ArrayStore V W R} {slots : List Place} {a : V} {xs ys : List V} {m m' : Memory V W}

theorem refl (h : S.elements m.globals.world a = some xs) : S.Changes slots a xs m m :=
  ⟨fun _ _ => rfl, .refl h⟩

theorem set (h : S.Changes slots a xs m m') {place : Place} (hplace : place ∈ slots) (v : V) :
    S.Changes slots a xs m (m'.set place v) := by
  refine ⟨?_, ?_⟩
  · intro other hother
    have hne : other ≠ place := by
      rintro rfl
      exact hother hplace
    rw [Memory.cell_set, if_neg hne, h.cells other hother]
  · rw [Memory.world_set]
    exact h.world

theorem write (h : S.Changes slots a xs m m') {w : W} (hw : S.Writes a ys m'.globals.world w) :
    S.Changes slots a ys m (m'.inWorld w) := by
  refine ⟨?_, h.world.trans hw⟩
  intro other hother
  rw [Memory.cell_inWorld, h.cells other hother]

end Changes

end ArrayStore

/-- The instructions on arrays. Arrays are numbered by the values that refer to them; an array never gets
another length. -/
structure Interpretation.Arrays (I : Interpretation V W) (S : ArrayStore V W R) : Prop where
  words : I.Words
  newArray : ∀ (element : Ty) (n : Int32) (g : Globals V W), 0 ≤ n → ∃ a xs w,
    I.act (.newArray element) [I.int n] g = some (a, { g with world := w }) ∧
      S.elements g.world a = none ∧ xs.length = n.toInt.toNat ∧ S.Writes a xs g.world w
  storeElem : ∀ (element : Ty) (a v : V) (i : Nat) (xs : List V) (g : Globals V W),
    S.elements g.world a = some xs → i < xs.length → i < 2147483648 → ∃ r w,
      I.act (.storeElem element) [a, I.int (Int32.ofNat i), v] g = some (r, { g with world := w }) ∧
        S.Writes a (xs.set i v) g.world w
  lengths : ∀ (instr : Instr) (operands : List V) (g g' : Globals V W) (r a : V) (xs : List V),
    I.act instr operands g = some (r, g') → S.elements g.world a = some xs →
      ∃ ys, S.elements g'.world a = some ys ∧ ys.length = xs.length

section Instructions

variable {I : Interpretation V W} {S : ArrayStore V W R} (hI : I.Arrays S) {functions : List Signature}
include hI

variable (functions) in
theorem exec_newArray (element : Ty) {n : Int32} (hn : 0 ≤ n) (m : Memory V W) :
    ∃ a xs w, I.exec functions (.newArray element) ⟨[I.int n], m⟩ = some ⟨[a], m.inWorld w⟩ ∧
      S.elements m.globals.world a = none ∧ xs.length = n.toInt.toNat ∧ S.Writes a xs m.globals.world w := by
  obtain ⟨a, xs, w, hact, hfresh, hlength, hwrites⟩ := hI.newArray element n m.globals hn
  have hexec : I.exec functions (.newArray element) ⟨[I.int n], m⟩ = _ :=
    Interpretation.exec_apply I functions [I.int n] rfl [] m
  rw [Interpretation.apply, hact] at hexec
  exact ⟨a, xs, w, hexec, hfresh, hlength, hwrites⟩

variable (functions) in
theorem exec_storeElem (element : Ty) {a : V} {i : Nat} {xs : List V} {m : Memory V W}
    (ha : S.elements m.globals.world a = some xs) (hi : i < xs.length) (hword : i < 2147483648) (v : V) :
    ∃ w, I.exec functions (.storeElem element) ⟨[v, I.int (Int32.ofNat i), a], m⟩ = some ⟨[], m.inWorld w⟩ ∧
      S.Writes a (xs.set i v) m.globals.world w := by
  obtain ⟨r, w, hact, hwrites⟩ := hI.storeElem element a v i xs m.globals ha hi hword
  have hexec : I.exec functions (.storeElem element) ⟨[v, I.int (Int32.ofNat i), a], m⟩ = _ :=
    Interpretation.exec_apply I functions [a, I.int (Int32.ofNat i), v] rfl [] m
  rw [Interpretation.apply, hact] at hexec
  exact ⟨w, hexec, hwrites⟩

omit hI in
/-- An instruction leaves the world as it is or acts on it. -/
theorem exec_world {instr : Instr} {s s' : State V W} (h : I.exec functions instr s = some s') :
    s'.memory.globals.world = s.memory.globals.world ∨
      ∃ operands r, I.act instr operands s.memory.globals = some (r, s'.memory.globals) := by
  obtain ⟨stack, m⟩ := s
  have hinterpreted : I.interpret functions instr ⟨stack, m⟩ = some s' →
      ∃ operands r, I.act instr operands m.globals = some (r, s'.memory.globals) := by
    intro h
    obtain ⟨n, -, h⟩ := Option.bind_eq_some_iff.1 h
    split at h
    next =>
      obtain ⟨⟨v, memory⟩, hv, rfl⟩ := Option.map_eq_some_iff.1 h
      obtain ⟨⟨r, globals⟩, hact, hmemory⟩ := Option.map_eq_some_iff.1 hv
      cases hmemory
      exact ⟨_, r, hact⟩
    next => cases h
  cases instr with
  | pushInt | pushBool | pushChar | pushString | loadStatic | loadLocal | loadArg =>
    cases h
    exact .inl rfl
  | storeStatic | storeLocal | storeArg | dup | pop =>
    cases stack with
    | nil => cases h
    | cons v stack =>
      cases h
      exact .inl rfl
  | _ => exact .inr (hinterpreted h)

/-- No instruction gives an array another length. -/
theorem exec_lengths {instr : Instr} {s s' : State V W} (h : I.exec functions instr s = some s') {a : V}
    {xs : List V} (ha : S.elements s.memory.globals.world a = some xs) :
    ∃ ys, S.elements s'.memory.globals.world a = some ys ∧ ys.length = xs.length := by
  rcases exec_world h with hsame | ⟨operands, r, hact⟩
  · exact ⟨xs, by rw [hsame, ha], rfl⟩
  · exact hI.lengths instr operands _ _ r a xs hact ha

theorem run_lengths {code : Code} {s s' : State V W} (h : I.run functions code s = some s') {a : V}
    {xs : List V} (ha : S.elements s.memory.globals.world a = some xs) :
    ∃ ys, S.elements s'.memory.globals.world a = some ys ∧ ys.length = xs.length := by
  induction code generalizing s xs with
  | nil =>
    cases h
    exact ⟨xs, ha, rfl⟩
  | cons instr code ih =>
    obtain ⟨s₁, hexec, hrest⟩ := Option.bind_eq_some_iff.1 h
    obtain ⟨ys, hys, hlength⟩ := exec_lengths hI hexec ha
    obtain ⟨zs, hzs, hlength'⟩ := ih hrest hys
    exact ⟨zs, hzs, hlength'.trans hlength⟩

end Instructions

/-- A fill behind some rounds: so many elements have the value, and the three slots hold the array, the value
and the next index. -/
structure Lowering.Fill.Behind (fill : Fill) (I : Interpretation V W) (S : ArrayStore V W R) (place : Place)
    (a v : V) (ys : List V) (m₀ : Memory V W) (i : Nat) (m : Memory V W) : Prop where
  changes : S.Changes [fill.valueTemp, fill.indexTemp] a (List.replicate i v ++ ys.drop i) m₀ m
  array : m.cell place = a
  value : m.cell fill.valueTemp = v
  index : m.cell fill.indexTemp = I.int (Int32.ofNat i)

theorem set_filled {α : Type} {ys : List α} {i : Nat} (hi : i < ys.length) (v : α) :
    (List.replicate i v ++ ys.drop i).set i v = List.replicate (i + 1) v ++ ys.drop (i + 1) := by
  rw [List.set_append_right _ _ (by simp), List.length_replicate, Nat.sub_self, List.replicate_succ',
    List.drop_eq_getElem_cons hi, List.set_cons_zero, List.append_assoc, List.singleton_append]

section Rounds

variable {I : Interpretation V W} {S : ArrayStore V W R} (hI : I.Arrays S) {functions : List Signature}
  {fill : Fill} {place : Place} (hdistinct : (place ≠ fill.valueTemp ∧ place ≠ fill.indexTemp) ∧
    fill.valueTemp ≠ fill.indexTemp)
  {a v : V} {ys : List V} {m₀ m : Memory V W} {i : Nat}

def Lowering.Fill.operands (fill : Fill) (place : Place) : Code :=
  [.load place, .load fill.indexTemp, .load fill.valueTemp]

def Lowering.Fill.summands (fill : Fill) (place : Place) (element : Ty) : Code :=
  fill.operands place ++ [.storeElem element, .load fill.indexTemp, .pushInt 1]

theorem advance_eq (fill : Fill) (place : Place) (element : Ty) :
    fill.advance place element = fill.summands place element ++ [.add, .store fill.indexTemp] := rfl

theorem run_operands (h : fill.Behind I S place a v ys m₀ i m) :
    I.run functions (fill.operands place) ⟨[], m⟩ = some ⟨[v, I.int (Int32.ofNat i), a], m⟩ := by
  simp [Fill.operands, Interpretation.run_cons, h.array, h.index, h.value]

include hI

variable (functions) in
theorem run_summands (h : fill.Behind I S place a v ys m₀ i m) (hi : i < ys.length) (hword : i < 2147483648)
    (element : Ty) :
    ∃ w, I.run functions (fill.summands place element) ⟨[], m⟩ =
        some ⟨[I.int 1, I.int (Int32.ofNat i)], m.inWorld w⟩ ∧
      S.Writes a (List.replicate (i + 1) v ++ ys.drop (i + 1)) m.globals.world w := by
  have hlength : (List.replicate i v ++ ys.drop i).length = ys.length := by simp; omega
  obtain ⟨w, hstore, hwrites⟩ := exec_storeElem hI functions element h.changes.world.array
    (by rw [hlength]; exact hi) hword v
  rw [set_filled hi] at hwrites
  have hindex : (m.inWorld w).cell fill.indexTemp = I.int (Int32.ofNat i) := by
    rw [Memory.cell_inWorld, h.index]
  refine ⟨w, ?_, hwrites⟩
  rw [Fill.summands, Interpretation.run_append, run_operands h, Option.bind_some, Interpretation.run_cons, hstore]
  simp [Interpretation.run_cons, hindex]

include hdistinct

variable (functions) in
/-- One round of a fill: the element is stored, and the index is moved on. -/
theorem fill_round (h : fill.Behind I S place a v ys m₀ i m) (hi : i < ys.length) (hword : i < 2147483648)
    (element : Ty) :
    ∃ m', I.run functions (fill.advance place element) ⟨[], m⟩ = some ⟨[], m'⟩ ∧
      fill.Behind I S place a v ys m₀ (i + 1) m' := by
  obtain ⟨w, hrun, hwrites⟩ := run_summands hI functions h hi hword element
  have hsum : I.exec functions .add ⟨[I.int 1, I.int (Int32.ofNat i)], m.inWorld w⟩ =
      some ⟨[I.int (Int32.ofNat (i + 1))], m.inWorld w⟩ := by
    rw [exec_compute rfl rfl, Interpretation.compute, hI.words.add, Int32.ofNat_add]
    rfl
  refine ⟨(m.inWorld w).set fill.indexTemp (I.int (Int32.ofNat (i + 1))), ?_, ?_, ?_, ?_,
    Memory.cell_set_self _ _ _⟩
  · rw [advance_eq, Interpretation.run_append, hrun, Option.bind_some, Interpretation.run_cons, hsum]
    simp [run_single]
  · exact (h.changes.write hwrites).set (by simp) _
  · rw [Memory.cell_set, if_neg hdistinct.1.2, Memory.cell_inWorld, h.array]
  · rw [Memory.cell_set, if_neg hdistinct.2, Memory.cell_inWorld, h.value]

omit hdistinct in
theorem decides_fill_test {length : Int32} (h : fill.Behind I S place a v ys m₀ i m)
    (hword : i < 2147483648) :
    I.decides functions (fill.test length) m = some (decide (i < length.toInt.toNat), m) := by
  have hlt : I.exec functions .lt ⟨[I.int length, I.int (Int32.ofNat i)], m⟩ =
      some ⟨[I.bool (decide (Int32.ofNat i < length))], m⟩ := by
    rw [exec_compute rfl rfl, Interpretation.compute, hI.words.lt]
    rfl
  have hrun : I.run functions (fill.test length) ⟨[], m⟩ =
      some ⟨[I.bool (decide (Int32.ofNat i < length))], m⟩ := by
    simp [Fill.test, Interpretation.run_cons, h.index, hlt]
  have hiff : Int32.ofNat i < length ↔ i < length.toInt.toNat := by
    rw [Int32.lt_iff_toInt_lt, Int32.toInt_ofNat_of_lt hword]
    omega
  rw [Interpretation.decides, Interpretation.evaluate, hrun]
  simp [hI.words.truth, hiff]

variable {code : Code} {p q : Nat} {l : Label} {element : Ty} {length : Int32}
  (hloop : Interpretation.TestedAt code p q l (fill.test length)) (hplaced : code.placed.Nodup)
  (hadvance : At code (p + 2) (fill.advance place element))
  (hq : q = p + 2 + (fill.advance place element).length)
include hloop hplaced hadvance hq

omit hplaced in
/-- A round of a fill in its code, with the operands of its store and of its sum. -/
theorem fill_round_within (h : fill.Behind I S place a v ys m₀ i m) (hi : i < ys.length)
    (hword : i < 2147483648) :
    ∃ k m', I.Within functions code (p + 1) q k (p + 1, ⟨[], m⟩) (q, ⟨[], m'⟩) ∧
      fill.Behind I S place a v ys m₀ (i + 1) m' ∧
      (I.visits functions code (p + 5) k (p + 1, ⟨[], m⟩)).map State.stack =
        [[v, I.int (Int32.ofNat i), a]] ∧
      (I.visits functions code (p + 8) k (p + 1, ⟨[], m⟩)).map State.stack =
        [[I.int 1, I.int (Int32.ofNat i)]] := by
  obtain ⟨w, hsummands, -⟩ := run_summands hI functions h hi hword element
  obtain ⟨m', hrun, hm'⟩ := fill_round hI functions hdistinct h hi hword element
  have hstraight : Straight (fill.advance place element) := by simp [Fill.advance]
  have hlabel : I.step functions code (p + 1, ⟨[], m⟩) = some (p + 2, ⟨[], m⟩) :=
    Interpretation.step_label hloop.start _
  have hwithin := Interpretation.within_straight hadvance hstraight hrun
  have hstoreAt : At code (p + 2) (fill.operands place ++ .storeElem element ::
      [.load fill.indexTemp, .pushInt 1, .add, .store fill.indexTemp]) := hadvance
  have hsumAt : At code (p + 2) (fill.summands place element ++ .add :: [.store fill.indexTemp]) := hadvance
  have hstore := Interpretation.visits_straight hstoreAt hstraight hrun (run_operands h)
  have hsum := Interpretation.visits_straight hsumAt hstraight hrun hsummands
  have hsteps := Interpretation.steps_one hlabel
  subst hq
  refine ⟨1 + (fill.advance place element).length, m',
    (Interpretation.Within.one hlabel (Nat.le_refl _) (by simp only; omega)).trans
      (hwithin.mono (Nat.le_succ _) (Nat.le_refl _)), hm', ?_, ?_⟩
  · rw [Interpretation.visits_add hsteps, Interpretation.visits_one hlabel, if_neg (by simp)]
    exact congrArg (List.map State.stack) hstore
  · rw [Interpretation.visits_add hsteps, Interpretation.visits_one hlabel, if_neg (by simp)]
    exact congrArg (List.map State.stack) hsum

variable (functions) in
/-- The loop of a fill, from the jump to its test on. -/
theorem fill_rounds (hys : ys.length = length.toInt.toNat) (h : fill.Behind I S place a v ys m₀ 0 m) :
    ∃ k m', I.Within functions code p (q + (fill.test length).length + 2) k (p, ⟨[], m⟩)
        (q + (fill.test length).length + 2, ⟨[], m'⟩) ∧
      fill.Behind I S place a v ys m₀ length.toInt.toNat m' ∧
      (I.visits functions code (p + 5) k (p, ⟨[], m⟩)).map State.stack =
        (List.range length.toInt.toNat).map (fun i => [v, I.int (Int32.ofNat i), a]) ∧
      (I.visits functions code (p + 8) k (p, ⟨[], m⟩)).map State.stack =
        (List.range length.toInt.toNat).map (fun i => [I.int 1, I.int (Int32.ofNat i)]) := by
  have hlimit := length.toInt_lt
  -- What is seen of a round: the operands of its store, and those of its sum.
  have hround : ∀ i < length.toInt.toNat, ∀ m, fill.Behind I S place a v ys m₀ i m → ∃ m₁ k m',
      I.decides functions (fill.test length) m = some (true, m₁) ∧
      I.Within functions code (p + 1) q k (p + 1, ⟨[], m₁⟩) (q, ⟨[], m'⟩) ∧
      fill.Behind I S place a v ys m₀ (i + 1) m' ∧
      ∀ x ∈ [p + 5, p + 8], (I.visits functions code x k (p + 1, ⟨[], m₁⟩)).map State.stack =
        if x = p + 5 then [[v, I.int (Int32.ofNat i), a]] else [[I.int 1, I.int (Int32.ofNat i)]] := by
    intro i hi m hm
    have hword : i < 2147483648 := by omega
    obtain ⟨k, m', hwithin, hm', hstore, hsum⟩ :=
      fill_round_within hI hdistinct hloop hadvance hq hm (by omega) hword
    have htest : I.decides functions (fill.test length) m = _ := decides_fill_test hI hm hword
    rw [decide_eq_true hi] at htest
    refine ⟨m, k, m', htest, hwithin, hm', ?_⟩
    simp [hstore, hsum]
  have hlast : ∀ m, fill.Behind I S place a v ys m₀ length.toInt.toNat m →
      I.decides functions (fill.test length) m = some (false, m) := by
    intro m hm
    rw [decides_fill_test hI hm (by omega), decide_eq_false (Nat.lt_irrefl _)]
  have hadvanceLength : (fill.advance place element).length = 8 := rfl
  obtain ⟨k, m', hrun, hm', hseen⟩ := hloop.run hplaced (by simp; omega) hround hlast h
  refine ⟨k, m', hrun, hm', ?_, ?_⟩
  · rw [hseen (p + 5) (by simp)]
    simp [← List.map_eq_flatMap]
  · rw [hseen (p + 8) (by simp)]
    simp [← List.map_eq_flatMap]

end Rounds

def allocation (place : Place) (element : Ty) (length : Int32) : Code :=
  [.pushInt length, .newArray element, .store place]

theorem run_allocation {I : Interpretation V W} {S : ArrayStore V W R} (hI : I.Arrays S)
    (functions : List Signature) (place : Place) (element : Ty) {length : Int32} (hlength : 0 ≤ length)
    (m : Memory V W) :
    ∃ a xs m₁, I.run functions (allocation place element length) ⟨[], m⟩ = some ⟨[], m₁⟩ ∧
      S.elements m.globals.world a = none ∧ xs.length = length.toInt.toNat ∧
      S.Changes [place] a xs m m₁ ∧ m₁.cell place = a := by
  obtain ⟨a, xs, w, hnew, hfresh, hxs, hwrites⟩ := exec_newArray hI functions element hlength m
  refine ⟨a, xs, (m.inWorld w).set place a, ?_, hfresh, hxs, ?_, Memory.cell_set_self _ _ _⟩
  · simp [allocation, Interpretation.run_cons, hnew]
  · refine ArrayStore.Changes.set ⟨?_, hwrites⟩ (List.mem_singleton_self _) a
    intro other _
    rw [Memory.cell_inWorld]

def Instr.computesIndex : Instr → Bool
  | .loadElem _ | .storeElem _ | .add => true
  | _ => false

@[simp] theorem Instr.computesIndex_load (place : Place) : (Instr.load place).computesIndex = false := by
  obtain ⟨storage, slot⟩ := place
  cases storage <;> rfl

@[simp] theorem Instr.computesIndex_store (place : Place) : (Instr.store place).computesIndex = false := by
  obtain ⟨storage, slot⟩ := place
  cases storage <;> rfl

/-- Besides the code of its value, a fill takes an index and adds at one position each. -/
theorem computesIndex_filled (fill : Fill) (place : Place) (element : Ty) (length : Int32) (l : Label)
    {i : Nat} {instr : Instr} (houtside : i < 3 ∨ fill.value.length + 3 ≤ i)
    (h : (Setup.code l (.array place element length (some fill)))[i]? = some instr)
    (hinstr : instr.computesIndex = true) :
    i = fill.value.length + 11 ∨ i = fill.value.length + 14 := by
  -- Where the value's code ends is not known, so the positions are counted from its two ends.
  have hcode : (Setup.code l (.array place element length (some fill))).map Instr.computesIndex =
      ([false, false, false] ++ fill.value.map Instr.computesIndex) ++
        [false, false, false, false, false, false, false, false, true, false, false, true, false, false, false,
          false, false, false] := by
    simp only [Setup.code, Fill.code, List.map_append, List.map_cons, Instr.computesIndex_load,
      Instr.computesIndex_store, List.append_assoc]
    rfl
  have hkind := congrArg (Option.map Instr.computesIndex) h
  rw [← List.getElem?_map, hcode, Option.map_some, hinstr] at hkind
  have hvalue : ([false, false, false] ++ fill.value.map Instr.computesIndex).length = fill.value.length + 3 := by
    simp
  rcases houtside with hi | hi
  · rw [List.append_assoc, List.getElem?_append_left hi] at hkind
    have hnone : ∀ i < 3, [false, false, false][i]? ≠ some true := by decide
    exact absurd hkind (hnone i hi)
  · obtain ⟨j, rfl⟩ := Nat.exists_eq_add_of_le hi
    rw [List.getElem?_append_right (by omega), hvalue, Nat.add_sub_cancel_left] at hkind
    have hbound := (List.getElem?_eq_some_iff.1 hkind).1
    have htwo : ∀ j < 18, [false, false, false, false, false, false, false, false, true, false, false, true,
        false, false, false, false, false, false][j]? = some true → j = 8 ∨ j = 11 := by decide
    have hj := htwo j hbound hkind
    omega

/-- A run of the code at `p` that allocates an array and fills it, where the code of the value has led to `v`
and the memory `m₁`: what it ends with, how often it comes through the code of the value, and the operands
of its store of an element and of its sum. Besides the code of the value nothing else takes an index or adds,
and the indices and the sums are as they are for unbounded ints. -/
structure Lowering.Fill.Runs (fill : Fill) (I : Interpretation V W) (S : ArrayStore V W R)
    (functions : List Signature) (code : Code) (p : Nat) (place : Place) (element : Ty) (length : Int32)
    (a v : V) (m m₁ : Memory V W) (k : Nat) (m' : Memory V W) : Prop where
  steps : I.steps functions code k (p, ⟨[], m⟩) =
    some (p + (Setup.code 0 (.array place element length (some fill))).length, ⟨[], m'⟩)
  array : m'.cell place = a
  changes : S.Changes [fill.valueTemp, fill.indexTemp] a (List.replicate length.toInt.toNat v) m₁ m'
  once : ∀ i < fill.value.length, (I.visits functions code (p + 3 + i) k (p, ⟨[], m⟩)).length = 1
  stores : code[p + fill.value.length + 11]? = some (.storeElem element) ∧
    (I.visits functions code (p + fill.value.length + 11) k (p, ⟨[], m⟩)).map State.stack =
      (List.range length.toInt.toNat).map fun i => [v, I.int (Int32.ofNat i), a]
  sums : code[p + fill.value.length + 14]? = some .add ∧
    (I.visits functions code (p + fill.value.length + 14) k (p, ⟨[], m⟩)).map State.stack =
      (List.range length.toInt.toNat).map fun i => [I.int 1, I.int (Int32.ofNat i)]
  others : ∀ (i : Nat) (instr : Instr), i < 3 ∨ fill.value.length + 3 ≤ i →
    i < (Setup.code 0 (.array place element length (some fill))).length → code[p + i]? = some instr →
      instr.computesIndex = true → i = fill.value.length + 11 ∨ i = fill.value.length + 14
  range : ∀ i < length.toInt.toNat, (Int32.ofNat i).toInt = i ∧ (1 + Int32.ofNat i).toInt = 1 + i

section Setups

variable {I : Interpretation V W} {S : ArrayStore V W R} (hI : I.Arrays S) {functions : List Signature}
  {fill : Fill} {place : Place} (hdistinct : (place ≠ fill.valueTemp ∧ place ≠ fill.indexTemp) ∧
    fill.valueTemp ≠ fill.indexTemp)
  {element : Ty} {length : Int32} {a v : V} {xs : List V} {m m₁ m₂ : Memory V W}
  (hallocation : I.run functions (allocation place element length) ⟨[], m⟩ = some ⟨[], m₁⟩)
  (hxs : S.elements m₁.globals.world a = some xs)
  (hrun : I.run functions fill.value ⟨[], m₁⟩ = some ⟨[v], m₂⟩) (hcell : m₂.cell place = a)

theorem prologue_length : (fill.prologue place element length).length = fill.value.length + 6 := by
  simp [Fill.prologue]

include hI hdistinct hallocation hxs hrun hcell

/-- What stands before the loop: the allocation, the code of the value, and the first index. -/
theorem run_prologue :
    ∃ ys m₃, I.run functions (fill.prologue place element length) ⟨[], m⟩ = some ⟨[], m₃⟩ ∧
      ys.length = xs.length ∧ fill.Behind I S place a v ys m₂ 0 m₃ := by
  obtain ⟨ys, hys, hlength⟩ := run_lengths hI hrun hxs
  refine ⟨ys, (m₂.set fill.valueTemp v).set fill.indexTemp (I.int 0), ?_, hlength, ⟨?_, ?_, ?_, ?_⟩⟩
  · have hsplit : fill.prologue place element length = (allocation place element length ++ fill.value) ++
        [.store fill.valueTemp, .pushInt 0, .store fill.indexTemp] := rfl
    rw [hsplit, Interpretation.run_append, Interpretation.run_append, hallocation, Option.bind_some, hrun,
      Option.bind_some]
    simp [Interpretation.run_cons]
  · have hchanges : S.Changes [fill.valueTemp, fill.indexTemp] a ys m₂ m₂ := .refl hys
    simpa using (hchanges.set (by simp) v).set (by simp) (I.int 0)
  · rw [Memory.cell_set, if_neg hdistinct.1.2, Memory.cell_set, if_neg hdistinct.1.1, hcell]
  · rw [Memory.cell_set, if_neg hdistinct.2, Memory.cell_set_self]
  · rw [Memory.cell_set_self]
    rfl

/-- The setup of a filled array, by what its allocation and the code of its value do. -/
theorem fill_runs (hvalue : Straight fill.value) (hcount : xs.length = length.toInt.toNat) {code : Code}
    {p : Nat} {l : Label} (hat : At code p (Setup.code l (.array place element length (some fill))))
    (hplaced : code.placed.Nodup) :
    ∃ k m', fill.Runs I S functions code p place element length a v m m₂ k m' := by
  obtain ⟨ys, m₃, hprologue, hys, hm₃⟩ := run_prologue hI hdistinct hallocation hxs hrun hcell
  rw [setup_code_filled] at hat
  have hstraight : Straight (fill.prologue place element length) := by simp [Fill.prologue, hvalue]
  have hfirst := Interpretation.within_straight hat.left hstraight hprologue
  have hloopAt := hat.right
  have hadvanceAt := hloopAt.tail.tail.left
  rw [prologue_length] at hfirst hloopAt hadvanceAt
  -- The loop begins with its jump behind the prologue; the label of its test is ten positions on.
  have hloop : Interpretation.TestedAt code (p + (fill.value.length + 6)) (p + (fill.value.length + 6) + 10) l
      (fill.test length) :=
    ⟨hloopAt.head, hloopAt.tail.head, hloopAt.tail.tail.right.head, hloopAt.tail.tail.right.tail,
      by simp [Fill.test], by omega⟩
  obtain ⟨k, m', hrounds, hm', hstores, hsums⟩ :=
    fill_rounds hI functions hdistinct hloop hplaced hadvanceAt rfl (hys.trans hcount) hm₃
  have hchanges := hm'.changes
  rw [List.drop_of_length_le (by omega), List.append_nil] at hchanges
  have hvisits (x : Nat) : I.visits functions code x (fill.value.length + 6 + k) (p, ⟨[], m⟩) = _ :=
    Interpretation.visits_add hfirst.steps x
  have hstoreAt : p + fill.value.length + 11 = p + (fill.value.length + 6) + 5 := by omega
  have hsumAt : p + fill.value.length + 14 = p + (fill.value.length + 6) + 8 := by omega
  refine ⟨fill.value.length + 6 + k, m', ?_, hm'.array, hchanges, ?_, ⟨?_, ?_⟩, ⟨?_, ?_⟩, ?_, ?_⟩
  · rw [Interpretation.steps_trans hfirst.steps hrounds.steps, setup_code_filled]
    simp [prologue_length, Fill.advance, Fill.test]
    omega
  · intro i hi
    have honce := Interpretation.visits_straight_once hat.left hstraight hprologue
      (show 3 + i < (fill.prologue place element length).length by rw [prologue_length]; omega)
    rw [prologue_length, ← Nat.add_assoc] at honce
    rw [hvisits, List.length_append, honce, hrounds.visits (.inl (by omega))]
    rfl
  · rw [hstoreAt]
    exact hadvanceAt.tail.tail.tail.head
  · rw [hstoreAt, hvisits, hfirst.visits (.inr (by omega)), List.nil_append, hstores]
  · rw [hsumAt]
    exact hadvanceAt.tail.tail.tail.tail.tail.tail.head
  · rw [hsumAt, hvisits, hfirst.visits (.inr (by omega)), List.nil_append, hsums]
  · intro i instr houtside hi hinstr hcomputes
    rw [← setup_code_filled] at hat
    rw [hat.getElem? (by simpa [setup_code_filled] using hi)] at hinstr
    exact computesIndex_filled fill place element length l houtside hinstr hcomputes
  · intro i hi
    have hlimit := length.toInt_lt
    refine ⟨Int32.toInt_ofNat_of_lt (by omega), ?_⟩
    change (Int32.ofNat 1 + Int32.ofNat i).toInt = _
    rw [← Int32.ofNat_add, Int32.toInt_ofNat_of_lt (by omega)]
    rfl

end Setups

namespace Lowering

open ScopeChain

/-- Slots that are taken one after the other are different. -/
theorem ne_of_taken {params : List Ty} {c c₁ c' : ScopeChain} {p q : Place} (h : Taken params c c₁ p)
    (h' : Taken params c₁ c' q) : p ≠ q := by
  rintro rfl
  exact h.once h'

theorem nodup_three {a b q : Place} : [a, b, q].Nodup ↔ (a ≠ b ∧ a ≠ q) ∧ b ≠ q := by
  simp

/-- The slots of a filled array: they have the types of what they hold, they were all new, and they are
different from each other and from whatever is taken later. -/
structure Fill.Slots (fill : Fill) (params : List Ty) (c c' : ScopeChain) (place : Place) (base : Ty) :
    Prop where
  array : c'.slotType params place = some (.array base)
  value : c'.slotType params fill.valueTemp = some base
  index : c'.slotType params fill.indexTemp = some .int
  distinct : [place, fill.valueTemp, fill.indexTemp].Nodup
  earlier : ∀ q, c.slotType params q ≠ none → q ∉ [place, fill.valueTemp, fill.indexTemp]
  later : ∀ c'' q, Taken params c' c'' q → q ∉ [place, fill.valueTemp, fill.indexTemp]

variable {table : FunctionTable} {params : List Ty} {c c' : ScopeChain} {base element : Ty} {storage : Storage}
  {hoisted : Bool} {node : Tree} {place : Place} {n : Int32} {fill : Fill}

/-- A declarator of a filled array: its value is read first, and then the slots are taken. -/
theorem declarator_filled_ok
    (h : declarator table base storage hoisted node c = .ok (.array place element n (some fill)) c') :
    ∃ d c₁ c₂ c₃ slot valueSlot indexSlot, readDeclarator table base hoisted node c = .ok d c₁ ∧
      d.length = some n ∧ d.value = some fill.value ∧ element = base ∧ place = ⟨storage, slot⟩ ∧
      fill.valueTemp = ⟨storage, valueSlot⟩ ∧ fill.indexTemp = ⟨storage, indexSlot⟩ ∧
      c₁.declare d.name (.array base) storage (some n.toInt.toNat) d.line = .ok (slot, c₂) ∧
      c₂.reserve base storage = (valueSlot, c₃) ∧ c₃.reserve .int storage = (indexSlot, c') := by
  obtain ⟨d, c₁, hread, hdeclare⟩ := bind_ok.1 h
  cases declare_iff.1 hdeclare with
  | filled declared valueTemp indexTemp =>
    exact ⟨_, c₁, _, _, _, _, _, hread, rfl, rfl, rfl, rfl, rfl, rfl, declared, valueTemp, indexTemp⟩

/-- Slots that are taken one after the other. -/
theorem slots_of_takes {c₁ c₂ : ScopeChain} (hc : Reachable params c) (fits : c.Fits storage)
    (scalar : base.isScalar = true) {name : String} {length : Option Nat} {line slot valueSlot indexSlot : Nat}
    (hplace : c.declare name (.array base) storage length line = .ok (slot, c₁))
    (hvalue : c₁.reserve base storage = (valueSlot, c₂)) (hindex : c₂.reserve .int storage = (indexSlot, c'))
    (value : Code) :
    Fill.Slots ⟨value, ⟨storage, valueSlot⟩, ⟨storage, indexSlot⟩⟩ params c c' ⟨storage, slot⟩ base := by
  have hstorable : (Ty.array base).isStorable = true := scalar
  have h₁ := extends_declare hc fits hstorable hplace
  have fits₁ := fits_of_grows h₁.grows fits
  have h₂ := extends_reserve h₁.reachable fits₁ hvalue
  have fits₂ := fits_of_grows h₂.grows fits₁
  have h₃ := extends_reserve h₂.reachable fits₂ hindex
  obtain ⟨hplaceNew, hplaceType⟩ := slotType_declare hc.sound fits hplace
  obtain ⟨hvalueNew, hvalueType⟩ := slotType_of_reserve h₁.reachable fits₁ hvalue
  obtain ⟨hindexNew, hindexType⟩ := slotType_of_reserve h₂.reachable fits₂ hindex
  have hplaceTaken : Taken params c c₁ ⟨storage, slot⟩ := ⟨hplaceNew, by simp [hplaceType]⟩
  have hvalueTaken : Taken params c₁ c₂ ⟨storage, valueSlot⟩ := ⟨hvalueNew, by simp [hvalueType]⟩
  have hindexTaken : Taken params c₂ c' ⟨storage, indexSlot⟩ := ⟨hindexNew, by simp [hindexType]⟩
  have htaken : ∀ q ∈ [⟨storage, slot⟩, ⟨storage, valueSlot⟩, ⟨storage, indexSlot⟩], Taken params c c' q := by
    intro q hq
    simp only [List.mem_cons, List.not_mem_nil, or_false] at hq
    rcases hq with rfl | rfl | rfl
    · exact hplaceTaken.first (h₂.grows.trans h₃.grows)
    · exact (hvalueTaken.first h₃.grows).rest h₁.grows
    · exact hindexTaken.rest (h₁.grows.trans h₂.grows)
  refine ⟨(h₂.grows.trans h₃.grows).slotType hplaceType, h₃.grows.slotType hvalueType, hindexType, ?_, ?_, ?_⟩
  · exact nodup_three.2 ⟨⟨ne_of_taken hplaceTaken hvalueTaken,
      ne_of_taken (hplaceTaken.first h₂.grows) hindexTaken⟩, ne_of_taken hvalueTaken hindexTaken⟩
  · intro q hq hmem
    exact hq (htaken q hmem).1
  · intro c'' q hq hmem
    exact (htaken q hmem).once hq

end Lowering

open Lowering in
/-- The declaration of an array with an initial value, in any storage, and its code at any place of code that
places its labels once. The array is new; where the code of the value then leads to a value and leaves the
slot of the array alone, every element gets this value. -/
theorem array_declaration_fills {table : FunctionTable} {params : List Ty} {c c' : ScopeChain}
    {base element : Ty} {storage : Storage} {hoisted : Bool} {node : Tree} {place : Place} {n : Int32} {fill : Fill}
    (hc : ScopeChain.Reachable params c) (fits : c.Fits storage) (scalar : base.isScalar = true) (hn : 0 ≤ n)
    (h : declarator table base storage hoisted node c = .ok (.array place element n (some fill)) c') :
    element = base ∧ place.storage = storage ∧
    (∃ d c₁, readDeclarator table base hoisted node c = .ok d c₁ ∧ d.length = some n ∧
      d.value = some fill.value ∧ c.Temps c₁ ∧ fill.Slots params c₁ c' place base) ∧
    ∀ {V W R : Type} (I : Interpretation V W) (S : ArrayStore V W R) (functions : List Signature) (code : Code)
      (p : Nat) (l : Label), I.Arrays S → At code p (Setup.code l (.array place base n (some fill))) →
      code.placed.Nodup → ∀ m : Memory V W, ∃ a xs m₁,
        I.run functions (allocation place base n) ⟨[], m⟩ = some ⟨[], m₁⟩ ∧
        S.elements m.globals.world a = none ∧ xs.length = n.toInt.toNat ∧ S.Changes [place] a xs m m₁ ∧
        m₁.cell place = a ∧
        ∀ v m₂, I.run functions fill.value ⟨[], m₁⟩ = some ⟨[v], m₂⟩ → m₂.cell place = a →
          ∃ k m', fill.Runs I S functions code p place base n a v m m₂ k m' := by
  obtain ⟨d, c₁, c₂, c₃, slot, valueSlot, indexSlot, hread, hlength, hvalue, rfl, rfl, hvalueTemp, hindexTemp,
    hplace, hvalueSlot, hindexSlot⟩ := declarator_filled_ok h
  have hstraight : Straight fill.value := straight_declarator h fill rfl
  have htemps : c.Temps c₁ := (onlyTemps_readDeclarator element hoisted node).of_ok hread .none
  obtain ⟨value, _, _⟩ := fill
  subst hvalueTemp hindexTemp
  have hslots := slots_of_takes (htemps.reachable hc) (fits_of_grows (htemps.grows hc) fits) scalar hplace
    hvalueSlot hindexSlot value
  refine ⟨rfl, rfl, ⟨d, c₁, hread, hlength, hvalue, htemps, hslots⟩, ?_⟩
  intro V W R I S functions code p l hI hat hplaced m
  obtain ⟨a, xs, m₁, hallocation, hfresh, hxs, hchanges, hcell⟩ :=
    run_allocation hI functions ⟨storage, slot⟩ element hn m
  refine ⟨a, xs, m₁, hallocation, hfresh, hxs, hchanges, hcell, ?_⟩
  intro v m₂ hrun hkept
  exact fill_runs hI (nodup_three.1 hslots.distinct) hallocation hchanges.world.array hrun hkept hstraight hxs hat
    hplaced

/-- A machine with 32-bit words and arrays of these. An array is referred to by its number. -/
def heapMachine : Interpretation (Int32 ⊕ Nat) (List (List (Int32 ⊕ Nat))) where
  int n := .inl n
  bool b := .inl (if b then 1 else 0)
  char _ := .inl 0
  string _ := .inl 0
  act instr operands g :=
    match instr, operands with
    | .add, [.inl a, .inl b] => some (.inl (a + b), g)
    | .le, [.inl a, .inl b] => some (.inl (if a ≤ b then 1 else 0), g)
    | .lt, [.inl a, .inl b] => some (.inl (if a < b then 1 else 0), g)
    | .newArray _, [.inl n] =>
      if 0 ≤ n then
        some (.inr g.world.length, { g with world := g.world ++ [List.replicate n.toInt.toNat (.inl 0)] })
      else none
    | .storeElem _, [.inr a, .inl i, v] =>
      (g.world[a]?).bind fun xs =>
        if 0 ≤ i ∧ i.toInt.toNat < xs.length then
          some (v, { g with world := g.world.set a (xs.set i.toInt.toNat v) })
        else none
    | _, _ => none
  truth
    | .inl n => some (n ≠ 0)
    | .inr _ => none

def numbered : ArrayStore (Int32 ⊕ Nat) (List (List (Int32 ⊕ Nat))) Unit where
  elements w a :=
    match a with
    | .inl _ => none
    | .inr a => w[a]?
  rest _ := ()

theorem heapMachine_words : heapMachine.Words := by
  refine ⟨fun _ _ _ => rfl, ?_, ?_, ?_⟩
  · intro a b g
    by_cases h : a ≤ b <;> simp [heapMachine, h]
  · intro a b g
    by_cases h : a < b <;> simp [heapMachine, h]
  · intro b
    cases b <;> rfl

theorem numbered_append (xs : List (Int32 ⊕ Nat)) (w : List (List (Int32 ⊕ Nat))) :
    numbered.Writes (.inr w.length) xs w (w ++ [xs]) := by
  refine ⟨by simp [numbered], ?_, rfl⟩
  rintro (n | b) hb
  · rfl
  · have hne : b ≠ w.length := fun heq => hb (by rw [heq])
    rcases Nat.lt_or_gt_of_ne hne with hlt | hgt
    · exact List.getElem?_append_left hlt
    · simp only [numbered]
      rw [List.getElem?_eq_none (by simp; omega), List.getElem?_eq_none (by omega)]

theorem numbered_set {w : List (List (Int32 ⊕ Nat))} {a : Nat} (ha : a < w.length) (xs : List (Int32 ⊕ Nat)) :
    numbered.Writes (.inr a) xs w (w.set a xs) := by
  refine ⟨by simp [numbered, ha], ?_, rfl⟩
  rintro (n | b) hb
  · rfl
  · have hne : a ≠ b := fun heq => hb (by rw [heq])
    exact List.getElem?_set_ne hne

theorem heapMachine_arrays : heapMachine.Arrays numbered := by
  refine ⟨heapMachine_words, ?_, ?_, ?_⟩
  · intro element n g hn
    refine ⟨_, _, _, if_pos hn, ?_, List.length_replicate, numbered_append _ _⟩
    exact List.getElem?_eq_none (Nat.le_refl _)
  · rintro element (_ | a) v i xs g ha hi hword
    · cases ha
    · obtain ⟨hbound, -⟩ := List.getElem?_eq_some_iff.1 ha
      have hindex : (Int32.ofNat i).toInt.toNat = i := by
        rw [Int32.toInt_ofNat_of_lt hword, Int.toNat_natCast]
      have hnonneg : 0 ≤ Int32.ofNat i := by
        rw [Int32.le_iff_toInt_le, Int32.toInt_ofNat_of_lt hword]
        exact Int.natCast_nonneg i
      refine ⟨v, _, ?_, numbered_set hbound _⟩
      change (g.world[a]?).bind _ = _
      have hxs : g.world[a]? = some xs := ha
      rw [hxs, Option.bind_some, hindex, if_pos ⟨hnonneg, hi⟩]
  · rintro instr operands g g' r (_ | b) xs hact ha
    · cases ha
    have hb : g.world[b]? = some xs := ha
    obtain ⟨hbound, -⟩ := List.getElem?_eq_some_iff.1 hb
    simp only [heapMachine] at hact
    split at hact
    case h_1 | h_2 | h_3 =>
      cases hact
      exact ⟨xs, ha, rfl⟩
    case h_4 =>
      split at hact <;> cases hact
      exact ⟨xs, (List.getElem?_append_left hbound).trans hb, rfl⟩
    case h_5 a i v =>
      obtain ⟨ys, hys, hstore⟩ := Option.bind_eq_some_iff.1 hact
      split at hstore <;> cases hstore
      by_cases hab : a = b
      · subst hab
        obtain rfl : xs = ys := Option.some.inj (hb.symm.trans hys)
        exact ⟨_, List.getElem?_set_self hbound, List.length_set⟩
      · exact ⟨xs, (List.getElem?_set_ne hab).trans hb, rfl⟩
    case h_6 => cases hact

/-- `int a[3] : 7;` in a function, with the array in its first local slot. -/
theorem array_declaration_fills_sevens :
    let number (text : String) : Tree := .marked .constant ⟨.number, text, 1⟩ []
    let node : Tree := .inner .varDeclInit
      [.marked .varDeclId ⟨.identifier, "a", 1⟩ [number "3"], number "7"]
    let fill : Fill := ⟨[.pushInt 7], ⟨.local, 1⟩, ⟨.local, 2⟩⟩
    let code := Setup.code 0 (.array ⟨.local, 0⟩ .int 3 (some fill))
    let m : Memory (Int32 ⊕ Nat) (List (List (Int32 ⊕ Nat))) :=
      ⟨⟨fun _ => .inl 0, []⟩, fun _ => .inl 0, fun _ => .inl 0⟩
    ∃ c', declarator .empty .int .local false node (ScopeChain.empty.enter .function) =
        .ok (.array ⟨.local, 0⟩ .int 3 (some fill)) c' ∧
      ∃ k m', heapMachine.steps [] code k (0, ⟨[], m⟩) = some (22, ⟨[], m'⟩) ∧
        numbered.elements m'.globals.world (m'.cell ⟨.local, 0⟩) = some [.inl 7, .inl 7, .inl 7] := by
  intro number node fill code m
  have hcode : declarator .empty .int .local false node (ScopeChain.empty.enter .function) =
    .ok (.array ⟨.local, 0⟩ .int 3 (some fill)) _ := rfl
  refine ⟨_, hcode, ?_⟩
  obtain ⟨-, -, -, hruns⟩ := array_declaration_fills (.enterFunction .empty rfl)
    (.inr ⟨rfl, List.cons_ne_nil _ _⟩) rfl (by decide) hcode
  obtain ⟨a, xs, m₁, -, -, -, -, hcell, hall⟩ := hruns heapMachine numbered [] code 0 0 heapMachine_arrays
    ⟨[], [], rfl, rfl⟩ (by decide) m
  obtain ⟨k, m', hfill⟩ := hall (.inl 7) m₁ rfl hcell
  refine ⟨k, m', hfill.steps, ?_⟩
  rw [hfill.array, hfill.changes.world.array]
  rfl

end StackCompiler
