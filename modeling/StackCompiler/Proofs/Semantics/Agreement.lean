import StackCompiler.Proofs.Lowering.Labels
import StackCompiler.Proofs.Semantics.Structured

/-!
Blocks on memories that differ in hidden slots. A block that is typed without these slots does the same on
both memories, leaves the slots as they are, and leaves as many values on the stack as its type says.
-/

set_option autoImplicit false
namespace StackCompiler

def Instr.place? : Instr → Option Place
  | loadStatic slot | storeStatic slot => some ⟨.static, slot⟩
  | loadLocal slot | storeLocal slot => some ⟨.local, slot⟩
  | loadArg slot | storeArg slot => some ⟨.arg, slot⟩
  | _ => none

def Code.Avoids (hidden : List Place) (code : Code) : Prop :=
  ∀ instr ∈ code, ∀ place, instr.place? = some place → place ∉ hidden

theorem effect_place {f : Frame} {instr : Instr} {stack stack' : StackType}
    (h : instr.effect f stack = some stack') {place : Place} (hplace : instr.place? = some place) :
    f.slots place ≠ none := by
  have hload : StackType.load f place stack = some stack' → f.slots place ≠ none := by
    intro hload hnone
    simp [StackType.load, hnone] at hload
  have hstore : StackType.store f place stack = some stack' → f.slots place ≠ none := by
    intro hstore hnone
    unfold StackType.store at hstore
    split at hstore
    next => simp [hnone] at hstore
    next => cases hstore
  cases instr with
  | loadStatic | loadLocal | loadArg =>
    cases hplace
    exact hload h
  | storeStatic | storeLocal | storeArg =>
    cases hplace
    exact hstore h
  | _ => cases hplace

theorem avoids_of_check {f : Frame} {hidden : List Place} {stack stack' : StackType} {code : Code}
    (h : Code.check (f.without hidden) stack code = some stack') : code.Avoids hidden := by
  induction code generalizing stack with
  | nil =>
    intro instr hinstr
    cases hinstr
  | cons instr code ih =>
    rw [Code.check_cons] at h
    obtain ⟨stack₁, heffect, hcode⟩ := Option.bind_eq_some_iff.1 h
    intro found hfound place hplace hhidden
    rcases List.mem_cons.1 hfound with rfl | hfound
    · exact effect_place heffect hplace (if_pos hhidden)
    · exact ih hcode found hfound place hplace hhidden

variable {V W : Type}

abbrev Memory.AgreeOff (hidden : List Place) (m m₀ : Memory V W) : Prop :=
  m.Agree (· ∈ hidden) m₀

def Memory.Keeps (hidden own : List Place) (m m' : Memory V W) : Prop :=
  ∀ place ∈ hidden, place ∉ own → m'.cell place = m.cell place

namespace Memory.Keeps

variable {hidden own own' : List Place} {m m₁ m' : Memory V W}

theorem refl (m : Memory V W) : Keeps hidden own m m :=
  fun _ _ _ => rfl

theorem trans (h : Keeps hidden own m m₁) (h' : Keeps hidden own m₁ m') : Keeps hidden own m m' :=
  fun place hplace hown => (h' place hplace hown).trans (h place hplace hown)

theorem mono (h : Keeps hidden own m m') (hsub : ∀ place ∈ own, place ∈ own') :
    Keeps hidden own' m m' :=
  fun place hplace hown => h place hplace fun hmem => hown (hsub place hmem)

end Memory.Keeps

/-- No interpretation reaches the locals of the running function. -/
theorem ignores_of_local (I : Interpretation V W) {T : Place → Prop}
    (hlocal : ∀ place, T place → place.storage = .local) : I.Ignores T := by
  intro instr operands g g₀ hworld hstatics
  have hfree : ∀ n, ¬T ⟨.static, n⟩ := by
    intro n hn
    cases hlocal _ hn
  have hsame : g = g₀ := by
    obtain ⟨statics, world⟩ := g
    obtain ⟨statics₀, world₀⟩ := g₀
    have heq : statics = statics₀ := funext fun n => hstatics n (hfree n)
    cases heq
    cases hworld
    rfl
  subst hsame
  cases I.act instr operands g with
  | none => exact .none
  | some r => exact .some ⟨rfl, rfl, fun _ _ => rfl, fun n hn => absurd hn (hfree n)⟩

section Blocks

variable {I : Interpretation V W} {functions : List Signature} {hidden : List Place}
  (hlocal : ∀ place ∈ hidden, place.storage = .local)
include hlocal

/-- States that have one stack and agree off the hidden slots; the first one has kept these. -/
def Alike (hidden : List Place) (m : Memory V W) (s s₀ : State V W) : Prop :=
  s.stack = s₀.stack ∧ s.memory.AgreeOff hidden s₀.memory ∧ m.Keeps hidden [] s.memory

theorem interpret_alike {m m₀ : Memory V W} (h : m.AgreeOff hidden m₀) (instr : Instr)
    (stack : List V) :
    Option.Rel (Alike hidden m) (I.interpret functions instr ⟨stack, m⟩)
      (I.interpret functions instr ⟨stack, m₀⟩) := by
  unfold Interpretation.interpret
  cases instr.arity functions with
  | none => exact .none
  | some n =>
    rw [Option.bind_some, Option.bind_some]
    split
    next =>
      have happly := (ignores_of_local I hlocal).apply h functions instr (stack.take n).reverse
      rcases rel_iff.1 happly with ⟨hr, hr₀⟩ | ⟨⟨v, m₁⟩, ⟨_, m₀₁⟩, hr, hr₀, rfl, hagree, hkeeps⟩
      · rw [hr, hr₀]
        exact .none
      · rw [hr, hr₀]
        exact .some ⟨rfl, hagree, fun place hplace _ => hkeeps place hplace⟩
    next => exact .none

/-- One instruction that uses no hidden slot. -/
theorem exec_alike {instr : Instr} (havoids : ∀ place, instr.place? = some place → place ∉ hidden)
    {m m₀ : Memory V W} (h : m.AgreeOff hidden m₀) (stack : List V) :
    Option.Rel (Alike hidden m) (I.exec functions instr ⟨stack, m⟩)
      (I.exec functions instr ⟨stack, m₀⟩) := by
  have hsame : ∀ {stack : List V}, Alike hidden m ⟨stack, m⟩ ⟨stack, m₀⟩ := ⟨rfl, h, .refl m⟩
  have hload : ∀ place, place ∉ hidden →
      Alike hidden m ⟨m.cell place :: stack, m⟩ ⟨m₀.cell place :: stack, m₀⟩ := by
    intro place hplace
    exact ⟨by rw [h.cell place hplace], h, .refl m⟩
  have hstore : ∀ {stack : List V} place v, place ∉ hidden →
      Alike hidden m ⟨stack, m.set place v⟩ ⟨stack, m₀.set place v⟩ := by
    intro stack place v hplace
    refine ⟨rfl, h.set place v, ?_⟩
    intro other hother _
    rw [Memory.cell_set, if_neg]
    rintro rfl
    exact hplace hother
  cases instr with
  | pushInt | pushBool | pushChar | pushString => exact .some ⟨rfl, h, .refl m⟩
  | loadStatic | loadLocal | loadArg => exact .some (hload _ (havoids _ rfl))
  | storeStatic | storeLocal | storeArg =>
    cases stack with
    | nil => exact .none
    | cons v stack => exact .some (hstore _ v (havoids _ rfl))
  | dup | pop =>
    cases stack with
    | nil => exact .none
    | cons v stack => exact .some hsame
  | _ => exact interpret_alike hlocal h _ stack

/-- A block that uses no hidden slot. -/
theorem run_alike {code : Code} (havoids : code.Avoids hidden) {m m₀ : Memory V W}
    (h : m.AgreeOff hidden m₀) (stack : List V) :
    Option.Rel (Alike hidden m) (I.run functions code ⟨stack, m⟩)
      (I.run functions code ⟨stack, m₀⟩) := by
  induction code generalizing m m₀ stack with
  | nil => exact .some ⟨rfl, h, .refl m⟩
  | cons instr code ih =>
    rw [Interpretation.run_cons, Interpretation.run_cons]
    have hfirst : Option.Rel (Alike hidden m) (I.exec functions instr ⟨stack, m⟩) _ :=
      exec_alike hlocal (havoids instr (by simp)) h stack
    rcases rel_iff.1 hfirst with ⟨hr, hr₀⟩ | ⟨⟨stack₁, m₁⟩, ⟨_, m₀₁⟩, hr, hr₀, rfl, hagree, hkeeps⟩
    · rw [hr, hr₀]
      exact .none
    · rw [hr, hr₀]
      have hrest := ih (fun found hfound => havoids found (by simp [hfound])) hagree stack₁
      rcases rel_iff.1 hrest with ⟨hs, hs₀⟩ | ⟨s, s₀, hs, hs₀, hstack, hagree', hkeeps'⟩
      · rw [Option.bind_some, Option.bind_some, hs, hs₀]
        exact .none
      · rw [Option.bind_some, Option.bind_some, hs, hs₀]
        exact .some ⟨hstack, hagree', hkeeps.trans hkeeps'⟩

theorem runBlock_alike {code : Code} (havoids : code.Avoids hidden) {m m₀ : Memory V W}
    (h : m.AgreeOff hidden m₀) :
    Option.Rel (fun m' m₀' => m'.AgreeOff hidden m₀' ∧ m.Keeps hidden [] m')
      (I.runBlock functions code m) (I.runBlock functions code m₀) := by
  have hrun : Option.Rel (Alike hidden m) (I.run functions code ⟨[], m⟩) _ := run_alike hlocal havoids h []
  unfold Interpretation.runBlock
  rcases rel_iff.1 hrun with ⟨hr, hr₀⟩ | ⟨⟨stack, m₁⟩, ⟨_, m₀₁⟩, hr, hr₀, rfl, hagree, hkeeps⟩
  · rw [hr, hr₀]
    exact .none
  · rw [hr, hr₀]
    cases stack with
    | nil => exact .some ⟨hagree, hkeeps⟩
    | cons v stack => exact .none

theorem evaluate_alike {code : Code} (havoids : code.Avoids hidden) {m m₀ : Memory V W}
    (h : m.AgreeOff hidden m₀) :
    Option.Rel (fun r r₀ => r.1 = r₀.1 ∧ r.2.AgreeOff hidden r₀.2 ∧ m.Keeps hidden [] r.2)
      (I.evaluate functions code m) (I.evaluate functions code m₀) := by
  have hrun : Option.Rel (Alike hidden m) (I.run functions code ⟨[], m⟩) _ := run_alike hlocal havoids h []
  unfold Interpretation.evaluate
  rcases rel_iff.1 hrun with ⟨hr, hr₀⟩ | ⟨⟨stack, m₁⟩, ⟨_, m₀₁⟩, hr, hr₀, rfl, hagree, hkeeps⟩
  · rw [hr, hr₀]
    exact .none
  · rw [hr, hr₀]
    match stack with
    | [] => exact .none
    | [v] => exact .some ⟨rfl, hagree, hkeeps⟩
    | v :: w :: stack => exact .none

theorem decides_alike {code : Code} (havoids : code.Avoids hidden) {m m₀ : Memory V W}
    (h : m.AgreeOff hidden m₀) :
    Option.Rel (fun r r₀ => r.1 = r₀.1 ∧ r.2.AgreeOff hidden r₀.2 ∧ m.Keeps hidden [] r.2)
      (I.decides functions code m) (I.decides functions code m₀) := by
  refine rel_bind (evaluate_alike hlocal havoids h) ?_
  rintro ⟨v, m₁⟩ ⟨_, m₀₁⟩ ⟨rfl, hagree, hkeeps⟩
  cases hv : I.truth v with
  | none => simp only [hv]; exact .none
  | some b => simp only [hv]; exact .some ⟨rfl, hagree, hkeeps⟩

theorem globals_eq {m m₀ : Memory V W} (h : m.AgreeOff hidden m₀) : m.globals = m₀.globals := by
  have hfree : ∀ n, (⟨.static, n⟩ : Place) ∉ hidden := by
    intro n hn
    cases hlocal _ hn
  obtain ⟨⟨statics, world⟩, locals, args⟩ := m
  obtain ⟨⟨statics₀, world₀⟩, locals₀, args₀⟩ := m₀
  have hstatics : statics = statics₀ := funext fun n => h.cell ⟨.static, n⟩ (hfree n)
  have hworld : world = world₀ := h.world
  rw [hstatics, hworld]

theorem compute_alike {m m₀ : Memory V W} (h : m.AgreeOff hidden m₀) (instr : Instr) (a b : V) :
    Option.Rel (fun r r₀ => r.1 = r₀.1 ∧ r.2.AgreeOff hidden r₀.2 ∧ m.Keeps hidden [] r.2)
      (I.compute instr a b m) (I.compute instr a b m₀) := by
  unfold Interpretation.compute
  rw [globals_eq hlocal h]
  cases I.act instr [a, b] m₀.globals with
  | none => exact .none
  | some r =>
    refine .some ⟨rfl, ⟨rfl, ?_⟩, ?_⟩
    · rintro ⟨storage, slot⟩ hplace
      cases storage with
      | static => rfl
      | «local» => exact h.cell ⟨.local, slot⟩ hplace
      | arg => exact h.cell ⟨.arg, slot⟩ hplace
    · rintro ⟨storage, slot⟩ hplace _
      cases hlocal _ hplace
      rfl

theorem atMost_alike {counter : Place} (hcounter : counter ∉ hidden) {m m₀ : Memory V W}
    (h : m.AgreeOff hidden m₀) (bound : V) :
    Option.Rel (fun r r₀ => r.1 = r₀.1 ∧ r.2.AgreeOff hidden r₀.2 ∧ m.Keeps hidden [] r.2)
      (I.atMost counter bound m) (I.atMost counter bound m₀) := by
  unfold Interpretation.atMost
  rw [h.cell counter hcounter]
  refine rel_bind (compute_alike hlocal h .le _ _) ?_
  rintro ⟨v, m₁⟩ ⟨_, m₀₁⟩ ⟨rfl, hagree, hkeeps⟩
  cases hv : I.truth v with
  | none => simp only [hv]; exact .none
  | some b => simp only [hv]; exact .some ⟨rfl, hagree, hkeeps⟩

omit hlocal in
theorem Memory.Keeps.set {own : List Place} {m m' : Memory V W} (h : m.Keeps hidden own m') {place : Place}
    (hplace : place ∉ hidden ∨ place ∈ own) (v : V) : m.Keeps hidden own (m'.set place v) := by
  intro other hother hown
  rw [Memory.cell_set, if_neg]
  · exact h other hother hown
  · rintro rfl
    rcases hplace with hplace | hplace
    · exact hplace hother
    · exact hown hplace

theorem increase_alike {counter : Place} (hcounter : counter ∉ hidden) {m m₀ : Memory V W}
    (h : m.AgreeOff hidden m₀) (stride : V) :
    Option.Rel (fun m' m₀' => m'.AgreeOff hidden m₀' ∧ m.Keeps hidden [] m')
      (I.increase counter stride m) (I.increase counter stride m₀) := by
  unfold Interpretation.increase
  rw [h.cell counter hcounter]
  have hcompute : Option.Rel _ (I.compute .add (m₀.cell counter) stride m) _ :=
    compute_alike hlocal h .add _ _
  rcases rel_iff.1 hcompute with ⟨hr, hr₀⟩ | ⟨⟨v, m₁⟩, ⟨_, m₀₁⟩, hr, hr₀, rfl, hagree, hkeeps⟩
  · rw [hr, hr₀]
    exact .none
  · rw [hr, hr₀]
    exact .some ⟨hagree.set counter v, hkeeps.set (.inl hcounter) v⟩

end Blocks

/-! The number of values on the stack. -/

theorem replace_length {operands : List Ty} {result : List Cell} {stack stack' : StackType}
    (h : StackType.replace operands result stack = some stack') :
    stack'.length = result.length + (stack.length - operands.length) := by
  unfold StackType.replace at h
  split at h
  next =>
    cases h
    simp
  next => cases h

theorem compare_length {defined : Ty → Bool} {stack stack' : StackType}
    (h : StackType.compare defined stack = some stack') : stack'.length = 1 + (stack.length - 2) := by
  unfold StackType.compare at h
  split at h
  next =>
    split at h
    next =>
      cases h
      simp only [List.length_cons]
      omega
    next => cases h
  next => cases h

theorem printFormatted_length {args : Nat} {stack stack' : StackType}
    (h : StackType.printFormatted args stack = some stack') :
    stack'.length = stack.length - (args + 1) := by
  unfold StackType.printFormatted at h
  split at h
  next =>
    have hlength := replace_length h
    simp only [List.length_drop, List.length_nil, List.length_singleton, Nat.zero_add] at hlength
    omega
  next => cases h

/-- An interpreted instruction takes as many operands off the typed stack as off the stack of values. -/
theorem effect_length {f : Frame} {instr : Instr} {stack stack' : StackType} {n : Nat}
    (h : instr.effect f stack = some stack') (harity : instr.arity f.functions = some n) :
    stack'.length = (if instr.yields f.functions then 1 else 0) + (stack.length - n) := by
  cases instr with
  | newArray | loadElem | storeElem | add | sub | mul | div | rem | max | min | neg | random | and | or
  | not =>
    cases harity
    exact replace_length h
  | eq | ne | gt | lt | ge | le =>
    cases harity
    exact compare_length h
  | box =>
    cases harity
    rw [effect_box_eq] at h
    split at h
    next => exact replace_length h
    next => cases h
  | read =>
    cases harity
    rw [effect_read_eq] at h
    split at h
    next =>
      cases h
      exact Nat.add_comm _ _
    next => cases h
  | length =>
    cases harity
    cases stack with
    | nil => cases h
    | cons cell stack =>
      cases cell with
      | boxed => cases h
      | value ty =>
        cases ty <;> cases h
        exact Nat.add_comm _ _
  | print =>
    cases harity
    cases stack with
    | nil => cases h
    | cons cell stack =>
      rw [effect_print_eq] at h
      split at h
      next =>
        cases h
        simp [Instr.yields]
      next => cases h
  | printFormatted args =>
    cases harity
    have hlength := printFormatted_length h
    simp [Instr.yields, hlength]
  | call handle =>
    obtain ⟨callee, hcallee, rfl⟩ := Option.map_eq_some_iff.1 harity
    rw [effect_call_eq, hcallee, Option.bind_some] at h
    have hlength := replace_length h
    rw [hlength]
    simp only [Instr.yields, hcallee, Option.any_some, StackType.push]
    by_cases hvoid : callee.result = .void <;> simp [hvoid]
  | _ => cases harity

theorem interpret_length {I : Interpretation V W} {functions : List Signature} {instr : Instr}
    {s s' : State V W} (h : I.interpret functions instr s = some s') :
    ∃ n, instr.arity functions = some n ∧
      s'.stack.length = (if instr.yields functions then 1 else 0) + (s.stack.length - n) := by
  obtain ⟨n, hn, h⟩ := Option.bind_eq_some_iff.1 h
  refine ⟨n, hn, ?_⟩
  split at h
  next =>
    obtain ⟨⟨v, memory⟩, hv, rfl⟩ := Option.map_eq_some_iff.1 h
    unfold Interpretation.apply at hv
    obtain ⟨r, -, hr⟩ := Option.map_eq_some_iff.1 hv
    cases hr
    by_cases hyields : instr.yields functions = true <;> simp [hyields, Nat.add_comm]
  next => cases h

/-- An instruction leaves as many values as its type says. -/
theorem exec_length {I : Interpretation V W} {f : Frame} {instr : Instr} {stack stack' : StackType}
    {s s' : State V W} (heffect : instr.effect f stack = some stack')
    (hexec : I.exec f.functions instr s = some s') (hlength : s.stack.length = stack.length) :
    s'.stack.length = stack'.length := by
  obtain ⟨values, m⟩ := s
  have hinterpreted : I.interpret f.functions instr ⟨values, m⟩ = some s' →
      s'.stack.length = stack'.length := by
    intro h
    obtain ⟨n, harity, hs'⟩ := interpret_length h
    rw [hs', effect_length heffect harity, hlength]
  have hload : ∀ place, StackType.load f place stack = some stack' →
      stack'.length = stack.length + 1 := by
    intro place h
    obtain ⟨ty, -, rfl⟩ := Option.map_eq_some_iff.1 h
    rfl
  have hstore : ∀ place, StackType.store f place stack = some stack' →
      stack'.length + 1 = stack.length := by
    intro place h
    unfold StackType.store at h
    split at h
    next =>
      split at h
      next =>
        cases h
        rfl
      next => cases h
    next => cases h
  simp only at hlength
  cases instr with
  | pushInt | pushBool | pushChar | pushString =>
    cases heffect
    cases hexec
    simp [hlength]
  | loadStatic | loadLocal | loadArg =>
    cases hexec
    have := hload _ heffect
    simp only [List.length_cons]
    omega
  | storeStatic | storeLocal | storeArg =>
    cases values with
    | nil => cases hexec
    | cons v values =>
      cases hexec
      have := hstore _ heffect
      simp only [List.length_cons] at hlength ⊢
      omega
  | dup | pop =>
    cases values with
    | nil => cases hexec
    | cons v values =>
      cases hexec
      cases stack with
      | nil => cases heffect
      | cons cell stack =>
        cases heffect
        simpa using hlength
  | _ => exact hinterpreted hexec

theorem run_length {I : Interpretation V W} {f : Frame} {code : Code} {stack stack' : StackType}
    {s s' : State V W} (hcheck : Code.check f stack code = some stack')
    (hrun : I.run f.functions code s = some s') (hlength : s.stack.length = stack.length) :
    s'.stack.length = stack'.length := by
  induction code generalizing stack s with
  | nil =>
    cases hcheck
    cases hrun
    exact hlength
  | cons instr code ih =>
    rw [Code.check_cons] at hcheck
    rw [Interpretation.run_cons] at hrun
    obtain ⟨stack₁, heffect, hcode⟩ := Option.bind_eq_some_iff.1 hcheck
    obtain ⟨s₁, hexec, hrest⟩ := Option.bind_eq_some_iff.1 hrun
    exact ih hcode hrest (exec_length heffect hexec hlength)

section Shapes

variable {I : Interpretation V W} {f : Frame} {code : Code}

/-- A block that leaves nothing, by its type. -/
theorem run_eq_runBlock (h : Code.check f [] code = some []) (m : Memory V W) :
    I.run f.functions code ⟨[], m⟩ = (I.runBlock f.functions code m).map fun m' => ⟨[], m'⟩ := by
  unfold Interpretation.runBlock
  cases hrun : I.run f.functions code ⟨[], m⟩ with
  | none => rfl
  | some s =>
    obtain ⟨stack, m'⟩ := s
    have hlength := run_length h hrun rfl
    cases stack with
    | nil => rfl
    | cons v stack => cases hlength

/-- A block that leaves one value, by its type. -/
theorem run_eq_evaluate {cell : Cell} (h : Code.check f [] code = some [cell]) (m : Memory V W) :
    I.run f.functions code ⟨[], m⟩ =
      (I.evaluate f.functions code m).map fun r => ⟨[r.1], r.2⟩ := by
  unfold Interpretation.evaluate
  cases hrun : I.run f.functions code ⟨[], m⟩ with
  | none => rfl
  | some s =>
    obtain ⟨stack, m'⟩ := s
    have hlength := run_length h hrun rfl
    match stack with
    | [] => cases hlength
    | [v] => rfl
    | v :: w :: stack => cases hlength

end Shapes

end StackCompiler
