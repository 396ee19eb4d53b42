import StackCompiler.Proofs.Semantics.Simulation

/-!
Passages of a run. The trace of a run tells where its steps are made and in which states, so that it can be
said how often the run comes to an instruction, and with which operands. A loop that is tested at its end
comes through its test and its inner code once in every round.
-/

set_option autoImplicit false
namespace StackCompiler

open Code Lowering

namespace Interpretation

variable {V W : Type}

section Definitions

variable (I : Interpretation V W) (functions : List Signature) (code : Code)

def trace : Nat → Nat × State V W → List (Nat × State V W)
  | 0, _ => []
  | n + 1, c => c :: match I.step functions code c with
    | some c' => trace n c'
    | none => []

def visits (x n : Nat) (c : Nat × State V W) : List (State V W) :=
  (I.trace functions code n c).filterMap fun c => if c.1 = x then some c.2 else none

/-- A run that stays between two positions until its last step. -/
structure Within (lo hi n : Nat) (c c' : Nat × State V W) : Prop where
  steps : I.steps functions code n c = some c'
  inside : ∀ b ∈ I.trace functions code n c, lo ≤ b.1 ∧ b.1 < hi

end Definitions

variable {I : Interpretation V W} {functions : List Signature} {code : Code} {n k : Nat}
  {a b c : Nat × State V W}

theorem trace_one (h : I.step functions code a = some b) : I.trace functions code 1 a = [a] := by
  simp [trace, h]

theorem trace_add (h : I.steps functions code n a = some b) :
    I.trace functions code (n + k) a = I.trace functions code n a ++ I.trace functions code k b := by
  induction n generalizing a with
  | zero =>
    cases h
    rw [Nat.zero_add]
    rfl
  | succ n ih =>
    obtain ⟨a', hstep, hrest⟩ := Option.bind_eq_some_iff.1 h
    rw [Nat.succ_add]
    simp only [trace, hstep, ih hrest, List.cons_append]

theorem visits_add (h : I.steps functions code n a = some b) (x : Nat) :
    I.visits functions code x (n + k) a =
      I.visits functions code x n a ++ I.visits functions code x k b := by
  rw [visits, trace_add h, List.filterMap_append]
  rfl

theorem visits_one (h : I.step functions code a = some b) (x : Nat) :
    I.visits functions code x 1 a = if a.1 = x then [a.2] else [] := by
  rw [visits, trace_one h]
  by_cases hx : a.1 = x <;> simp [hx]

namespace Within

variable {lo hi lo' hi' : Nat}

theorem refl : I.Within functions code lo hi 0 a a :=
  ⟨rfl, by simp [trace]⟩

theorem one (h : I.step functions code a = some b) (hlo : lo ≤ a.1) (hhi : a.1 < hi) :
    I.Within functions code lo hi 1 a b := by
  refine ⟨steps_one h, ?_⟩
  rw [trace_one h]
  exact List.forall_mem_singleton.2 ⟨hlo, hhi⟩

theorem trans (h : I.Within functions code lo hi n a b) (h' : I.Within functions code lo hi k b c) :
    I.Within functions code lo hi (n + k) a c := by
  refine ⟨steps_trans h.steps h'.steps, ?_⟩
  rw [trace_add h.steps]
  exact List.forall_mem_append.2 ⟨h.inside, h'.inside⟩

theorem mono (h : I.Within functions code lo hi n a b) (hlo : lo' ≤ lo) (hhi : hi ≤ hi') :
    I.Within functions code lo' hi' n a b :=
  ⟨h.steps, fun c hc => ⟨Nat.le_trans hlo (h.inside c hc).1, Nat.lt_of_lt_of_le (h.inside c hc).2 hhi⟩⟩

/-- A run does not come to the positions it stays away from. -/
theorem visits (h : I.Within functions code lo hi n a b) {x : Nat} (hx : x < lo ∨ hi ≤ x) :
    I.visits functions code x n a = [] := by
  refine List.filterMap_eq_nil_iff.2 ?_
  intro c hc
  have hinside := h.inside c hc
  exact if_neg (by omega)

end Within

/-- Straight code is run from its first position to the one behind it. -/
theorem within_straight {sub : Code} {p : Nat} {s s' : State V W} (hat : At code p sub)
    (hstraight : Straight sub) (hrun : I.run functions sub s = some s') :
    I.Within functions code p (p + sub.length) sub.length (p, s) (p + sub.length, s') := by
  induction sub generalizing p s with
  | nil =>
    cases hrun
    exact .refl
  | cons instr sub ih =>
    rw [straight_cons] at hstraight
    obtain ⟨s₁, hstep, hrest⟩ := step_of_run_cons hat hstraight.1 hrun
    have hfirst : I.Within functions code p (p + (sub.length + 1)) 1 (p, s) (p + 1, s₁) :=
      .one hstep (Nat.le_refl p) (by simp)
    have hmore := (ih hat.tail hstraight.2 hrest).mono (Nat.le_succ p)
      (show p + 1 + sub.length ≤ p + (sub.length + 1) by omega)
    have hall := hfirst.trans hmore
    rw [Nat.add_comm 1, Nat.add_assoc, Nat.add_comm 1] at hall
    exact hall

/-- A run of straight code comes to each of its instructions once, in the state that the code before it has
led to. -/
theorem visits_straight {before behind : Code} {instr : Instr} {p : Nat} {s s₁ s' : State V W}
    (hat : At code p (before ++ instr :: behind)) (hstraight : Straight (before ++ instr :: behind))
    (hrun : I.run functions (before ++ instr :: behind) s = some s')
    (hbefore : I.run functions before s = some s₁) :
    I.visits functions code (p + before.length) (before ++ instr :: behind).length (p, s) = [s₁] := by
  rw [straight_append, straight_cons] at hstraight
  rw [run_append, hbefore, Option.bind_some] at hrun
  obtain ⟨s₂, hstep, hrest⟩ := step_of_run_cons hat.right hstraight.2.1 hrun
  have hfirst := within_straight hat.left hstraight.1 hbefore
  have hlast := within_straight hat.right.tail hstraight.2.2 hrest
  rw [List.length_append, List.length_cons, Nat.add_comm behind.length 1, visits_add hfirst.steps,
    visits_add (steps_one hstep), visits_one hstep, if_pos rfl, hfirst.visits (.inr (Nat.le_refl _)),
    hlast.visits (.inl (Nat.lt_succ_self _))]
  rfl

theorem visits_straight_once {sub : Code} {p i : Nat} {s s' : State V W} (hat : At code p sub)
    (hstraight : Straight sub) (hrun : I.run functions sub s = some s') (hi : i < sub.length) :
    (I.visits functions code (p + i) sub.length (p, s)).length = 1 := by
  have hsplit : sub = sub.take i ++ sub[i] :: sub.drop (i + 1) := by
    rw [← List.drop_eq_getElem_cons hi, List.take_append_drop]
  have hlength : (sub.take i).length = i := List.length_take_of_le (Nat.le_of_lt hi)
  rw [hsplit] at hat hstraight hrun
  have hrun' := hrun
  rw [run_append] at hrun'
  obtain ⟨s₁, hbefore, -⟩ := Option.bind_eq_some_iff.1 hrun'
  have hvisits := visits_straight hat hstraight hrun hbefore
  rw [hlength, ← hsplit] at hvisits
  rw [hvisits]
  rfl

section Kept

variable {hidden : List Place} (hlocal : ∀ place ∈ hidden, place.storage = .local)
include hlocal

/-- A step keeps the local slots that its instruction does not name. -/
theorem step_keeps (h : I.step functions code a = some b)
    (havoids : ∀ instr, code[a.1]? = some instr → ∀ place, instr.place? = some place → place ∉ hidden) :
    a.2.memory.Keeps hidden [] b.2.memory := by
  obtain ⟨instr, hinstr, -, ⟨-, hexec⟩ | ⟨hsame, -⟩⟩ := step_ok h
  · have hrel : Option.Rel (Alike hidden a.2.memory) (I.exec functions instr a.2)
        (I.exec functions instr a.2) :=
      exec_alike hlocal (havoids instr hinstr) (.refl a.2.memory) a.2.stack
    obtain ⟨_, -, -, -, hkeeps⟩ := rel_some_left hrel hexec
    exact hkeeps
  · rw [hsame]
    exact .refl a.2.memory

/-- Code that does not name some local slots keeps them as long as the run stays in it. -/
theorem Within.keeps {sub : Code} {p : Nat} (h : I.Within functions code p (p + sub.length) n a b)
    (hat : At code p sub) (havoids : sub.Avoids hidden) : a.2.memory.Keeps hidden [] b.2.memory := by
  obtain ⟨hsteps, hinside⟩ := h
  induction n generalizing a with
  | zero =>
    cases hsteps
    exact .refl _
  | succ n ih =>
    obtain ⟨a', hstep, hrest⟩ := Option.bind_eq_some_iff.1 hsteps
    simp only [trace, hstep, List.forall_mem_cons] at hinside
    obtain ⟨⟨hlo, hhi⟩, hinside⟩ := hinside
    obtain ⟨i, hi⟩ := Nat.exists_eq_add_of_le hlo
    have hnamed : ∀ instr, code[a.1]? = some instr → instr ∈ sub := by
      intro instr hinstr
      rw [hi, hat.getElem? (by omega)] at hinstr
      exact List.mem_of_getElem? hinstr
    exact (step_keeps hlocal hstep fun instr hinstr => havoids instr (hnamed instr hinstr)).trans
      (ih hrest hinside)

end Kept

/-- A loop that is tested at its end: a jump to the test, and a test that leads back to the inner code. -/
structure TestedAt (code : Code) (p q : Nat) (l : Label) (test : Code) : Prop where
  enter : code[p]? = some (.jump (l + 1))
  start : code[p + 1]? = some (.label l)
  again : code[q]? = some (.label (l + 1))
  testAt : At code (q + 1) (test ++ [.jumpIfTrue l])
  straight : Straight test
  order : p + 1 < q

namespace TestedAt

variable {p q : Nat} {l : Label} {test : Code} (h : TestedAt code p q l test) (hplaced : code.placed.Nodup)
include h hplaced

theorem entered (s : State V W) : I.step functions code (p, s) = some (q, s) := by
  rw [step_jump h.enter, position_of_getElem? hplaced h.again]
  rfl

/-- The test leads back to the inner code or behind the loop. -/
theorem tested {b : Bool} {m m₁ : Memory V W} (hdecides : I.decides functions test m = some (b, m₁)) :
    I.Within functions code q (q + test.length + 2) (1 + (test.length + 1)) (q, ⟨[], m⟩)
      (if b then p + 1 else q + test.length + 2, ⟨[], m₁⟩) := by
  obtain ⟨v, hrun, hb⟩ := decides_ok hdecides
  have hlabel : I.step functions code (q, ⟨[], m⟩) = some (q + 1, ⟨[], m⟩) := step_label h.again _
  have hjump : I.step functions code (q + 1 + test.length, ⟨[v], m₁⟩) =
      some (if b then p + 1 else q + test.length + 2, ⟨[], m₁⟩) := by
    rw [step_jumpIfTrue h.testAt.right.head]
    simp only [branch, hb, Option.bind_some, position_of_getElem? hplaced h.start, Option.map_some]
    cases b with
    | true => rfl
    | false =>
      have hbehind : q + 1 + test.length + 1 = q + test.length + 2 := by omega
      simp [hbehind]
  have htest := within_straight h.testAt.left h.straight hrun
  exact (Within.one hlabel (Nat.le_refl q) (by omega)).trans
    ((htest.mono (Nat.le_succ q) (by omega)).trans (.one hjump (by simp only; omega) (by simp only; omega)))

/-- A round of the loop: the test holds, and the inner code comes back to it. Of the inner positions the round
visits what the inner code visits. -/
theorem round {k : Nat} {m m₁ m' : Memory V W} (hdecides : I.decides functions test m = some (true, m₁))
    (hinner : I.Within functions code (p + 1) q k (p + 1, ⟨[], m₁⟩) (q, ⟨[], m'⟩)) :
    I.Within functions code (p + 1) (q + test.length + 2) (1 + (test.length + 1) + k) (q, ⟨[], m⟩)
        (q, ⟨[], m'⟩) ∧
      ∀ x < q, I.visits functions code x (1 + (test.length + 1) + k) (q, ⟨[], m⟩) =
        I.visits functions code x k (p + 1, ⟨[], m₁⟩) := by
  have htest := h.tested hplaced hdecides
  rw [if_pos rfl] at htest
  refine ⟨(htest.mono (Nat.le_of_lt h.order) (Nat.le_refl _)).trans
    (hinner.mono (Nat.le_refl _) (by omega)), ?_⟩
  intro x hx
  rw [visits_add htest.steps, htest.visits (.inl hx), List.nil_append]

/-- Rounds of the loop, one after the other. What every round makes of the inner positions `X` is seen, round
after round, in the whole. -/
theorem rounds {β : Type} {see : State V W → β} {X : List Nat} {seen : Nat → Nat → List β}
    {P : Nat → Memory V W → Prop} {n : Nat} (hX : ∀ x ∈ X, x < q)
    (hround : ∀ i < n, ∀ m, P i m → ∃ m₁ k m', I.decides functions test m = some (true, m₁) ∧
      I.Within functions code (p + 1) q k (p + 1, ⟨[], m₁⟩) (q, ⟨[], m'⟩) ∧ P (i + 1) m' ∧
      ∀ x ∈ X, (I.visits functions code x k (p + 1, ⟨[], m₁⟩)).map see = seen x i)
    {m : Memory V W} (hm : P 0 m) :
    ∃ k m', I.Within functions code (p + 1) (q + test.length + 2) k (q, ⟨[], m⟩) (q, ⟨[], m'⟩) ∧ P n m' ∧
      ∀ x ∈ X, (I.visits functions code x k (q, ⟨[], m⟩)).map see = (List.range n).flatMap (seen x) := by
  induction n with
  | zero => exact ⟨0, m, .refl, hm, fun _ _ => rfl⟩
  | succ n ih =>
    obtain ⟨k, m₁, hwithin, hm₁, hseen⟩ := ih fun i hi => hround i (Nat.lt_succ_of_lt hi)
    obtain ⟨m₂, j, m', hdecides, hinner, hm', hlast⟩ := hround n (Nat.lt_succ_self n) m₁ hm₁
    obtain ⟨hagain, hvisits⟩ := h.round hplaced hdecides hinner
    refine ⟨k + (1 + (test.length + 1) + j), m', hwithin.trans hagain, hm', ?_⟩
    intro x hx
    rw [visits_add hwithin.steps, List.map_append, hseen x hx, hvisits x (hX x hx), hlast x hx,
      List.range_succ, List.flatMap_append, List.flatMap_singleton]

/-- The loop from the jump to its test on, through its rounds and the test behind them. -/
theorem run {β : Type} {see : State V W → β} {X : List Nat} {seen : Nat → Nat → List β}
    {P : Nat → Memory V W → Prop} {n : Nat} {b : Bool} (hX : ∀ x ∈ X, p < x ∧ x < q)
    (hround : ∀ i < n, ∀ m, P i m → ∃ m₁ k m', I.decides functions test m = some (true, m₁) ∧
      I.Within functions code (p + 1) q k (p + 1, ⟨[], m₁⟩) (q, ⟨[], m'⟩) ∧ P (i + 1) m' ∧
      ∀ x ∈ X, (I.visits functions code x k (p + 1, ⟨[], m₁⟩)).map see = seen x i)
    (hlast : ∀ m, P n m → I.decides functions test m = some (b, m)) {m : Memory V W} (hm : P 0 m) :
    ∃ k m', I.Within functions code p (q + test.length + 2) k (p, ⟨[], m⟩)
        (if b then p + 1 else q + test.length + 2, ⟨[], m'⟩) ∧ P n m' ∧
      ∀ x ∈ X, (I.visits functions code x k (p, ⟨[], m⟩)).map see = (List.range n).flatMap (seen x) := by
  obtain ⟨k, m', hrounds, hm', hseen⟩ := h.rounds hplaced (fun x hx => (hX x hx).2) hround hm
  have hentered : I.step functions code (p, ⟨[], m⟩) = _ := h.entered hplaced _
  have horder := h.order
  have hfirst : I.Within functions code p (q + test.length + 2) 1 (p, ⟨[], m⟩) (q, ⟨[], m⟩) :=
    .one hentered (Nat.le_refl p) (by simp only; omega)
  have htested := h.tested hplaced (hlast m' hm')
  refine ⟨1 + k + _, m', (hfirst.trans (hrounds.mono (Nat.le_succ p) (Nat.le_refl _))).trans
    (htested.mono (by omega) (Nat.le_refl _)), hm', ?_⟩
  intro x hx
  obtain ⟨hlo, hhi⟩ := hX x hx
  rw [visits_add (steps_trans hfirst.steps hrounds.steps), htested.visits (.inl hhi), List.append_nil,
    visits_add hfirst.steps, visits_one hentered, if_neg (Nat.ne_of_lt hlo), List.nil_append, hseen x hx]

end TestedAt

end Interpretation

end StackCompiler
