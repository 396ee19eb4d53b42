import StackCompiler.Lowering.Program
import StackCompiler.Proofs.Grammar.Reading

/-!
What a successful computation says about its parts. Each lemma takes a run that ends in `ok` apart; the
checks of types and shapes are read off in the same way.
-/

set_option autoImplicit false
namespace StackCompiler.Lowering

section Monad

variable {σ α β : Type} {s s' : σ} {a b : α}

theorem bind_ok {m : EStateM Diagnostic σ α} {f : α → EStateM Diagnostic σ β} {r : β} :
    (m >>= f) s = .ok r s' ↔ ∃ a s₁, m s = .ok a s₁ ∧ f a s₁ = .ok r s' := by
  change EStateM.bind m f s = .ok r s' ↔ _
  unfold EStateM.bind
  cases m s with
  | ok b t => simp [and_assoc]
  | error e t => simp

theorem pure_ok : (pure a : EStateM Diagnostic σ α) s = .ok b s' ↔ a = b ∧ s = s' := by
  change EStateM.Result.ok a s = .ok b s' ↔ _
  simp

theorem throw_ok {e : Diagnostic} : (throw e : EStateM Diagnostic σ α) s = .ok a s' ↔ False := by
  change EStateM.Result.error e s = .ok a s' ↔ _
  simp

theorem lift_ok {x : Except Diagnostic α} :
    (liftM x : EStateM Diagnostic σ α) s = .ok a s' ↔ x = .ok a ∧ s = s' := by
  cases x with
  | ok b =>
    change EStateM.Result.ok b s = .ok a s' ↔ _
    simp
  | error e =>
    change EStateM.Result.error e s = .ok a s' ↔ _
    simp

theorem get_ok {r : σ} : (get : EStateM Diagnostic σ σ) s = .ok r s' ↔ s = r ∧ s = s' := by
  change EStateM.Result.ok s s = .ok r s' ↔ _
  simp

theorem set_ok {t : σ} {u : PUnit} :
    (set t : EStateM Diagnostic σ PUnit) s = .ok u s' ↔ t = s' := by
  change EStateM.Result.ok PUnit.unit t = .ok u s' ↔ _
  simp

theorem modifyGet_ok {f : σ → α × σ} :
    (modifyGet f : EStateM Diagnostic σ α) s = .ok a s' ↔ f s = (a, s') := by
  change (match f s with | (a, s) => EStateM.Result.ok a s) = .ok a s' ↔ _
  rcases f s with ⟨b, t⟩
  simp

theorem map_ok {m : EStateM Diagnostic σ α} {f : α → β} {r : β} :
    (f <$> m) s = .ok r s' ↔ ∃ a, m s = .ok a s' ∧ f a = r := by
  rw [map_eq_pure_bind, bind_ok]
  simp only [pure_ok]
  constructor
  · rintro ⟨a, s₁, hm, hr, rfl⟩
    exact ⟨a, hm, hr⟩
  · rintro ⟨a, hm, hr⟩
    exact ⟨a, s', hm, hr, rfl⟩

/-! And what a failing one says. -/

theorem bind_error {m : EStateM Diagnostic σ α} {f : α → EStateM Diagnostic σ β} {e : Diagnostic} :
    (m >>= f) s = .error e s' ↔
      m s = .error e s' ∨ ∃ a s₁, m s = .ok a s₁ ∧ f a s₁ = .error e s' := by
  change EStateM.bind m f s = .error e s' ↔ _
  unfold EStateM.bind
  cases m s with
  | ok b t => simp [and_assoc]
  | error e t => simp

theorem pure_error {e : Diagnostic} : (pure a : EStateM Diagnostic σ α) s = .error e s' ↔ False := by
  change EStateM.Result.ok a s = .error e s' ↔ _
  simp

theorem lift_error {x : Except Diagnostic α} {e : Diagnostic} :
    (liftM x : EStateM Diagnostic σ α) s = .error e s' ↔ x = .error e ∧ s = s' := by
  cases x with
  | ok b =>
    change EStateM.Result.ok b s = .error e s' ↔ _
    simp
  | error d =>
    change EStateM.Result.error d s = .error e s' ↔ _
    simp

theorem get_error {e : Diagnostic} : (get : EStateM Diagnostic σ σ) s = .error e s' ↔ False := by
  change EStateM.Result.ok s s = .error e s' ↔ _
  simp

theorem set_error {t : σ} {e : Diagnostic} :
    (set t : EStateM Diagnostic σ PUnit) s = .error e s' ↔ False := by
  change EStateM.Result.ok PUnit.unit t = .error e s' ↔ _
  simp

theorem modifyGet_error {f : σ → α × σ} {e : Diagnostic} :
    (modifyGet f : EStateM Diagnostic σ α) s = .error e s' ↔ False := by
  change (match f s with | (a, s) => EStateM.Result.ok a s) = .error e s' ↔ _
  simp

end Monad

/-- A computation on the scopes leaves the rest of a body's state alone, whether it succeeds or fails. -/
theorem liftScope_apply {α : Type} (m : ScopeM α) (s : BodyState) :
    (liftM m : BodyM α) s = match m s.scopes with
      | .ok a scopes => .ok a { s with scopes }
      | .error e scopes => .error e { s with scopes } :=
  rfl

theorem liftScope_ok {α : Type} {m : ScopeM α} {s s' : BodyState} {a : α} :
    (liftM m : BodyM α) s = .ok a s' ↔ ∃ c, m s.scopes = .ok a c ∧ s' = { s with scopes := c } := by
  rw [liftScope_apply]
  cases m s.scopes with
  | ok b c =>
    constructor
    · intro h
      cases h
      exact ⟨c, rfl, rfl⟩
    · rintro ⟨d, h, rfl⟩
      cases h
      rfl
  | error e c => simp

theorem inScope_ok {α : Type} {kind : ScopeKind} {m : BodyM α} {s s' : BodyState} {a : α} :
    inScope kind m s = .ok a s' ↔ ∃ s₁, m { s with scopes := s.scopes.enter kind } = .ok a s₁ ∧
      s' = { s₁ with scopes := s₁.scopes.exit s.scopes.depth } := by
  unfold inScope
  cases m { s with scopes := s.scopes.enter kind } with
  | ok b t =>
    constructor
    · intro h
      cases h
      exact ⟨t, rfl, rfl⟩
    · rintro ⟨u, h, rfl⟩
      cases h
      rfl
  | error e t => simp

theorem ok_of_toOption {ε α : Type} {x : Except ε α} {a : α} (h : x.toOption = some a) :
    x = .ok a := by
  cases x with
  | ok b =>
    cases h
    rfl
  | error e => cases h

/-! Runs that are evaluated, and what is checked of the values they end with. -/

def succeeded? {σ α : Type} : EStateM.Result Diagnostic σ α → Option (α × σ)
  | .ok a s => some (a, s)
  | .error _ _ => none

def failed? {σ α : Type} : EStateM.Result Diagnostic σ α → Option (Diagnostic × σ)
  | .ok _ _ => none
  | .error e s => some (e, s)

theorem ok_of_any {ε α : Type} {x : Except ε α} {p : α → Bool} (h : x.toOption.any p = true) :
    ∃ a, x = .ok a ∧ p a = true := by
  obtain ⟨a, ha, hp⟩ := (Option.any_eq_true _ _).1 h
  exact ⟨a, ok_of_toOption ha, hp⟩

theorem ok_of_succeeded {σ α : Type} {r : EStateM.Result Diagnostic σ α} {p : α × σ → Bool}
    (h : (succeeded? r).any p = true) : ∃ a s, r = .ok a s ∧ p (a, s) = true := by
  cases r with
  | ok a s => exact ⟨a, s, rfl, h⟩
  | error e s => cases h

theorem error_of_failed {σ α : Type} {r : EStateM.Result Diagnostic σ α} {p : Diagnostic × σ → Bool}
    (h : (failed? r).any p = true) : ∃ e s, r = .error e s ∧ p (e, s) = true := by
  cases r with
  | ok a s => cases h
  | error e s => exact ⟨e, s, rfl, h⟩

theorem eq_singleton {α : Type} {xs : List α} {a : α} (hone : xs.length = 1) (ha : xs[0]? = some a) :
    xs = [a] := by
  obtain ⟨b, rfl⟩ := List.length_eq_one_iff.1 hone
  cases ha
  rfl

theorem require_ok {condition : Prop} [Decidable condition] {e : Diagnostic} {u : Unit} :
    require condition e = .ok u ↔ condition := by
  unfold require
  split <;> simp_all

theorem require_error {condition : Prop} [Decidable condition] {e e' : Diagnostic} :
    require condition e = .error e' ↔ ¬ condition ∧ e = e' := by
  unfold require
  split <;> simp_all

theorem expectValue_ok {found : OperandType} {expected : Ty} {line : Nat} {u : Unit} :
    expectValue found expected line = .ok u ↔ found = .value expected :=
  require_ok

theorem expectType_ok {found expected : Ty} {line : Nat} {u : Unit} :
    expectType found expected line = .ok u ↔ found = expected :=
  require_ok

@[simp] theorem tag_marked (tag : Tag) (token : Token) (children : List Tree) :
    (Tree.marked tag token children).tag = tag := rfl

@[simp] theorem tag_inner (tag : Tag) (children : List Tree) : (Tree.inner tag children).tag = tag := rfl

@[simp] theorem lexeme_marked (tag : Tag) (token : Token) (children : List Tree) :
    (Tree.marked tag token children).lexeme = .ok token.lexeme := rfl

end StackCompiler.Lowering
