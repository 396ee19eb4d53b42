import StackCompiler.Proofs.Grammar.Derivation

/-!
What the readers of single tokens do, in terms of the tokens they are given: when they succeed, and what
they leave. The token classes of the readers are those of the grammar.
-/

set_option autoImplicit false
namespace StackCompiler

namespace Token

theorem hasText_iff (t : Token) (kind : Kind) (text : String) :
    t.hasText kind text = true ↔ t.OneOf kind [text] := by
  simp [hasText, OneOf]

theorem isSymbol_iff (t : Token) (text : String) :
    t.isSymbol text = true ↔ t.OneOf .symbol [text] :=
  hasText_iff t .symbol text

theorem isKeyword_iff (t : Token) (text : String) :
    t.isKeyword text = true ↔ t.OneOf .keyword [text] :=
  hasText_iff t .keyword text

theorem isOperator_iff (t : Token) (texts : List String) :
    t.isOperator texts = true ↔ t.OneOf .operator texts := by
  simp [isOperator, OneOf]

theorem isIdentifier_iff (t : Token) : t.isIdentifier = true ↔ t.kind = .identifier := by
  simp [isIdentifier]

theorem OneOf.not_identifier {t : Token} {kind : Kind} {texts : List String}
    (h : t.OneOf kind texts) (hkind : kind ≠ .identifier) : t.isIdentifier = false := by
  simp [isIdentifier, h.1, hkind]

theorem OneOf.not_hasText {t : Token} {kind other : Kind} {texts : List String} {text : String}
    (h : t.OneOf kind texts) (hne : kind ≠ other ∨ text ∉ texts) : t.hasText other text = false := by
  apply Bool.eq_false_iff.2
  intro htext
  obtain ⟨hkind, hmem⟩ := (hasText_iff t other text).1 htext
  rw [List.mem_singleton] at hmem
  rcases hne with hne | hne
  · exact hne (h.1.symm.trans hkind)
  · exact hne (hmem ▸ h.2)

end Token

namespace Grammar

theorem isTypeName_iff (t : Token) : isTypeName t = true ↔ t.IsType := by
  simp [isTypeName, Token.IsType, Token.OneOf]

theorem isConstant_iff (t : Token) : isConstant t = true ↔ t.IsLiteral := by
  simp only [isConstant, Token.IsLiteral, Bool.or_eq_true, beq_iff_eq, Token.isKeyword_iff,
    Token.OneOf, List.mem_cons, List.not_mem_nil, or_false, and_or_left, or_assoc]

theorem Level.accepts_iff (level : Level) (t : Token) :
    level.accepts t = true ↔ level.Connective t := by
  cases level <;> simp [accepts, Connective, Token.isKeyword_iff, Token.isOperator_iff]

theorem isNegation_iff (t : Token) :
    isNegation t = true ↔ t.OneOf .keyword ["not"] ∨ t.OneOf .operator ["!"] := by
  simp [isNegation, Token.isKeyword_iff, Token.isOperator_iff]

theorem bind_eq_ok {ε α β : Type} {x : Except ε α} {f : α → Except ε β} {b : β} :
    (x >>= f) = .ok b ↔ ∃ a, x = .ok a ∧ f a = .ok b := by
  cases x <;> simp [bind, Except.bind]

theorem pure_eq_ok {ε α : Type} {a b : α} : (pure a : Except ε α) = .ok b ↔ a = b := by
  simp [pure, Except.pure]

theorem ok_bind {ε α β : Type} (a : α) (f : α → Except ε β) : (Except.ok a >>= f) = f a :=
  rfl

theorem eat?_eq_some {p : Token → Bool} {ts : List Token} {r : Read Token ts.length}
    (h : eat? p ts = some r) : p r.value = true ∧ ts = r.value :: r.rest := by
  cases ts with
  | nil => simp [eat?] at h
  | cons t ts =>
    simp only [eat?] at h
    split at h
    next hp =>
      cases h
      exact ⟨hp, rfl⟩
    next => simp at h

theorem eat?_cons {p : Token → Bool} {t : Token} (h : p t = true) (ts : List Token) :
    eat? p (t :: ts) = some (.nothing t ts) := by
  simp [eat?, h]

/-- The reader finds nothing where no token stands or one that it does not take. -/
theorem eat?_eq_none {p : Token → Bool} {ts : List Token}
    (h : ∀ t, ts.head? = some t → p t = false) : eat? p ts = none := by
  cases ts with
  | nil => rfl
  | cons t ts => simp [eat?, h t rfl]

theorem expect_eq_ok {e : Expectation} {p : Token → Bool} {ts : List Token}
    {r : Read Token ts.length} (h : expect e p ts = .ok r) :
    p r.value = true ∧ ts = r.value :: r.rest := by
  unfold expect at h
  split at h
  next s hs =>
    cases h
    exact eat?_eq_some hs
  next => simp at h

theorem expect_cons (e : Expectation) {p : Token → Bool} {t : Token} (h : p t = true)
    (ts : List Token) : expect e p (t :: ts) = .ok (.nothing t ts) := by
  simp [expect, eat?_cons h]

theorem expectSymbol_eq_ok {text : String} {ts : List Token} {r : Read Token ts.length}
    (h : expectSymbol text ts = .ok r) : r.value.OneOf .symbol [text] ∧ ts = r.value :: r.rest := by
  obtain ⟨hp, hts⟩ := expect_eq_ok h
  exact ⟨(Token.isSymbol_iff _ _).1 hp, hts⟩

theorem expectSymbol_cons {text : String} {t : Token} (h : t.OneOf .symbol [text])
    (ts : List Token) : expectSymbol text (t :: ts) = .ok (.nothing t ts) :=
  expect_cons _ ((Token.isSymbol_iff _ _).2 h) ts

theorem expectKeyword_eq_ok {text : String} {ts : List Token} {r : Read Token ts.length}
    (h : expectKeyword text ts = .ok r) :
    r.value.OneOf .keyword [text] ∧ ts = r.value :: r.rest := by
  obtain ⟨hp, hts⟩ := expect_eq_ok h
  exact ⟨(Token.isKeyword_iff _ _).1 hp, hts⟩

theorem expectKeyword_cons {text : String} {t : Token} (h : t.OneOf .keyword [text])
    (ts : List Token) : expectKeyword text (t :: ts) = .ok (.nothing t ts) :=
  expect_cons _ ((Token.isKeyword_iff _ _).2 h) ts

theorem expectIdentifier_eq_ok {ts : List Token} {r : Read Token ts.length}
    (h : expectIdentifier ts = .ok r) : r.value.kind = .identifier ∧ ts = r.value :: r.rest := by
  obtain ⟨hp, hts⟩ := expect_eq_ok h
  exact ⟨(Token.isIdentifier_iff _).1 hp, hts⟩

theorem expectIdentifier_cons {t : Token} (h : t.kind = .identifier) (ts : List Token) :
    expectIdentifier (t :: ts) = .ok (.nothing t ts) :=
  expect_cons _ ((Token.isIdentifier_iff _).2 h) ts

theorem required_eq_ok {e : Expectation} {ts : List Token} {o : Outcome ts.length}
    {r : Read Tree ts.length} (h : required e ts o = .ok r) : o = .ok (some r) := by
  unfold required at h
  split at h
  next s => cases h; rfl
  next => simp at h
  next => simp at h

theorem required_some (e : Expectation) {ts : List Token} (r : Read Tree ts.length) :
    required e ts (.ok (some r)) = .ok r :=
  rfl

end Grammar

end StackCompiler
