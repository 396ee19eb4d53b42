import StackCompiler.Proofs.Grammar.Reading

/-!
Where a reader stops, and why.

A reader here is a production without the proof that it makes progress. It parses a class of values
if, wherever it is set to work, it decides by the tokens it has read and the one behind them. It either
reads a value of the class, or fails at that next token after tokens that some value of the class begins
with. So a failure comes neither too late nor too early: the same tokens with another
continuation fail alike, and without the last one they could still have been continued.
-/

set_option autoImplicit false
namespace StackCompiler.Grammar

abbrev Reader (α : Type) :=
  StateT (List Token) (Except Unexpected) α

def erase {α : Type} {n : Nat} (result : Except Unexpected (Read α n)) :
    Except Unexpected (α × List Token) :=
  result.map fun r => (r.value, r.rest)

def erase? (ts : List Token) (o : Outcome ts.length) : Except Unexpected (Option Tree × List Token) :=
  o.map fun
    | none => (none, ts)
    | some r => (some r.value, r.rest)

namespace Reader

variable {α β : Type}

def next? (p : Token → Bool) : Reader (Option Token)
  | [] => .ok (none, [])
  | t :: ts => if p t then .ok (some t, ts) else .ok (none, t :: ts)

def fail (e : Expectation) : Reader α := fun ts =>
  .error ⟨e, ts.head?⟩

def token (e : Expectation) (p : Token → Bool) : Reader Token := do
  match ← next? p with
  | some t => return t
  | none => fail e

abbrev symbol (text : String) : Reader Token :=
  token (.text text) (·.isSymbol text)

abbrev keyword (word : String) : Reader Token :=
  token (.text word) (·.isKeyword word)

abbrev identifier : Reader Token :=
  token .identifier Token.isIdentifier

def must (e : Expectation) (reader : Reader (Option α)) : Reader α := do
  match ← reader with
  | some a => return a
  | none => fail e

def ifSome (reader : Reader (Option α)) (next : α → Reader β) : Reader (Option β) := do
  match ← reader with
  | some a => some <$> next a
  | none => return none

theorem bind_apply (reader : Reader α) (next : α → Reader β) (ts : List Token) :
    (reader >>= next) ts = reader ts >>= fun result => next result.1 result.2 :=
  rfl

theorem bind_of_ok {reader : Reader α} {ts rest : List Token} {a : α} (h : reader ts = .ok (a, rest))
    (next : α → Reader β) : (reader >>= next) ts = next a rest := by
  rw [bind_apply, h]
  rfl

theorem bind_of_error {reader : Reader α} {ts : List Token} {u : Unexpected}
    (h : reader ts = .error u) (next : α → Reader β) : (reader >>= next) ts = .error u := by
  rw [bind_apply, h]
  rfl

theorem map_apply (f : α → β) (reader : Reader α) (ts : List Token) :
    (f <$> reader) ts = (reader ts).map fun result => (f result.1, result.2) := by
  change (reader ts >>= _) = _
  cases reader ts <;> rfl

/-- A production that goes on as another reader is followed by the same as that reader. -/
theorem bind_of_takes {production : Reader (Option α)} {reader : Reader α} {us ts : List Token}
    (h : production us = (some <$> reader) ts) (next : Option α → Reader β) :
    (production >>= next) us = (reader >>= fun a => next (some a)) ts := by
  rw [bind_apply, h, map_apply, bind_apply]
  cases reader ts <;> rfl

theorem ifSome_of_takes {production : Reader (Option α)} {reader : Reader α} {us ts : List Token}
    (h : production us = (some <$> reader) ts) (next : α → Reader β) :
    ifSome production next us = (some <$> (reader >>= next)) ts := by
  rw [ifSome, bind_of_takes h, map_bind]

theorem ifSome_of_none {production : Reader (Option α)} {ts : List Token}
    (h : production ts = .ok (none, ts)) (next : α → Reader β) :
    ifSome production next ts = .ok (none, ts) :=
  bind_of_ok h _

theorem next?_of_none {p : Token → Bool} {ts : List Token} (h : eat? p ts = none) :
    next? p ts = .ok (none, ts) := by
  cases ts with
  | nil => rfl
  | cons t ts =>
    by_cases hp : p t = true
    · rw [eat?_cons hp] at h
      cases h
    · rw [next?, if_neg hp]

theorem next?_of_some {p : Token → Bool} {ts : List Token} {r : Read Token ts.length}
    (h : eat? p ts = some r) : next? p ts = .ok (some r.value, r.rest) := by
  obtain ⟨hp, hts⟩ := eat?_eq_some h
  generalize r.value = t at hp hts
  generalize r.rest = rest at hts
  subst hts
  rw [next?, if_pos hp]

theorem token_cons {p : Token → Bool} {t : Token} (h : p t = true) (e : Expectation)
    (ts : List Token) : token e p (t :: ts) = .ok (t, ts) := by
  rw [token, bind_of_ok (next?_of_some (eat?_cons h ts))]
  rfl

/-! The productions as readers. -/

theorem erase_expect (e : Expectation) (p : Token → Bool) (ts : List Token) :
    erase (expect e p ts) = token e p ts := by
  unfold expect
  cases h : eat? p ts with
  | none =>
    rw [token, bind_of_ok (next?_of_none h)]
    rfl
  | some r =>
    rw [token, bind_of_ok (next?_of_some h)]
    rfl

theorem erase_required (e : Expectation) {ts : List Token} {o : Outcome ts.length}
    {production : Reader (Option Tree)} (h : erase? ts o = production ts) :
    erase (required e ts o) = must e production ts := by
  rw [must, bind_apply, ← h]
  rcases o with u | found
  · rfl
  · cases found <;> rfl

theorem erased_bind {γ δ : Type} {x : Except Unexpected γ} {first : γ → α × List Token}
    {after : γ → Except Unexpected δ} {second : δ → β × List Token} {reader : Reader α}
    {next : α → Reader β} {ts : List Token} (h : x.map first = reader ts)
    (hnext : ∀ c, (after c).map second = next (first c).1 (first c).2) :
    (x >>= after).map second = (reader >>= next) ts := by
  rw [bind_apply, ← h]
  cases x with
  | error u => rfl
  | ok c => exact hnext c

theorem erase_bind {n m : Nat} {result : Except Unexpected (Read α n)}
    {after : Read α n → Except Unexpected (Read β m)} {reader : Reader α} {next : α → Reader β}
    {ts : List Token} (h : erase result = reader ts)
    (hnext : ∀ r, erase (after r) = next r.value r.rest) :
    erase (result >>= after) = (reader >>= next) ts :=
  erased_bind h hnext

theorem erase?_bind {n : Nat} {result : Except Unexpected (Read α n)} {us : List Token}
    {after : Read α n → Outcome us.length} {reader : Reader α} {next : α → Reader (Option Tree)}
    {ts : List Token} (h : erase result = reader ts)
    (hnext : ∀ r, erase? us (after r) = next r.value r.rest) :
    erase? us (result >>= after) = (reader >>= next) ts :=
  erased_bind h hnext

theorem erase?_shorter {ts rest : List Token} {o : Outcome ts.length} {t : Tree}
    (h : erase? ts o = .ok (some t, rest)) : rest.length < ts.length := by
  rcases o with u | found
  · cases h
  · cases found with
    | none => cases h
    | some r =>
      cases h
      exact r.shorter

theorem must_eq_ok {e : Expectation} {production : Reader (Option α)} {ts rest : List Token} {a : α}
    (h : must e production ts = .ok (a, rest)) : production ts = .ok (some a, rest) := by
  rw [must, bind_apply] at h
  rcases hread : production ts with u | ⟨found, left⟩
  · rw [hread] at h
    cases h
  · rw [hread] at h
    cases found with
    | none => cases h
    | some b =>
      cases h
      rfl

/-- A reading that is only set in its place. -/
theorem erase?_some {n : Nat} {result : Except Unexpected (Read Tree n)} {us ts : List Token}
    {place : Read Tree n → Read Tree us.length} {reader : Reader Tree} (h : erase result = reader ts)
    (hplace : ∀ r, (place r).value = r.value ∧ (place r).rest = r.rest) :
    erase? us (result >>= fun r => pure (some (place r))) = (some <$> reader) ts := by
  rw [map_apply, ← h]
  cases result with
  | error u => rfl
  | ok r =>
    obtain ⟨hvalue, hrest⟩ := hplace r
    change Except.ok (some (place r).value, (place r).rest) = Except.ok (some r.value, r.rest)
    rw [hvalue, hrest]

theorem erase?_bindOutcome {ts : List Token} {o : Outcome ts.length}
    {after : Option (Read Tree ts.length) → Outcome ts.length} {reader : Reader (Option Tree)}
    {next : Option Tree → Reader (Option Tree)} (h : erase? ts o = reader ts)
    (hnone : erase? ts (after none) = next none ts)
    (hsome : ∀ r, erase? ts (after (some r)) = next (some r.value) r.rest) :
    erase? ts (o >>= after) = (reader >>= next) ts := by
  refine erased_bind h ?_
  intro found
  cases found with
  | none => exact hnone
  | some r => exact hsome r

theorem erase_bindOutcome {n : Nat} {ts : List Token} {o : Outcome ts.length}
    {after : Option (Read Tree ts.length) → Except Unexpected (Read β n)} {reader : Reader (Option Tree)}
    {next : Option Tree → Reader β} (h : erase? ts o = reader ts)
    (hnone : erase (after none) = next none ts)
    (hsome : ∀ r, erase (after (some r)) = next (some r.value) r.rest) :
    erase (o >>= after) = (reader >>= next) ts := by
  refine erased_bind h ?_
  intro found
  cases found with
  | none => exact hnone
  | some r => exact hsome r

end Reader

/-! What a reader decides, and by which tokens. -/

section Decisions

variable {α β : Type} {V : List Token → Prop} {Q : α → List Token → Prop} {reader other : Reader α}
  {ts : List Token}

/-- The reader takes the tokens `used` off the front of its input, or fails behind them, whatever follows
the next token. What it reads satisfies `Q`, and `V` holds of the tokens before a failure. -/
inductive Decides (V : List Token → Prop) (Q : α → List Token → Prop) (reader : Reader α) :
    List Token → Prop where
  | reads {a : α} {used rest : List Token} (value : Q a used)
      (run : ∀ tail : List Token, tail.head? = rest.head? → reader (used ++ tail) = .ok (a, tail)) :
      Decides V Q reader (used ++ rest)
  | stops {u : Unexpected} {used rest : List Token} (found : u.found = rest.head?) (viable : V used)
      (run : ∀ tail : List Token, tail.head? = rest.head? → reader (used ++ tail) = .error u) :
      Decides V Q reader (used ++ rest)

theorem head?_append_congr {tail rest : List Token} (h : tail.head? = rest.head?) (used : List Token) :
    (used ++ tail).head? = (used ++ rest).head? := by
  rw [List.head?_append, List.head?_append, h]

/-- Either the next token belongs to a class, or there is none that does. -/
theorem byHead {C : Prop} (p : Token → Bool) (ts : List Token)
    (hno : (∀ t, ts.head? = some t → p t = false) → C)
    (hyes : ∀ t rest, ts = t :: rest → p t = true → C) : C := by
  cases ts with
  | nil => exact hno nofun
  | cons t rest =>
    by_cases hp : p t = true
    · exact hyes t rest rfl hp
    · refine hno ?_
      rintro _ ⟨⟩
      exact Bool.eq_false_iff.2 hp

namespace Decides

/-- A reader that takes `used` and goes on as another one decides behind `used` as that one. -/
theorem behind {used : List Token} (h : ∀ us : List Token, us.head? = ts.head? → reader (used ++ us) = other us)
    (hother : Decides (fun more => V (used ++ more)) (fun a more => Q a (used ++ more)) other ts) :
    Decides V Q reader (used ++ ts) := by
  cases hother with
  | @reads a more rest value run =>
    rw [← List.append_assoc]
    refine .reads value ?_
    intro tail htail
    rw [List.append_assoc, h _ (head?_append_congr htail more), run tail htail]
  | @stops u more rest found viable run =>
    rw [← List.append_assoc]
    refine .stops found viable ?_
    intro tail htail
    rw [List.append_assoc, h _ (head?_append_congr htail more), run tail htail]

/-- The next token being the same, so is the decision. -/
theorem congr (h : ∀ us : List Token, us.head? = ts.head? → reader us = other us)
    (hother : Decides V Q other ts) : Decides V Q reader ts :=
  @behind _ V Q reader other ts [] h hother

/-- A first token that is taken off the input. -/
theorem cons {t : Token} (h : ∀ us : List Token, us.head? = ts.head? → reader (t :: us) = other us)
    (hother : Decides (fun used => V (t :: used)) (fun a used => Q a (t :: used)) other ts) :
    Decides V Q reader (t :: ts) :=
  @behind _ V Q reader other ts [t] h hother

theorem mono {V' : List Token → Prop} {Q' : α → List Token → Prop} (h : Decides V Q reader ts)
    (hV : ∀ used, V used → V' used) (hQ : ∀ a used, Q a used → Q' a used) : Decides V' Q' reader ts := by
  cases h with
  | reads value run => exact .reads (hQ _ _ value) run
  | stops found viable run => exact .stops found (hV _ viable) run

theorem bind {V' : List Token → Prop} {Q' : β → List Token → Prop} {next : α → Reader β}
    (h : Decides V Q reader ts) (hV : ∀ used, V used → V' used)
    (hnext : ∀ a used rest, ts = used ++ rest → reader ts = .ok (a, rest) → Q a used →
      Decides (fun more => V' (used ++ more)) (fun b more => Q' b (used ++ more)) (next a) rest) :
    Decides V' Q' (reader >>= next) ts := by
  cases h with
  | @stops u used rest found viable run =>
    exact .stops found (hV used viable) fun tail htail => Reader.bind_of_error (run tail htail) next
  | @reads a used rest value run =>
    exact behind (fun us hus => Reader.bind_of_ok (run us hus) next) (hnext a used rest rfl (run rest rfl) value)

theorem next {V' : List Token → Prop} {Q' : β → List Token → Prop} {p : Token → Bool}
    {next : Option Token → Reader β}
    (hnone : (∀ t, ts.head? = some t → p t = false) → Decides V' Q' (next none) ts)
    (hsome : ∀ t rest, ts = t :: rest → p t = true →
      Decides (fun used => V' (t :: used)) (fun b used => Q' b (t :: used)) (next (some t)) rest) :
    Decides V' Q' (Reader.next? p >>= next) ts := by
  refine byHead p ts ?_ ?_
  · intro hp
    refine congr ?_ (hnone hp)
    intro us hus
    have heat : eat? p us = none := eat?_eq_none (hus ▸ hp)
    exact Reader.bind_of_ok (Reader.next?_of_none heat) next
  · rintro t rest rfl hp
    refine cons ?_ (hsome t rest rfl hp)
    intro us _
    exact Reader.bind_of_ok (by rw [Reader.next?, if_pos hp]) next

theorem fail (e : Expectation) (hV : V []) : Decides V Q (Reader.fail e) ts :=
  @Decides.stops _ _ _ _ ⟨e, ts.head?⟩ [] ts rfl hV fun tail htail => by
    change Except.error _ = _
    rw [List.nil_append, htail]

end Decides

def Begins (Q : α → List Token → Prop) (used : List Token) : Prop :=
  ∃ more a, Q a (used ++ more)

/-- The reader reads a value of the class `Q` or fails where no such value can go on. -/
def Parses (Q : α → List Token → Prop) (reader : Reader α) (ts : List Token) : Prop :=
  Decides (Begins Q) Q reader ts

/-- The same for a reader that may decline. The next token alone tells whether it does, and it takes
that token if it does not. -/
inductive Offers (Q : α → List Token → Prop) (production : Reader (Option α)) : List Token → Prop where
  | declines {ts : List Token}
      (run : ∀ us : List Token, us.head? = ts.head? → production us = .ok (none, us)) :
      Offers Q production ts
  | takes {t : Token} {ts : List Token} {reader : Reader α}
      (run : ∀ us : List Token, us.head? = ts.head? → production (t :: us) = (some <$> reader) us)
      (parses : Parses (fun a us => Q a (t :: us)) reader ts) : Offers Q production (t :: ts)

theorem Begins.finish {Q' : β → List Token → Prop} {used : List Token} (h : Begins Q used)
    (hfinish : ∀ a us, Q a us → Begins Q' us) : Begins Q' used := by
  obtain ⟨more, a, ha⟩ := h
  obtain ⟨last, b, hb⟩ := hfinish a (used ++ more) ha
  exact ⟨more ++ last, b, by rwa [← List.append_assoc]⟩

theorem begins_append {used more : List Token} :
    Begins (fun a us => Q a (used ++ us)) more ↔ Begins Q (used ++ more) := by
  unfold Begins
  simp only [List.append_assoc]

namespace Parses

variable {Q' : β → List Token → Prop}

theorem ok {a : α} (h : Q a []) : Parses Q (pure a) ts :=
  @Decides.reads _ _ _ _ a [] ts h fun _ _ => rfl

theorem mono {Q' : α → List Token → Prop} (h : Parses Q reader ts)
    (hQ : ∀ a used, Q a used → Q' a used) : Parses Q' reader ts := by
  refine Decides.mono h ?_ hQ
  rintro used ⟨more, a, ha⟩
  exact ⟨more, a, hQ a _ ha⟩

/-- Whatever the first reader finds can be finished, and the second goes on with it. -/
theorem bind {next : α → Reader β} (h : Parses Q reader ts)
    (finish : ∀ a used, Q a used → Begins Q' used)
    (hnext : ∀ a used rest, ts = used ++ rest → reader ts = .ok (a, rest) → Q a used →
      Parses (fun b us => Q' b (used ++ us)) (next a) rest) : Parses Q' (reader >>= next) ts := by
  refine Decides.bind h (fun used hused => hused.finish finish) ?_
  intro a used rest hts hread ha
  exact Decides.mono (hnext a used rest hts hread ha) (fun _ => begins_append.1) fun _ _ hb => hb

theorem map {f : α → β} (h : Parses Q reader ts) (hf : ∀ a used, Q a used → Q' (f a) used) :
    Parses Q' (reader >>= fun a => pure (f a)) ts := by
  refine h.bind (fun a used ha => ⟨[], f a, by simpa using hf a used ha⟩) ?_
  intro a used rest _ _ ha
  exact .ok (by simpa using hf a used ha)

theorem next {p : Token → Bool} {next : Option Token → Reader β}
    (hnone : (∀ t, ts.head? = some t → p t = false) → Parses Q' (next none) ts)
    (hsome : ∀ t rest, ts = t :: rest → p t = true →
      Parses (fun b us => Q' b (t :: us)) (next (some t)) rest) :
    Parses Q' (Reader.next? p >>= next) ts :=
  Decides.next hnone hsome

theorem token {e : Expectation} {p : Token → Bool} {next : Token → Reader β} (start : Begins Q' [])
    (hnext : ∀ t rest, ts = t :: rest → p t = true →
      Parses (fun b us => Q' b (t :: us)) (next t) rest) :
    Parses Q' (Reader.token e p >>= next) ts := by
  rw [Reader.token, bind_assoc]
  refine .next ?_ ?_
  · intro _
    exact Decides.bind (Decides.fail e start) (fun _ hV => hV) fun a _ _ _ _ ha => (ha : False).elim
  · intro t rest hts hp
    rw [pure_bind]
    exact hnext t rest hts hp

/-- The last token of a phrase; `t` is one that may stand there. -/
theorem lastToken {e : Expectation} {p : Token → Bool} {f : Token → β} (t : Token) (ht : p t = true)
    (h : ∀ t, p t = true → Q' (f t) [t]) : Parses Q' (Reader.token e p >>= fun t => pure (f t)) ts :=
  .token ⟨[t], f t, h t ht⟩ fun t _ _ hp => .ok (h t hp)

end Parses

namespace Offers

variable {Q' : β → List Token → Prop} {production : Reader (Option α)}

theorem congr {same : Reader (Option α)} (h : ∀ us : List Token, us.head? = ts.head? → same us = production us)
    (hoffers : Offers Q production ts) : Offers Q same ts := by
  cases hoffers with
  | declines run =>
    refine .declines ?_
    intro us hus
    rw [h us hus, run us hus]
  | @takes t ts reader run parses =>
    refine .takes ?_ parses
    intro us hus
    rw [h (t :: us) rfl, run us hus]

theorem mono {Q' : α → List Token → Prop} (h : Offers Q production ts)
    (hQ : ∀ a used, Q a used → Q' a used) : Offers Q' production ts := by
  cases h with
  | declines run => exact .declines run
  | takes run parses =>
    exact .takes run (Parses.mono parses fun a used => hQ a (_ :: used))

theorem bind {next : Option α → Reader β} (h : Offers Q production ts)
    (finish : ∀ a used, Q a used → Begins Q' used) (hnone : Parses Q' (next none) ts)
    (hsome : ∀ a used rest, ts = used ++ rest → production ts = .ok (some a, rest) → Q a used →
      Parses (fun b us => Q' b (used ++ us)) (next (some a)) rest) : Parses Q' (production >>= next) ts := by
  cases h with
  | declines run =>
    refine Decides.congr ?_ hnone
    intro us hus
    exact Reader.bind_of_ok (run us hus) next
  | @takes t ts reader run parses =>
    have hparses : Parses (fun b us => Q' b (t :: us)) (reader >>= fun a => next (some a)) ts := by
      refine parses.bind (fun a used => finish a (t :: used)) ?_
      intro a used rest hts hread ha
      refine hsome a (t :: used) rest (by rw [hts]; rfl) ?_ ha
      rw [run ts rfl, Reader.map_apply, hread]
      rfl
    exact Decides.cons (fun us hus => Reader.bind_of_takes (run us hus) next) hparses

/-- A production that is required may begin here. -/
theorem must {e : Expectation} (h : Offers Q production ts) (start : Begins Q []) :
    Parses Q (Reader.must e production) ts := by
  refine h.bind (fun a used ha => ⟨[], a, by rwa [List.append_nil]⟩) (Decides.fail e start) ?_
  intro a used rest _ _ ha
  exact .ok (by rwa [List.append_nil])

/-- Going on with what was found keeps the decision to take the next token. -/
theorem ifSome {next : α → Reader β} (h : Offers Q production ts)
    (hnext : ∀ t rest reader, ts = t :: rest → Parses (fun a us => Q a (t :: us)) reader rest →
      Parses (fun b us => Q' b (t :: us)) (reader >>= next) rest) :
    Offers Q' (Reader.ifSome production next) ts := by
  cases h with
  | declines run =>
    refine .declines ?_
    intro us hus
    exact Reader.ifSome_of_none (run us hus) next
  | @takes t ts reader run parses =>
    refine .takes ?_ (hnext t ts reader rfl parses)
    intro us hus
    exact Reader.ifSome_of_takes (run us hus) next

end Offers

end Decisions

end StackCompiler.Grammar
