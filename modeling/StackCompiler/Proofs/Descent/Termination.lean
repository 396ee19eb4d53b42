import Mathlib.Logic.ExistsUnique
import StackCompiler.Proofs.Descent.Steps
import StackCompiler.Proofs.Grammar.MemoTransparency

/-!
The descent ends.

Every production asks only for productions below it, so by induction along the measure the assumption made
about the answers is true of all of them: each body runs to one outcome, which is that of its reader.
-/

set_option autoImplicit false
namespace StackCompiler.Grammar.Descent

variable {α : Type} {limit : Nat}

/-- An activity ends if every production below `limit` does. -/
theorem Act.Meets.settles {Q : Except Unexpected (α × State) → Prop} {act : Act α}
    (hbelow : ∀ {k : Shape} (p : Production k) (s : State), Sound s.memo → Descent.measure p s.ahead < limit →
      ∃ outcome, Runs (body p s) outcome ∧ Agrees (expected p) s.ahead outcome)
    (h : act.Meets limit Q) : ∃ outcome, Runs act outcome ∧ Q outcome := by
  induction act with
  | done a s => exact ⟨_, .done a s, h⟩
  | fail u => exact ⟨_, .fail u, h⟩
  | ask p s next ih =>
    obtain ⟨⟨hsound, hlt⟩, herror, hnext⟩ := h
    obtain ⟨answer, hruns, hagrees⟩ := hbelow p s hsound hlt
    rcases answer with u | ⟨r, s'⟩
    · exact ⟨.error u, .failed hruns, herror u hagrees⟩
    · obtain ⟨outcome, honwards, hQ⟩ := ih r s' (hnext r s' hagrees)
      exact ⟨outcome, .answered hruns honwards, hQ⟩

theorem body_settles {k : Shape} (p : Production k) (s : State) (hs : Sound s.memo) :
    ∃ outcome, Runs (body p s) outcome ∧ Agrees (expected p) s.ahead outcome :=
  (body_mirrors p s.ahead s.memo hs).settles fun q s' hs' _ => body_settles q s' hs'
termination_by measure p s.ahead

/-- Every run of a production has the outcome of its reader. -/
theorem agrees_of_runs {k : Shape} {p : Production k} {s : State} (hs : Sound s.memo)
    {outcome : Except Unexpected (k.Result × State)} (h : Runs (body p s) outcome) :
    Agrees (expected p) s.ahead outcome := by
  obtain ⟨other, hruns, hagrees⟩ := body_settles p s hs
  rwa [h.unique hruns]

theorem Asks.lower {Q : Except Unexpected (α × State) → Prop} {act : Act α} {v : Visit} (h : Asks act v)
    (hmeets : act.Meets limit Q) : Sound v.state.memo ∧ v.measure < limit := by
  induction h with
  | here => exact hmeets.1
  | later asked _ ih => exact ih (hmeets.2.2 _ _ (agrees_of_runs hmeets.1.1 asked))

namespace Visit

theorem Calls.lower {v w : Visit} (h : v.Calls w) (hs : Sound v.state.memo) :
    Sound w.state.memo ∧ w.measure < v.measure :=
  Asks.lower h (body_mirrors v.production v.state.ahead v.state.memo hs)

/-- The memo is sound at every visit of a parse. -/
theorem Reaches.sound {v w : Visit} (h : v.Reaches w) (hs : Sound v.state.memo) : Sound w.state.memo := by
  induction h with
  | start => exact hs
  | call _ calls ih => exact (calls.lower ih).1

theorem returns_once (v : Visit) (hs : Sound v.state.memo) : ∃! outcome, v.Returns outcome := by
  obtain ⟨outcome, hruns, _⟩ := body_settles v.production v.state hs
  exact ⟨outcome, hruns, fun _ hother => hother.unique hruns⟩

end Visit

/-- A production that yields a tree has taken a token at least, and one that declines none. -/
def Consumed (found : Option Tree) (before behind : List Token) : Prop :=
  match found with
  | some _ => ∃ first used, before = first :: used ++ behind
  | none => behind = before

theorem consumed_of_runs {p : Production .optional} {s s' : State} (hs : Sound s.memo) {found : Option Tree}
    (h : Runs (body p s) (.ok (found, s'))) : Consumed found s.ahead s'.ahead := by
  obtain ⟨hread, ⟨used, hused⟩, _⟩ := agrees_of_runs hs h
  cases found with
  | none => exact expected_declines p hread
  | some t =>
    have hlt := expected_shorter p hread
    cases used with
    | nil => exact absurd hlt (by rw [← hused]; exact Nat.lt_irrefl _)
    | cons first used => exact ⟨first, used, hused.symm⟩

def verdict (source : String) (outcome : Except Unexpected (Tree × State)) : Except Diagnostic Tree :=
  match outcome with
  | .ok (tree, _) => .ok tree
  | .error u => .error (u.diagnostic (lastLine source))

theorem parse_of_returns {source : String} {outcome : Except Unexpected (Tree × State)}
    (h : (Visit.start .program source).Returns outcome) : parse source = verdict source outcome := by
  have hs : Sound (Visit.start .program source).state.memo := trivial
  have hagrees : Agrees Reader.program (tokenize source) outcome := agrees_of_runs hs h
  have hparse : parse source = parseWith false source :=
    (Memo.parse_eq true source).symm.trans (Memo.parse_eq false source)
  rw [hparse, parseWith]
  rcases outcome with u | ⟨tree, s⟩
  · have hread : Reader.program (tokenize source) = .error u := hagrees
    rw [Reader.program] at hread
    rcases hprogram : program false (tokenize source) with v | other
    · rw [hprogram] at hread
      cases hread
      rfl
    · rw [hprogram] at hread
      cases hread
  · have hread : Reader.program (tokenize source) = .ok (tree, s.ahead) := hagrees.1
    rw [Reader.program] at hread
    rcases hprogram : program false (tokenize source) with v | other
    · rw [hprogram] at hread
      cases hread
    · rw [hprogram] at hread
      obtain ⟨rfl, -⟩ := Prod.mk.inj (Except.ok.inj hread)
      rfl

/-- Parsing ends on every source. The descent has one outcome, which is the result of `parse`. At every
production that is asked for on the way the descent ends as well, every call it makes and every next round of a
loop has a smaller measure, and what it consumes shows by what it yields. The same holds where a parse begins with
another production. -/
theorem parsing_terminates (source : String) :
    (∃! outcome, (Visit.start .program source).Returns outcome) ∧
    (∀ outcome, (Visit.start .program source).Returns outcome → parse source = verdict source outcome) ∧
    ∀ {k : Shape} (p : Production k),
      (∀ v, (Visit.start p source).Reaches v →
        (∃! outcome, v.Returns outcome) ∧ ∀ w, v.Calls w → w.measure < v.measure) ∧
      ∀ (q : Production .optional) (s : State), (Visit.start p source).Reaches ⟨.optional, q, s⟩ →
        ∀ found s', Runs (body q s) (.ok (found, s')) → Consumed found s.ahead s'.ahead := by
  have hstart : ∀ {k : Shape} (p : Production k), Sound (Visit.start p source).state.memo := fun _ => trivial
  refine ⟨Visit.returns_once _ (hstart .program), fun outcome => parse_of_returns, ?_⟩
  intro k p
  refine ⟨?_, ?_⟩
  · intro v hv
    have hsound := hv.sound (hstart p)
    exact ⟨v.returns_once hsound, fun w hcalls => (hcalls.lower hsound).2⟩
  · intro q s hreaches found s' hruns
    have hsound : Sound s.memo := hreaches.sound (hstart p)
    exact consumed_of_runs hsound hruns

end StackCompiler.Grammar.Descent
