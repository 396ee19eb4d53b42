import Mathlib.Data.List.Forall2
import StackCompiler.Token.Cursor

/-!
Looking ahead and going back. A scanner answers requests for tokens and keeps the cursors it was asked to
remember. Every cursor stands for a place in the list of all tokens, however it was reached, so the
scanner answers like a machine that holds an index into that list and nothing else.
-/

set_option autoImplicit false
namespace StackCompiler

namespace Cursor

/-! A cursor in terms of the tokens from it on. -/

theorem next_fst (c : Cursor) : c.next.1 = c.tokens.head? := by
  rw [tokens]
  split
  next t c' hnext => simp [hnext]
  next c' hnext => simp [hnext]

/-- Trivia is skipped up to a token or to the end. -/
theorem skipLines_ahead (line : Nat) (open? : Bool) (ahead : List (List Char)) :
    (skipLines line open? ahead).ahead = [] ∨
      ∃ c text more, (skipLines line open? ahead).ahead = (c :: text) :: more := by
  fun_induction skipLines line open? ahead with
  | case1 line open? => exact .inl rfl
  | case2 line open? first more open' h ih => exact ih
  | case3 line open? first more open' text hne h =>
    cases text with
    | nil => exact absurd rfl hne
    | cons c text => exact .inr ⟨c, text, more, rfl⟩

/-- The cursor behind the last token has no token ahead, wherever the trivia behind it ends. -/
theorem tokens_of_next_none {c c' : Cursor} (h : c.next = (none, c')) : c'.tokens = [] := by
  have hahead : c'.ahead = [] := by
    rcases skipLines_ahead c.line c.inComment c.ahead with hend | ⟨d, text, more, hsome⟩
    · simp only [next, read, skipTrivia, hend] at h
      rw [← (Prod.mk.inj h).2, hend]
    · simp only [next, read, skipTrivia, hsome] at h
      exact absurd (Prod.mk.inj h).1 (by simp)
  have hnext : c'.next = (none, c') := by
    obtain ⟨line, open?, ahead⟩ := c'
    change ahead = [] at hahead
    subst hahead
    rfl
  rw [tokens, hnext]

theorem tokens_next (c : Cursor) : c.next.2.tokens = c.tokens.tail := by
  rw [tokens.eq_def c]
  split
  next t c' hnext => simp [hnext]
  next c' hnext => simp [hnext, tokens_of_next_none hnext]

theorem peek_eq_getElem? (c : Cursor) (k : Nat) : c.peek k = c.tokens[k]? := by
  induction k generalizing c with
  | zero => rw [peek, next_fst, List.head?_eq_getElem?]
  | succ k ih =>
    rw [peek, ih, tokens_next, List.getElem?_tail, next_fst]
    cases c.tokens with
    | nil => rfl
    | cons t ts => rfl

theorem tokens_finish (c : Cursor) : c.finish.tokens = [] := by
  induction c using finish.induct with
  | case1 c t c' hnext ih => rwa [finish, hnext]
  | case2 c c' hnext =>
    rw [finish, hnext]
    exact tokens_of_next_none hnext

end Cursor

/-- What a scanner can be asked. Cursors are remembered in the order of `checkpoint` requests, and
`restore n` goes back to the one with the number `n`. -/
inductive Request where
  | next
  | peek (k : Nat)
  | checkpoint
  | restore (n : Nat)
  | tokenize
  deriving DecidableEq

inductive Answer where
  | token (found : Option Token)
  | tokens (list : List Token)
  | done
  deriving DecidableEq

def replay {σ : Type} (perform : σ → Request → Answer × σ) (s : σ) : List Request → List Answer × σ
  | [] => ([], s)
  | r :: rs =>
    let (answer, s) := perform s r
    let (answers, s) := replay perform s rs
    (answer :: answers, s)

structure Scanner where
  cursor : Cursor
  remembered : List Cursor

namespace Scanner

def start (source : String) : Scanner :=
  ⟨Cursor.start source, []⟩

/-- Both `peek 0` and `peek 1` look at the next token. -/
def perform (s : Scanner) : Request → Answer × Scanner
  | .next => (.token s.cursor.next.1, { s with cursor := s.cursor.next.2 })
  | .peek k => (.token (s.cursor.peek (max k 1 - 1)), s)
  | .checkpoint => (.done, { s with remembered := s.remembered ++ [s.cursor] })
  | .restore n => (.done, { s with cursor := s.remembered[n]?.getD s.cursor })
  | .tokenize => (.tokens s.cursor.tokens, { s with cursor := s.cursor.finish })

end Scanner

/-- An index into a list of tokens, at most its length, and the indices remembered. -/
structure Index where
  position : Nat
  remembered : List Nat

namespace Index

def start : Index :=
  ⟨0, []⟩

def perform (all : List Token) (i : Index) : Request → Answer × Index
  | .next => (.token all[i.position]?, { i with position := min (i.position + 1) all.length })
  | .peek k => (.token all[i.position + max k 1 - 1]?, i)
  | .checkpoint => (.done, { i with remembered := i.remembered ++ [i.position] })
  | .restore n => (.done, { i with position := i.remembered[n]?.getD i.position })
  | .tokenize => (.tokens (all.drop i.position), { i with position := all.length })

end Index

structure StandsAt (all : List Token) (c : Cursor) (n : Nat) : Prop where
  ahead : c.tokens = all.drop n
  inside : n ≤ all.length

namespace StandsAt

variable {all : List Token} {c : Cursor} {n : Nat}

theorem next (h : StandsAt all c n) : StandsAt all c.next.2 (min (n + 1) all.length) := by
  refine ⟨?_, Nat.min_le_right _ _⟩
  rw [Cursor.tokens_next, h.ahead, List.tail_drop]
  by_cases hend : n + 1 ≤ all.length
  · rw [Nat.min_eq_left hend]
  · rw [Nat.min_eq_right (by omega), List.drop_length, List.drop_eq_nil_of_le (by omega)]

theorem finish (all : List Token) (c : Cursor) : StandsAt all c.finish all.length := by
  refine ⟨?_, Nat.le_refl _⟩
  rw [Cursor.tokens_finish, List.drop_length]

theorem peek (h : StandsAt all c n) (k : Nat) : c.peek (max k 1 - 1) = all[n + max k 1 - 1]? := by
  rw [Cursor.peek_eq_getElem?, h.ahead, List.getElem?_drop]
  congr 1
  omega

end StandsAt

/-- The scanner stands where the index points, and so do the places that both remember. -/
structure Tracks (all : List Token) (s : Scanner) (i : Index) : Prop where
  here : StandsAt all s.cursor i.position
  remembered : List.Forall₂ (StandsAt all) s.remembered i.remembered

theorem Tracks.start (source : String) : Tracks (tokenize source) (.start source) .start :=
  ⟨⟨rfl, Nat.zero_le _⟩, .nil⟩

theorem Tracks.restored {all : List Token} {s : Scanner} {i : Index} (h : Tracks all s i) (n : Nat) :
    StandsAt all (s.remembered[n]?.getD s.cursor) (i.remembered[n]?.getD i.position) := by
  have hlength := h.remembered.length_eq
  by_cases hn : n < s.remembered.length
  · have hn' : n < i.remembered.length := by omega
    rw [List.getElem?_eq_getElem hn, List.getElem?_eq_getElem hn']
    exact h.remembered.get hn hn'
  · rw [List.getElem?_eq_none (by omega), List.getElem?_eq_none (by omega)]
    exact h.here

theorem Tracks.perform {all : List Token} {s : Scanner} {i : Index} (h : Tracks all s i) (r : Request) :
    (s.perform r).1 = (i.perform all r).1 ∧ Tracks all (s.perform r).2 (i.perform all r).2 := by
  cases r with
  | next =>
    refine ⟨congrArg Answer.token ?_, h.here.next, h.remembered⟩
    rw [Cursor.next_fst, h.here.ahead, List.head?_drop]
  | peek k => exact ⟨congrArg Answer.token (h.here.peek k), h⟩
  | checkpoint => exact ⟨rfl, h.here, List.rel_append h.remembered (.cons h.here .nil)⟩
  | restore n => exact ⟨rfl, h.restored n, h.remembered⟩
  | tokenize => exact ⟨congrArg Answer.tokens h.here.ahead, StandsAt.finish all s.cursor, h.remembered⟩

theorem Tracks.replay {all : List Token} {s : Scanner} {i : Index} (h : Tracks all s i)
    (rs : List Request) :
    (replay Scanner.perform s rs).1 = (replay (Index.perform all) i rs).1 ∧
      Tracks all (StackCompiler.replay Scanner.perform s rs).2
        (StackCompiler.replay (Index.perform all) i rs).2 := by
  induction rs generalizing s i with
  | nil => exact ⟨rfl, h⟩
  | cons r rs ih =>
    obtain ⟨hanswer, hnext⟩ := h.perform r
    obtain ⟨hanswers, hend⟩ := ih hnext
    exact ⟨congrArg₂ List.cons hanswer hanswers, hend⟩

/-! Behind the last token only `restore` leads back to one. -/

def Answer.Empty : Answer → Prop
  | token found => found = none
  | tokens list => list = []
  | done => True

theorem Scanner.perform_of_exhausted {s : Scanner} (h : s.cursor.tokens = []) {r : Request}
    (hr : ∀ n, r ≠ .restore n) : (s.perform r).1.Empty ∧ (s.perform r).2.cursor.tokens = [] := by
  cases r with
  | next =>
    refine ⟨?_, ?_⟩
    · change s.cursor.next.1 = none
      rw [Cursor.next_fst, h, List.head?_nil]
    · change s.cursor.next.2.tokens = []
      rw [Cursor.tokens_next, h, List.tail_nil]
  | peek k =>
    refine ⟨?_, h⟩
    change s.cursor.peek (max k 1 - 1) = none
    rw [Cursor.peek_eq_getElem?, h, List.getElem?_nil]
  | checkpoint => exact ⟨trivial, h⟩
  | restore n => exact absurd rfl (hr n)
  | tokenize => exact ⟨h, s.cursor.tokens_finish⟩

theorem Scanner.replay_of_exhausted {s : Scanner} (h : s.cursor.tokens = []) {rs : List Request}
    (hrs : ∀ n, Request.restore n ∉ rs) : ∀ a ∈ (replay Scanner.perform s rs).1, a.Empty := by
  induction rs generalizing s with
  | nil => simp [replay]
  | cons r rs ih =>
    have hr : ∀ n, r ≠ .restore n := fun n heq => hrs n (by simp [heq])
    obtain ⟨hanswer, hnext⟩ := perform_of_exhausted h hr
    exact List.forall_mem_cons.2 ⟨hanswer, ih hnext fun n hmem => hrs n (List.mem_cons_of_mem r hmem)⟩

/-- Whatever is asked of a scanner, it answers as an index into the tokens of the source does. Looking
ahead leaves it as it is, with its line, and once it finds no token it finds none until it goes back. -/
theorem scanner_answers_as_index (source : String) (rs : List Request) :
    let s := (replay Scanner.perform (.start source) rs).2
    (replay Scanner.perform (.start source) rs).1 =
        (replay (Index.perform (tokenize source)) .start rs).1 ∧
      (∀ k, (s.perform (.peek k)).2 = s ∧
        (s.perform (.peek k)).2.cursor.lineNumber = s.cursor.lineNumber) ∧
      (s.cursor.next.1 = none → ∀ more, (∀ n, Request.restore n ∉ more) →
        ∀ a ∈ (replay Scanner.perform s more).1, a.Empty) := by
  intro s
  refine ⟨((Tracks.start source).replay rs).1, fun k => ⟨rfl, rfl⟩, ?_⟩
  intro hend more hmore
  rw [Cursor.next_fst, List.head?_eq_none_iff] at hend
  exact Scanner.replay_of_exhausted hend hmore

end StackCompiler
