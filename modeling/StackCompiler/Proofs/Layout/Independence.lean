import StackCompiler.Proofs.Layout.Bodies
import StackCompiler.Proofs.Layout.Programs

/-!
Layout does not matter beyond the words of a source. Programs that agree up to lines are lowered alike, so
that two sources with the same words are compiled to the same image or rejected for the same cause.
-/

set_option autoImplicit false
namespace StackCompiler

open Lowering
open Diagnostic (SameCause)

variable {L : Nat → Nat → Prop} {t t' : Tree}

theorem Token.Alike.word {token token' : Token} (h : token.Alike L token') : token.word = token'.word := by
  unfold Token.word
  rw [h.kind, h.lexeme]

/-- Trees that agree up to lines resemble each other, with the same lengths. -/
theorem Tree.Alike.resembles {p : Int32 → Int32 → Prop} (t : Tree) : ∀ t', t.Alike L t' → t.Resembles p t' := by
  induction t using Tree.forall_of_children with
  | node tag token children each =>
    intro t' ht
    cases ht with
    | node tokens alike =>
      refine .node ?_ (((List.forall₂_and_left ..).2 ⟨each, alike⟩).imp fun u u' h => h.1 u' h.2)
      cases tokens with
      | none => rfl
      | some token => exact congrArg some token.word

namespace Session

structure Alike (s s' : Session) : Prop where
  scopes : s.scopes.Alike s'.scopes
  functions : s.functions = s'.functions
  staticInit : s.staticInit = s'.staticInit

theorem alike_iff_resembles (s s' : Session) : s.Alike s' ↔ s.Resembles Eq s' := by
  constructor
  · intro h
    refine ⟨h.scopes, h.functions, ?_⟩
    rw [h.staticInit]
    exact ⟨.refl _, rfl⟩
  · intro h
    refine ⟨h.scopes, h.functions, ?_⟩
    have hcode := h.staticInit.code.eq
    have hnext := h.staticInit.nextLabel
    generalize s.staticInit = setup at hcode hnext ⊢
    generalize s'.staticInit = setup' at hcode hnext ⊢
    cases setup
    cases setup'
    cases hcode
    cases hnext
    rfl

theorem compileProgram_alike (ht : t.Alike L t') :
    RunsAlike Session.Alike Eq (compileProgram t) (compileProgram t') :=
  (compileProgram_resembles (Tree.Alike.resembles t t' ht)).imp (fun s s' => (alike_iff_resembles s s').1)
    (fun s s' => (alike_iff_resembles s s').2) fun _ _ => Image.Resembles.eq

end Session

/-! Sources. -/

theorem diagnostic_alike {u u' : Grammar.Unexpected} (h : u.Alike L u') (line line' : Nat) :
    SameCause (u.diagnostic line) (u'.diagnostic line') := by
  obtain ⟨expected, found⟩ := u
  obtain ⟨expected', found'⟩ := u'
  obtain ⟨hexpected, hfound⟩ := h
  cases hexpected
  cases hfound with
  | none => exact ⟨line', rfl⟩
  | @some t t' htoken =>
    unfold Grammar.Unexpected.diagnostic
    dsimp only
    rw [htoken.lexeme]
    exact ⟨t'.line, rfl⟩

theorem parse_alike {source other : String} (h : AlikeTokens L (tokenize source) (tokenize other)) :
    SameOutcome SameCause (Tree.Alike L) (parse source) (parse other) := by
  have hprogram := @Grammar.program_alike L true _ _ h
  unfold parse parseWith
  generalize Grammar.program true (tokenize source) = outcome at hprogram ⊢
  generalize Grammar.program true (tokenize other) = outcome' at hprogram ⊢
  cases hprogram with
  | ok trees => exact .ok trees
  | error failures => exact .error (diagnostic_alike failures ..)

theorem alikeTokens_of_words {ts ts' : List Token} (h : ts.map Token.word = ts'.map Token.word) :
    AlikeTokens (fun _ _ => True) ts ts' := by
  rw [← List.forall₂_eq_eq_eq, List.forall₂_map_left_iff, List.forall₂_map_right_iff] at h
  exact h.imp fun t t' hword => ⟨congrArg Word.kind hword, congrArg Word.lexeme hword, trivial⟩

/-- Sources with the same words, on whatever lines, are read alike and compiled alike: to trees that
differ in lines only and to one image, or to failures that differ in their lines only. -/
theorem compile_of_same_words {source other : String}
    (h : (tokenize source).map Token.word = (tokenize other).map Token.word) :
    SameOutcome SameCause (Tree.Alike fun _ _ => True) (parse source) (parse other) ∧
      SameOutcome SameCause Eq (compile source) (compile other) := by
  have hparse := parse_alike (alikeTokens_of_words h)
  refine ⟨hparse, hparse.bind ?_⟩
  intro program program' hprogram
  have hend := Session.compileProgram_alike hprogram Session.empty Session.empty ⟨rfl, rfl, rfl⟩
  generalize Session.compileProgram program Session.empty = run at hend ⊢
  generalize Session.compileProgram program' Session.empty = run' at hend ⊢
  cases hend with
  | ok images _ => exact .ok images
  | error cause => exact .error cause

/-- A name without declaration, on the second line and on the first. -/
theorem compile_of_same_words_undeclared :
    SameOutcome SameCause (Tree.Alike fun _ _ => True) (parse "int x : // start\n  y;") (parse "int x:y;") ∧
      SameOutcome SameCause Eq (compile "int x : // start\n  y;") (compile "int x:y;") :=
  compile_of_same_words (by decide +kernel)

end StackCompiler
