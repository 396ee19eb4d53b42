import StackCompiler.Proofs.Grammar.ProgramSoundness
import StackCompiler.Proofs.Typing.Literals

/-!
What the rules take for granted about a tree: its tokens come from the scanner, and its declarations have
the shapes that the grammar gives them. Every tree of a source is of this kind, with all its parts.
-/

set_option autoImplicit false
namespace StackCompiler

open Lowering Typing
open Grammar (Level Phrase Derives)

def Typing.IsVariable (t : Tree) : Prop :=
  ∃ name length init, t = declaratorNode name length init ∧
    (∀ n ∈ length, n.kind = .number ∧ n.Scanned) ∧ ∀ e ∈ init, IsExpression e

inductive Tree.FromSource : Tree → Prop where
  | node {t : Tree} (scanned : ∀ token ∈ t.token, token.Scanned)
      (declarator : t.tag = .varDeclInit → IsVariable t)
      (parameters : t.tag = .parms → ∀ group ∈ t.children, ∀ u ∈ group.children, u.token.isSome)
      (function : t.tag = .funDecl → t.token.isSome) (children : ∀ u ∈ t.children, FromSource u) :
      FromSource t

@[simp] theorem Lowering.token_marked (tag : Tag) (token : Token) (children : List Tree) :
    (Tree.marked tag token children).token = some token := rfl

namespace Tree.FromSource

variable {t : Tree}

theorem scanned (h : t.FromSource) {token : Token} (htoken : t.token = some token) : token.Scanned := by
  cases h with
  | node scanned => exact scanned token htoken

theorem declarator (h : t.FromSource) (htag : t.tag = .varDeclInit) : IsVariable t := by
  cases h with
  | node _ declarator => exact declarator htag

theorem parameters (h : t.FromSource) (htag : t.tag = .parms) :
    ∀ group ∈ t.children, ∀ u ∈ group.children, u.token.isSome := by
  cases h with
  | node _ _ parameters => exact parameters htag

theorem function (h : t.FromSource) (htag : t.tag = .funDecl) : t.token.isSome := by
  cases h with
  | node _ _ _ function => exact function htag

theorem child (h : t.FromSource) {u : Tree} (hu : u ∈ t.children) : u.FromSource := by
  cases h with
  | node _ _ _ _ children => exact children u hu

theorem of_marked {tag : Tag} {token : Token} {children : List Tree}
    (htag : tag ≠ .varDeclInit ∧ tag ≠ .parms) (htoken : token.Scanned)
    (below : ∀ u ∈ children, u.FromSource) : (Tree.marked tag token children).FromSource := by
  refine .node ?_ (fun h => absurd h htag.1) (fun h => absurd h htag.2) (fun _ => rfl) below
  intro found hfound
  cases hfound
  exact htoken

theorem of_inner {tag : Tag} {children : List Tree}
    (htag : tag ≠ .varDeclInit ∧ tag ≠ .parms ∧ tag ≠ .funDecl)
    (below : ∀ u ∈ children, u.FromSource) : (Tree.inner tag children).FromSource :=
  .node (by simp [Tree.inner]) (fun h => absurd h htag.1) (fun h => absurd h htag.2.1)
    (fun h => absurd h htag.2.2) below

end Tree.FromSource

namespace Typing

def SourcedAs : Phrase → List Tree → Prop
  | .parameter, trees | .parameterList, trees => ∀ t ∈ trees, t.FromSource ∧ t.token.isSome
  | .parameterGroup, trees | .parameterGroups, trees =>
    ∀ t ∈ trees, t.FromSource ∧ ∀ u ∈ t.children, u.token.isSome
  | .declaredName, trees => ∀ t ∈ trees, t.FromSource ∧ ∃ name length,
    t = .marked .varDeclId name (Option.map (fun n => Tree.marked .constant n []) length).toList ∧
      ∀ n ∈ length, n.kind = .number ∧ n.Scanned
  | _, trees => ∀ t ∈ trees, t.FromSource

theorem SourcedAs.operand {level : Level} {t : Tree} (h : SourcedAs level.operandPhrase [t]) :
    t.FromSource := by
  cases level <;> exact h t (by simp)

theorem fromSource_declarator {name : Token} {length : Option Token} {init : Option Tree}
    (hid : (Tree.marked .varDeclId name (length.map fun n => Tree.marked .constant n []).toList).FromSource)
    (hlength : ∀ n ∈ length, n.kind = .number ∧ n.Scanned) (hinit : ∀ e ∈ init, IsExpression e)
    (below : ∀ e ∈ init, e.FromSource) : (declaratorNode name length init).FromSource := by
  refine .node (by simp [declaratorNode, Tree.inner]) (fun _ => ⟨name, length, init, rfl, hlength, hinit⟩)
    ?_ ?_ ?_
  · intro h
    cases h
  · intro h
    cases h
  · intro u hu
    rcases List.mem_cons.1 hu with rfl | hu
    · exact hid
    · exact below u (Option.mem_toList.1 hu)

theorem fromSource_parms {groups : List Tree}
    (h : ∀ t ∈ groups, t.FromSource ∧ ∀ u ∈ t.children, u.token.isSome) :
    (Tree.inner .parms groups).FromSource := by
  refine .node (by simp [Tree.inner]) ?_ (fun _ group hgroup => (h group hgroup).2) ?_
    fun group hgroup => (h group hgroup).1
  · intro htag
    cases htag
  · intro htag
    cases htag

theorem sourcedAs {p : Phrase} {ts : List Token} {trees : List Tree} (h : Derives p ts trees)
    (hts : ∀ t ∈ ts, t.Scanned) : SourcedAs p trees := by
  induction h with
  | single _ operand => simpa [SourcedAs] using (operand hts).operand
  | @several level _ _ _ _ _ _ operand rest =>
    rw [List.forall_mem_append] at hts
    refine List.forall_mem_singleton.2 (.of_inner (by cases level <;> simp [Level.tag]) ?_)
    exact List.forall_mem_cons.2 ⟨(operand hts.1).operand, rest hts.2⟩
  | lastLink _ _ operand =>
    rw [List.forall_mem_cons] at hts
    exact List.forall_mem_cons.2 ⟨.of_marked (by simp) hts.1 (by simp),
      List.forall_mem_singleton.2 (operand hts.2).operand⟩
  | link _ _ _ operand rest =>
    rw [List.cons_append, List.forall_mem_cons, List.forall_mem_append] at hts
    exact List.forall_mem_cons.2 ⟨.of_marked (by simp) hts.1 (by simp),
      List.forall_mem_cons.2 ⟨(operand hts.2.1).operand, rest hts.2.2⟩⟩
  | @scalarName name _ =>
    have hid : (Tree.marked .varDeclId name []).FromSource := .of_marked (by simp) (by simpa using hts) (by simp)
    exact List.forall_mem_singleton.2 ⟨hid, name, none, rfl, by simp⟩
  | @arrayName name _ length _ _ _ isLength _ =>
    have hlength : (Tree.marked .constant length []).FromSource :=
      .of_marked (by simp) (hts length (by simp)) (by simp)
    have hid : (Tree.marked .varDeclId name [.marked .constant length []]).FromSource :=
      .of_marked (by simp) (hts name (by simp)) (by simpa using hlength)
    refine List.forall_mem_singleton.2 ⟨hid, name, some length, rfl, ?_⟩
    simpa using ⟨isLength, hts length (by simp)⟩
  | uninitialized _ name =>
    obtain ⟨hid, found, length, rfl, hlength⟩ := List.forall_mem_singleton.1 (name hts)
    exact List.forall_mem_singleton.2
      (@fromSource_declarator found length none hid hlength (by simp) (by simp))
  | initialized _ _ init name value =>
    rw [List.forall_mem_append, List.forall_mem_cons] at hts
    obtain ⟨hid, found, length, rfl, hlength⟩ := List.forall_mem_singleton.1 (name hts.1)
    have hvalue := List.forall_mem_singleton.1 (value hts.2.2)
    exact List.forall_mem_singleton.2 (@fromSource_declarator found length (some _) hid hlength
      (by simpa using IsExpression.of_chain init) (by simpa using hvalue))
  | @parameterGroup type _ ids _ _ list =>
    rw [List.forall_mem_cons] at hts
    have htype : (Tree.marked .typeSpec type []).FromSource := .of_marked (by simp) hts.1 (by simp)
    refine List.forall_mem_singleton.2 ⟨.of_inner (by simp) ?_, ?_⟩
    · exact List.forall_mem_cons.2 ⟨htype, fun u hu => (list hts.2 u hu).1⟩
    · exact List.forall_mem_cons.2 ⟨rfl, fun u hu => (list hts.2 u hu).2⟩
  | group _ _ _ first rest =>
    rw [List.forall_mem_append, List.forall_mem_cons] at hts
    exact List.forall_mem_cons.2 ⟨first hts.1 _ (List.mem_singleton_self _), rest hts.2.2⟩
  | noParameters => exact List.forall_mem_singleton.2 (fromSource_parms (by simp))
  | parameters _ list => exact List.forall_mem_singleton.2 (fromSource_parms (list hts))
  | _ => simp_all [SourcedAs, Tree.FromSource.of_marked, Tree.FromSource.of_inner, or_imp, forall_and]

theorem fromSource_of_parse {source : String} {program : Tree} (h : parse source = .ok program) :
    program.FromSource :=
  sourcedAs (Grammar.derives_of_parse h) (fun _ => scanned_of_mem_tokenize) program (by simp)

end Typing

end StackCompiler
