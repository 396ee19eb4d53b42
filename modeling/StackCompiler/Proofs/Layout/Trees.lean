import Mathlib.Data.List.Forall2
import StackCompiler.Lowering.Declaration
import StackCompiler.Proofs.Grammar.Spelling
import StackCompiler.Proofs.Layout.Expressions

/-!
Trees that say the same. Two trees have the same words on whatever lines, and only where an array is
declared may they give different lengths. Which lengths may stand for each other is a parameter `p`: with
equality the trees agree up to lines.
-/

set_option autoImplicit false
namespace StackCompiler

open Lowering (arrayLength)

/-! Lists. -/

theorem getElem?_forall₂ {α : Type} {R : α → α → Prop} {l l' : List α} (h : List.Forall₂ R l l') (i : Nat) :
    Option.Rel R l[i]? l'[i]? := by
  induction h generalizing i with
  | nil => exact .none
  | cons first _ ih =>
    cases i with
    | zero => exact .some first
    | succ i => exact ih i

theorem find?_forall₂ {α : Type} {R : α → α → Prop} {p : α → Bool} (hp : ∀ a b, R a b → p a = p b)
    {l l' : List α} (h : List.Forall₂ R l l') :
    Option.Rel (fun a b => R a b ∧ p a = true) (l.find? p) (l'.find? p) := by
  induction h with
  | nil => exact .none
  | @cons a b _ _ first _ ih =>
    rw [List.find?_cons, List.find?_cons, ← hp a b first]
    split
    next htest => exact .some ⟨first, htest⟩
    next => exact ih

theorem isSome_of_rel {α β : Type} {R : α → β → Prop} {a : Option α} {b : Option β} (h : Option.Rel R a b) :
    a.isSome = b.isSome := by
  cases h <;> rfl

namespace Tree

structure SameNode (t t' : Tree) : Prop where
  tag : t.tag = t'.tag
  word : t.token.map Token.word = t'.token.map Token.word

/-- Trees related by `R`, or two declarations of an array whose lengths `p` relates. -/
inductive Declares (p : Int32 → Int32 → Prop) (R : Tree → Tree → Prop) : Tree → Tree → Prop where
  | same {t t' : Tree} (h : R t t') : Declares p R t t'
  | array {tag : Tag} {token token' name name' : Option Token} {length length' : Tree} {n n' : Int32}
      {beside beside' inits inits' : List Tree} (tokens : token.map Token.word = token'.map Token.word)
      (names : name.map Token.word = name'.map Token.word) (hlength : arrayLength length = .ok n)
      (hlength' : arrayLength length' = .ok n') (lengths : p n n')
      (besides : List.Forall₂ R beside beside') (initials : List.Forall₂ R inits inits') :
      Declares p R ⟨.varDeclInit, token, ⟨tag, name, length :: beside⟩ :: inits⟩
        ⟨.varDeclInit, token', ⟨tag, name', length' :: beside'⟩ :: inits'⟩

/-- The same tree, up to lines and to the lengths of the arrays that its declarations declare. -/
inductive Resembles (p : Int32 → Int32 → Prop) : Tree → Tree → Prop where
  | node {tag : Tag} {token token' : Option Token} {children children' : List Tree}
      (tokens : token.map Token.word = token'.map Token.word)
      (below : List.Forall₂ (Resembles p) children children') :
      Resembles p ⟨tag, token, children⟩ ⟨tag, token', children'⟩
  | declaration {token token' : Option Token} {children children' : List Tree}
      (tokens : token.map Token.word = token'.map Token.word)
      (below : List.Forall₂ (Declares p (Resembles p)) children children') :
      Resembles p ⟨.varDecl, token, children⟩ ⟨.varDecl, token', children'⟩

abbrev Corresponds (p : Int32 → Int32 → Prop) : Tree → Tree → Prop :=
  Declares p (Resembles p)

variable {p : Int32 → Int32 → Prop} {t t' : Tree}

theorem Resembles.sameNode (h : t.Resembles p t') : t.SameNode t' := by
  cases h with
  | node tokens => exact ⟨rfl, tokens⟩
  | declaration tokens => exact ⟨rfl, tokens⟩

theorem Resembles.children (h : t.Resembles p t') : List.Forall₂ (Corresponds p) t.children t'.children := by
  cases h with
  | node _ below => exact below.imp fun _ _ => .same
  | declaration _ below => exact below

/-- Lengths differ below a declaration only. -/
theorem Resembles.children_of_ne (h : t.Resembles p t') (htag : t.tag ≠ .varDecl) :
    List.Forall₂ (Resembles p) t.children t'.children := by
  cases h with
  | node _ below => exact below
  | declaration => exact absurd rfl htag

theorem Corresponds.sameNode (h : t.Corresponds p t') : t.SameNode t' := by
  cases h with
  | same h => exact h.sameNode
  | array tokens => exact ⟨rfl, tokens⟩

theorem Corresponds.resembles (h : t.Corresponds p t') (htag : t.tag ≠ .varDeclInit) : t.Resembles p t' := by
  cases h with
  | same h => exact h
  | array => exact absurd rfl htag

/-- A node of any kind other than a declarator is found in both trees or in none. -/
theorem Resembles.find? (h : t.Resembles p t') (tag : Tag) (htag : tag ≠ .varDeclInit) :
    Option.Rel (fun u u' => u.Resembles p u' ∧ u.tag = tag) (t.find? tag) (t'.find? tag) := by
  have hfound := find?_forall₂ (p := fun c => c.tag == tag) (fun u u' hu => by rw [hu.sameNode.tag]) h.children
  unfold Tree.find?
  generalize t.children.find? (fun c => c.tag == tag) = found at hfound ⊢
  generalize t'.children.find? (fun c => c.tag == tag) = found' at hfound ⊢
  cases hfound with
  | none => exact .none
  | some hboth =>
    obtain ⟨hu, hmatch⟩ := hboth
    have htags := eq_of_beq hmatch
    exact .some ⟨hu.resembles (by rw [htags]; exact htag), htags⟩

theorem Corresponds.find?_isSome (h : t.Corresponds p t') (tag : Tag) :
    (t.find? tag).isSome = (t'.find? tag).isSome := by
  have htags : List.Forall₂ (fun u u' : Tree => u.tag = u'.tag) t.children t'.children := by
    cases h with
    | same h => exact h.children.imp fun _ _ hu => hu.sameNode.tag
    | array _ _ _ _ _ _ initials => exact .cons rfl (initials.imp fun _ _ hu => hu.sameNode.tag)
  exact isSome_of_rel (find?_forall₂ (p := fun c => c.tag == tag) (fun u u' hu => by rw [hu]) htags)

end Tree

end StackCompiler
