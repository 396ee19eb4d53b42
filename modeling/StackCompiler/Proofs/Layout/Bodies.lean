import Mathlib.Logic.Relation
import StackCompiler.Proofs.Layout.Lowering

/-!
Declarations, statements and programs side by side. Those that resemble each other are lowered alike, whatever
their shape. The length of an array goes into one constant of the code, or two if the array is filled, and
into nothing else: the images agree in everything but these constants.
-/

set_option autoImplicit false
namespace StackCompiler

open Lowering
open Diagnostic (SameCause)

variable {p : Int32 → Int32 → Prop}

/-! Code. -/

inductive Instr.Resembles (p : Int32 → Int32 → Prop) : Instr → Instr → Prop where
  | same (instr : Instr) : Resembles p instr instr
  | push {n n' : Int32} (related : p n n') : Resembles p (.pushInt n) (.pushInt n')

abbrev Code.Resembles (p : Int32 → Int32 → Prop) : Code → Code → Prop :=
  List.Forall₂ (Instr.Resembles p)

theorem Instr.Resembles.eq {instr instr' : Instr} (h : Instr.Resembles Eq instr instr') : instr = instr' := by
  cases h with
  | same => rfl
  | push related => rw [related]

namespace Code.Resembles

theorem refl (code : Code) : Code.Resembles p code code :=
  List.forall₂_same.2 fun instr _ => .same instr

theorem eq {code code' : Code} (h : Code.Resembles Eq code code') : code = code' := by
  rw [← List.forall₂_eq_eq_eq]
  exact h.imp fun _ _ => Instr.Resembles.eq

theorem append {first first' second second' : Code} (h : Code.Resembles p first first')
    (h' : Code.Resembles p second second') : Code.Resembles p (first ++ second) (first' ++ second') :=
  List.rel_append h h'

theorem push (before after : Code) {n n' : Int32} (related : p n n') :
    Code.Resembles p (before ++ .pushInt n :: after) (before ++ .pushInt n' :: after) :=
  append (refl before) (.cons (.push related) (refl after))

theorem cons (instr : Instr) {code code' : Code} (h : Code.Resembles p code code') :
    Code.Resembles p (instr :: code) (instr :: code') :=
  List.Forall₂.cons (.same instr) h

/-- Whether a body ends with a return. -/
theorem getLast?_return {code code' : Code} (h : Code.Resembles p code code') :
    code.getLast? = some .return ↔ code'.getLast? = some .return := by
  have hreverse := List.forall₂_reverse_iff.2 h
  rw [← List.head?_reverse, ← List.head?_reverse]
  generalize code.reverse = reversed at hreverse ⊢
  generalize code'.reverse = reversed' at hreverse ⊢
  cases hreverse with
  | nil => exact Iff.rfl
  | cons last _ =>
    cases last with
    | same => exact Iff.rfl
    | push => simp

end Code.Resembles

namespace Lowering

inductive Setup.Resembles (p : Int32 → Int32 → Prop) : Setup → Setup → Prop where
  | same (setup : Setup) : Resembles p setup setup
  | array {place : Place} {element : Ty} {n n' : Int32} {fill : Option Fill} (related : p n n') :
      Resembles p (.array place element n fill) (.array place element n' fill)

theorem Setup.Resembles.labels {setup setup' : Setup} (h : setup.Resembles p setup') :
    setup.labels = setup'.labels := by
  cases h with
  | same => rfl
  | @array _ _ _ _ fill => cases fill <;> rfl

theorem Setup.Resembles.code {setup setup' : Setup} (h : setup.Resembles p setup') (label : Label) :
    Code.Resembles p (setup.code label) (setup'.code label) := by
  cases h with
  | same => exact .refl _
  | @array place element _ _ fill related =>
    have hcreate := Code.Resembles.push [] [.newArray element, .store place] related
    cases fill with
    | none => exact hcreate
    | some fill =>
      have htest := Code.Resembles.push
        [.store fill.valueTemp, .pushInt 0, .store fill.indexTemp, .jump (label + 1), .label label, .load place,
          .load fill.indexTemp, .load fill.valueTemp, .storeElem element, .load fill.indexTemp, .pushInt 1, .add,
          .store fill.indexTemp, .label (label + 1), .load fill.indexTemp] [.lt, .jumpIfTrue label] related
      exact hcreate.append ((Code.Resembles.refl fill.value).append htest)

structure Segment.Resembles (p : Int32 → Int32 → Prop) (s s' : Segment) : Prop where
  code : Code.Resembles p s.code s'.code
  nextLabel : s.nextLabel = s'.nextLabel

theorem Segment.Resembles.append {s s' : Segment} {setup setup' : Setup} (h : s.Resembles p s')
    (hsetup : setup.Resembles p setup') : (s.append setup).Resembles p (s'.append setup') := by
  unfold Segment.append
  rw [h.nextLabel, hsetup.labels]
  exact ⟨h.code.append (hsetup.code _), rfl⟩

/-! Declarations. -/

variable {table : FunctionTable} {t t' : Tree} {children children' : List Tree}

theorem expression_alike (ht : t.Corresponds p t') :
    RunsAlike ScopeChain.Alike Eq (expression table t) (expression table t') :=
  (lowersAlike_of_corresponds ht).value

theorem reserve_alike (ty : Ty) (storage : Storage) :
    RunsAlike ScopeChain.Alike Eq (reserve ty storage) (reserve ty storage) := by
  refine runsAlike_modifyGet fun c c' hc => ?_
  obtain ⟨slot, d, d', hreserve, hreserve', hchain⟩ := hc.reserve ty storage
  rw [hreserve, hreserve']
  exact ⟨rfl, hchain⟩

theorem declare_alike (name : String) (ty : Ty) (storage : Storage) (length length' : Option Nat)
    (line line' : Nat) :
    RunsAlike ScopeChain.Alike Eq (declare name ty storage length line)
      (declare name ty storage length' line') := by
  refine runsAlike_get.bind ?_
  intro c c' hc
  have hdeclared : SameOutcome SameCause (fun r r' => r.1 = r'.1 ∧ r.2.Alike r'.2)
      (c.declare name ty storage length line) (c'.declare name ty storage length' line') := by
    unfold ScopeChain.declare
    rw [hc.declares name]
    split
    next => exact .error ⟨_, rfl⟩
    next =>
      obtain ⟨slot, d, d', hreserve, hreserve', hchain⟩ := hc.reserve ty storage
      rw [hreserve, hreserve']
      exact .ok ⟨rfl, hchain.bind ..⟩
  refine (runsAlike_lift hdeclared).bind ?_
  rintro ⟨slot, d⟩ ⟨slot', d'⟩ ⟨hslot, hd⟩
  cases hslot
  refine (runsAlike_set hd).bind ?_
  intro _ _ _
  exact runsAlike_pure rfl

theorem initialValue_alike (name : String) (base : Ty) (hoisted : Bool) {init init' : Option Tree}
    (h : Option.Rel (Tree.Corresponds p) init init') :
    RunsAlike ScopeChain.Alike Eq (initialValue table name base hoisted init)
      (initialValue table name base hoisted init') := by
  cases h with
  | none => exact runsAlike_pure rfl
  | some hinit =>
    refine (expression_alike hinit).bind ?_
    rintro typed _ rfl
    refine (runsAlike_lift (expectValue_alike ..)).bind ?_
    intro _ _ _
    refine (runsAlike_lift (require_alike _ ⟨_, rfl⟩)).bind ?_
    intro _ _ _
    exact runsAlike_pure rfl

abbrev AlikeLengths (p : Int32 → Int32 → Prop) : Option Int32 → Option Int32 → Prop :=
  Option.Rel (Relation.ReflGen p)

theorem declaredLength_alike (ht : t.Corresponds p t') :
    SameOutcome SameCause (AlikeLengths p) (declaredLength t) (declaredLength t') := by
  have hfirst : List.Forall₂ Tree.SameNode t.children t'.children := by
    cases ht with
    | same h => exact h.children.imp fun _ _ hu => hu.sameNode
    | array _ names _ _ _ _ initials => exact .cons ⟨rfl, names⟩ (initials.imp fun _ _ hu => hu.sameNode)
  unfold declaredLength
  generalize t.children = below at hfirst ⊢
  generalize t'.children = below' at hfirst ⊢
  cases hfirst with
  | nil => exact .ok .none
  | cons length _ =>
    refine (arrayLength_alike length).bind ?_
    rintro n _ rfl
    exact .ok (.some .refl)

theorem declaredLength_cons {tag : Tag} {name : Option Token} {length : Tree} {beside : List Tree} {n : Int32}
    (h : arrayLength length = .ok n) : declaredLength ⟨tag, name, length :: beside⟩ = .ok (some n) := by
  change some <$> arrayLength length = _
  rw [h]
  rfl

/-- The name of a declarator and the length it gives, also where the lengths are not the same. -/
theorem identifier_alike (ht : t.Corresponds p t') :
    SameOutcome SameCause (fun id id' => id.SameNode id' ∧
      SameOutcome SameCause (AlikeLengths p) (declaredLength id) (declaredLength id')) (t.child 0) (t'.child 0) := by
  cases ht with
  | same h =>
    have hchild := h.child 0
    generalize t.child 0 = found at hchild ⊢
    generalize t'.child 0 = found' at hchild ⊢
    cases hchild with
    | ok hid => exact .ok ⟨hid.sameNode, declaredLength_alike hid⟩
    | error cause => exact .error cause
  | array _ names hlength hlength' lengths =>
    refine .ok ⟨⟨rfl, names⟩, ?_⟩
    rw [declaredLength_cons hlength, declaredLength_cons hlength']
    exact .ok (.some (.single lengths))

theorem initial_alike (ht : t.Corresponds p t') :
    Option.Rel (Tree.Corresponds p) t.children[1]? t'.children[1]? := by
  cases ht with
  | same h => exact getElem?_forall₂ h.children 1
  | array _ _ _ _ _ _ initials => exact getElem?_forall₂ (initials.imp fun _ _ => .same) 0

structure Declarator.Resembles (p : Int32 → Int32 → Prop) (d d' : Declarator) : Prop where
  name : d.name = d'.name
  length : AlikeLengths p d.length d'.length
  value : d.value = d'.value

theorem readDeclarator_alike (base : Ty) (hoisted : Bool) (ht : t.Corresponds p t') :
    RunsAlike ScopeChain.Alike (Declarator.Resembles p) (readDeclarator table base hoisted t)
      (readDeclarator table base hoisted t') := by
  refine (runsAlike_lift (identifier_alike ht)).bind ?_
  rintro id id' ⟨hid, hlength⟩
  refine (runsAlike_lift hid.lexeme).bind ?_
  rintro name _ rfl
  refine (runsAlike_lift hlength).bind ?_
  intro length length' hlengths
  refine (initialValue_alike name base hoisted (initial_alike ht)).bind ?_
  rintro value _ rfl
  exact runsAlike_pure ⟨rfl, hlengths, rfl⟩

theorem declareVariable_alike {d d' : Declarator} (hd : d.Resembles p d') (base : Ty) (storage : Storage) :
    RunsAlike ScopeChain.Alike (Setup.Resembles p) (d.declare base storage) (d'.declare base storage) := by
  obtain ⟨name, line, length, value⟩ := d
  obtain ⟨name', line', length', value'⟩ := d'
  obtain ⟨rfl, hlength, rfl⟩ := hd
  unfold Declarator.declare
  dsimp only at hlength ⊢
  cases hlength with
  | none =>
    refine (declare_alike _ _ _ _ _ _ _).bind ?_
    rintro place _ rfl
    split <;> exact runsAlike_pure (.same _)
  | @some n n' hn =>
    have hsetup : ∀ place fill, Setup.Resembles p (.array place base n fill) (.array place base n' fill) := by
      intro place fill
      cases hn with
      | refl => exact .same _
      | single related => exact .array related
    refine (declare_alike _ _ _ _ _ _ _).bind ?_
    rintro place _ rfl
    split
    next => exact runsAlike_pure (hsetup _ _)
    next =>
      refine (reserve_alike base storage).bind ?_
      rintro valueTemp _ rfl
      refine (reserve_alike .int storage).bind ?_
      rintro indexTemp _ rfl
      exact runsAlike_pure (hsetup _ _)

theorem declarator_alike (base : Ty) (storage : Storage) (hoisted : Bool) (ht : t.Corresponds p t') :
    RunsAlike ScopeChain.Alike (Setup.Resembles p) (declarator table base storage hoisted t)
      (declarator table base storage hoisted t') :=
  (readDeclarator_alike base hoisted ht).bind fun _ _ hd => declareVariable_alike hd base storage

theorem baseType_alike (ht : t.Resembles p t') : SameOutcome SameCause Eq (baseType t) (baseType t') := by
  have hspec := ht.find? .typeSpec (by decide)
  unfold baseType
  generalize t.find? .typeSpec = found at hspec ⊢
  generalize t'.find? .typeSpec = found' at hspec ⊢
  cases hspec with
  | none => exact .error ⟨_, rfl⟩
  | some spec => exact typeOf_alike spec.1.sameNode

theorem storageOf_alike (depth : Nat) (ht : t.Resembles p t') : storageOf depth t = storageOf depth t' := by
  unfold storageOf
  rw [isSome_of_rel (ht.find? .static (by decide))]

/-! The state of a body. -/

structure BodyState.Resembles (p : Int32 → Int32 → Prop) (s s' : BodyState) : Prop where
  scopes : s.scopes.Alike s'.scopes
  staticInit : s.staticInit.Resembles p s'.staticInit
  nextLabel : s.nextLabel = s'.nextLabel

abbrev BodiesAlike {α : Type} (p : Int32 → Int32 → Prop) (V : α → α → Prop) : BodyM α → BodyM α → Prop :=
  RunsAlike (BodyState.Resembles p) V

theorem liftScope_alike {α : Type} {V : α → α → Prop} {m m' : ScopeM α}
    (h : RunsAlike ScopeChain.Alike V m m') : BodiesAlike p V (liftM m) (liftM m') := by
  intro s s' hs
  have hend := h s.scopes s'.scopes hs.scopes
  rw [liftScope_apply, liftScope_apply]
  generalize m s.scopes = run at hend ⊢
  generalize m' s'.scopes = run' at hend ⊢
  cases hend with
  | ok values scopes => exact .ok values ⟨scopes, hs.staticInit, hs.nextLabel⟩
  | error cause => exact .error cause

theorem inScope_alike {α : Type} {V : α → α → Prop} (kind : ScopeKind) {m m' : BodyM α}
    (h : BodiesAlike p V m m') : BodiesAlike p V (inScope kind m) (inScope kind m') := by
  intro s s' hs
  have hend := h { s with scopes := s.scopes.enter kind } { s' with scopes := s'.scopes.enter kind }
    ⟨hs.scopes.enter kind, hs.staticInit, hs.nextLabel⟩
  unfold inScope
  rw [hs.scopes.depth]
  generalize m { s with scopes := s.scopes.enter kind } = run at hend ⊢
  generalize m' { s' with scopes := s'.scopes.enter kind } = run' at hend ⊢
  cases hend with
  | ok values states =>
    exact .ok values ⟨states.scopes.exit _, states.staticInit, states.nextLabel⟩
  | error cause => exact .error cause

theorem freshLabels_alike (n : Nat) : BodiesAlike p Eq (freshLabels n) (freshLabels n) :=
  runsAlike_modifyGet fun _ _ hs =>
    ⟨hs.nextLabel, hs.scopes, hs.staticInit, congrArg (· + n) hs.nextLabel⟩

theorem install_alike (storage : Storage) {setup setup' : Setup} (h : setup.Resembles p setup') :
    BodiesAlike p (Code.Resembles p) (install storage setup) (install storage setup') := by
  unfold install
  split
  next =>
    refine RunsAlike.bind (V := fun _ _ => True) ?_ fun _ _ _ => runsAlike_pure .nil
    intro s s' hs
    exact .ok trivial ⟨hs.scopes, hs.staticInit.append h, hs.nextLabel⟩
  next =>
    rw [h.labels]
    refine (freshLabels_alike setup'.labels).bind ?_
    rintro label _ rfl
    exact runsAlike_pure (h.code label)

theorem declarators_alike (base : Ty) (storage : Storage) (hoisted : Bool)
    (h : List.Forall₂ (Tree.Corresponds p) children children') :
    BodiesAlike p (Code.Resembles p) (declarators table base storage hoisted children)
      (declarators table base storage hoisted children') := by
  induction h with
  | nil => exact runsAlike_pure .nil
  | cons first rest ih =>
    rw [declarators, declarators]
    refine (liftScope_alike (declarator_alike base storage hoisted first)).bind ?_
    intro setup setup' hsetup
    refine (install_alike storage hsetup).bind ?_
    intro code code' hcode
    refine ih.bind ?_
    intro more more' hmore
    exact runsAlike_pure (hcode.append hmore)

theorem filter_alike (tag : Tag) (h : List.Forall₂ (Tree.Corresponds p) children children') :
    List.Forall₂ (Tree.Corresponds p) (children.filter fun c => c.tag == tag)
      (children'.filter fun c => c.tag == tag) := by
  induction h with
  | nil => exact .nil
  | cons first rest ih =>
    rw [List.filter_cons, List.filter_cons, first.sameNode.tag]
    split
    next => exact .cons first ih
    next => exact ih

theorem declaration_alike (ht : t.Resembles p t') :
    BodiesAlike p (Code.Resembles p) (declaration table t) (declaration table t') := by
  refine runsAlike_get.bind ?_
  intro s s' hs
  dsimp only
  rw [hs.scopes.depth, storageOf_alike _ ht]
  refine (runsAlike_lift (baseType_alike ht)).bind ?_
  rintro base _ rfl
  exact declarators_alike base _ _ (filter_alike .varDeclInit ht.children)

/-! Statements. -/

theorem valueOf_alike (ty : Ty) (ht : t.Corresponds p t') :
    RunsAlike ScopeChain.Alike Eq (valueOf table ty t) (valueOf table ty t') := by
  refine (expression_alike ht).bind ?_
  rintro typed _ rfl
  refine (runsAlike_lift (expectValue_alike ..)).bind ?_
  intro _ _ _
  exact runsAlike_pure rfl

theorem valueOf?_alike (ty : Ty) {found found' : Option Tree}
    (h : Option.Rel (Tree.Corresponds p) found found') :
    RunsAlike ScopeChain.Alike Eq (valueOf? table ty found) (valueOf? table ty found') := by
  cases h with
  | none => exact runsAlike_pure rfl
  | some hfound =>
    rw [valueOf?, valueOf?, map_eq_pure_bind, map_eq_pure_bind]
    refine (valueOf_alike ty hfound).bind ?_
    rintro code _ rfl
    exact runsAlike_pure rfl

theorem expressionStatement_alike (h : List.Forall₂ (Tree.Resembles p) children children') :
    RunsAlike ScopeChain.Alike Eq (expressionStatement table children)
      (expressionStatement table children') := by
  cases h with
  | nil => exact runsAlike_pure rfl
  | cons ht rest =>
    have hnode := ht.sameNode
    have below : List.Forall₂ (LowersAlike table) _ _ := ht.children.imp fun _ _ => lowersAlike_of_corresponds
    unfold expressionStatement
    dsimp only
    rw [hnode.tag]
    split
    next =>
      refine (assignment_alike false hnode below).bind ?_
      rintro typed _ rfl
      exact runsAlike_pure rfl
    next =>
      refine (step_alike false hnode below).bind ?_
      rintro typed _ rfl
      exact runsAlike_pure rfl
    next =>
      refine (expression_alike (.same ht)).bind ?_
      rintro typed _ rfl
      split <;> exact runsAlike_pure rfl

theorem returnStatement_alike (result : Ty) (h : List.Forall₂ (Tree.Resembles p) children children') :
    RunsAlike ScopeChain.Alike Eq (returnStatement table t result children)
      (returnStatement table t' result children') := by
  cases h with
  | nil =>
    refine (runsAlike_lift (require_alike _ ⟨_, rfl⟩)).bind ?_
    intro _ _ _
    exact runsAlike_pure rfl
  | cons value rest =>
    refine (expression_alike (.same value)).bind ?_
    rintro typed _ rfl
    refine (runsAlike_lift (expectValue_alike ..)).bind ?_
    intro _ _ _
    exact runsAlike_pure rfl

theorem range_alike (counter : Place) (ht : t.Resembles p t') :
    RunsAlike ScopeChain.Alike Eq (range table counter t) (range table counter t') := by
  refine (runsAlike_lift (ht.child 0)).bind ?_
  intro first first' hfirst
  refine (valueOf_alike .int hfirst).bind ?_
  rintro start _ rfl
  refine (valueOf?_alike .int (getElem?_forall₂ ht.children 1)).bind ?_
  rintro stop _ rfl
  refine (valueOf?_alike .int (getElem?_forall₂ ht.children 2)).bind ?_
  rintro step _ rfl
  refine (reserveTemp_alike .int).bind ?_
  rintro bound _ rfl
  dsimp only
  cases step with
  | none => exact runsAlike_pure rfl
  | some step =>
    refine (reserveTemp_alike .int).bind ?_
    rintro temp _ rfl
    exact runsAlike_pure rfl

theorem counterOf_alike (ht : t.SameNode t') :
    RunsAlike ScopeChain.Alike Eq (counterOf t) (counterOf t') := by
  refine (resolve_alike ht).bind ?_
  intro symbol symbol' hsymbol
  rw [Symbol.ty_of_stripped hsymbol, Symbol.place_of_stripped hsymbol]
  refine (runsAlike_lift (expectType_alike ..)).bind ?_
  intro _ _ _
  exact runsAlike_pure rfl

/-- Code of expressions, as code of a body. -/
theorem liftCode_alike {m m' : ScopeM Code} (h : RunsAlike ScopeChain.Alike Eq m m') :
    BodiesAlike p (Code.Resembles p) (liftM m) (liftM m') := by
  refine (liftScope_alike h).imp (fun _ _ hs => hs) (fun _ _ hs => hs) ?_
  rintro code _ rfl
  exact .refl code

theorem loopCode_resembles (label : Label) {body body' : Code} (advance test : Code)
    (h : Code.Resembles p body body') :
    Code.Resembles p (loopCode label body advance test) (loopCode label body' advance test) := by
  have hentry := (Code.Resembles.refl [.jump (label + 1), .label label]).append h
  exact ((hentry.append (.refl advance)).append (.refl (.label (label + 1) :: test))).append (.refl _)

/-- Two trees that are lowered alike as items of a block, in every context. -/
structure StatesAlike (p : Int32 → Int32 → Prop) (table : FunctionTable) (t t' : Tree) : Prop where
  resembles : t.Resembles p t'
  statement : ∀ ctx, BodiesAlike p (Code.Resembles p) (statement table ctx t) (statement table ctx t')

variable {ctx : Context}

theorem blockItems_alike (below : List.Forall₂ (StatesAlike p table) children children') :
    BodiesAlike p (Code.Resembles p) (blockItems table ctx children) (blockItems table ctx children') := by
  induction below with
  | nil =>
    rw [blockItems]
    exact runsAlike_pure .nil
  | cons item rest ih =>
    rw [blockItems, blockItems, item.resembles.sameNode.tag]
    split
    next =>
      refine (declaration_alike item.resembles).bind ?_
      intro code code' hcode
      refine ih.bind ?_
      intro more more' hmore
      exact runsAlike_pure (hcode.append hmore)
    next =>
      refine (item.statement ctx).bind ?_
      intro code code' hcode
      refine ih.bind ?_
      intro more more' hmore
      exact runsAlike_pure (hcode.append hmore)

theorem ifStatement_alike (ht : t.SameNode t')
    (below : List.Forall₂ (StatesAlike p table) children children') :
    BodiesAlike p (Code.Resembles p) (ifStatement table ctx t children) (ifStatement table ctx t' children') := by
  cases below with
  | nil =>
    rw [ifStatement, ifStatement]
    exact runsAlike_throw (ht.missing 0)
  | cons test rest =>
    rw [ifStatement, ifStatement]
    refine (liftScope_alike (valueOf_alike .bool (.same test.resembles))).bind ?_
    rintro condition _ rfl
    cases rest with
    | nil => exact runsAlike_throw (ht.missing 1)
    | cons yes rest =>
      cases rest with
      | nil =>
        refine (freshLabels_alike 1).bind ?_
        rintro done _ rfl
        refine (yes.statement ctx).bind ?_
        intro code code' hcode
        have htaken := (Code.Resembles.refl condition).append (hcode.cons (.jumpIfFalse done))
        exact runsAlike_pure (htaken.append (.refl _))
      | cons no rest =>
        refine (freshLabels_alike 2).bind ?_
        rintro otherwise _ rfl
        refine (yes.statement ctx).bind ?_
        intro code code' hcode
        refine (no.statement ctx).bind ?_
        intro other other' hother
        have htaken := (Code.Resembles.refl condition).append (hcode.cons (.jumpIfFalse otherwise))
        have hboth := (htaken.append (.refl [.jump (otherwise + 1), .label otherwise])).append hother
        exact runsAlike_pure (hboth.append (.refl _))

theorem whileStatement_alike (ht : t.SameNode t')
    (below : List.Forall₂ (StatesAlike p table) children children') :
    BodiesAlike p (Code.Resembles p) (whileStatement table ctx t children)
      (whileStatement table ctx t' children') := by
  cases below with
  | nil =>
    rw [whileStatement, whileStatement]
    exact runsAlike_throw (ht.missing 0)
  | cons test rest =>
    rw [whileStatement, whileStatement]
    refine (liftScope_alike (valueOf_alike .bool (.same test.resembles))).bind ?_
    rintro condition _ rfl
    cases rest with
    | nil => exact runsAlike_throw (ht.missing 1)
    | cons body rest =>
      refine (freshLabels_alike 3).bind ?_
      rintro label _ rfl
      refine (body.statement _).bind ?_
      intro code code' hcode
      exact runsAlike_pure (loopCode_resembles label [] condition hcode)

theorem forStatement_alike (ht : t.SameNode t')
    (below : List.Forall₂ (StatesAlike p table) children children') :
    BodiesAlike p (Code.Resembles p) (forStatement table ctx t children)
      (forStatement table ctx t' children') := by
  rw [forStatement.eq_def, forStatement.eq_def]
  refine (liftScope_alike (counterOf_alike ht)).bind ?_
  rintro counter _ rfl
  cases below with
  | nil => exact runsAlike_throw (ht.missing 0)
  | cons bounds rest =>
    refine (liftScope_alike (range_alike counter bounds.resembles)).bind ?_
    rintro r _ rfl
    cases rest with
    | nil => exact runsAlike_throw (ht.missing 1)
    | cons body rest =>
      refine (freshLabels_alike 3).bind ?_
      rintro label _ rfl
      refine (body.statement _).bind ?_
      intro code code' hcode
      exact runsAlike_pure ((Code.Resembles.refl r.code).append (loopCode_resembles label _ _ hcode))

theorem statesAlike (table : FunctionTable) (t : Tree) : ∀ t', t.Resembles p t' → StatesAlike p table t t' := by
  induction t using Tree.forall_of_children with
  | node tag token children each =>
    intro t' ht
    have hnode := ht.sameNode
    cases ht with
    | @node _ _ token' _ children' tokens related =>
      have below : List.Forall₂ (StatesAlike p table) children children' :=
        ((List.forall₂_and_left ..).2 ⟨each, related⟩).imp fun u u' h => h.1 u' h.2
      refine ⟨.node tokens related, fun ctx => ?_⟩
      cases tag with
      | compoundStmt => exact inScope_alike .block (blockItems_alike below)
      | expStmt => exact liftCode_alike (expressionStatement_alike related)
      | ifStmt => exact ifStatement_alike hnode below
      | whileStmt => exact whileStatement_alike hnode below
      | forStmt => exact forStatement_alike hnode below
      | returnStmt => exact liftCode_alike (returnStatement_alike ctx.result related)
      | breakStmt =>
        rw [statement, statement]
        split
        next => exact runsAlike_pure (.refl _)
        next => exact runsAlike_throw ⟨_, rfl⟩
      | _ => exact runsAlike_throw ⟨_, rfl⟩
    | declaration tokens related => exact ⟨.declaration tokens related, fun _ => runsAlike_throw ⟨_, rfl⟩⟩

/-! Parameters. -/

theorem parameterType_alike (base : Ty) (ht : t.Corresponds p t') : parameterType base t = parameterType base t' := by
  unfold parameterType
  rw [ht.find?_isSome .arrayMarker]

abbrev AlikeParameters : List (Tree × Ty) → List (Tree × Ty) → Prop :=
  List.Forall₂ fun q q' => q.1.SameNode q'.1 ∧ q.2 = q'.2

theorem parameterGroup_alike (ht : t.Resembles p t') :
    SameOutcome SameCause AlikeParameters (parameterGroup t) (parameterGroup t') := by
  refine (ht.child 0).bind ?_
  intro spec spec' hspec
  refine (typeOf_alike hspec.sameNode).bind ?_
  rintro base _ rfl
  refine .ok (List.forall₂_map_left_iff.2 (List.forall₂_map_right_iff.2 ?_))
  exact (List.forall₂_drop 1 ht.children).imp fun id id' hid => ⟨hid.sameNode, parameterType_alike base hid⟩

theorem parameterGroups_alike (h : List.Forall₂ (Tree.Resembles p) children children') :
    SameOutcome SameCause AlikeParameters (parameterGroups children) (parameterGroups children') := by
  induction h with
  | nil => exact .ok .nil
  | cons group rest ih =>
    refine (parameterGroup_alike group).bind ?_
    intro first first' hfirst
    refine ih.bind ?_
    intro more more' hmore
    exact .ok (List.rel_append hfirst hmore)

theorem parameters_alike (ht : t.Resembles p t') :
    SameOutcome SameCause AlikeParameters (parameters t) (parameters t') := by
  have hparms := ht.find? .parms (by decide)
  unfold parameters
  generalize t.find? .parms = found at hparms ⊢
  generalize t'.find? .parms = found' at hparms ⊢
  cases hparms with
  | none => exact .error ⟨_, rfl⟩
  | some hboth =>
    obtain ⟨hgroups, htag⟩ := hboth
    exact parameterGroups_alike (hgroups.children_of_ne (by rw [htag]; decide))

end Lowering

/-! Functions and programs. -/

structure Routine.Resembles (p : Int32 → Int32 → Prop) (g g' : Routine) : Prop where
  signature : g.signature = g'.signature
  locals : g.locals = g'.locals
  code : Code.Resembles p g.code g'.code

/-- Images that differ only in numbers that are pushed. -/
structure Image.Resembles (p : Int32 → Int32 → Prop) (image image' : Image) : Prop where
  functions : List.Forall₂ (Routine.Resembles p) image.functions image'.functions
  statics : image.statics = image'.statics
  staticInit : Code.Resembles p image.staticInit image'.staticInit

theorem Routine.Resembles.eq {g g' : Routine} (h : g.Resembles Eq g') : g = g' := by
  obtain ⟨signature, locals, code⟩ := g
  obtain ⟨rfl, rfl, hcode⟩ := h
  cases hcode.eq
  rfl

theorem Image.Resembles.eq {image image' : Image} (h : image.Resembles Eq image') : image = image' := by
  obtain ⟨functions, statics, staticInit⟩ := image
  obtain ⟨hfunctions, rfl, hinit⟩ := h
  cases hinit.eq
  have heq : functions = image'.functions := by
    rw [← List.forall₂_eq_eq_eq]
    exact hfunctions.imp fun _ _ => Routine.Resembles.eq
  rw [heq]

namespace Session

variable {table : FunctionTable} {t t' : Tree} {children children' : List Tree}

structure Resembles (p : Int32 → Int32 → Prop) (s s' : Session) : Prop where
  scopes : s.scopes.Alike s'.scopes
  functions : s.functions = s'.functions
  staticInit : s.staticInit.Resembles p s'.staticInit

abbrev SessionsAlike {α : Type} (p : Int32 → Int32 → Prop) (V : α → α → Prop) :
    SessionM α → SessionM α → Prop :=
  RunsAlike (Session.Resembles p) V

theorem inBody_alike {α : Type} {V : α → α → Prop} {m m' : BodyM α} (h : BodiesAlike p V m m') :
    SessionsAlike p V (inBody m) (inBody m') := by
  intro s s' hs
  have hend := h ⟨s.scopes, s.staticInit, 0⟩ ⟨s'.scopes, s'.staticInit, 0⟩ ⟨hs.scopes, hs.staticInit, rfl⟩
  unfold inBody
  generalize m ⟨s.scopes, s.staticInit, 0⟩ = run at hend ⊢
  generalize m' ⟨s'.scopes, s'.staticInit, 0⟩ = run' at hend ⊢
  cases hend with
  | ok values states => exact .ok values ⟨states.scopes, hs.functions, states.staticInit⟩
  | error cause => exact .error cause

theorem resultType_alike (ht : t.Resembles p t') :
    SameOutcome SameCause Eq (resultType t) (resultType t') := by
  have hspec := ht.find? .typeSpec (by decide)
  unfold resultType
  generalize t.find? .typeSpec = found at hspec ⊢
  generalize t'.find? .typeSpec = found' at hspec ⊢
  cases hspec with
  | none => exact .ok rfl
  | some spec => exact typeOf_alike spec.1.sameNode

theorem declareFunction_alike (functions : FunctionTable) (name : String) (result : Ty)
    (parameters : List Ty) (line line' : Nat) :
    SameOutcome SameCause Eq (functions.declare name result parameters line)
      (functions.declare name result parameters line') := by
  unfold FunctionTable.declare
  split
  next => exact .error ⟨_, rfl⟩
  next => exact .ok rfl

theorem register_alike (ht : t.Resembles p t') :
    SessionsAlike p (fun _ _ => True) (register t) (register t') := by
  refine (runsAlike_lift (resultType_alike ht)).bind ?_
  rintro result _ rfl
  refine (runsAlike_lift (parameters_alike ht)).bind ?_
  intro parms parms' hparms
  have htypes : parms.map Prod.snd = parms'.map Prod.snd := by
    rw [← List.forall₂_eq_eq_eq, List.forall₂_map_left_iff, List.forall₂_map_right_iff]
    exact hparms.imp fun _ _ h => h.2
  refine (runsAlike_lift ht.sameNode.lexeme).bind ?_
  rintro name _ rfl
  refine runsAlike_get.bind ?_
  intro s s' hs
  rw [htypes, hs.functions]
  refine (runsAlike_lift (declareFunction_alike ..)).bind ?_
  rintro ⟨handle, functions⟩ _ rfl
  exact runsAlike_modifyGet fun s s' hs => ⟨trivial, hs.scopes, rfl, hs.staticInit⟩

theorem registerAll_alike (h : List.Forall₂ (Tree.Corresponds p) children children') :
    SessionsAlike p (fun _ _ => True) (registerAll children) (registerAll children') := by
  induction h with
  | nil => exact runsAlike_pure trivial
  | @cons decl decl' _ _ first rest ih =>
    rw [registerAll, registerAll, ← first.sameNode.tag]
    split
    next htag =>
      have hdecl := first.resembles (by rw [htag]; decide)
      exact (register_alike hdecl).bind fun _ _ _ => ih
    next => exact ih

theorem declareParameters_alike {parms parms' : List (Tree × Ty)} (h : AlikeParameters parms parms') :
    RunsAlike ScopeChain.Alike (fun _ _ => True) (declareParameters parms) (declareParameters parms') := by
  induction h with
  | nil => exact runsAlike_pure trivial
  | @cons q q' _ _ first rest ih =>
    obtain ⟨id, ty⟩ := q
    obtain ⟨id', ty'⟩ := q'
    obtain ⟨hid, rfl⟩ := first
    refine (runsAlike_lift hid.lexeme).bind ?_
    rintro name _ rfl
    refine (declare_alike _ _ _ _ _ _ _).bind ?_
    intro _ _ _
    exact ih

theorem closeBody_resembles (result : Ty) {code code' : Code} (h : Code.Resembles p code code') :
    Code.Resembles p (closeBody result code) (closeBody result code') := by
  have hreturn := h.getLast?_return
  unfold closeBody
  by_cases hclosed : code.getLast? = some .return
  · rw [if_pos hclosed, if_pos (hreturn.1 hclosed)]
    exact h
  · rw [if_neg hclosed, if_neg fun hclosed' => hclosed (hreturn.2 hclosed')]
    exact (h.append (.refl _)).append (.refl _)

theorem functionBody_alike (table : FunctionTable) (result : Ty) (ht : t.Resembles p t') :
    BodiesAlike p (Code.Resembles p) (functionBody table result t) (functionBody table result t') := by
  refine (runsAlike_lift (parameters_alike ht)).bind ?_
  intro parms parms' hparms
  refine (liftScope_alike (declareParameters_alike hparms)).bind ?_
  intro _ _ _
  have hbody := ht.find? .compoundStmt (by decide)
  generalize t.find? .compoundStmt = found at hbody ⊢
  generalize t'.find? .compoundStmt = found' at hbody ⊢
  cases hbody with
  | none => exact runsAlike_throw ⟨_, rfl⟩
  | some hboth =>
    obtain ⟨hblock, htag⟩ := hboth
    have hitems := hblock.children_of_ne (by rw [htag]; decide)
    refine (blockItems_alike (hitems.imp fun u u' hu => statesAlike table u u' hu)).bind ?_
    intro code code' hcode
    exact runsAlike_pure (closeBody_resembles result hcode)

theorem functionFrame_alike (table : FunctionTable) (result : Ty) (ht : t.Resembles p t') :
    BodiesAlike p (fun r r' => Code.Resembles p r.1 r'.1 ∧ r.2 = r'.2) (functionFrame table result t)
      (functionFrame table result t') := by
  refine inScope_alike .function ((functionBody_alike table result ht).bind ?_)
  intro code code' hcode
  refine runsAlike_get.bind ?_
  intro s s' hs
  exact runsAlike_pure ⟨hcode, hs.scopes.locals⟩

theorem routine_alike (ht : t.Resembles p t') :
    SessionsAlike p (Routine.Resembles p) (routine t) (routine t') := by
  refine (runsAlike_lift ht.sameNode.lexeme).bind ?_
  rintro name _ rfl
  refine runsAlike_get.bind ?_
  intro s s' hs
  dsimp only
  rw [hs.functions]
  split
  next => exact runsAlike_throw ⟨_, rfl⟩
  next signature _ =>
    refine (inBody_alike (functionFrame_alike s'.functions signature.result ht)).bind ?_
    rintro ⟨code, locals⟩ ⟨code', locals'⟩ ⟨hcode, hlocals⟩
    exact runsAlike_pure ⟨rfl, hlocals, hcode⟩

theorem routines_alike (h : List.Forall₂ (Tree.Corresponds p) children children') :
    SessionsAlike p (List.Forall₂ (Routine.Resembles p)) (routines children) (routines children') := by
  induction h with
  | nil => exact runsAlike_pure .nil
  | cons first rest ih =>
    have hnode := first.sameNode
    unfold routines
    rw [← hnode.tag]
    split
    next htag =>
      have hdecl := first.resembles (by rw [htag]; decide)
      refine runsAlike_get.bind ?_
      intro s s' hs
      rw [hs.functions]
      exact (inBody_alike (declaration_alike hdecl)).bind fun _ _ _ => ih
    next htag =>
      have hdecl := first.resembles (by rw [htag]; decide)
      refine (routine_alike hdecl).bind ?_
      intro g g' hg
      refine ih.bind ?_
      intro more more' hmore
      exact runsAlike_pure (.cons hg hmore)
    next => exact runsAlike_throw ⟨_, rfl⟩

theorem compileProgram_resembles (ht : t.Resembles p t') :
    SessionsAlike p (Image.Resembles p) (compileProgram t) (compileProgram t') := by
  unfold compileProgram
  rw [ht.sameNode.tag]
  refine (runsAlike_lift (require_alike _ ⟨_, rfl⟩)).bind ?_
  intro _ _ _
  refine (registerAll_alike ht.children).bind ?_
  intro _ _ _
  refine (routines_alike ht.children).bind ?_
  intro functions functions' hfunctions
  refine runsAlike_get.bind ?_
  intro s s' hs
  refine (runsAlike_set ⟨hs.scopes, hs.functions, ⟨.nil, rfl⟩⟩).bind ?_
  intro _ _ _
  exact runsAlike_pure ⟨hfunctions, hs.scopes.statics, hs.staticInit.code⟩

end Session

end StackCompiler
