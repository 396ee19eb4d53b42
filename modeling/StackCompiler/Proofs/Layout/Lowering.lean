import StackCompiler.Proofs.Layout.Trees
import StackCompiler.Proofs.Lowering.StraightCode

/-!
Two lowerings side by side. Expressions that resemble each other are lowered alike, whatever their shape: to
the same code, or to failures of one cause. Lines enter the diagnostics, lines and lengths enter the symbols
of the open scopes, and nothing reads them from there.
-/

set_option autoImplicit false
namespace StackCompiler

namespace Diagnostic

def withLine (line : Nat) : Diagnostic → Diagnostic
  | unexpected expected found _ => unexpected expected found line
  | undeclaredName name _ => undeclaredName name line
  | duplicateDeclaration name _ => duplicateDeclaration name line
  | duplicateFunction name _ => duplicateFunction name line
  | typeMismatch expected found _ => typeMismatch expected found line
  | arityMismatch name expected found _ => arityMismatch name expected found line
  | unknownFunction name _ => unknownFunction name line
  | invalidTarget _ => invalidTarget line
  | breakOutsideLoop _ => breakOutsideLoop line
  | invalidConstant lexeme _ => invalidConstant lexeme line
  | invalidPrintArguments _ => invalidPrintArguments line
  | frameReadInStatic name _ => frameReadInStatic name line
  | malformedTree problem _ => malformedTree problem line
  | inputOutput problem => inputOutput problem

/-- One cause with all its particulars, perhaps on different lines. -/
def SameCause (e e' : Diagnostic) : Prop :=
  ∃ line, e' = e.withLine line

end Diagnostic

open Diagnostic (SameCause)

/-! Open scopes up to the lines and the lengths of their symbols. -/

def Symbol.stripped (symbol : Symbol) : Symbol :=
  { symbol with length := none, line := 0 }

theorem Symbol.ty_of_stripped {symbol symbol' : Symbol} (h : symbol.stripped = symbol'.stripped) :
    symbol.ty = symbol'.ty :=
  (Symbol.mk.inj h).2.1

theorem Symbol.place_of_stripped {symbol symbol' : Symbol}
    (h : symbol.stripped = symbol'.stripped) : symbol.place = symbol'.place :=
  (Symbol.mk.inj h).2.2.1

def Scope.stripped (s : Scope) : Scope :=
  { s with symbols := s.symbols.map Symbol.stripped }

namespace ScopeChain

def stripped (c : ScopeChain) : ScopeChain :=
  { c with innermost := c.innermost.stripped, enclosing := c.enclosing.map Scope.stripped }

/-- The same scopes with the same slots, where only the lines and lengths of symbols may differ. -/
def Alike (c c' : ScopeChain) : Prop :=
  c.stripped = c'.stripped

theorem lookup?_stripped (s : Scope) (name : String) :
    s.stripped.lookup? name = (s.lookup? name).map Symbol.stripped := by
  unfold Scope.lookup? Scope.stripped
  rw [List.find?_map]
  rfl

theorem resolve?_stripped (c : ScopeChain) (name : String) :
    c.stripped.resolve? name = (c.resolve? name).map Symbol.stripped := by
  change ((c.innermost :: c.enclosing).map Scope.stripped).findSome? _ = _
  rw [List.findSome?_map, resolve?, List.map_findSome?]
  congr 1
  funext scope
  exact lookup?_stripped scope name

theorem depth_stripped (c : ScopeChain) : c.stripped.depth = c.depth := by
  simp [depth, stripped]

theorem enter_stripped (c : ScopeChain) (kind : ScopeKind) :
    c.stripped.enter kind = (c.enter kind).stripped := by
  cases kind <;> rfl

theorem resume_stripped (outer inner : Scope) :
    outer.stripped.resume inner.stripped = (outer.resume inner).stripped := by
  unfold Scope.resume
  change (if inner.kind = .block ∧ outer.nextLocal < inner.nextLocal then _ else _) = _
  split <;> rfl

theorem leave_stripped (depth : Nat) (inner : Scope) (enclosing : List Scope) :
    leave depth inner.stripped (enclosing.map Scope.stripped) =
      ((leave depth inner enclosing).1.stripped,
        (leave depth inner enclosing).2.map Scope.stripped) := by
  induction enclosing generalizing inner with
  | nil => rfl
  | cons outer more ih =>
    simp only [List.map_cons, leave, List.length_map]
    split
    next => rw [resume_stripped, ih]
    next => rfl

theorem exit_stripped (c : ScopeChain) (handle : Nat) :
    c.stripped.exit handle = (c.exit handle).stripped := by
  simp only [exit, stripped, leave_stripped]

theorem reserve_stripped (c : ScopeChain) (ty : Ty) (storage : Storage) :
    c.stripped.reserve ty storage = ((c.reserve ty storage).1, (c.reserve ty storage).2.stripped) := by
  cases storage <;> rfl

namespace Alike

variable {c c' : ScopeChain}

theorem depth (h : c.Alike c') : c.depth = c'.depth := by
  rw [← depth_stripped c, h, depth_stripped]

theorem statics (h : c.Alike c') : c.statics = c'.statics := by
  have hstatics : c.stripped.statics = c'.stripped.statics := by rw [h]
  exact hstatics

theorem locals (h : c.Alike c') : c.locals = c'.locals := by
  have hlocals : c.stripped.locals = c'.stripped.locals := by rw [h]
  exact hlocals

theorem enter (h : c.Alike c') (kind : ScopeKind) : (c.enter kind).Alike (c'.enter kind) := by
  rw [Alike, ← enter_stripped, h, enter_stripped]

theorem exit (h : c.Alike c') (handle : Nat) : (c.exit handle).Alike (c'.exit handle) := by
  rw [Alike, ← exit_stripped, h, exit_stripped]

theorem reserve (h : c.Alike c') (ty : Ty) (storage : Storage) :
    ∃ slot d d', c.reserve ty storage = (slot, d) ∧ c'.reserve ty storage = (slot, d') ∧ d.Alike d' := by
  rcases hreserve : c.reserve ty storage with ⟨slot, d⟩
  rcases hreserve' : c'.reserve ty storage with ⟨slot', d'⟩
  have hboth := reserve_stripped c ty storage
  rw [h, reserve_stripped, hreserve, hreserve'] at hboth
  obtain ⟨rfl, hchain⟩ := Prod.mk.inj hboth
  exact ⟨slot', d, d', rfl, rfl, hchain.symm⟩

theorem reserveTemp (h : c.Alike c') (ty : Ty) :
    (c.reserveTemp ty).1 = (c'.reserveTemp ty).1 ∧ (c.reserveTemp ty).2.Alike (c'.reserveTemp ty).2 := by
  obtain ⟨slot, d, d', hreserve, hreserve', hchain⟩ := h.reserve ty (if c.depth = 1 then .static else .local)
  simp only [ScopeChain.reserveTemp, ← h.depth, hreserve, hreserve']
  exact ⟨trivial, hchain⟩

theorem resolve (h : c.Alike c') (name : String) :
    (c.resolve? name).map Symbol.stripped = (c'.resolve? name).map Symbol.stripped := by
  rw [← resolve?_stripped, h, resolve?_stripped]

theorem declares (h : c.Alike c') (name : String) :
    (c.innermost.lookup? name).isSome = (c'.innermost.lookup? name).isSome := by
  have hinner : c.innermost.stripped = c'.innermost.stripped := congrArg innermost h
  have hlookup := lookup?_stripped c.innermost name
  rw [hinner, lookup?_stripped] at hlookup
  simpa using (congrArg Option.isSome hlookup).symm

theorem bind (h : c.Alike c') (name : String) (ty : Ty) (place : Place) (length length' : Option Nat)
    (line line' : Nat) :
    Alike { c with innermost := c.innermost.bind ⟨name, ty, place, length, line⟩ }
      { c' with innermost := c'.innermost.bind ⟨name, ty, place, length', line'⟩ } := by
  have hbind : ∀ (d : ScopeChain) (length : Option Nat) (line : Nat),
      stripped { d with innermost := d.innermost.bind ⟨name, ty, place, length, line⟩ } =
        { d.stripped with innermost := d.stripped.innermost.bind ⟨name, ty, place, none, 0⟩ } :=
    fun _ _ _ => rfl
  rw [Alike, hbind, h, hbind]

end Alike

end ScopeChain

/-! Trees. -/

namespace Tree

variable {t t' : Tree}

theorem SameNode.lexeme (h : t.SameNode t') : SameOutcome SameCause Eq t.lexeme t'.lexeme := by
  have hword := h.word
  unfold Tree.lexeme
  generalize t.token = token at hword ⊢
  generalize t'.token = token' at hword ⊢
  cases token with
  | none =>
    cases token' with
    | none => exact .error ⟨_, by rw [h.tag]; rfl⟩
    | some => cases hword
  | some token =>
    cases token' with
    | none => cases hword
    | some token' => exact .ok (congrArg Word.lexeme (Option.some.inj hword))

theorem SameNode.missing (h : t.SameNode t') (i : Nat) : SameCause (t.missing i) (t'.missing i) := by
  rw [Tree.missing, Tree.missing, h.tag]
  exact ⟨_, rfl⟩

theorem Resembles.child {p : Int32 → Int32 → Prop} (h : t.Resembles p t') (i : Nat) :
    SameOutcome SameCause (Corresponds p) (t.child i) (t'.child i) := by
  have hget := getElem?_forall₂ h.children i
  have hmissing := h.sameNode.missing i
  unfold Tree.child
  generalize t.children[i]? = found at hget ⊢
  generalize t'.children[i]? = found' at hget ⊢
  cases hget with
  | none => exact .error hmissing
  | some hchild => exact .ok hchild

end Tree

namespace Lowering

/-! Computations. -/

section Runs

variable {σ α β : Type} {S : σ → σ → Prop} {V : α → α → Prop} {W : β → β → Prop}

/-- Two ends of one kind: related values in related states, or failures of one cause. -/
inductive SameEnd (S : σ → σ → Prop) (V : α → α → Prop) :
    EStateM.Result Diagnostic σ α → EStateM.Result Diagnostic σ α → Prop where
  | ok {a a' : α} {s s' : σ} (values : V a a') (states : S s s') : SameEnd S V (.ok a s) (.ok a' s')
  | error {e e' : Diagnostic} {s s' : σ} (cause : SameCause e e') : SameEnd S V (.error e s) (.error e' s')

/-- From related states the two computations come to the same end. -/
def RunsAlike (S : σ → σ → Prop) (V : α → α → Prop) (m m' : EStateM Diagnostic σ α) : Prop :=
  ∀ s s', S s s' → SameEnd S V (m s) (m' s')

theorem RunsAlike.bind {m m' : EStateM Diagnostic σ α} {f f' : α → EStateM Diagnostic σ β}
    (hm : RunsAlike S V m m') (hf : ∀ a a', V a a' → RunsAlike S W (f a) (f' a')) :
    RunsAlike S W (m >>= f) (m' >>= f') := by
  intro s s' hs
  have hend := hm s s' hs
  change SameEnd S W (EStateM.bind m f s) (EStateM.bind m' f' s')
  unfold EStateM.bind
  cases hrun : m s with
  | ok a u =>
    cases hrun' : m' s' with
    | ok a' u' =>
      rw [hrun, hrun'] at hend
      cases hend with
      | ok values states => exact hf a a' values u u' states
    | error e' u' =>
      rw [hrun, hrun'] at hend
      cases hend
  | error e u =>
    cases hrun' : m' s' with
    | ok a' u' =>
      rw [hrun, hrun'] at hend
      cases hend
    | error e' u' =>
      rw [hrun, hrun'] at hend
      cases hend with
      | error cause => exact .error cause

/-- The same runs, seen with other relations of states and values. -/
theorem RunsAlike.imp {S' : σ → σ → Prop} {V' : α → α → Prop} {m m' : EStateM Diagnostic σ α}
    (h : RunsAlike S V m m') (hstart : ∀ s s', S' s s' → S s s') (hend : ∀ s s', S s s' → S' s s')
    (hvalues : ∀ a a', V a a' → V' a a') : RunsAlike S' V' m m' := by
  intro s s' hs
  have hsame := h s s' (hstart s s' hs)
  generalize m s = run at hsame ⊢
  generalize m' s' = run' at hsame ⊢
  cases hsame with
  | ok values states => exact .ok (hvalues _ _ values) (hend _ _ states)
  | error cause => exact .error cause

theorem runsAlike_pure {a a' : α} (h : V a a') :
    RunsAlike S V (pure a : EStateM Diagnostic σ α) (pure a') :=
  fun _ _ hs => .ok h hs

theorem runsAlike_throw {e e' : Diagnostic} (h : SameCause e e') :
    RunsAlike S V (throw e : EStateM Diagnostic σ α) (throw e') :=
  fun _ _ _ => .error h

theorem runsAlike_lift {x x' : Except Diagnostic α} (h : SameOutcome SameCause V x x') :
    RunsAlike S V (liftM x : EStateM Diagnostic σ α) (liftM x') := by
  intro s s' hs
  cases h with
  | ok values => exact .ok values hs
  | error cause => exact .error cause

theorem runsAlike_get : RunsAlike S S (get : EStateM Diagnostic σ σ) get :=
  fun _ _ hs => .ok hs hs

theorem runsAlike_set {s s' : σ} (h : S s s') :
    RunsAlike S (fun _ _ => True) (set s : EStateM Diagnostic σ PUnit) (set s') :=
  fun _ _ _ => .ok trivial h

theorem runsAlike_modifyGet {f : σ → α × σ} (h : ∀ s s', S s s' → V (f s).1 (f s').1 ∧ S (f s).2 (f s').2) :
    RunsAlike S V (modifyGet f : EStateM Diagnostic σ α) (modifyGet f) := by
  intro s s' hs
  obtain ⟨values, states⟩ := h s s' hs
  exact .ok values states

end Runs

/-! Checks. -/

theorem require_alike (condition : Prop) [Decidable condition] {e e' : Diagnostic} (h : SameCause e e') :
    SameOutcome SameCause Eq (require condition e) (require condition e') := by
  unfold require
  split
  next => exact .ok rfl
  next => exact .error h

theorem expectValue_alike (found : OperandType) (expected : Ty) (line line' : Nat) :
    SameOutcome SameCause Eq (expectValue found expected line) (expectValue found expected line') :=
  require_alike (found = .value expected) ⟨_, rfl⟩

theorem expectType_alike (found expected : Ty) (line line' : Nat) :
    SameOutcome SameCause Eq (expectType found expected line) (expectType found expected line') :=
  require_alike (found = expected) ⟨_, rfl⟩

theorem checkComparison_alike (op : Instr) (left right : OperandType) (line line' : Nat) :
    SameOutcome SameCause Eq (checkComparison op left right line) (checkComparison op left right line') := by
  unfold checkComparison
  dsimp only
  by_cases hequality : op = .eq ∨ op = .ne
  all_goals
    simp only [hequality, if_true, if_false]
    split
    next => exact require_alike (right = left) ⟨_, rfl⟩
    next => exact .error ⟨_, rfl⟩

theorem printableType_alike (found : OperandType) (line line' : Nat) :
    SameOutcome SameCause Eq (printableType found line) (printableType found line') := by
  cases found with
  | operator => exact .error ⟨_, rfl⟩
  | value ty =>
    unfold printableType
    dsimp only
    split
    next => exact .ok rfl
    next => exact .error ⟨_, rfl⟩

theorem callee_alike (table : FunctionTable) (name : String) (count line line' : Nat) :
    SameOutcome SameCause Eq (callee table name count line) (callee table name count line') := by
  unfold callee
  split
  next => exact .error ⟨_, rfl⟩
  next =>
    split
    next => exact .ok rfl
    next => exact .error ⟨_, rfl⟩

theorem elementType_alike {symbol symbol' : Symbol} (h : symbol.stripped = symbol'.stripped)
    (line line' : Nat) :
    SameOutcome SameCause Eq (elementType symbol line) (elementType symbol' line') := by
  unfold elementType
  rw [Symbol.ty_of_stripped h]
  split
  next => exact .ok rfl
  next => exact .error ⟨_, rfl⟩

section Nodes

variable {t t' : Tree} (ht : t.SameNode t')

include ht

theorem typeOf_alike : SameOutcome SameCause Eq (typeOf t) (typeOf t') := by
  refine ht.lexeme.bind ?_
  rintro word _ rfl
  split
  next => exact .ok rfl
  next => exact .error ⟨_, rfl⟩

theorem arrayLength_alike : SameOutcome SameCause Eq (arrayLength t) (arrayLength t') := by
  refine ht.lexeme.bind ?_
  rintro word _ rfl
  split
  next => exact .ok rfl
  next => exact .error ⟨_, rfl⟩

theorem constant_alike : SameOutcome SameCause Eq (constant t) (constant t') := by
  have hword := ht.word
  unfold constant
  generalize t.token = token at hword ⊢
  generalize t'.token = token' at hword ⊢
  cases token with
  | none =>
    cases token' with
    | none => exact .error ⟨_, rfl⟩
    | some => cases hword
  | some token =>
    cases token' with
    | none => cases hword
    | some token' =>
      have hkind : token.kind = token'.kind := congrArg Word.kind (Option.some.inj hword)
      have hlexeme : token.lexeme = token'.lexeme := congrArg Word.lexeme (Option.some.inj hword)
      have hliteral : literal? token = literal? token' := by
        unfold literal?
        rw [hkind, hlexeme]
      dsimp only
      rw [hliteral, hlexeme]
      split
      next => exact .ok rfl
      next => exact .error ⟨_, rfl⟩

theorem binaryOperator_alike : SameOutcome SameCause Eq (binaryOperator t) (binaryOperator t') := by
  refine ht.lexeme.bind ?_
  rintro word _ rfl
  split
  next => exact .ok rfl
  next => exact .error ⟨_, rfl⟩

theorem assignmentOperator_alike :
    SameOutcome SameCause Eq (assignmentOperator t) (assignmentOperator t') := by
  refine ht.lexeme.bind ?_
  rintro word _ rfl
  split <;> first | exact .ok rfl | exact .error ⟨_, rfl⟩

theorem stepOperator_alike : SameOutcome SameCause Eq (stepOperator t) (stepOperator t') := by
  refine ht.lexeme.bind ?_
  rintro word _ rfl
  split <;> first | exact .ok rfl | exact .error ⟨_, rfl⟩

theorem unaryOperator_alike (operand : OperandType) :
    SameOutcome SameCause Eq (unaryOperator t operand) (unaryOperator t' operand) := by
  refine ht.lexeme.bind ?_
  rintro word _ rfl
  split
  next => exact (expectValue_alike ..).bind fun _ _ _ => .ok rfl
  next => exact (expectValue_alike ..).bind fun _ _ _ => .ok rfl
  next =>
    split
    next => exact .ok rfl
    next => exact .error ⟨_, rfl⟩
  next => exact .error ⟨_, rfl⟩

theorem resolve_alike :
    RunsAlike ScopeChain.Alike (fun symbol symbol' => symbol.stripped = symbol'.stripped)
      (resolve t) (resolve t') := by
  refine (runsAlike_lift ht.lexeme).bind ?_
  rintro name _ rfl
  refine runsAlike_get.bind ?_
  intro c c' hc
  have hresolve := hc.resolve name
  cases hfound : c.resolve? name with
  | none =>
    cases hfound' : c'.resolve? name with
    | none => exact runsAlike_throw ⟨_, rfl⟩
    | some symbol' => simp [hfound, hfound'] at hresolve
  | some symbol =>
    cases hfound' : c'.resolve? name with
    | none => simp [hfound, hfound'] at hresolve
    | some symbol' =>
      refine runsAlike_pure ?_
      simpa [hfound, hfound'] using hresolve

end Nodes

/-! Stores. -/

theorem reserveTemp_alike (ty : Ty) : RunsAlike ScopeChain.Alike Eq (reserveTemp ty) (reserveTemp ty) :=
  runsAlike_modifyGet fun _ _ hc => hc.reserveTemp ty

theorem storeElement_alike (element : Ty) (keep : Bool) :
    RunsAlike ScopeChain.Alike Eq (Target.storeElement element keep) (Target.storeElement element keep) := by
  unfold Target.storeElement
  split
  next =>
    refine (reserveTemp_alike element).bind ?_
    rintro temp _ rfl
    exact runsAlike_pure rfl
  next => exact runsAlike_pure rfl

theorem assign_alike (target : Target) (value : Code) (op : Option Instr) (keep : Bool) :
    RunsAlike ScopeChain.Alike Eq (target.assign value op keep) (target.assign value op keep) := by
  unfold Target.assign
  dsimp only
  split
  next => exact runsAlike_pure rfl
  next => exact runsAlike_pure rfl
  next =>
    refine (storeElement_alike _ _).bind ?_
    rintro finish _ rfl
    exact runsAlike_pure rfl
  next =>
    refine (reserveTemp_alike .int).bind ?_
    rintro temp _ rfl
    refine (storeElement_alike _ _).bind ?_
    rintro finish _ rfl
    exact runsAlike_pure rfl

/-! One lemma for each form of expression, from what is known about the children of the node. -/

variable {table : FunctionTable} {t t' : Tree} {children children' : List Tree}

structure LowersAlike (table : FunctionTable) (t t' : Tree) : Prop where
  node : t.SameNode t'
  value : RunsAlike ScopeChain.Alike Eq (expression table t) (expression table t')
  target : RunsAlike ScopeChain.Alike Eq (target table t) (target table t')

theorem location_alike (ht : t.SameNode t') (below : List.Forall₂ (LowersAlike table) children children') :
    RunsAlike ScopeChain.Alike Eq (location table t children) (location table t' children') := by
  cases below with
  | nil =>
    rw [location, location]
    refine (resolve_alike ht).bind ?_
    intro symbol symbol' hsymbol
    rw [Symbol.ty_of_stripped hsymbol, Symbol.place_of_stripped hsymbol]
    exact runsAlike_pure rfl
  | cons index rest =>
    rw [location, location]
    refine (resolve_alike ht).bind ?_
    intro symbol symbol' hsymbol
    refine (runsAlike_lift (elementType_alike hsymbol ..)).bind ?_
    rintro element _ rfl
    refine index.value.bind ?_
    rintro position _ rfl
    refine (runsAlike_lift (expectValue_alike ..)).bind ?_
    intro _ _ _
    rw [Symbol.place_of_stripped hsymbol]
    exact runsAlike_pure rfl

theorem parenthesized_alike (ht : t.SameNode t')
    (below : List.Forall₂ (LowersAlike table) children children') :
    RunsAlike ScopeChain.Alike Eq (parenthesized table t children) (parenthesized table t' children') := by
  cases below with
  | nil =>
    rw [parenthesized, parenthesized]
    exact runsAlike_throw (ht.missing 0)
  | cons inner rest =>
    rw [parenthesized, parenthesized]
    exact inner.value

theorem chainLinks_alike (required : Ty) (pending : Option Instr)
    (below : List.Forall₂ (LowersAlike table) children children') :
    RunsAlike ScopeChain.Alike Eq (chainLinks table required pending children)
      (chainLinks table required pending children') := by
  induction below generalizing pending with
  | nil =>
    rw [chainLinks]
    exact runsAlike_pure rfl
  | cons next rest ih =>
    rw [chainLinks, chainLinks]
    refine next.value.bind ?_
    rintro ⟨ty, code⟩ _ rfl
    refine (runsAlike_lift (require_alike _ ⟨_, rfl⟩)).bind ?_
    intro _ _ _
    cases ty with
    | operator =>
      refine (runsAlike_lift (binaryOperator_alike next.node)).bind ?_
      rintro op _ rfl
      exact ih (some op)
    | value ty =>
      cases pending with
      | none => exact runsAlike_throw ⟨_, rfl⟩
      | some op =>
        refine (ih none).bind ?_
        rintro links _ rfl
        exact runsAlike_pure rfl

theorem chain_alike (required : Ty) (ht : t.SameNode t')
    (below : List.Forall₂ (LowersAlike table) children children') :
    RunsAlike ScopeChain.Alike Eq (chain table t required children) (chain table t' required children') := by
  cases below with
  | nil =>
    rw [chain, chain]
    exact runsAlike_throw (ht.missing 0)
  | cons first rest =>
    rw [chain, chain]
    refine first.value.bind ?_
    rintro operand _ rfl
    refine (runsAlike_lift (expectValue_alike ..)).bind ?_
    intro _ _ _
    refine (chainLinks_alike required none rest).bind ?_
    rintro links _ rfl
    exact runsAlike_pure rfl

theorem comparison_alike (ht : t.SameNode t')
    (below : List.Forall₂ (LowersAlike table) children children') :
    RunsAlike ScopeChain.Alike Eq (comparison table t children) (comparison table t' children') := by
  cases below with
  | nil =>
    rw [comparison, comparison]
    exact runsAlike_throw (ht.missing 0)
  | cons first rest =>
    rw [comparison, comparison]
    refine first.value.bind ?_
    rintro left _ rfl
    cases rest with
    | nil => exact runsAlike_throw (ht.missing 1)
    | cons operator rest =>
      refine (runsAlike_lift (binaryOperator_alike operator.node)).bind ?_
      rintro op _ rfl
      cases rest with
      | nil => exact runsAlike_throw (ht.missing 2)
      | cons second rest =>
        refine second.value.bind ?_
        rintro right _ rfl
        refine (runsAlike_lift (checkComparison_alike ..)).bind ?_
        intro _ _ _
        exact runsAlike_pure rfl

theorem negation_alike (ht : t.SameNode t')
    (below : List.Forall₂ (LowersAlike table) children children') :
    RunsAlike ScopeChain.Alike Eq (negation table t children) (negation table t' children') := by
  cases below with
  | nil =>
    rw [negation, negation]
    exact runsAlike_throw (ht.missing 0)
  | cons inner rest =>
    rw [negation, negation]
    refine inner.value.bind ?_
    rintro operand _ rfl
    refine (runsAlike_lift (expectValue_alike ..)).bind ?_
    intro _ _ _
    exact runsAlike_pure rfl

theorem unary_alike (ht : t.SameNode t') (below : List.Forall₂ (LowersAlike table) children children') :
    RunsAlike ScopeChain.Alike Eq (unary table t children) (unary table t' children') := by
  cases below with
  | nil =>
    rw [unary, unary]
    exact runsAlike_throw (ht.missing 0)
  | cons inner rest =>
    rw [unary, unary]
    refine inner.value.bind ?_
    rintro operand _ rfl
    refine (runsAlike_lift (unaryOperator_alike ht operand.ty)).bind ?_
    rintro op _ rfl
    exact runsAlike_pure rfl

theorem target_alike {tag : Tag} {token token' : Option Token}
    (ht : Tree.SameNode ⟨tag, token, children⟩ ⟨tag, token', children'⟩)
    (below : List.Forall₂ (LowersAlike table) children children') :
    RunsAlike ScopeChain.Alike Eq (target table ⟨tag, token, children⟩)
      (target table ⟨tag, token', children'⟩) := by
  rw [target, target]
  refine (runsAlike_lift (require_alike _ ⟨_, rfl⟩)).bind ?_
  intro _ _ _
  refine (resolve_alike ht).bind ?_
  intro symbol symbol' hsymbol
  rw [Symbol.place_of_stripped hsymbol]
  cases below with
  | nil =>
    dsimp only
    rw [Symbol.ty_of_stripped hsymbol]
    exact runsAlike_pure rfl
  | cons index rest =>
    refine (runsAlike_lift (elementType_alike hsymbol ..)).bind ?_
    rintro element _ rfl
    refine index.value.bind ?_
    rintro position _ rfl
    refine (runsAlike_lift (expectValue_alike ..)).bind ?_
    intro _ _ _
    exact runsAlike_pure rfl

theorem assignment_alike (keep : Bool) (ht : t.SameNode t')
    (below : List.Forall₂ (LowersAlike table) children children') :
    RunsAlike ScopeChain.Alike Eq (assignment table t keep children)
      (assignment table t' keep children') := by
  cases below with
  | nil =>
    rw [assignment, assignment]
    exact runsAlike_throw (ht.missing 0)
  | cons first rest =>
    rw [assignment, assignment]
    refine first.target.bind ?_
    rintro target _ rfl
    cases rest with
    | nil => exact runsAlike_throw (ht.missing 1)
    | cons second rest =>
      refine second.value.bind ?_
      rintro value _ rfl
      refine (runsAlike_lift (expectValue_alike ..)).bind ?_
      intro _ _ _
      refine (runsAlike_lift (assignmentOperator_alike ht)).bind ?_
      rintro op _ rfl
      refine (runsAlike_lift (require_alike _ ⟨_, rfl⟩)).bind ?_
      intro _ _ _
      refine (assign_alike _ _ _ _).bind ?_
      rintro code _ rfl
      exact runsAlike_pure rfl

theorem step_alike (keep : Bool) (ht : t.SameNode t')
    (below : List.Forall₂ (LowersAlike table) children children') :
    RunsAlike ScopeChain.Alike Eq (step table t keep children) (step table t' keep children') := by
  cases below with
  | nil =>
    rw [step, step]
    exact runsAlike_throw (ht.missing 0)
  | cons first rest =>
    rw [step, step]
    refine first.target.bind ?_
    rintro target _ rfl
    refine (runsAlike_lift (expectType_alike ..)).bind ?_
    intro _ _ _
    refine (runsAlike_lift (stepOperator_alike ht)).bind ?_
    rintro op _ rfl
    refine (assign_alike _ _ _ _).bind ?_
    rintro code _ rfl
    exact runsAlike_pure rfl

theorem arguments_alike (types : List Ty) (below : List.Forall₂ (LowersAlike table) children children') :
    RunsAlike ScopeChain.Alike Eq (arguments table types children) (arguments table types children') := by
  induction below generalizing types with
  | nil =>
    rw [arguments]
    exact runsAlike_pure rfl
  | cons first rest ih =>
    cases types with
    | nil =>
      rw [arguments, arguments]
      exact runsAlike_pure rfl
    | cons ty types =>
      rw [arguments, arguments]
      refine first.value.bind ?_
      rintro argument _ rfl
      refine (runsAlike_lift (expectValue_alike ..)).bind ?_
      intro _ _ _
      refine (ih types).bind ?_
      rintro code _ rfl
      exact runsAlike_pure rfl

theorem printArguments_alike (below : List.Forall₂ (LowersAlike table) children children') :
    RunsAlike ScopeChain.Alike Eq (printArguments table children) (printArguments table children') := by
  induction below with
  | nil =>
    rw [printArguments]
    exact runsAlike_pure rfl
  | cons first rest ih =>
    rw [printArguments, printArguments]
    refine first.value.bind ?_
    rintro argument _ rfl
    refine (runsAlike_lift (printableType_alike ..)).bind ?_
    rintro ty _ rfl
    refine ih.bind ?_
    rintro code _ rfl
    exact runsAlike_pure rfl

theorem print_alike (below : List.Forall₂ (LowersAlike table) children children') :
    RunsAlike ScopeChain.Alike Eq (print table t children) (print table t' children') := by
  cases below with
  | nil =>
    rw [print, print]
    exact runsAlike_throw ⟨_, rfl⟩
  | @cons _ _ more more' first rest =>
    have hlength := rest.length_eq
    have hempty : more.isEmpty = more'.isEmpty := by cases rest <;> rfl
    rw [print, print]
    refine first.value.bind ?_
    rintro head _ rfl
    refine (runsAlike_lift (printableType_alike ..)).bind ?_
    rintro ty _ rfl
    rw [hempty, hlength]
    split
    next => exact runsAlike_pure rfl
    next =>
      refine (runsAlike_lift (require_alike _ ⟨_, rfl⟩)).bind ?_
      intro _ _ _
      refine (printArguments_alike rest).bind ?_
      rintro values _ rfl
      exact runsAlike_pure rfl

theorem putArguments_alike (below : List.Forall₂ (LowersAlike table) children children') :
    RunsAlike ScopeChain.Alike Eq (putArguments table children) (putArguments table children') := by
  induction below with
  | nil =>
    rw [putArguments]
    exact runsAlike_pure rfl
  | cons first rest ih =>
    rw [putArguments, putArguments]
    refine first.target.bind ?_
    rintro target _ rfl
    refine (runsAlike_lift (require_alike _ ⟨_, rfl⟩)).bind ?_
    intro _ _ _
    refine (assign_alike _ _ _ _).bind ?_
    rintro code _ rfl
    refine ih.bind ?_
    rintro more _ rfl
    exact runsAlike_pure rfl

theorem call_alike {token token' : Option Token}
    (ht : Tree.SameNode ⟨.call, token, children⟩ ⟨.call, token', children'⟩)
    (below : List.Forall₂ (LowersAlike table) children children') :
    RunsAlike ScopeChain.Alike Eq (expression table ⟨.call, token, children⟩)
      (expression table ⟨.call, token', children'⟩) := by
  have hlength := below.length_eq
  have hempty : children.isEmpty = children'.isEmpty := by cases below <;> rfl
  rw [expression, expression]
  refine (runsAlike_lift ht.lexeme).bind ?_
  rintro name _ rfl
  split
  next => exact print_alike below
  next =>
    split
    next =>
      rw [hempty]
      refine (runsAlike_lift (require_alike _ ⟨_, rfl⟩)).bind ?_
      intro _ _ _
      refine (putArguments_alike below).bind ?_
      rintro code _ rfl
      exact runsAlike_pure rfl
    next =>
      rw [hlength]
      refine (runsAlike_lift (callee_alike ..)).bind ?_
      rintro signature _ rfl
      refine (arguments_alike signature.parameters below).bind ?_
      rintro code _ rfl
      exact runsAlike_pure rfl

/-- Only a variable or an element of an array can be a target. -/
theorem target_alike_of_ne {tag : Tag} {token token' : Option Token} (htag : tag ≠ .mutable) :
    RunsAlike ScopeChain.Alike Eq (target table ⟨tag, token, children⟩)
      (target table ⟨tag, token', children'⟩) := by
  rw [target, target]
  refine RunsAlike.bind (V := fun _ _ => False) (runsAlike_lift ?_) fun _ _ h => h.elim
  rw [require, require, if_neg htag, if_neg htag]
  exact .error ⟨_, rfl⟩

variable {p : Int32 → Int32 → Prop}

theorem lowersAlike (table : FunctionTable) (t : Tree) : ∀ t', t.Resembles p t' → LowersAlike table t t' := by
  induction t using Tree.forall_of_children with
  | node tag token children each =>
    intro t' ht
    have hnode := ht.sameNode
    cases ht with
    | @node _ _ token' _ children' tokens related =>
      have below : List.Forall₂ (LowersAlike table) children children' :=
        ((List.forall₂_and_left ..).2 ⟨each, related⟩).imp fun u u' h => h.1 u' h.2
      refine ⟨hnode, ?_, target_alike hnode below⟩
      cases tag with
      | constant => exact runsAlike_lift (constant_alike hnode)
      | mutable => exact location_alike hnode below
      | paren => exact parenthesized_alike hnode below
      | call => exact call_alike hnode below
      | operator => exact runsAlike_pure rfl
      | simpleExp | andExp => exact chain_alike .bool hnode below
      | minMaxExp | sumExp | mulExp => exact chain_alike .int hnode below
      | relExp => exact comparison_alike hnode below
      | notExp => exact negation_alike hnode below
      | unaryExp => exact unary_alike hnode below
      | assign => exact assignment_alike true hnode below
      | incDec => exact step_alike true hnode below
      | _ => exact runsAlike_throw ⟨_, rfl⟩
    | declaration => exact ⟨hnode, runsAlike_throw ⟨_, rfl⟩, target_alike_of_ne (by decide)⟩

/-- A declaration is no expression, so that its lengths do not matter here. -/
theorem lowersAlike_of_corresponds {t t' : Tree} (ht : t.Corresponds p t') : LowersAlike table t t' := by
  have hnode := ht.sameNode
  cases ht with
  | same h => exact lowersAlike table t t' h
  | array => exact ⟨hnode, runsAlike_throw ⟨_, rfl⟩, target_alike_of_ne (by decide)⟩

end Lowering

end StackCompiler
