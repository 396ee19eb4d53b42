import StackCompiler.Proofs.Lowering.Temporaries

/-!
What lowering keeps, whatever comes of it. A relation between states is kept by all bodies once it is
kept by temporaries, new labels, declarations and scopes; statements add nothing to these. A property of
sessions is kept by all calls once it is kept where functions are registered and bodies compiled.
-/

set_option autoImplicit false
namespace StackCompiler

namespace Lowering

theorem lastState_inScope {α : Type} (kind : ScopeKind) (m : BodyM α) (s : BodyState) :
    lastState (inScope kind m s) =
      { lastState (m { s with scopes := s.scopes.enter kind }) with
        scopes := (lastState (m { s with scopes := s.scopes.enter kind })).scopes.exit s.scopes.depth } := by
  unfold inScope
  cases m { s with scopes := s.scopes.enter kind } <;> rfl

/-- A relation between an earlier and a later state of a body that every part of a body keeps. -/
structure BodyInvariant (table : FunctionTable) (I : BodyState → BodyState → Prop) : Prop where
  refl : ∀ s, I s s
  trans : ∀ {s s₁ s'}, I s s₁ → I s₁ s' → I s s'
  temps : ∀ {s : BodyState} {c : ScopeChain}, s.scopes.Temps c → I s { s with scopes := c }
  labels : ∀ s n, I s { s with nextLabel := n }
  declaration : ∀ node s, I s (lastState (declaration table node s))
  block : ∀ {s s' : BodyState}, I { s with scopes := s.scopes.enter .block } s' →
    I s { s' with scopes := s'.scopes.exit s.scopes.depth }

namespace BodyInvariant

variable {table : FunctionTable} {I : BodyState → BodyState → Prop} {s : BodyState} {ctx : Context}
  {t : Tree} {children : List Tree} {α : Type}

theorem lift (h : BodyInvariant table I) {m : ScopeM α} (hm : ∀ c, OnlyTemps c m) :
    Maintains (I s) (liftM m : BodyM α) := by
  intro s₁ hs₁
  have htemps := hm s₁.scopes s₁.scopes .none
  rw [liftScope_apply]
  cases hcase : m s₁.scopes <;> rw [hcase] at htemps <;> exact h.trans hs₁ (h.temps htemps)

theorem freshLabels (h : BodyInvariant table I) (n : Nat) :
    Maintains (I s) (freshLabels n) :=
  maintains_modifyGet fun s₁ hs₁ => h.trans hs₁ (h.labels s₁ _)

theorem inBlock (h : BodyInvariant table I) {m : BodyM α} (hm : ∀ s, Maintains (I s) m) :
    Maintains (I s) (inScope .block m) := by
  intro s₁ hs₁
  have hinner := hm _ { s₁ with scopes := s₁.scopes.enter .block } (h.refl _)
  have houter := h.trans hs₁ (h.block hinner)
  rw [lastState_inScope]
  exact houter

/-! Statements. The state before is general in what is known of the children, because a block starts in a
scope of its own; so is the context, because the body of a loop has an exit of its own. -/

def Each (table : FunctionTable) (I : BodyState → BodyState → Prop) (t : Tree) : Prop :=
  ∀ ctx s, Maintains (I s) (statement table ctx t)

theorem blockItems (h : BodyInvariant table I) (each : ∀ u ∈ children, Each table I u) :
    Maintains (I s) (blockItems table ctx children) := by
  induction children with
  | nil => exact maintains_pure _
  | cons item rest ih =>
    have hrest := ih fun u hu => each u (by simp [hu])
    rw [Lowering.blockItems]
    split
    next =>
      refine .bind (fun s₁ hs₁ => h.trans hs₁ (h.declaration item s₁)) fun _ _ _ _ => ?_
      exact .bind hrest fun _ _ _ _ => maintains_pure _
    next =>
      refine .bind (each item (by simp) ctx s) fun _ _ _ _ => ?_
      exact .bind hrest fun _ _ _ _ => maintains_pure _

theorem ifStatement (h : BodyInvariant table I) (each : ∀ u ∈ children, Each table I u) :
    Maintains (I s) (ifStatement table ctx t children) := by
  have hvalue : ∀ test c, OnlyTemps c (valueOf table .bool test) := fun test _ => onlyTemps_valueOf .bool test
  match children with
  | [] => exact maintains_throw _
  | [test] => exact .bind (h.lift (hvalue test)) fun _ _ _ _ => maintains_throw _
  | [test, yes] =>
    refine .bind (h.lift (hvalue test)) fun _ _ _ _ => .bind (h.freshLabels 1) fun _ _ _ _ => ?_
    exact .bind (each yes (by simp) ctx s) fun _ _ _ _ => maintains_pure _
  | test :: yes :: no :: rest =>
    refine .bind (h.lift (hvalue test)) fun _ _ _ _ => .bind (h.freshLabels 2) fun _ _ _ _ => ?_
    refine .bind (each yes (by simp) ctx s) fun _ _ _ _ => ?_
    exact .bind (each no (by simp) ctx s) fun _ _ _ _ => maintains_pure _

theorem whileStatement (h : BodyInvariant table I) (each : ∀ u ∈ children, Each table I u) :
    Maintains (I s) (whileStatement table ctx t children) := by
  have hvalue : ∀ test c, OnlyTemps c (valueOf table .bool test) := fun test _ => onlyTemps_valueOf .bool test
  match children with
  | [] => exact maintains_throw _
  | [test] => exact .bind (h.lift (hvalue test)) fun _ _ _ _ => maintains_throw _
  | test :: body :: rest =>
    refine .bind (h.lift (hvalue test)) fun _ _ _ _ => .bind (h.freshLabels 3) fun _ _ _ _ => ?_
    exact .bind (each body (by simp) _ s) fun _ _ _ _ => maintains_pure _

theorem forStatement (h : BodyInvariant table I) (each : ∀ u ∈ children, Each table I u) :
    Maintains (I s) (forStatement table ctx t children) := by
  rw [Lowering.forStatement]
  refine .bind (h.lift fun _ => onlyTemps_counterOf t) fun counter _ _ _ => ?_
  have hrange : ∀ bounds c, OnlyTemps c (range table counter bounds) := fun bounds _ =>
    onlyTemps_range counter bounds
  cases children with
  | nil => exact maintains_throw _
  | cons bounds more =>
    cases more with
    | nil => exact .bind (h.lift (hrange bounds)) fun _ _ _ _ => maintains_throw _
    | cons body rest =>
      refine .bind (h.lift (hrange bounds)) fun _ _ _ _ => .bind (h.freshLabels 3) fun _ _ _ _ => ?_
      exact .bind (each body (by simp) _ s) fun _ _ _ _ => maintains_pure _

theorem each (h : BodyInvariant table I) (t : Tree) : Each table I t := by
  induction t using Tree.forall_of_children with
  | node tag token children ih =>
    intro ctx s
    cases tag with
    | compoundStmt => exact h.inBlock fun _ => h.blockItems ih
    | expStmt => exact h.lift fun _ => onlyTemps_expressionStatement children
    | ifStmt => exact h.ifStatement ih
    | whileStmt => exact h.whileStatement ih
    | forStmt => exact h.forStatement ih
    | returnStmt => exact h.lift fun _ => onlyTemps_returnStatement _ _ children
    | breakStmt =>
      obtain ⟨result, exit⟩ := ctx
      cases exit with
      | none => exact maintains_throw _
      | some exit => exact maintains_pure _
    | _ => exact maintains_throw _

/-- A function ends where its body leads, less the scope of the function, whether it is compiled or
fails. `J` is what is known inside that scope. -/
theorem functionFrame (h : BodyInvariant table I) {J : BodyState → Prop} {result : Ty} {decl : Tree}
    (hparms : ∀ parms, parameters decl = .ok parms →
      Maintains J (liftM (Session.declareParameters parms) : BodyM Unit))
    (hbody : ∀ s₁ s', J s₁ → I s₁ s' → J s') (hs : J { s with scopes := s.scopes.enter .function }) :
    ∃ s', J s' ∧ lastState (Session.functionFrame table result decl s) =
      { s' with scopes := s'.scopes.exit s.scopes.depth } := by
  have hblock : ∀ ctx children, Maintains J (Lowering.blockItems table ctx children) := by
    intro ctx children s₁ hs₁
    exact hbody s₁ _ hs₁ (h.blockItems (fun u _ => h.each u) s₁ (h.refl s₁))
  have hinner : Maintains J (Session.functionBody table result decl) := by
    refine .bind (maintains_lift _) fun parms _ _ hlift => .bind (hparms parms (lift_ok.1 hlift).1) fun _ _ _ _ => ?_
    split
    next => exact maintains_throw _
    next => exact .bind (hblock _ _) fun _ _ _ _ => maintains_pure _
  rw [Session.functionFrame, lastState_inScope]
  refine ⟨_, ?_, rfl⟩
  refine Maintains.bind hinner (fun _ _ _ _ => ?_) _ hs
  exact .bind maintains_get fun _ _ _ _ => maintains_pure _

end BodyInvariant

end Lowering

open Lowering

namespace Session

/-! Calls. -/

variable {I : Session → Prop}

theorem lastState_inBody {α : Type} (m : BodyM α) (s : Session) :
    lastState (inBody m s) =
      { s with
        scopes := (lastState (m ⟨s.scopes, s.staticInit, 0⟩)).scopes
        staticInit := (lastState (m ⟨s.scopes, s.staticInit, 0⟩)).staticInit } := by
  unfold inBody
  cases m ⟨s.scopes, s.staticInit, 0⟩ <;> rfl

theorem maintains_registerAll (h : ∀ decl, Maintains I (register decl)) (decls : List Tree) :
    Maintains I (registerAll decls) := by
  induction decls with
  | nil => exact maintains_pure _
  | cons decl rest ih =>
    unfold registerAll
    split
    next => exact .bind (h decl) fun _ _ _ _ => ih
    next => exact ih

theorem maintains_routine {decl : Tree}
    (h : ∀ table result, Maintains I (inBody (functionFrame table result decl))) :
    Maintains I (routine decl) := by
  refine .bind (maintains_lift _) fun name _ _ _ => .bind maintains_get fun s _ _ _ => ?_
  cases hfound : s.functions.lookup? name with
  | none =>
    simp only [hfound]
    exact maintains_throw _
  | some signature =>
    simp only [hfound]
    refine .bind (h s.functions signature.result) ?_
    rintro ⟨_, _⟩ _ _ _
    exact maintains_pure _

theorem maintains_routines (hvariables : ∀ table decl, Maintains I (inBody (declaration table decl)))
    (hfunctions : ∀ decl, Maintains I (routine decl)) (decls : List Tree) :
    Maintains I (routines decls) := by
  induction decls with
  | nil => exact maintains_pure _
  | cons decl rest ih =>
    unfold routines
    split
    next =>
      refine .bind maintains_get fun s _ _ _ => ?_
      exact .bind (hvariables s.functions decl) fun _ _ _ _ => ih
    next => exact .bind (hfunctions decl) fun _ _ _ _ => .bind ih fun _ _ _ _ => maintains_pure _
    next => exact maintains_throw _

theorem maintains_compileProgram (hregister : ∀ decl, Maintains I (register decl))
    (hvariables : ∀ table decl, Maintains I (inBody (declaration table decl)))
    (hfunctions : ∀ decl, Maintains I (routine decl)) (hpack : ∀ s, I s → I { s with staticInit := .empty })
    (program : Tree) : Maintains I (compileProgram program) := by
  refine .bind (maintains_lift _) fun _ _ _ _ => .bind (maintains_registerAll hregister _) fun _ _ _ _ => ?_
  refine .bind (maintains_routines hvariables hfunctions _) fun functions _ _ _ => ?_
  exact fun s hs => hpack s hs

theorem maintains_compileFunction {decl : Tree} (hregister : Maintains I (register decl))
    (hroutine : Maintains I (routine decl)) : Maintains I (compileFunction decl) := by
  refine .bind (maintains_lift _) fun name _ _ _ => .bind ?_ fun _ _ _ _ => ?_
  · refine .bind maintains_get fun _ _ _ _ => ?_
    split
    next => exact maintains_pure _
    next => exact hregister
  · exact .bind hroutine fun _ _ _ _ => maintains_pure _

end Session

end StackCompiler
