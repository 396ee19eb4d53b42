import StackCompiler.Proofs.Lowering.Continuation

/-!
Sessions stay well formed. Whatever trees were compiled and whichever calls failed, only the file scope is
open behind a call, its variables have slots of their types, and the table holds functions of the types
that functions have.
-/

set_option autoImplicit false
namespace StackCompiler

open Lowering ScopeChain

namespace ScopeChain

structure Leads (params : List Ty) (c c' : ScopeChain) : Prop where
  reachable : Reachable params c'
  grows : Grows c c'

namespace Leads

variable {params : List Ty} {c c₁ c' : ScopeChain}

theorem refl (hc : Reachable params c) : Leads params c c :=
  ⟨hc, .refl c⟩

theorem trans (h : Leads params c c₁) (h' : Leads params c₁ c') : Leads params c c' :=
  ⟨h'.reachable, h.grows.trans h'.grows⟩

theorem temps (h : Leads params c c₁) (htemps : Temps c₁ c') : Leads params c c' :=
  ⟨htemps.reachable h.reachable, h.grows.trans (htemps.grows h.reachable)⟩

theorem block (inside : c.enclosing ≠ []) (h : Leads params (c.enter .block) c') :
    Leads params c (c'.exit c.depth) :=
  ⟨.block inside h.reachable h.grows, h.grows.block.1⟩

end Leads

end ScopeChain

namespace Lowering

variable {table : FunctionTable} {params : List Ty} {c : ScopeChain} {storage : Storage}

theorem leads_declare {ty : Ty} (fits : c.Fits storage) (storable : ty.isStorable = true) (name : String)
    (length : Option Nat) (line : Nat) :
    Maintains (Leads params c) (Lowering.declare name ty storage length line) := by
  intro c₁ hc₁
  change Leads params c (lastState ((liftM (c₁.declare name ty storage length line) >>= _ : ScopeM Place) c₁))
  refine lastState_check hc₁ ?_
  rintro ⟨slot, c'⟩ hdeclare
  have hfits := fits_of_grows hc₁.grows fits
  exact hc₁.trans ⟨hc₁.reachable.declare hfits storable hdeclare,
    grows_declare hc₁.reachable.sound hfits hdeclare⟩

theorem leads_reserve (fits : c.Fits storage) (ty : Ty) : Maintains (Leads params c) (reserve ty storage) := by
  refine maintains_modifyGet fun c₁ hc₁ => ?_
  have hfits := fits_of_grows hc₁.grows fits
  exact hc₁.trans ⟨hc₁.reachable.reserve ty hfits, grows_reserve hc₁.reachable.sound ty hfits⟩

theorem leads_declarator {base : Ty} (fits : c.Fits storage) (scalar : base.isScalar = true) (hoisted : Bool)
    (node : Tree) : Maintains (Leads params c) (declarator table base storage hoisted node) := by
  have hread : Maintains (Leads params c) (readDeclarator table base hoisted node) := fun c₁ hc₁ =>
    hc₁.temps (onlyTemps_readDeclarator base hoisted node c₁ .none)
  have harray : (Ty.array base).isStorable = true := scalar
  refine .bind hread fun d _ _ _ => ?_
  obtain ⟨name, line, length, value⟩ := d
  cases length with
  | none =>
    refine .bind (leads_declare fits (storable_of_scalar scalar) _ _ _) fun _ _ _ _ => ?_
    cases value <;> exact maintains_pure _
  | some length =>
    refine .bind (leads_declare fits harray _ _ _) fun _ _ _ _ => ?_
    cases value with
    | none => exact maintains_pure _
    | some value =>
      refine .bind (leads_reserve fits base) fun _ _ _ _ => .bind (leads_reserve fits .int) fun _ _ _ _ => ?_
      exact maintains_pure _

abbrev BodyState.Leads (params : List Ty) (s s' : BodyState) : Prop :=
  ScopeChain.Leads params s.scopes s'.scopes

variable {s : BodyState}

theorem leads_install (storage : Storage) (setup : Setup) :
    Maintains (s.Leads params) (install storage setup) := by
  unfold install
  split
  next => exact .bind (maintains_modifyGet fun _ hs₁ => hs₁) fun _ _ _ _ => maintains_pure _
  next => exact .bind (maintains_modifyGet fun _ hs₁ => hs₁) fun _ _ _ _ => maintains_pure _

theorem leads_declarators {base : Ty} (fits : s.scopes.Fits storage) (scalar : base.isScalar = true)
    (hoisted : Bool) (nodes : List Tree) :
    Maintains (s.Leads params) (declarators table base storage hoisted nodes) := by
  induction nodes with
  | nil => exact maintains_pure _
  | cons node rest ih =>
    have hdeclarator : Maintains (s.Leads params) (liftM (declarator table base storage hoisted node) :
        BodyM Setup) := by
      intro s₁ hs₁
      have hlast : ScopeChain.Leads params s.scopes
          (lastState (declarator table base storage hoisted node s₁.scopes)) :=
        leads_declarator fits scalar hoisted node s₁.scopes hs₁
      rw [liftScope_apply]
      cases hcase : declarator table base storage hoisted node s₁.scopes <;> rw [hcase] at hlast <;> exact hlast
    refine .bind hdeclarator fun setup _ _ _ => .bind (leads_install storage setup) fun _ _ _ _ => ?_
    exact .bind ih fun _ _ _ _ => maintains_pure _

/-- A declaration takes slots where it may: static ones at file scope, any in functions. -/
theorem leads_declaration (node : Tree) (hs : Reachable params s.scopes) :
    s.Leads params (lastState (declaration table node s)) := by
  have hfits : s.scopes.Fits (storageOf s.scopes.depth node) := by
    by_cases inside : s.scopes.enclosing = []
    · exact .inl (by simp [storageOf, depth, inside])
    · exact fits_storageOf inside
  change s.Leads params (lastState ((liftM (baseType node) >>= _ : BodyM Code) s))
  refine lastState_check (.refl hs) fun base hbase => ?_
  exact leads_declarators hfits (baseType_scalar hbase) _ _ s (.refl hs)

/-- Inside a function all of this passes on to whole bodies. -/
theorem leads_body : BodyInvariant table fun s s' => ∀ params, Reachable params s.scopes →
    s.scopes.enclosing ≠ [] → s.Leads params s' where
  refl _ _ hs _ := .refl hs
  trans h h' params hs inside := by
    have hfirst := h params hs inside
    refine hfirst.trans (h' params hfirst.reachable ?_)
    rw [hfirst.grows.enclosing]
    exact inside
  temps h _ hs _ := (Leads.refl hs).temps h
  labels _ _ _ hs _ := .refl hs
  declaration node _ _ hs _ := leads_declaration node hs
  block h params hs inside := .block inside (h params (hs.enterBlock inside) (by simp [enter]))

/-- In the outermost scope of a function, with some of its parameters declared. -/
def BodyState.InFunction (s : BodyState) : Prop :=
  ∃ params, Reachable params s.scopes ∧ s.scopes.depth = 2

theorem BodyState.InFunction.leads {s s' : BodyState} (hs : s.InFunction)
    (h : ∀ params, Reachable params s.scopes → s.scopes.enclosing ≠ [] → s.Leads params s') :
    s'.InFunction := by
  obtain ⟨params, hreachable, hdepth⟩ := hs
  have inside : s.scopes.enclosing ≠ [] := by
    intro hnil
    simp [depth, hnil] at hdepth
  have hleads := h params hreachable inside
  exact ⟨params, hleads.reachable, hleads.grows.depth.trans hdepth⟩

theorem inFunction_declareParameters {parms : List (Tree × Ty)}
    (storable : ∀ p ∈ parms, p.2.isStorable = true) :
    Maintains (fun c : ScopeChain => ∃ params, Reachable params c ∧ c.depth = 2)
      (Session.declareParameters parms) := by
  induction parms with
  | nil => exact maintains_pure _
  | cons parm rest ih =>
    refine .bind (maintains_lift _) fun name _ _ _ => .bind ?_ fun _ _ _ _ => ?_
    · rintro c ⟨params, hc, hdepth⟩
      change ∃ params, Reachable params (lastState ((liftM (c.declare name parm.2 .arg none parm.1.line) >>= _ :
        ScopeM Place) c)) ∧ _
      refine lastState_check (P := fun c : ScopeChain => ∃ params, Reachable params c ∧ c.depth = 2)
        ⟨params, hc, hdepth⟩ ?_
      rintro ⟨slot, c'⟩ hdeclare
      refine ⟨_, hc.parameter hdepth (storable parm (by simp)) hdeclare, ?_⟩
      obtain ⟨-, rfl⟩ := declare_ok hdeclare
      exact hdepth
    · exact ih fun p hp => storable p (by simp [hp])

/-- Behind a function the file scope is open again, whether the function is compiled or fails. -/
theorem reachable_functionFrame {table : FunctionTable} {result : Ty} {decl : Tree} {s : BodyState}
    (hs : Reachable [] s.scopes) (hfile : s.scopes.enclosing = []) :
    Reachable [] (lastState (Session.functionFrame table result decl s)).scopes := by
  have hentered : ({ s with scopes := s.scopes.enter .function } : BodyState).InFunction :=
    ⟨[], hs.enterFunction hfile, by simp [depth, enter, hfile]⟩
  have hparms : ∀ parms, parameters decl = .ok parms →
      Maintains BodyState.InFunction (liftM (Session.declareParameters parms) : BodyM Unit) := by
    intro parms hparms s₁ hs₁
    have hlast := inFunction_declareParameters (Session.parameters_storable hparms) s₁.scopes hs₁
    rw [liftScope_apply]
    cases hcase : Session.declareParameters parms s₁.scopes <;> rw [hcase] at hlast <;> exact hlast
  obtain ⟨s', ⟨params, hreachable, hdepth⟩, hlast⟩ :=
    leads_body.functionFrame hparms (fun _ _ => BodyState.InFunction.leads) hentered
  have hone : s.scopes.depth = 1 := by simp [depth, hfile]
  rw [hlast, hone]
  exact hreachable.leaveFunction hdepth

end Lowering

namespace Session

structure WellFormed (s : Session) : Prop where
  atFile : s.AtFile
  table : s.functions.Reachable

theorem wellFormed_register (decl : Tree) : Maintains WellFormed (register decl) := by
  intro s hs
  obtain ⟨functions, hlast, -, htable⟩ := lastState_register decl s
  rw [hlast]
  exact ⟨⟨hs.atFile.reachable, hs.atFile.enclosing⟩, htable hs.table⟩

theorem wellFormed_variables (table : FunctionTable) (decl : Tree) :
    Maintains WellFormed (inBody (declaration table decl)) := by
  intro s hs
  have hleads := @leads_declaration table [] ⟨s.scopes, s.staticInit, 0⟩ decl hs.atFile.reachable
  rw [lastState_inBody]
  exact ⟨⟨hleads.reachable, hleads.grows.enclosing.trans hs.atFile.enclosing⟩, hs.table⟩

theorem wellFormed_routine (decl : Tree) : Maintains WellFormed (routine decl) := by
  refine maintains_routine fun table result s hs => ?_
  have hadds := (@adds_functionFrame table result decl ⟨s.scopes, s.staticInit, 0⟩).1
  have hreachable := @reachable_functionFrame table result decl ⟨s.scopes, s.staticInit, 0⟩
    hs.atFile.reachable hs.atFile.enclosing
  rw [lastState_inBody]
  exact ⟨⟨hreachable, hadds.scopes.enclosing.trans hs.atFile.enclosing⟩, hs.table⟩

/-- What calls lead to is well formed, whatever they compile and whether they succeed or fail. -/
theorem Reached.wellFormed {s : Session} (h : s.Reached) : s.WellFormed := by
  induction h with
  | empty => exact ⟨⟨.empty, rfl⟩, .empty⟩
  | program _ program ih =>
    exact maintains_compileProgram wellFormed_register wellFormed_variables wellFormed_routine
      (fun _ hs => ⟨⟨hs.atFile.reachable, hs.atFile.enclosing⟩, hs.table⟩) program _ ih
  | function _ decl ih =>
    exact maintains_compileFunction (wellFormed_register decl) (wellFormed_routine decl) _ ih

end Session

end StackCompiler
