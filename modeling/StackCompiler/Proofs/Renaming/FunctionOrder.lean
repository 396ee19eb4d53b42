import Mathlib.Data.List.Perm.Basic
import StackCompiler.Proofs.Lowering.CallLinks
import StackCompiler.Proofs.Renaming.Programs

/-!
The order of the functions of a program does not matter. A function without `static` variables leaves no
trace for the next, and the handles of the functions are all that moves with their declarations.
-/

set_option autoImplicit false
namespace StackCompiler

open Lowering Typing Shape

/-! Images up to handles. -/

inductive NamedInstr where
  | call (name : Option String)
  | other (instr : Instr)
  deriving DecidableEq

structure NamedRoutine where
  handle : Option String
  result : Ty
  parameters : List Ty
  locals : List Ty
  code : List NamedInstr
  deriving DecidableEq

namespace Image

def denoted? (image : Image) (handle : Nat) : Option String :=
  image.functions[handle]?.map fun g => g.signature.name

def named (image : Image) : Instr → NamedInstr
  | .call handle => .call (image.denoted? handle)
  | instr => .other instr

def function? (image : Image) (name : String) : Option NamedRoutine :=
  (image.routine? name).map fun g =>
    ⟨image.denoted? g.signature.handle, g.signature.result, g.signature.parameters, g.locals,
      g.code.map image.named⟩

end Image

/-! Renaming that keeps all names. -/

namespace Tree

theorem use_same (b : Bindings) (token : Token) : Renaming.same.useToken b token = token := by
  have hname : Renaming.same.use b token.lexeme = token.lexeme := by
    unfold Renaming.use
    split <;> rfl
  rw [Renaming.useToken, hname]

theorem map_use_same (b : Bindings) (token : Option Token) : token.map (Renaming.same.useToken b) = token := by
  cases token with
  | none => rfl
  | some token => rw [Option.map_some, use_same]

theorem declare_same (b : Bindings) (t : Tree) : (Renaming.same.declare b t).1 = t := by
  obtain ⟨tag, token, children⟩ := t
  cases token <;> rfl

mutual

theorem renameUses_same (b : Bindings) : (t : Tree) → t.renameUses .same b = t
  | ⟨tag, token, children⟩ => by
    rw [renameUses, renameUsesIn_same b children, map_use_same, ite_self]
termination_by structural t => t

theorem renameUsesIn_same (b : Bindings) : (ts : List Tree) → renameUsesIn .same b ts = ts
  | [] => rfl
  | t :: rest => by rw [renameUsesIn, renameUses_same b t, renameUsesIn_same b rest]
termination_by structural ts => ts

end

theorem renameDeclarator_same (b : Bindings) (ts : List Tree) : (renameDeclarator .same b ts).1 = ts := by
  cases ts with
  | nil => rfl
  | cons id inits => rw [renameDeclarator, declare_same, renameUsesIn_same]

mutual

theorem rename_same (b : Bindings) : (t : Tree) → (t.rename .same b).1 = t
  | ⟨tag, token, children⟩ => by
    cases tag <;> simp [rename, declare_same, renameDeclarator_same, renameUses_same, map_use_same,
      renameAll_same, renameFunction_same]
termination_by structural t => t

theorem renameAll_same (b : Bindings) : (ts : List Tree) → (renameAll .same b ts).1 = ts
  | [] => rfl
  | t :: rest => by
    rw [renameAll, rename_same b t, renameAll_same _ rest]
termination_by structural ts => ts

theorem renameFunction_same (b : Bindings) : (ts : List Tree) → (renameFunction .same b ts).1 = ts
  | [] => rfl
  | ⟨tag, token, children⟩ :: rest => by
    have hrest := fun b => renameFunction_same b rest
    have hchildren := fun b => renameAll_same b children
    have hfirst := rename_same b ⟨tag, token, children⟩
    cases tag <;> simp [renameFunction, hrest, hchildren, hfirst]
termination_by structural ts => ts

end

variable {p : Tree → Bool}

mutual

theorem any_eq_false (h : ∀ t, p t = false) : (t : Tree) → t.any p = false
  | ⟨tag, token, children⟩ => by rw [any, h, anyOf_none h children, Bool.or_self]
termination_by structural t => t

theorem anyOf_none (h : ∀ t, p t = false) : (ts : List Tree) → anyOf p ts = false
  | [] => rfl
  | t :: rest => by rw [anyOf, any_eq_false h t, anyOf_none h rest, Bool.or_self]
termination_by structural ts => ts

end

end Tree

namespace Renaming

theorem allows_same (t : Tree) : same.Allows t :=
  Tree.any_eq_false (fun node => by cases node.token <;> rfl) t

end Renaming

namespace Session

/-! Functions that leave no trace. -/

/-- Two sessions that differ at most in the types of the local slots, which the next function resets. -/
def SameFile (s s' : Session) : Prop :=
  s' = { s with scopes := { s.scopes with locals := s'.scopes.locals } }

theorem SameFile.symm {s s' : Session} (h : SameFile s s') : SameFile s' s := by
  rw [SameFile] at h ⊢
  rw [h]

theorem SameFile.trans {s s₁ s' : Session} (h : SameFile s s₁) (h' : SameFile s₁ s') : SameFile s s' := by
  rw [SameFile] at h h' ⊢
  rw [h', h]

theorem routine_sameFile {decl : Tree} {s s₁ s' : Session} {g : Routine} (hs : SameFile s s₁)
    (h : routine decl s = .ok g s') : routine decl s₁ = .ok g s' := by
  obtain ⟨name, parms, entry, block, flat, e, hname, hlookup, hparms, hentry, hblock, hflat, hg, rfl⟩ :=
    routine_iff.1 h
  rw [hs]
  exact routine_iff.2 ⟨name, parms, entry, block, flat, e, hname, hlookup, hparms, hentry, hblock, hflat,
    hg, rfl⟩

variable {decls : List Tree} {s s' : Session} {gs : List Routine}

def Traceless (decl : Tree) : Prop :=
  Function decl ∧ decl.any Tree.declaresStatic = false

theorem sameFile_of_routine {decl : Tree} (hdecl : Traceless decl) {g : Routine}
    (h : routine decl s = .ok g s') : SameFile s s' := by
  obtain ⟨hfunctions, hinnermost, henclosing, hquiet⟩ := routine_contained hdecl.1 h
  obtain ⟨hstatics, hinit⟩ := hquiet hdecl.2
  obtain ⟨⟨innermost, enclosing, statics, locals⟩, functions, staticInit⟩ := s
  obtain ⟨⟨innermost', enclosing', statics', locals'⟩, functions', staticInit'⟩ := s'
  simp_all [SameFile]

def Yields (s : Session) (decl : Tree) (g : Routine) : Prop :=
  ∃ s', routine decl s = .ok g s'

theorem entered_of_yields {decl : Tree} {g : Routine} (h : Yields s decl g) : Entered s.functions decl g := by
  obtain ⟨s', hrun⟩ := h
  obtain ⟨name, -, -, -, -, -, hname, hlookup, -⟩ := routine_iff.1 hrun
  exact ⟨name, hname, hlookup⟩

/-- Functions without `static` variables are compiled as if each were the first. -/
theorem yields_of_routines (each : ∀ decl ∈ decls, Traceless decl) (h : routines decls s = .ok gs s') :
    List.Forall₂ (Yields s) decls gs ∧ SameFile s s' := by
  induction decls generalizing s gs with
  | nil =>
    obtain ⟨rfl, rfl⟩ := pure_ok.1 h
    exact ⟨.nil, rfl⟩
  | cons decl rest ih =>
    rw [List.forall_mem_cons] at each
    obtain ⟨g, s₁, more, hg, hmore, rfl⟩ := (routines_function each.1.1.tag).1 h
    have hs₁ := sameFile_of_routine each.1 hg
    obtain ⟨hall, hs'⟩ := ih each.2 hmore
    refine ⟨.cons ⟨s₁, hg⟩ (hall.imp fun decl g hyields => ?_), hs₁.trans hs'⟩
    obtain ⟨s₂, hrun⟩ := hyields
    exact ⟨s₂, routine_sameFile hs₁.symm hrun⟩

theorem routines_of_yields (each : ∀ decl ∈ decls, Traceless decl) (h : List.Forall₂ (Yields s) decls gs) :
    ∃ s', routines decls s = .ok gs s' := by
  induction decls generalizing s gs with
  | nil =>
    cases h
    exact ⟨s, rfl⟩
  | cons decl rest ih =>
    rw [List.forall_mem_cons] at each
    cases h with
    | cons first hall =>
      obtain ⟨s₁, hg⟩ := first
      have hs₁ := sameFile_of_routine each.1 hg
      obtain ⟨s', hrest⟩ := ih each.2 (hall.imp fun decl g hyields => by
        obtain ⟨s₂, hrun⟩ := hyields
        exact ⟨s₂, routine_sameFile hs₁ hrun⟩)
      exact ⟨s', (routines_function each.1.1.tag).2 ⟨_, s₁, _, hg, hrest, rfl⟩⟩

/-- Variables in front of the functions yield no functions. -/
theorem routines_append {vars : List Tree} (isVar : ∀ decl ∈ vars, decl.tag = .varDecl) :
    routines (vars ++ decls) s = .ok gs s' ↔
      ∃ s₁, routines vars s = .ok [] s₁ ∧ routines decls s₁ = .ok gs s' := by
  induction vars generalizing s with
  | nil =>
    constructor
    · exact fun h => ⟨s, rfl, h⟩
    · rintro ⟨_, h, hrest⟩
      obtain ⟨-, rfl⟩ := pure_ok.1 h
      exact hrest
  | cons decl rest ih =>
    rw [List.forall_mem_cons] at isVar
    simp only [List.cons_append, routines_variables isVar.1, ih isVar.2]
    constructor
    · rintro ⟨code, s₁, hcode, s₂, hvars, hdecls⟩
      exact ⟨s₂, ⟨code, s₁, hcode, hvars⟩, hdecls⟩
    · rintro ⟨s₂, ⟨code, s₁, hcode, hvars⟩, hdecls⟩
      exact ⟨code, s₁, hcode, s₂, hvars, hdecls⟩

end Session

/-! Tables in another order. -/

theorem functionDeclarations_append {vars decls : List Tree} (isVar : ∀ decl ∈ vars, decl.tag = .varDecl)
    (isFun : ∀ decl ∈ decls, decl.tag = .funDecl) : functionDeclarations (vars ++ decls) = decls := by
  rw [functionDeclarations, List.filter_append, List.filter_eq_nil_iff.2 ?_, List.filter_eq_self.2 ?_,
    List.nil_append]
  · exact fun decl hdecl => by simp [isFun decl hdecl]
  · exact fun decl hdecl => by simp [isVar decl hdecl]

def FunctionTable.handleIn (table table' : FunctionTable) (handle : Nat) : Nat :=
  match table.signatures[handle]? with
  | some signature => ((table'.lookup? signature.name).map Signature.handle).getD handle
  | none => handle

def FunctionTable.SameOffers (table table' : FunctionTable) : Prop :=
  ∀ name types result, offeredBy table name types result ↔ offeredBy table' name types result

theorem FunctionTable.SameOffers.lookup {table table' : FunctionTable} (h : table.SameOffers table')
    (htable : table.Reachable) {name : String} {signature : Signature}
    (hlookup : table.lookup? name = some signature) :
    table'.lookup? name = some { signature with handle := table.handleIn table' signature.handle } := by
  have hname : signature.name = name := by simpa using List.find?_some hlookup
  obtain ⟨signature', hlookup', hparameters, hresult⟩ := (h _ _ _).1 ⟨signature, hlookup, rfl, rfl⟩
  have hname' : signature'.name = name := by simpa using List.find?_some hlookup'
  have hhandle : table.handleIn table' signature.handle = signature'.handle := by
    rw [FunctionTable.handleIn, htable.sound.getElem_handle hlookup]
    simp [hname, hlookup']
  rw [hlookup', hhandle]
  obtain ⟨name', result', parameters', handle'⟩ := signature'
  simp_all

def Renumbering.between {table table' : FunctionTable} (h : table.SameOffers table')
    (htable : table.Reachable) : Renumbering table table' :=
  ⟨table.handleIn table', h.lookup htable⟩

/-! Programs. -/

namespace Session

/-- Declarations of variables keep the table of functions. -/
theorem functions_of_variables {vars : List Tree} (isVar : ∀ decl ∈ vars, decl.tag = .varDecl) {s s' : Session}
    {gs : List Routine} (h : routines vars s = .ok gs s') : s'.functions = s.functions := by
  induction vars generalizing s with
  | nil =>
    obtain ⟨-, rfl⟩ := pure_ok.1 h
    rfl
  | cons decl rest ih =>
    rw [List.forall_mem_cons] at isVar
    obtain ⟨code, s₁, hcode, hrest⟩ := (routines_variables isVar.1).1 h
    obtain ⟨e, -, hs₁⟩ := inBody_ok.1 hcode
    rw [ih isVar.2 hrest, hs₁]

/-- Functions are registered in any order, and then offered all the same. -/
theorem registerAll_reordered {vars decls decls' : List Tree} (isVar : ∀ decl ∈ vars, decl.tag = .varDecl)
    (isFun : ∀ decl ∈ decls, Function decl) (perm : decls.Perm decls') {s : Session} {u : Unit}
    (h : registerAll (vars ++ decls) .empty = .ok u s) :
    ∃ s', registerAll (vars ++ decls') .empty = .ok () s' ∧ s.functions.SameOffers s'.functions := by
  obtain ⟨hdistinct, heach, hoffered⟩ := registered h
  have hdecls := functionDeclarations_append isVar fun decl hdecl => (isFun decl hdecl).tag
  have hdecls' := functionDeclarations_append isVar fun decl hdecl => (isFun decl (perm.mem_iff.2 hdecl)).tag
  rw [hdecls] at hdistinct heach
  obtain ⟨s', h'⟩ : ∃ s', registerAll (vars ++ decls') .empty = .ok () s' := by
    refine registerAll_succeeds ?_ ?_ ?_ ?_ ?_ <;> rw [hdecls']
    · intro decl hdecl
      cases isFun decl (perm.mem_iff.2 hdecl)
      rfl
    · exact fun decl hdecl => (heach decl (perm.mem_iff.2 hdecl)).1
    · exact (perm.map word).nodup_iff.1 hdistinct
    · exact fun decl hdecl => (heach decl (perm.mem_iff.2 hdecl)).2.1
    · exact fun decl hdecl => (heach decl (perm.mem_iff.2 hdecl)).2.2
  obtain ⟨-, -, hoffered'⟩ := registered h'
  refine ⟨s', h', fun name types result => ?_⟩
  rw [hoffered, hoffered', functionsOf, functionsOf, hdecls, hdecls']
  simp only [perm.mem_iff]

end Session

namespace Image

variable {image image' : Image} {table table' : FunctionTable}

theorem denoted_eq (h : image.functions.map Routine.signature = table.signatures) (handle : Nat) :
    image.denoted? handle = table.signatures[handle]?.map Signature.name := by
  rw [denoted?, ← h, List.getElem?_map, Option.map_map]
  rfl

/-- Two images that differ at most in the order of their functions. -/
structure Agrees (image image' : Image) : Prop where
  statics : image'.statics = image.statics
  staticInit : image'.staticInit.map image'.named = image.staticInit.map image.named
  functions : ∀ name, image'.function? name = image.function? name

/-- A handle and its successor denote the same function. -/
theorem denoted_handleIn (same : table.SameOffers table') (htable : table.Reachable)
    (htable' : table'.Reachable) (hentries : image.functions.map Routine.signature = table.signatures)
    (hentries' : image'.functions.map Routine.signature = table'.signatures)
    (hlength : image'.functions.length = image.functions.length) (handle : Nat) :
    image'.denoted? (table.handleIn table' handle) = image.denoted? handle := by
  have hsignatures : table'.signatures.length = table.signatures.length := by
    rw [← hentries, ← hentries', List.length_map, List.length_map, hlength]
  rw [denoted_eq hentries, denoted_eq hentries', FunctionTable.handleIn]
  cases hentry : table.signatures[handle]? with
  | none =>
    rw [List.getElem?_eq_none_iff, ← hsignatures] at hentry
    rw [List.getElem?_eq_none hentry]
  | some signature =>
    have hlookup := same.lookup htable (htable.lookup (List.mem_of_getElem? hentry))
    simp only [hlookup, Option.map_some, Option.getD_some]
    rw [htable'.sound.getElem_handle hlookup, Option.map_some]

theorem named_code {ρ : Renumbering table table'}
    (denoted : ∀ handle, image'.denoted? (ρ.handle handle) = image.denoted? handle) (code : Code) :
    (ρ.code code).map image'.named = code.map image.named := by
  rw [Renumbering.code, List.map_map]
  refine List.map_congr_left fun instr _ => ?_
  cases instr with
  | call handle => exact congrArg NamedInstr.call (denoted handle)
  | _ => rfl

/-- The order of the functions plays no part in finding one of them. -/
theorem routine?_of_perm {ρ : Renumbering table table'}
    (hnodup : (image.functions.map fun g => g.signature.name).Nodup)
    (hnodup' : (image'.functions.map fun g => g.signature.name).Nodup)
    (perm : image'.functions.Perm (image.functions.map ρ.routine)) (name : String) :
    image'.routine? name = (image.routine? name).map ρ.routine := by
  ext g
  rw [routine?_eq_some hnodup', perm.mem_iff, List.mem_map, Option.map_eq_some_iff]
  constructor
  · rintro ⟨⟨g, hg, rfl⟩, hname⟩
    exact ⟨g, (routine?_eq_some hnodup).2 ⟨hg, hname⟩, rfl⟩
  · rintro ⟨g, hg, rfl⟩
    obtain ⟨hg, hname⟩ := (routine?_eq_some hnodup).1 hg
    exact ⟨⟨g, hg, rfl⟩, hname⟩

theorem agrees_of_perm {ρ : Renumbering table table'}
    (denoted : ∀ handle, image'.denoted? (ρ.handle handle) = image.denoted? handle)
    (hnodup : (image.functions.map fun g => g.signature.name).Nodup)
    (hnodup' : (image'.functions.map fun g => g.signature.name).Nodup)
    (perm : image'.functions.Perm (image.functions.map ρ.routine)) (statics : image'.statics = image.statics)
    (staticInit : image'.staticInit = ρ.code image.staticInit) : image.Agrees image' := by
  refine ⟨statics, by rw [staticInit, named_code denoted], fun name => ?_⟩
  rw [function?, function?, routine?_of_perm hnodup hnodup' perm, Option.map_map]
  congr 1
  funext g
  simp only [Function.comp_apply, Renumbering.routine, Renumbering.signature, named_code denoted, denoted]

end Image

namespace Session

variable {table table' : FunctionTable} (ρ : Renumbering table table')

/-- Variables at the head of a program run the same whatever the handles of the functions. -/
theorem variables_renumbered {vars : List Tree} (isVar : ∀ decl ∈ vars, Variables none decl) {s : Session}
    (h : routines vars { Session.empty with functions := table } = .ok [] s) :
    ∃ b, Renaming.same.Follows b s.scopes ∧
      routines vars { Session.empty with functions := table' } = .ok [] (ρ.session .same b s) := by
  obtain ⟨hrun, hb⟩ := routines_renamed (fun decl hdecl => .inl (isVar decl hdecl))
    (fun decl _ => Renaming.allows_same decl) ρ rfl Renaming.follows_start h
  rw [Tree.renameAll_same] at hrun
  exact ⟨_, hb, hrun⟩

/-- So does each function behind them. -/
theorem yields_renumbered {decls : List Tree} (isFun : ∀ decl ∈ decls, Function decl) {s : Session}
    (hs : s.functions = table) {b : Bindings} (hb : Renaming.same.Follows b s.scopes) {gs : List Routine}
    (h : List.Forall₂ (Yields s) decls gs) :
    List.Forall₂ (Yields (ρ.session .same b s)) decls (gs.map ρ.routine) := by
  rw [List.forall₂_map_right_iff]
  refine ((List.forall₂_and_left ..).2 ⟨isFun, h⟩).imp ?_
  rintro decl g ⟨hdecl, s', hrun⟩
  obtain ⟨hrun', -⟩ := routine_renamed hdecl (Renaming.allows_same decl) ρ hs hb hrun
  rw [Tree.rename_same] at hrun'
  exact ⟨_, hrun'⟩

/-- What the functions behind some variables are compiled to, in the order of their handles. -/
theorem entries_of_yields {vars decls : List Tree} (isVar : ∀ decl ∈ vars, decl.tag = .varDecl)
    (isFun : ∀ decl ∈ decls, decl.tag = .funDecl) {s s₀ : Session} {u : Unit}
    (h : registerAll (vars ++ decls) .empty = .ok u s₀) (hs : s.functions = s₀.functions) {gs : List Routine}
    (hyields : List.Forall₂ (Yields s) decls gs) :
    s₀.functions.Reachable ∧ gs.map Routine.signature = s₀.functions.signatures ∧
      (gs.map fun g => g.signature.name).Nodup := by
  have hentered := hyields.imp fun decl g hyield => entered_of_yields hyield
  rw [hs, ← functionDeclarations_append isVar isFun] at hentered
  obtain ⟨hreachable, hentries, -, hnodup⟩ := entries_of_registerAll h hentered
  exact ⟨hreachable, hentries, hnodup⟩

end Session

/-- A program with its functions in another order is compiled as well, to an image that agrees. -/
theorem compileProgram_reordered {vars decls decls' : List Tree} (isVar : ∀ decl ∈ vars, Variables none decl)
    (traceless : ∀ decl ∈ decls, Session.Traceless decl) (perm : decls.Perm decls') {image : Image} {s : Session}
    (h : Session.compileProgram (.inner .program (vars ++ decls)) .empty = .ok image s) :
    ∃ image' s', Session.compileProgram (.inner .program (vars ++ decls')) .empty = .ok image' s' ∧
      image.Agrees image' := by
  have htags : ∀ decl ∈ vars, decl.tag = .varDecl := fun decl hdecl => (isVar decl hdecl).tag
  have isFun : ∀ decl ∈ decls, Function decl := fun decl hdecl => (traceless decl hdecl).1
  have traceless' : ∀ decl ∈ decls', Session.Traceless decl := fun decl hdecl =>
    traceless decl (perm.mem_iff.2 hdecl)
  obtain ⟨-, s₀, s₁, hregister, hroutines, himage, -⟩ := Session.compileProgram_iff.1 h
  obtain ⟨s₀', hregister', hoffers⟩ := Session.registerAll_reordered htags isFun perm hregister
  obtain ⟨hs₀, -⟩ := Session.registerAll_ok hregister
  obtain ⟨hs₀', -⟩ := Session.registerAll_ok hregister'
  obtain ⟨sV, hvars, hfunctions⟩ := (Session.routines_append htags).1 hroutines
  have hsV := Session.functions_of_variables htags hvars
  obtain ⟨hyields, hsame⟩ := Session.yields_of_routines traceless hfunctions
  obtain ⟨htable, hentries, hnodup⟩ :=
    Session.entries_of_yields htags (fun decl hdecl => (isFun decl hdecl).tag) hregister hsV hyields
  -- The variables and each function behind them run as before, with the functions under their new handles.
  rw [hs₀] at hvars
  obtain ⟨b, hb, hvars'⟩ := Session.variables_renumbered (.between hoffers htable) isVar hvars
  rw [← hs₀'] at hvars'
  obtain ⟨gs, hyields', hgs⟩ :=
    List.perm_comp_forall₂ perm.symm (Session.yields_renumbered (.between hoffers htable) isFun hsV hb hyields)
  obtain ⟨s₁', hfunctions'⟩ := Session.routines_of_yields traceless' hyields'
  obtain ⟨-, hsame'⟩ := Session.yields_of_routines traceless' hfunctions'
  have hsV' : ((Renumbering.between hoffers htable).session .same b sV).functions = s₀'.functions := rfl
  obtain ⟨htable', hentries', hnodup'⟩ :=
    Session.entries_of_yields htags (fun decl hdecl => (traceless' decl hdecl).1.tag) hregister' hsV'
      hyields'
  refine ⟨⟨gs, s₁'.scopes.statics, s₁'.staticInit.code⟩, _, Session.compileProgram_iff.2 ⟨rfl, s₀', s₁',
    hregister', (Session.routines_append htags).2 ⟨_, hvars', hfunctions'⟩, rfl, rfl⟩, ?_⟩
  refine Image.agrees_of_perm (Image.denoted_handleIn hoffers htable htable' hentries hentries' ?_) hnodup hnodup'
    hgs ?_ ?_
  · rw [hgs.length_eq, List.length_map]
  · rw [himage, hsame, hsame']
    rfl
  · rw [himage, hsame, hsame']
    rfl

/-- If variables come first and no function declares a `static` one, the functions may stand in any order:
the program compiles or not, and its images agree up to the handles of the functions. -/
theorem function_order {vars decls decls' : List Tree} (isVar : ∀ decl ∈ vars, Variables none decl)
    (isFun : ∀ decl ∈ decls, Function decl) (noStatic : ∀ decl ∈ decls, decl.any Tree.declaresStatic = false)
    (perm : decls.Perm decls') :
    ((∃ image s, Session.compileProgram (.inner .program (vars ++ decls)) .empty = .ok image s) ↔
      ∃ image s, Session.compileProgram (.inner .program (vars ++ decls')) .empty = .ok image s) ∧
    ∀ image s image' s', Session.compileProgram (.inner .program (vars ++ decls)) .empty = .ok image s →
      Session.compileProgram (.inner .program (vars ++ decls')) .empty = .ok image' s' →
      image.Agrees image' := by
  have htraceless : ∀ decl ∈ decls, Session.Traceless decl := fun decl hdecl =>
    ⟨isFun decl hdecl, noStatic decl hdecl⟩
  have htraceless' : ∀ decl ∈ decls', Session.Traceless decl := fun decl hdecl =>
    htraceless decl (perm.mem_iff.2 hdecl)
  refine ⟨⟨?_, ?_⟩, ?_⟩
  · rintro ⟨image, s, h⟩
    obtain ⟨image', s', h', -⟩ := compileProgram_reordered isVar htraceless perm h
    exact ⟨image', s', h'⟩
  · rintro ⟨image, s, h⟩
    obtain ⟨image', s', h', -⟩ := compileProgram_reordered isVar htraceless' perm.symm h
    exact ⟨image', s', h'⟩
  · intro image s image' s' h h'
    obtain ⟨found, _, hfound, hagrees⟩ := compileProgram_reordered isVar htraceless perm h
    rw [h'] at hfound
    cases hfound
    exact hagrees

/-- Two functions change places, and with them the handle that the initializer calls. -/
theorem function_order_swapped : ∃ program v g h image s image' s',
    parse "int x : g(2); int g(int n) \x7b return h(n); \x7d int h(int n) \x7b return n + x; \x7d" =
      .ok program ∧ program.children = [v, g, h] ∧
    Session.compileProgram (.inner .program ([v] ++ [g, h])) .empty = .ok image s ∧
    Session.compileProgram (.inner .program ([v] ++ [h, g])) .empty = .ok image' s' ∧
    callees image.staticInit = [0] ∧ callees image'.staticInit = [1] ∧ image.Agrees image' := by
  have hrun : ((parse "int x : g(2); int g(int n) \x7b return h(n); \x7d int h(int n) \x7b return n + x; \x7d"
      ).toOption.any fun program =>
      program.children[0]?.any fun v => program.children[1]?.any fun g => program.children[2]?.any fun h =>
      (succeeded? (Session.compileProgram (.inner .program ([v] ++ [g, h])) .empty)).any fun first =>
      (succeeded? (Session.compileProgram (.inner .program ([v] ++ [h, g])) .empty)).any fun second =>
        decide (program.children.length = 3 ∧ v.tag = .varDecl ∧ g.tag = .funDecl ∧ h.tag = .funDecl ∧
          g.any Tree.declaresStatic = false ∧ h.any Tree.declaresStatic = false ∧
          callees first.1.staticInit = [0] ∧ callees second.1.staticInit = [1])) = true := by decide +kernel
  obtain ⟨program, hparse, hrun⟩ := ok_of_any hrun
  obtain ⟨v, hv, hrun⟩ := (Option.any_eq_true _ _).1 hrun
  obtain ⟨g, hg, hrun⟩ := (Option.any_eq_true _ _).1 hrun
  obtain ⟨h, hh, hrun⟩ := (Option.any_eq_true _ _).1 hrun
  obtain ⟨image, s, hcompile, hrun⟩ := ok_of_succeeded hrun
  obtain ⟨image', s', hcompile', hrun⟩ := ok_of_succeeded hrun
  obtain ⟨hlength, hvTag, hgTag, hhTag, hquiet, hquiet', hcallees, hcallees'⟩ := of_decide_eq_true hrun
  have hchildren : program.children = [v, g, h] := by
    refine List.ext_getElem? fun i => ?_
    rcases i with _ | _ | _ | i
    · exact hv
    · exact hg
    · exact hh
    · exact List.getElem?_eq_none (by omega)
  obtain ⟨-, hshaped⟩ := Shape.of_program (Grammar.derives_of_parse hparse)
  rw [hchildren] at hshaped
  simp only [List.forall_mem_cons, List.not_mem_nil, false_implies, implies_true, and_true] at hshaped
  obtain ⟨hvar, hfun, hfun'⟩ := hshaped
  have hvar : Variables none v := hvar.elim id fun h => by simp [h.tag] at hvTag
  have hfun : Function g := hfun.elim (fun h => by simp [h.tag] at hgTag) id
  have hfun' : Function h := hfun'.elim (fun h => by simp [h.tag] at hhTag) id
  exact ⟨program, v, g, h, image, s, image', s', hparse, hchildren, hcompile, hcompile', hcallees, hcallees',
    (function_order (by simpa using hvar) (by simp [hfun, hfun']) (by simp [hquiet, hquiet'])
      (.swap h g [])).2 _ _ _ _ hcompile hcompile'⟩

end StackCompiler
