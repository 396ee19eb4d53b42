import StackCompiler.Proofs.Lowering.BodyTypes
import StackCompiler.Proofs.Lowering.SessionRuns

/-!
Whole programs. Registration fills the function table in the order of the declarations, and the compiled
functions come out in the same order, each with its entry of the table. The code of a function is the
flat code of an outline of its body, typed in the frame that the image gives the function.
-/

set_option autoImplicit false
namespace StackCompiler

open Lowering ScopeChain

namespace FunctionTable

/-- A function is found under its name. -/
theorem Reachable.lookup {table : FunctionTable} (h : Reachable table) {signature : Signature}
    (hmem : signature ∈ table.signatures) : table.lookup? signature.name = some signature := by
  induction h with
  | empty => simp [FunctionTable.empty] at hmem
  | declare _ _ _ declared ih =>
    obtain ⟨hfree, rfl⟩ := declare_ok declared
    rw [lookup?, List.find?_append]
    rcases List.mem_append.1 hmem with hmem | hmem
    · have hfound := ih hmem
      rw [lookup?] at hfound
      rw [hfound, Option.some_or]
    · rw [List.mem_singleton] at hmem
      subst hmem
      rw [lookup?] at hfree
      simp [hfree]

end FunctionTable

namespace Session

theorem parameterGroups_storable {groups : List Tree} {parms : List (Tree × Ty)}
    (h : parameterGroups groups = .ok parms) : ∀ p ∈ parms, p.2.isStorable = true := by
  induction groups generalizing parms with
  | nil =>
    cases h
    simp
  | cons group rest ih =>
    simp only [parameterGroups, parameterGroup, Grammar.bind_eq_ok] at h
    obtain ⟨first, ⟨spec, hspec, base, hbase, hfirst⟩, more, hmore, hparms⟩ := h
    cases hfirst
    cases hparms
    intro p hp
    rcases List.mem_append.1 hp with hp | hp
    · obtain ⟨id, -, rfl⟩ := List.mem_map.1 hp
      have hscalar := typeOf_scalar hbase
      simp only [parameterType]
      split
      next => exact hscalar
      next => exact storable_of_scalar hscalar
    · exact ih hmore p hp

theorem parameters_storable {decl : Tree} {parms : List (Tree × Ty)} (h : parameters decl = .ok parms) :
    ∀ p ∈ parms, p.2.isStorable = true := by
  unfold parameters at h
  split at h
  next => cases h
  next => exact parameterGroups_storable h

theorem resultType_scalar {decl : Tree} {result : Ty} (h : resultType decl = .ok result) :
    result = .void ∨ result.isScalar = true := by
  unfold resultType at h
  split at h
  next => exact .inr (typeOf_scalar h)
  next =>
    cases h
    exact .inl rfl

def Registers (decl : Tree) (signature : Signature) : Prop :=
  decl.lexeme = .ok signature.name ∧ ∃ parms, parameters decl = .ok parms ∧
    signature.parameters = parms.map Prod.snd

theorem registers_of_ok {decl : Tree} {s s' : Session} {u : Unit} (h : register decl s = .ok u s') :
    ∃ signature, Registers decl signature ∧
      s'.functions.signatures = s.functions.signatures ++ [signature] ∧
      s' = { s with functions := s'.functions } ∧ (s.functions.Reachable → s'.functions.Reachable) := by
  obtain ⟨name, result, parms, handle, functions, hname, hresult, hparms, hdeclare, rfl⟩ := register_iff.1 h
  obtain ⟨-, hfunctions⟩ := FunctionTable.declare_ok hdeclare
  refine ⟨⟨name, result, parms.map Prod.snd, s.functions.signatures.length⟩, ⟨hname, parms, hparms, rfl⟩,
    by simp [hfunctions], rfl, ?_⟩
  intro htable
  refine htable.declare (resultType_scalar hresult) ?_ hdeclare
  intro ty hty
  obtain ⟨p, hp, rfl⟩ := List.mem_map.1 hty
  exact parameters_storable hparms p hp

/-- Registration only enters functions into the table. -/
theorem registerAll_ok {decls : List Tree} {s s' : Session} {u : Unit}
    (h : registerAll decls s = .ok u s') :
    s' = { s with functions := s'.functions } ∧ s.functions.signatures <+: s'.functions.signatures ∧
      (s.functions.Reachable → s'.functions.Reachable) := by
  induction decls generalizing s with
  | nil =>
    cases registerAll_nil.1 h
    exact ⟨rfl, List.prefix_refl _, id⟩
  | cons decl rest ih =>
    by_cases htag : decl.tag = .funDecl
    · obtain ⟨s₁, hregister, h⟩ := (registerAll_function htag).1 h
      obtain ⟨signature, -, hsignatures, hs₁, htable⟩ := registers_of_ok hregister
      obtain ⟨hs, hprefix, hreachable⟩ := ih h
      rw [hsignatures] at hprefix
      refine ⟨?_, (List.prefix_append _ _).trans hprefix, fun h => hreachable (htable h)⟩
      rw [hs, hs₁]
    · rw [registerAll_skip rest htag] at h
      exact ih h

/-- Parameters take the argument slots in order and leave all else alone. -/
theorem declareParameters_ok {parms : List (Tree × Ty)} {params : List Ty} {c c' : ScopeChain} {u : Unit}
    (h : declareParameters parms c = .ok u c') (hc : ScopeChain.Reachable params c)
    (inside : c.depth = 2) (storable : ∀ p ∈ parms, p.2.isStorable = true) :
    ScopeChain.Reachable (params ++ parms.map Prod.snd) c' ∧ c'.enclosing = c.enclosing ∧
      c'.innermost.kind = c.innermost.kind ∧ c'.statics = c.statics := by
  induction parms generalizing params c with
  | nil =>
    cases declareParameters_nil.1 h
    simpa using hc
  | cons parm rest ih =>
    obtain ⟨id, ty⟩ := parm
    obtain ⟨name, slot, c₁, hname, hdeclare, h⟩ := declareParameters_cons.1 h
    have hc₁ := hc.parameter inside (storable (id, ty) (by simp)) hdeclare
    obtain ⟨-, rfl⟩ := ScopeChain.declare_ok hdeclare
    obtain ⟨hc', henclosing, hkind, hstatics⟩ := ih h hc₁ inside (fun p hp => storable p (by simp [hp]))
    rw [List.append_assoc] at hc'
    exact ⟨hc', henclosing, hkind, hstatics⟩

end Session

theorem hidden_temps {params : List Ty} {c c' : ScopeChain} {own : List Place}
    (h : Extends params c c' own) (hc : ScopeChain.Reachable params c) : Hidden own c := by
  intro scope hscope s hs hown
  have hnone := (h.taken _ hown).1
  simp [(hc.sound.typed scope hscope s hs).1] at hnone

/-- The outline of a function: a scope of its own, its parameters, and the outline of its body. -/
structure OutlinesFunction (table : FunctionTable) (result : Ty) (decl : Tree) (c : ScopeChain)
    (parms : List (Tree × Ty)) (entry : ScopeChain) (body : Stmt) (c' : ScopeChain) : Prop where
  parameters : Lowering.parameters decl = .ok parms
  entered : Session.declareParameters parms (c.enter .function) = .ok () entry
  outlined : ∃ block, decl.find? .compoundStmt = some block ∧
    Outlines table result false (.items block.children) entry body c'

namespace OutlinesFunction

variable {table : FunctionTable} {result : Ty} {decl : Tree} {c entry c' : ScopeChain}
  {parms : List (Tree × Ty)} {body : Stmt}

theorem enters (h : OutlinesFunction table result decl c parms entry body c')
    (hc : ScopeChain.Reachable [] c) (atFile : c.enclosing = []) :
    ScopeChain.Reachable (parms.map Prod.snd) entry ∧ entry.enclosing = [c.innermost] ∧
      entry.statics = c.statics := by
  have hdepth : (c.enter .function).depth = 2 := by simp [depth, enter, atFile]
  obtain ⟨hentry, henclosing, -, hstatics⟩ := Session.declareParameters_ok h.entered
    (hc.enterFunction atFile) hdepth (Session.parameters_storable h.parameters)
  rw [List.nil_append] at hentry
  refine ⟨hentry, ?_, hstatics⟩
  simp only [henclosing, enter, atFile]

theorem body_extends (h : OutlinesFunction table result decl c parms entry body c')
    (hc : ScopeChain.Reachable [] c) (atFile : c.enclosing = []) :
    Extends (parms.map Prod.snd) entry c' body.temps := by
  obtain ⟨hentry, henclosing, -⟩ := h.enters hc atFile
  obtain ⟨block, -, houtlines⟩ := h.outlined
  refine houtlines.extends hentry ?_
  change entry.enclosing ≠ []
  simp [henclosing]

/-- Behind a function the file scope is open again, perhaps with more static slots. -/
theorem leaves (h : OutlinesFunction table result decl c parms entry body c')
    (hc : ScopeChain.Reachable [] c) (atFile : c.enclosing = []) :
    ScopeChain.Reachable [] (c'.exit c.depth) ∧ (c'.exit c.depth).enclosing = [] ∧
      c.statics <+: c'.statics := by
  obtain ⟨-, henclosing, hstatics⟩ := h.enters hc atFile
  have hextends := h.body_extends hc atFile
  have hgrows := hextends.grows
  have hcdepth : c.depth = 1 := by simp [depth, atFile]
  have houter : c'.enclosing = c.innermost :: [] := hgrows.enclosing.trans henclosing
  have hleave := ScopeChain.Reachable.leaveFunction hextends.reachable (by simp [depth, houter])
  rw [hcdepth]
  refine ⟨hleave, ?_, ?_⟩
  · have hexit := exit_innermost houter
    change c'.exit 1 = _ at hexit
    rw [hexit]
  · rw [← hstatics]
    exact hgrows.statics

/-- The outline is typed in every frame that has the slots of the function and the functions of the table. -/
theorem typed (h : OutlinesFunction table result decl c parms entry body c')
    (hc : ScopeChain.Reachable [] c) (atFile : c.enclosing = []) (htable : table.Reachable) {f : Frame}
    (hfunctions : f.functions = table.signatures)
    (hslots : ∀ place ty, c'.slotType (parms.map Prod.snd) place = some ty → f.slots place = some ty) :
    body.Typed f body.temps result false := by
  obtain ⟨hentry, henclosing, -⟩ := h.enters hc atFile
  have hextends := h.body_extends hc atFile
  have hinside : entry.enclosing ≠ [] := by simp [henclosing]
  have hhosts : Hosts f body.temps body.temps (parms.map Prod.snd) entry c' :=
    ⟨hslots, hidden_temps hextends hentry, fun _ _ hplace => hplace, fun _ hplace => hplace⟩
  obtain ⟨block, -, hbody⟩ := h.outlined
  exact (hbody.typed htable.sound hfunctions hentry hinside hhosts).1

end OutlinesFunction

namespace Session

theorem routine_ok {decl : Tree} {s s' : Session} {g : Routine} (h : routine decl s = .ok g s')
    (hdecl : IsFunction s.functions decl) :
    ∃ name parms entry body c', decl.lexeme = .ok name ∧ s.functions.lookup? name = some g.signature ∧
      OutlinesFunction s.functions g.signature.result decl s.scopes parms entry body c' ∧
      g.code = closeBody g.signature.result (body.code none 0) ∧ g.locals = c'.locals ∧
      s'.functions = s.functions ∧ s'.scopes = c'.exit s.scopes.depth := by
  obtain ⟨name, parms, entry, block, flat, b, hname, hsignature, hparms, hentry, hblock, hflat, hg, rfl⟩ :=
    routine_iff.1 h
  obtain ⟨body, houtlines, rfl, -⟩ := items_outlined (hdecl.2 block hblock) hflat
  refine ⟨name, parms, entry, body, b.scopes, hname, hsignature, ⟨hparms, hentry, block, hblock, houtlines⟩, ?_, ?_,
    rfl, rfl⟩ <;> rw [hg]

structure AtFile (s : Session) : Prop where
  reachable : ScopeChain.Reachable [] s.scopes
  enclosing : s.scopes.enclosing = []

structure Keeps (s s' : Session) : Prop where
  atFile : AtFile s'
  functions : s'.functions = s.functions
  statics : s.scopes.statics <+: s'.scopes.statics

theorem Keeps.refl {s : Session} (h : AtFile s) : Keeps s s :=
  ⟨h, rfl, List.prefix_refl _⟩

theorem Keeps.trans {s s₁ s' : Session} (h : Keeps s s₁) (h' : Keeps s₁ s') : Keeps s s' :=
  ⟨h'.atFile, h'.functions.trans h.functions, h.statics.trans h'.statics⟩

theorem keeps_routine {decl : Tree} {s s' : Session} {g : Routine} (h : routine decl s = .ok g s')
    (hdecl : IsFunction s.functions decl) (hs : AtFile s) : Keeps s s' := by
  obtain ⟨name, parms, entry, body, c', -, -, houtlines, -, -, hfunctions, hscopes⟩ := routine_ok h hdecl
  obtain ⟨hreachable, henclosing, hstatics⟩ := houtlines.leaves hs.reachable hs.enclosing
  rw [← hscopes] at hreachable henclosing
  refine ⟨⟨hreachable, henclosing⟩, hfunctions, ?_⟩
  rw [hscopes]
  exact hstatics

theorem keeps_declaration {decl : Tree} {s s' : Session} {code : Code}
    (h : inBody (declaration s.functions decl) s = .ok code s') (hdecl : IsDeclaration decl)
    (hs : AtFile s) : Keeps s s' := by
  obtain ⟨b, hb, rfl⟩ := inBody_ok.1 h
  obtain ⟨base, hbase, hb⟩ := declaration_iff.1 hb
  obtain ⟨outline, houtline, -⟩ := declarators_outlined ⟨.void, none⟩ hdecl hb
  have hdepth : s.scopes.depth = 1 := by simp [depth, hs.enclosing]
  have hfits : s.scopes.Fits (storageOf s.scopes.depth decl) := .inl (by simp [storageOf, hdepth])
  have hextends := houtline.extends hs.reachable ⟨hfits, baseType_scalar hbase⟩
  exact ⟨⟨hextends.reachable, hextends.grows.enclosing.trans hs.enclosing⟩, rfl, hextends.grows.statics⟩

/-- Function number `i` of some declarations, with the sessions before and behind it. -/
structure Position (decls : List Tree) (s : Session) (i : Nat) (decl : Tree) (g : Routine)
    (s₁ s₂ : Session) : Prop where
  split : ∃ before after earlier, decls = before ++ decl :: after ∧
    routines before s = .ok earlier s₁ ∧ earlier.length = i
  isFunction : decl.tag = .funDecl
  compiled : routine decl s₁ = .ok g s₂

theorem routines_ok {decls : List Tree} {s s' : Session} {gs : List Routine}
    (h : routines decls s = .ok gs s') (each : ∀ decl ∈ decls, IsTopLevel s.functions decl)
    (hs : AtFile s) :
    Keeps s s' ∧ ∀ i g, gs[i]? = some g → ∃ decl s₁ s₂, IsFunction s.functions decl ∧
      Position decls s i decl g s₁ s₂ ∧ Keeps s s₁ ∧ Keeps s₂ s' := by
  induction decls generalizing s gs with
  | nil =>
    obtain ⟨rfl, rfl⟩ := pure_ok.1 h
    exact ⟨.refl hs, by simp⟩
  | cons decl rest ih =>
    rcases each decl (by simp) with ⟨htag, hdecl⟩ | hdecl
    · obtain ⟨code, s₁, hcode, hrest⟩ := (routines_variables htag).1 h
      have hkeeps := keeps_declaration hcode hdecl hs
      rw [← hkeeps.functions] at each
      obtain ⟨hall, hmore⟩ := ih hrest (fun decl hmem => each decl (by simp [hmem])) hkeeps.atFile
      refine ⟨hkeeps.trans hall, ?_⟩
      intro i g hg
      obtain ⟨found, s₂, s₃, hfound, ⟨⟨before, after, earlier, hsplit, hbefore, hlength⟩, htag', hg'⟩,
        hfirst, hlast⟩ := hmore i g hg
      rw [hkeeps.functions] at hfound
      exact ⟨found, s₂, s₃, hfound, ⟨⟨decl :: before, after, earlier, by rw [hsplit]; rfl,
        (routines_variables htag).2 ⟨code, s₁, hcode, hbefore⟩, hlength⟩, htag', hg'⟩,
        hkeeps.trans hfirst, hlast⟩
    · obtain ⟨g₀, s₁, more, hg₀, hrest, rfl⟩ := (routines_function hdecl.1).1 h
      have hkeeps := keeps_routine hg₀ hdecl hs
      rw [← hkeeps.functions] at each
      obtain ⟨hall, hmore⟩ := ih hrest (fun decl hmem => each decl (by simp [hmem])) hkeeps.atFile
      refine ⟨hkeeps.trans hall, ?_⟩
      intro i g hg
      cases i with
      | zero =>
        cases hg
        exact ⟨decl, s, s₁, hdecl, ⟨⟨[], rest, [], rfl, rfl, rfl⟩, hdecl.1, hg₀⟩, .refl hs, hall⟩
      | succ i =>
        obtain ⟨found, s₂, s₃, hfound, ⟨⟨before, after, earlier, hsplit, hbefore, hlength⟩, htag', hg'⟩,
          hfirst, hlast⟩ := hmore i g hg
        rw [hkeeps.functions] at hfound
        exact ⟨found, s₂, s₃, hfound, ⟨⟨decl :: before, after, g₀ :: earlier, by rw [hsplit]; rfl,
          (routines_function hdecl.1).2 ⟨g₀, s₁, earlier, hg₀, hbefore, rfl⟩, by simp [hlength]⟩, htag', hg'⟩,
          hkeeps.trans hfirst, hlast⟩

theorem routine_signature {decl : Tree} {s s' : Session} {g : Routine} {signature : Signature}
    (h : routine decl s = .ok g s') (hdecl : IsFunction s.functions decl)
    (hregisters : Registers decl signature) (htable : s.functions.Reachable)
    (hmem : signature ∈ s.functions.signatures) : g.signature = signature := by
  obtain ⟨name, _, _, _, _, hname, hlookup, -⟩ := routine_ok h hdecl
  rw [hregisters.1] at hname
  cases hname
  rw [htable.lookup hmem] at hlookup
  exact (Option.some.inj hlookup).symm

/-- The functions of an image stand in the order of the table. -/
theorem signatures_ok {decls : List Tree} {s s' s₁ s₂ : Session} {u : Unit} {gs : List Routine}
    (hregister : registerAll decls s = .ok u s') (hroutines : routines decls s₁ = .ok gs s₂)
    (hfunctions : s₁.functions = s'.functions) (htable : s.functions.Reachable)
    (each : ∀ decl ∈ decls, IsTopLevel s'.functions decl) (hs : AtFile s₁) :
    s'.functions.signatures = s.functions.signatures ++ gs.map Routine.signature ∧
      ∀ decl ∈ decls, decl.tag = .funDecl → ∃ signature ∈ s'.functions.signatures,
        Registers decl signature := by
  induction decls generalizing s s₁ gs with
  | nil =>
    cases registerAll_nil.1 hregister
    obtain ⟨rfl, -⟩ := pure_ok.1 hroutines
    simp
  | cons decl rest ih =>
    have hrest : ∀ decl ∈ rest, IsTopLevel s'.functions decl := fun decl hmem => each decl (by simp [hmem])
    rcases each decl (by simp) with ⟨htag, hdecl⟩ | hdecl
    · rw [registerAll_skip rest (by simp [htag])] at hregister
      obtain ⟨code, s₃, hcode, hroutines⟩ := (routines_variables htag).1 hroutines
      have hkeeps := keeps_declaration hcode hdecl hs
      obtain ⟨hsignatures, hall⟩ := ih hregister hroutines (hkeeps.functions.trans hfunctions) htable hrest
        hkeeps.atFile
      refine ⟨hsignatures, ?_⟩
      intro found hmem hfound
      rcases List.mem_cons.1 hmem with rfl | hmem
      · rw [htag] at hfound
        cases hfound
      · exact hall found hmem hfound
    · obtain ⟨s₃, hregister₁, hregister⟩ := (registerAll_function hdecl.1).1 hregister
      obtain ⟨g, s₄, more, hg, hmore, rfl⟩ := (routines_function hdecl.1).1 hroutines
      obtain ⟨signature, hregisters, hadded, -, htable₃⟩ := registers_of_ok hregister₁
      obtain ⟨-, hprefix, htable'⟩ := registerAll_ok hregister
      have hmem : signature ∈ s'.functions.signatures := hprefix.subset (by simp [hadded])
      rw [← hfunctions] at hdecl
      have hkeeps := keeps_routine hg hdecl hs
      have hg' : g.signature = signature := by
        refine routine_signature hg hdecl hregisters ?_ ?_ <;> rw [hfunctions]
        · exact htable' (htable₃ htable)
        · exact hmem
      obtain ⟨hsignatures, hall⟩ := ih hregister hmore (hkeeps.functions.trans hfunctions)
        (htable₃ htable) hrest hkeeps.atFile
      refine ⟨?_, ?_⟩
      · rw [hsignatures, hadded, List.map_cons, hg', List.append_assoc]
        rfl
      · intro found hmem' hfound
        rcases List.mem_cons.1 hmem' with rfl | hmem'
        · exact ⟨signature, hmem, hregisters⟩
        · exact hall found hmem' hfound

end Session

/-- What the code of a function may refer to: the slots of the function and the functions of the image. -/
def Image.frame (image : Image) (g : Routine) : Frame where
  slots
    | ⟨.static, slot⟩ => image.statics[slot]?
    | ⟨.local, slot⟩ => g.locals[slot]?
    | ⟨.arg, slot⟩ => g.signature.parameters[slot]?
  functions := image.functions.map Routine.signature

/-- Function number `i` of a program, with what stands open where it is compiled and an outline of it. -/
structure Image.Outlined (program : Tree) (image : Image) (i : Nat) (g : Routine) (body : Stmt) :
    Prop where
  position : ∃ s₀ decl s₁ s₂, Session.registerAll program.children .empty = .ok () s₀ ∧
    Session.Position program.children s₀ i decl g s₁ s₂ ∧
    ∃ parms entry c', OutlinesFunction s₁.functions g.signature.result decl s₁.scopes parms entry body c'
  code : g.code = Session.closeBody g.signature.result (body.code none 0)
  result : g.signature.result = .void ∨ g.signature.result.isScalar = true
  typed : body.Typed (image.frame g) body.temps g.signature.result false
  inFrame : ∀ place ∈ body.temps, place.storage = .local

open Grammar in
/-- Every function of an image has an outline, and the frame of the function hosts it. -/
theorem image_outlined {program : Tree} {ts : List Token} (hprogram : Derives .program ts [program])
    {image : Image} {s' : Session} (h : Session.compileProgram program .empty = .ok image s') {i : Nat}
    {g : Routine} (hg : image.functions[i]? = some g) : ∃ body, image.Outlined program i g body := by
  obtain ⟨-, s₀, s₃, hregister, hroutines, himage, -⟩ := Session.compileProgram_iff.1 h
  have hstatics : image.statics = s₃.scopes.statics := congrArg Image.statics himage
  obtain ⟨hs₀, -, htable⟩ := Session.registerAll_ok hregister
  have htable := htable FunctionTable.Reachable.empty
  have hfile : s₀.AtFile := by
    rw [hs₀]
    exact ⟨ScopeChain.Reachable.empty, rfl⟩
  have heach : ∀ decl ∈ program.children, IsTopLevel s₀.functions decl :=
    outlinedAs hprogram program (List.mem_singleton_self _)
  obtain ⟨-, hall⟩ := Session.routines_ok hroutines heach hfile
  obtain ⟨decl, s₁, s₂, hdecl, hposition, hbefore, hbehind⟩ := hall i g hg
  obtain ⟨hsignatures, hregistered⟩ := Session.signatures_ok hregister hroutines rfl
    FunctionTable.Reachable.empty heach hfile
  rw [← hbefore.functions] at hdecl htable
  obtain ⟨name, parms, entry, body, c', hname, hlookup, houtlines, hcode, hlocals, -, hscopes⟩ :=
    Session.routine_ok hposition.compiled hdecl
  obtain ⟨hentry, henclosing, -⟩ := houtlines.enters hbefore.atFile.reachable hbefore.atFile.enclosing
  have hextends := houtlines.body_extends hbefore.atFile.reachable hbefore.atFile.enclosing
  have hmem : g.signature ∈ s₁.functions.signatures := List.mem_of_find?_eq_some hlookup
  have hparameters : g.signature.parameters = parms.map Prod.snd := by
    obtain ⟨before, after, earlier, hsplit, -⟩ := hposition.split
    obtain ⟨signature, hsignature, hregisters⟩ := hregistered decl (by simp [hsplit]) hposition.isFunction
    rw [← hbefore.functions] at hsignature
    have hsame := Session.routine_signature hposition.compiled hdecl hregisters htable hsignature
    obtain ⟨parms', hparms', htypes⟩ := hregisters.2
    rw [houtlines.parameters] at hparms'
    cases hparms'
    rw [hsame, htypes]
  have hslots : ∀ place ty, c'.slotType (parms.map Prod.snd) place = some ty →
      (image.frame g).slots place = some ty := by
    rintro ⟨storage, slot⟩ ty hty
    cases storage with
    | static =>
      have hprefix : c'.statics <+: image.statics := by
        rw [hstatics]
        have hlater := hbehind.statics
        rw [hscopes] at hlater
        exact hlater
      exact getElem?_of_prefix hprefix hty
    | «local» =>
      change g.locals[slot]? = some ty
      rw [hlocals]
      exact hty
    | arg =>
      change g.signature.parameters[slot]? = some ty
      rw [hparameters]
      exact hty
  have hfunctions : (image.frame g).functions = s₁.functions.signatures := by
    rw [hbefore.functions, hsignatures]
    rfl
  have hinside : entry.enclosing ≠ [] := by simp [henclosing]
  exact ⟨body, ⟨s₀, decl, s₁, s₂, hregister, hposition, parms, entry, c', houtlines⟩, hcode,
    htable.sound.result g.signature hmem,
    houtlines.typed hbefore.atFile.reachable hbefore.atFile.enclosing htable hfunctions hslots,
    hextends.inFrame hinside⟩

end StackCompiler
