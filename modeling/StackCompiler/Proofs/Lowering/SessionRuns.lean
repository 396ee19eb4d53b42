import StackCompiler.Proofs.Lowering.StatementRuns

/-!
Runs of sessions, one equivalence for each function: the registration of functions, the compilation of one
function, and that of a program.
-/

set_option autoImplicit false
namespace StackCompiler.Session

open Lowering

theorem inBody_ok {α : Type} {m : BodyM α} {s s' : Session} {a : α} :
    inBody m s = .ok a s' ↔ ∃ b, m ⟨s.scopes, s.staticInit, 0⟩ = .ok a b ∧
      s' = { s with scopes := b.scopes, staticInit := b.staticInit } := by
  unfold inBody
  cases m ⟨s.scopes, s.staticInit, 0⟩ with
  | ok b t =>
    constructor
    · intro h
      cases h
      exact ⟨t, rfl, rfl⟩
    · rintro ⟨u, h, rfl⟩
      cases h
      rfl
  | error e t => simp

/-! Registration. -/

theorem register_iff {decl : Tree} {s s' : Session} {u : Unit} :
    register decl s = .ok u s' ↔
      ∃ name result parms handle functions, decl.lexeme = .ok name ∧ resultType decl = .ok result ∧
        parameters decl = .ok parms ∧
        s.functions.declare name result (parms.map Prod.snd) decl.line = .ok (handle, functions) ∧
        s' = { s with functions } := by
  simp only [register, bind_ok, lift_ok, get_ok]
  constructor
  · rintro ⟨result, _, ⟨hresult, rfl⟩, parms, _, ⟨hparms, rfl⟩, name, _, ⟨hname, rfl⟩, _, _, ⟨rfl, rfl⟩,
      ⟨handle, functions⟩, _, ⟨hdeclare, rfl⟩, hmodify⟩
    cases modifyGet_ok.1 hmodify
    exact ⟨name, result, parms, handle, functions, hname, hresult, hparms, hdeclare, rfl⟩
  · rintro ⟨name, result, parms, handle, functions, hname, hresult, hparms, hdeclare, rfl⟩
    exact ⟨result, s, ⟨hresult, rfl⟩, parms, s, ⟨hparms, rfl⟩, name, s, ⟨hname, rfl⟩, s, s, ⟨rfl, rfl⟩,
      (handle, functions), s, ⟨hdeclare, rfl⟩, modifyGet_ok.2 rfl⟩

theorem registerAll_nil {s s' : Session} {u : Unit} : registerAll [] s = .ok u s' ↔ s' = s := by
  rw [registerAll, pure_ok, eq_comm (a := s)]
  exact and_iff_right rfl

theorem registerAll_function {decl : Tree} {rest : List Tree} {s s' : Session} {u : Unit}
    (htag : decl.tag = .funDecl) :
    registerAll (decl :: rest) s = .ok u s' ↔
      ∃ s₁, register decl s = .ok () s₁ ∧ registerAll rest s₁ = .ok u s' := by
  rw [registerAll, if_pos htag, bind_ok]
  exact ⟨fun ⟨_, s₁, hfirst, hrest⟩ => ⟨s₁, hfirst, hrest⟩, fun ⟨s₁, hfirst, hrest⟩ => ⟨(), s₁, hfirst, hrest⟩⟩

theorem registerAll_skip {decl : Tree} (rest : List Tree) (htag : decl.tag ≠ .funDecl) :
    registerAll (decl :: rest) = registerAll rest := by
  rw [registerAll, if_neg htag]

/-! Functions. -/

theorem declareParameters_nil {c c' : ScopeChain} {u : Unit} :
    declareParameters [] c = .ok u c' ↔ c' = c := by
  rw [declareParameters, pure_ok, eq_comm (a := c)]
  exact and_iff_right rfl

theorem declareParameters_cons {id : Tree} {ty : Ty} {rest : List (Tree × Ty)} {c c' : ScopeChain} {u : Unit} :
    declareParameters ((id, ty) :: rest) c = .ok u c' ↔
      ∃ name slot c₁, id.lexeme = .ok name ∧ c.declare name ty .arg none id.line = .ok (slot, c₁) ∧
        declareParameters rest c₁ = .ok u c' := by
  simp only [declareParameters, bind_ok, lift_ok]
  constructor
  · rintro ⟨name, _, ⟨hname, rfl⟩, place, c₁, hplace, hrest⟩
    obtain ⟨slot, -, hdeclare⟩ := declare_place_ok hplace
    exact ⟨name, slot, c₁, hname, hdeclare, hrest⟩
  · rintro ⟨name, slot, c₁, hname, hdeclare, hrest⟩
    exact ⟨name, c, ⟨hname, rfl⟩, ⟨.arg, slot⟩, c₁, declare_run hdeclare, hrest⟩

/-- A compiled function: its head, the scope with its parameters, and its body in that scope. -/
theorem routine_iff {decl : Tree} {s s' : Session} {g : Routine} :
    routine decl s = .ok g s' ↔
      ∃ name parms entry block flat b, decl.lexeme = .ok name ∧
        s.functions.lookup? name = some g.signature ∧ parameters decl = .ok parms ∧
        declareParameters parms (s.scopes.enter .function) = .ok () entry ∧
        decl.find? .compoundStmt = some block ∧
        blockItems s.functions ⟨g.signature.result, none⟩ block.children ⟨entry, s.staticInit, 0⟩ =
          .ok flat b ∧
        g = ⟨g.signature, b.scopes.locals, closeBody g.signature.result flat⟩ ∧
        s' = { s with scopes := b.scopes.exit s.scopes.depth, staticInit := b.staticInit } := by
  simp only [routine, bind_ok, lift_ok, get_ok]
  constructor
  · rintro ⟨name, _, ⟨hname, rfl⟩, _, _, ⟨rfl, rfl⟩, h⟩
    cases hsignature : s.functions.lookup? name with
    | none => simp [hsignature, throw_ok] at h
    | some signature =>
      simp only [hsignature, bind_ok, inBody_ok, functionFrame, functionBody, inScope_ok, liftScope_ok,
        lift_ok, get_ok, pure_ok] at h
      obtain ⟨_, _, ⟨b, ⟨b₁, ⟨code, b₂, ⟨parms, _, ⟨hparms, rfl⟩, _, _, ⟨entry, hentry, rfl⟩, hbody⟩, _, _,
        ⟨rfl, rfl⟩, hpair, rfl⟩, rfl⟩, rfl⟩, rfl, rfl⟩ := h
      cases hpair
      cases hblock : decl.find? .compoundStmt with
      | none => simp [hblock, throw_ok] at hbody
      | some block =>
        simp only [hblock, bind_ok, pure_ok] at hbody
        obtain ⟨flat, b₃, hflat, rfl, rfl⟩ := hbody
        exact ⟨name, parms, entry, block, flat, b₃, hname, hsignature, hparms, hentry, rfl, hflat, rfl, rfl⟩
  · rintro ⟨name, parms, entry, block, flat, b, hname, hsignature, hparms, hentry, hblock, hflat, hg, rfl⟩
    refine ⟨name, s, ⟨hname, rfl⟩, s, s, ⟨rfl, rfl⟩, ?_⟩
    rw [hsignature]
    simp only [bind_ok, inBody_ok, functionFrame, functionBody, inScope_ok, liftScope_ok, lift_ok, get_ok,
      pure_ok]
    refine ⟨_, _, ⟨_, ⟨b, ⟨_, b, ⟨parms, _, ⟨hparms, rfl⟩, (), _, ⟨entry, hentry, rfl⟩, ?_⟩, b, b, ⟨rfl, rfl⟩,
      rfl, rfl⟩, rfl⟩, rfl⟩, hg.symm, rfl⟩
    rw [hblock]
    simp only [bind_ok, pure_ok]
    exact ⟨flat, b, hflat, rfl, rfl⟩

/-! Programs. -/

theorem declaration_tag {decl : Tree} {rest : List Tree} {s s' : Session} {gs : List Routine}
    (h : routines (decl :: rest) s = .ok gs s') : decl.tag = .varDecl ∨ decl.tag = .funDecl := by
  rw [routines] at h
  cases htag : decl.tag with
  | varDecl => exact .inl rfl
  | funDecl => exact .inr rfl
  | _ => simp [htag, throw_ok] at h

theorem routines_variables {decl : Tree} {rest : List Tree} {s s' : Session} {gs : List Routine}
    (htag : decl.tag = .varDecl) :
    routines (decl :: rest) s = .ok gs s' ↔
      ∃ code s₁, inBody (declaration s.functions decl) s = .ok code s₁ ∧ routines rest s₁ = .ok gs s' := by
  rw [routines]
  simp only [htag, bind_ok, get_ok]
  constructor
  · rintro ⟨_, _, ⟨rfl, rfl⟩, code, s₁, hcode, hrest⟩
    exact ⟨code, s₁, hcode, hrest⟩
  · rintro ⟨code, s₁, hcode, hrest⟩
    exact ⟨s, s, ⟨rfl, rfl⟩, code, s₁, hcode, hrest⟩

theorem routines_function {decl : Tree} {rest : List Tree} {s s' : Session} {gs : List Routine}
    (htag : decl.tag = .funDecl) :
    routines (decl :: rest) s = .ok gs s' ↔
      ∃ g s₁ more, routine decl s = .ok g s₁ ∧ routines rest s₁ = .ok more s' ∧ gs = g :: more := by
  rw [routines]
  simp only [htag, bind_ok, pure_ok]
  constructor
  · rintro ⟨g, s₁, hg, more, s₂, hmore, rfl, rfl⟩
    exact ⟨g, s₁, more, hg, hmore, rfl⟩
  · rintro ⟨g, s₁, more, hg, hmore, rfl⟩
    exact ⟨g, s₁, hg, more, s', hmore, rfl, rfl⟩

theorem compileProgram_iff {program : Tree} {image : Image} {s s' : Session} :
    compileProgram program s = .ok image s' ↔ program.tag = .program ∧
      ∃ s₀ s₁, registerAll program.children s = .ok () s₀ ∧
        routines program.children s₀ = .ok image.functions s₁ ∧
        image = ⟨image.functions, s₁.scopes.statics, s₁.staticInit.code⟩ ∧
        s' = { s₁ with staticInit := Segment.empty } := by
  simp only [compileProgram, bind_ok, lift_ok, require_ok, get_ok, set_ok, pure_ok]
  constructor
  · rintro ⟨_, _, ⟨htag, rfl⟩, _, s₀, hregister, gs, s₁, hroutines, _, _, ⟨rfl, rfl⟩, _, _, rfl, rfl, rfl⟩
    exact ⟨htag, s₀, s₁, hregister, hroutines, rfl, rfl⟩
  · rintro ⟨htag, s₀, s₁, hregister, hroutines, himage, rfl⟩
    exact ⟨(), s, ⟨htag, rfl⟩, (), s₀, hregister, image.functions, s₁, hroutines, s₁, s₁, ⟨rfl, rfl⟩, (), _,
      rfl, himage.symm, rfl⟩

theorem compile_ok {source : String} {image : Image} (h : compile source = .ok image) :
    ∃ program s, parse source = .ok program ∧ compileProgram program .empty = .ok image s := by
  simp only [compile, Grammar.bind_eq_ok] at h
  obtain ⟨program, hparse, h⟩ := h
  split at h
  next found s hcompile =>
    cases h
    exact ⟨program, s, hparse, hcompile⟩
  next => cases h

end StackCompiler.Session
