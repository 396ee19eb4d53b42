import StackCompiler.Proofs.Lowering.LabelResolution

/-!
What a call leaves to the next one. A call may fail anywhere inside nested scopes; the session then still
stands at file scope, has every name and every function it had, and gives no static slot or setup code up.
-/

set_option autoImplicit false
namespace StackCompiler

open Lowering

/-! Scopes. -/

namespace ScopeChain

structure Adds (c c' : ScopeChain) : Prop where
  enclosing : c'.enclosing = c.enclosing
  bound : ∀ name symbol, c.innermost.lookup? name = some symbol →
    c'.innermost.lookup? name = some symbol
  statics : c.statics <+: c'.statics

namespace Adds

variable {c c₁ c' : ScopeChain}

theorem refl (c : ScopeChain) : Adds c c :=
  ⟨rfl, fun _ _ h => h, List.prefix_refl _⟩

theorem trans (h : Adds c c₁) (h' : Adds c₁ c') : Adds c c' where
  enclosing := h'.enclosing.trans h.enclosing
  bound name symbol hbound := h'.bound name symbol (h.bound name symbol hbound)
  statics := h.statics.trans h'.statics

theorem reserve (c : ScopeChain) (ty : Ty) (storage : Storage) : Adds c (c.reserve ty storage).2 := by
  refine ⟨reserve_enclosing c ty storage, ?_, ?_⟩
  · intro name symbol h
    rw [Scope.lookup?, reserve_symbols]
    exact h
  · cases storage with
    | static => exact List.prefix_append _ _
    | «local» | arg => exact List.prefix_refl _

/-- A declaration does not hide a name of its own scope, for it fails if the scope has the name. -/
theorem declare {name : String} {ty : Ty} {storage : Storage} {length : Option Nat} {line slot : Nat}
    (h : c.declare name ty storage length line = .ok (slot, c')) : Adds c c' := by
  have hnew : c.innermost.lookup? name = none := by
    unfold ScopeChain.declare at h
    split at h
    next => cases h
    next hfree => simpa using hfree
  obtain ⟨rfl, rfl⟩ := declare_ok h
  have hreserve := reserve c ty storage
  refine ⟨hreserve.enclosing, ?_, hreserve.statics⟩
  intro other symbol hbound
  have hother : other ≠ name := by
    rintro rfl
    rw [hnew] at hbound
    cases hbound
  have hkept := hreserve.bound other symbol hbound
  change List.find? (fun s : Symbol => s.name == other) (_ :: _) = some symbol
  rw [List.find?_cons_of_neg (by simpa using hother.symm)]
  exact hkept

theorem temps (h : Temps c c') : Adds c c' := by
  induction h with
  | none => exact refl c
  | more _ ty ih => exact ih.trans (reserve _ ty _)

/-- Leaving a scope gives back the names of the scope around it. -/
theorem scope (kind : ScopeKind) (h : Adds (c.enter kind) c') :
    Adds c (c'.exit c.depth) ∧ (c'.exit c.depth).innermost.symbols = c.innermost.symbols := by
  have henclosing : c'.enclosing = c.innermost :: c.enclosing := by
    rw [h.enclosing]
    cases kind <;> rfl
  have hstatics : c.statics <+: c'.statics := by
    have hinner := h.statics
    cases kind <;> exact hinner
  have hexit : c'.exit c.depth =
      { c' with innermost := c.innermost.resume c'.innermost, enclosing := c.enclosing } :=
    exit_innermost henclosing
  have hsymbols := Scope.resume_symbols c.innermost c'.innermost
  rw [hexit]
  refine ⟨⟨rfl, ?_, hstatics⟩, hsymbols⟩
  intro name symbol hbound
  rw [Scope.lookup?, hsymbols]
  exact hbound

/-- At file scope all visible names are those of the innermost scope. -/
theorem resolve (h : Adds c c') (atFile : c.enclosing = []) {name : String} {symbol : Symbol}
    (hresolve : c.resolve? name = some symbol) : c'.resolve? name = some symbol := by
  have hfile : c'.enclosing = [] := h.enclosing.trans atFile
  simp only [resolve?, atFile, hfile, List.findSome?_singleton] at hresolve ⊢
  exact h.bound name symbol hresolve

end Adds

end ScopeChain

open ScopeChain

namespace Lowering

/-! Bodies. -/

structure BodyState.Adds (s s' : BodyState) : Prop where
  scopes : s.scopes.Adds s'.scopes
  setup : s.staticInit.code <+: s'.staticInit.code

variable {table : FunctionTable} {s : BodyState}

/-- A check leaves the state as it is, so what follows runs from there. -/
theorem lastState_check {σ α β : Type} {P : σ → Prop} {x : Except Diagnostic α}
    {f : α → EStateM Diagnostic σ β} {s : σ} (hs : P s) (h : ∀ a, x = .ok a → P (lastState (f a s))) :
    P (lastState ((liftM x >>= f : EStateM Diagnostic σ β) s)) := by
  cases x with
  | ok a => exact h a rfl
  | error e => exact hs

theorem adds_declare (name : String) (ty : Ty) (storage : Storage) (length : Option Nat) (line : Nat)
    (c : ScopeChain) : Maintains c.Adds (Lowering.declare name ty storage length line) := by
  intro c₁ hc₁
  change c.Adds (lastState ((liftM (c₁.declare name ty storage length line) >>= _ : ScopeM Place) c₁))
  refine lastState_check hc₁ ?_
  rintro ⟨slot, c'⟩ hdeclare
  exact hc₁.trans (.declare hdeclare)

theorem adds_declareParameters (parms : List (Tree × Ty)) (c : ScopeChain) :
    Maintains c.Adds (Session.declareParameters parms) := by
  induction parms with
  | nil => exact maintains_pure _
  | cons parm rest ih =>
    refine .bind (maintains_lift _) fun _ _ _ _ => ?_
    exact .bind (adds_declare _ _ _ _ _ c) fun _ _ _ _ => ih

theorem adds_declarator (base : Ty) (storage : Storage) (hoisted : Bool) (node : Tree) (c : ScopeChain) :
    Maintains c.Adds (declarator table base storage hoisted node) := by
  have hreserve : ∀ ty, Maintains c.Adds (reserve ty storage) := fun ty =>
    maintains_modifyGet fun c₁ hc₁ => hc₁.trans (.reserve c₁ ty storage)
  have hread : Maintains c.Adds (readDeclarator table base hoisted node) := fun c₁ hc₁ =>
    hc₁.trans (.temps (onlyTemps_readDeclarator base hoisted node c₁ .none))
  refine .bind hread fun d _ _ _ => ?_
  obtain ⟨name, line, length, value⟩ := d
  cases length with
  | none =>
    refine .bind (adds_declare _ _ _ _ _ c) fun _ _ _ _ => ?_
    cases value <;> exact maintains_pure _
  | some length =>
    refine .bind (adds_declare _ _ _ _ _ c) fun _ _ _ _ => ?_
    cases value with
    | none => exact maintains_pure _
    | some value =>
      refine .bind (hreserve base) fun _ _ _ _ => .bind (hreserve .int) fun _ _ _ _ => ?_
      exact maintains_pure _

theorem adds_lift {α : Type} {m : ScopeM α} (h : ∀ c, Maintains (ScopeChain.Adds c) m) :
    Maintains s.Adds (liftM m : BodyM α) := by
  intro s₁ hs₁
  have hscopes := h s.scopes s₁.scopes hs₁.scopes
  rw [liftScope_apply]
  cases hcase : m s₁.scopes <;> rw [hcase] at hscopes <;> exact ⟨hscopes, hs₁.setup⟩

theorem adds_install (storage : Storage) (setup : Setup) : Maintains s.Adds (install storage setup) := by
  unfold install
  split
  next =>
    refine .bind (maintains_modifyGet fun s₁ hs₁ => ?_) fun _ _ _ _ => maintains_pure _
    exact ⟨hs₁.scopes, hs₁.setup.trans (List.prefix_append _ _)⟩
  next =>
    refine .bind (maintains_modifyGet fun s₁ hs₁ => ?_) fun _ _ _ _ => maintains_pure _
    exact ⟨hs₁.scopes, hs₁.setup⟩

theorem adds_declarators (base : Ty) (storage : Storage) (hoisted : Bool) (nodes : List Tree) :
    Maintains s.Adds (declarators table base storage hoisted nodes) := by
  induction nodes with
  | nil => exact maintains_pure _
  | cons node rest ih =>
    refine .bind (adds_lift (adds_declarator base storage hoisted node)) fun setup _ _ _ => ?_
    refine .bind (adds_install storage setup) fun _ _ _ _ => ?_
    exact .bind ih fun _ _ _ _ => maintains_pure _

theorem adds_declaration (node : Tree) : Maintains s.Adds (declaration table node) := by
  refine .bind maintains_get fun _ _ _ _ => .bind (maintains_lift _) fun _ _ _ _ => ?_
  exact adds_declarators _ _ _ _

theorem BodyState.Adds.refl (s : BodyState) : s.Adds s :=
  ⟨.refl _, List.prefix_refl _⟩

/-- All of this passes on to whole bodies. -/
theorem adds_body : BodyInvariant table BodyState.Adds where
  refl := .refl
  trans h h' := ⟨h.scopes.trans h'.scopes, h.setup.trans h'.setup⟩
  temps h := ⟨.temps h, List.prefix_refl _⟩
  labels _ _ := ⟨.refl _, List.prefix_refl _⟩
  declaration node s := adds_declaration node s (.refl s)
  block h := ⟨(ScopeChain.Adds.scope .block h.scopes).1, h.setup⟩

/-- A function leaves no name behind, for its own are in scopes that are left in any case. -/
theorem adds_functionFrame (result : Ty) (decl : Tree) (s : BodyState) :
    s.Adds (lastState (Session.functionFrame table result decl s)) ∧ ∀ name,
      (lastState (Session.functionFrame table result decl s)).scopes.resolve? name = s.scopes.resolve? name := by
  let entered : BodyState := { s with scopes := s.scopes.enter .function }
  obtain ⟨s', hs', hlast⟩ := (@adds_body table).functionFrame (s := s) (J := entered.Adds)
    (fun parms _ => adds_lift (adds_declareParameters parms))
    (fun _ _ h h' => ⟨h.scopes.trans h'.scopes, h.setup.trans h'.setup⟩) (.refl entered)
  obtain ⟨hadds, hsymbols⟩ := ScopeChain.Adds.scope .function hs'.scopes
  rw [hlast]
  refine ⟨⟨hadds, hs'.setup⟩, fun name => ?_⟩
  rw [resolve?, hadds.enclosing, List.findSome?_cons, Scope.lookup?, hsymbols, resolve?, List.findSome?_cons]
  rfl

end Lowering

namespace Session

/-! Sessions. -/

structure Adds (s s' : Session) : Prop where
  scopes : s.scopes.Adds s'.scopes
  functions : s.functions.signatures <+: s'.functions.signatures
  setup : s.staticInit.code <+: s'.staticInit.code

namespace Adds

theorem refl (s : Session) : s.Adds s :=
  ⟨.refl _, List.prefix_refl _, List.prefix_refl _⟩

theorem trans {s s₁ s' : Session} (h : s.Adds s₁) (h' : s₁.Adds s') : s.Adds s' :=
  ⟨h.scopes.trans h'.scopes, h.functions.trans h'.functions, h.setup.trans h'.setup⟩

end Adds

variable {s : Session}

theorem adds_inBody {α : Type} {m : BodyM α} (h : ∀ b, BodyState.Adds b (lastState (m b))) :
    Maintains s.Adds (inBody m) := by
  intro s₁ hs₁
  have hbody := h ⟨s₁.scopes, s₁.staticInit, 0⟩
  rw [lastState_inBody]
  exact hs₁.trans ⟨hbody.scopes, List.prefix_refl _, hbody.setup⟩

/-- Registration adds to the function table only. -/
theorem lastState_register (decl : Tree) (s : Session) : ∃ functions,
    lastState (register decl s) = { s with functions } ∧
      s.functions.signatures <+: functions.signatures ∧
      (s.functions.Reachable → functions.Reachable) := by
  let Registered (s' : Session) : Prop := ∃ functions, s' = { s with functions } ∧
    s.functions.signatures <+: functions.signatures ∧ (s.functions.Reachable → functions.Reachable)
  have hsame : Registered s := ⟨s.functions, rfl, List.prefix_refl _, id⟩
  change Registered _
  refine lastState_check hsame fun result hresult => lastState_check hsame fun parms hparms => ?_
  refine lastState_check hsame fun name _ => ?_
  change Registered (lastState ((liftM (s.functions.declare name result (parms.map Prod.snd) decl.line) >>= _ :
    SessionM Unit) s))
  refine lastState_check hsame ?_
  rintro ⟨handle, functions⟩ hdeclare
  refine ⟨functions, rfl, ?_, fun htable => htable.declare (resultType_scalar hresult) ?_ hdeclare⟩
  · obtain ⟨-, rfl⟩ := FunctionTable.declare_ok hdeclare
    exact List.prefix_append _ _
  · intro ty hty
    obtain ⟨p, hp, rfl⟩ := List.mem_map.1 hty
    exact parameters_storable hparms p hp

theorem adds_register (decl : Tree) : Maintains s.Adds (register decl) := by
  intro s₁ hs₁
  obtain ⟨functions, hlast, hprefix, -⟩ := lastState_register decl s₁
  rw [hlast]
  exact hs₁.trans ⟨.refl _, hprefix, List.prefix_refl _⟩

theorem adds_routine (decl : Tree) : Maintains s.Adds (routine decl) :=
  maintains_routine fun _ result => adds_inBody fun b => (adds_functionFrame result decl b).1

theorem adds_routines (decls : List Tree) : Maintains s.Adds (routines decls) :=
  maintains_routines (fun _ decl => adds_inBody fun b => adds_declaration decl b (.refl b)) adds_routine decls

theorem adds_compileFunction (decl : Tree) : Maintains s.Adds (compileFunction decl) :=
  maintains_compileFunction (adds_register decl) (adds_routine decl)

/-- A program compiles its declarations, which may fail, and packs the image, which does not. -/
theorem compileProgram_split (program : Tree) (s : Session) :
    (∃ e s₁, s.Adds s₁ ∧ compileProgram program s = .error e s₁) ∨
      ∃ image s₁, s.Adds s₁ ∧ compileProgram program s = .ok image { s₁ with staticInit := .empty } := by
  let declarations : SessionM (List Routine) := do
    require (program.tag = .program) (program.malformed "expected a program")
    registerAll program.children
    routines program.children
  let pack (functions : List Routine) : SessionM Image := do
    let s ← get
    set { s with staticInit := Segment.empty }
    return ⟨functions, s.scopes.statics, s.staticInit.code⟩
  have hsplit : compileProgram program s = EStateM.bind declarations pack s := by
    change _ = (declarations >>= pack) s
    simp only [compileProgram, declarations, pack, bind_assoc]
  have hdeclarations : Maintains s.Adds declarations := by
    refine .bind (maintains_lift _) fun _ _ _ _ => ?_
    exact .bind (maintains_registerAll adds_register _) fun _ _ _ _ => adds_routines _
  have hadds := hdeclarations s (.refl s)
  rw [hsplit]
  unfold EStateM.bind
  cases hcase : declarations s with
  | error e s₁ =>
    rw [hcase] at hadds
    exact .inl ⟨e, s₁, hadds, rfl⟩
  | ok functions s₁ =>
    rw [hcase] at hadds
    exact .inr ⟨_, s₁, hadds, rfl⟩

theorem adds_of_error {program : Tree} {e : Diagnostic} {s' : Session}
    (h : compileProgram program s = .error e s') : s.Adds s' := by
  rcases compileProgram_split program s with ⟨e', s₁, hadds, herror⟩ | ⟨image, s₁, -, hok⟩
  · rw [herror] at h
    cases h
    exact hadds
  · rw [hok] at h
    cases h

/-- What a session leaves to the calls behind it: it is at file scope, and names, static slots and
functions stay what they were. -/
structure Continues (s s' : Session) : Prop where
  depth : s'.scopes.depth = 1
  names : ∀ name symbol, s.scopes.resolve? name = some symbol → s'.scopes.resolve? name = some symbol
  statics : s.scopes.statics <+: s'.scopes.statics
  signatures : s.functions.signatures <+: s'.functions.signatures
  functions : ∀ name signature, s.functions.lookup? name = some signature →
    s'.functions.lookup? name = some signature

theorem lookup_of_prefix {table table' : FunctionTable} (h : table.signatures <+: table'.signatures)
    {name : String} {signature : Signature} (hlookup : table.lookup? name = some signature) :
    table'.lookup? name = some signature := by
  obtain ⟨more, hmore⟩ := h
  rw [FunctionTable.lookup?] at hlookup
  rw [FunctionTable.lookup?, ← hmore, List.find?_append, hlookup]
  rfl

theorem continues_of {s' : Session} (atFile : s.scopes.enclosing = []) (scopes : s.scopes.Adds s'.scopes)
    (functions : s.functions.signatures <+: s'.functions.signatures) : Continues s s' where
  depth := by rw [depth, scopes.enclosing, atFile]; rfl
  names _ _ h := scopes.resolve atFile h
  statics := scopes.statics
  signatures := functions
  functions _ _ h := lookup_of_prefix functions h

theorem Adds.continues {s' : Session} (h : s.Adds s') (atFile : s.scopes.enclosing = []) : Continues s s' :=
  continues_of atFile h.scopes h.functions

theorem continues_compileProgram (program : Tree) (atFile : s.scopes.enclosing = []) :
    Continues s (lastState (compileProgram program s)) := by
  rcases compileProgram_split program s with ⟨e, s₁, hadds, h⟩ | ⟨image, s₁, hadds, h⟩
  · rw [h]
    exact hadds.continues atFile
  · rw [h]
    exact continues_of atFile hadds.scopes hadds.functions

theorem Reached.enclosing (h : s.Reached) : s.scopes.enclosing = [] := by
  have hfile : ∀ {c : ScopeChain}, c.depth = 1 → c.enclosing = [] := fun hdepth =>
    List.eq_nil_of_length_eq_zero (Nat.succ.inj hdepth)
  induction h with
  | empty => rfl
  | program _ program ih => exact hfile (continues_compileProgram program ih).depth
  | function _ decl ih => exact hfile ((adds_compileFunction decl _ (.refl _)).continues ih).depth

theorem resolve_compileFunction (decl : Tree) (s : Session) (name : String) :
    (lastState (compileFunction decl s)).scopes.resolve? name = s.scopes.resolve? name := by
  let Same (s' : Session) : Prop := s'.scopes.resolve? name = s.scopes.resolve? name
  have hregister : Maintains Same (register decl) := by
    intro s₁ hs₁
    obtain ⟨functions, hlast, -⟩ := lastState_register decl s₁
    rw [hlast]
    exact hs₁
  have hroutine : Maintains Same (routine decl) := by
    refine maintains_routine fun table result s₁ hs₁ => ?_
    rw [lastState_inBody]
    exact ((adds_functionFrame result decl _).2 name).trans hs₁
  exact maintains_compileFunction hregister hroutine s rfl

end Session

/-- Errors leave a session coherent. After any calls, a further call on any tree leaves a session that
goes on from the one before, whether the call succeeds or fails; the setup of static variables is given
up by a program that succeeds only, and a function leaves no new name at file scope. -/
theorem session_continues {s : Session} (h : s.Reached) :
    (∀ program, s.Continues (lastState (Session.compileProgram program s)) ∧
      ∀ e s', Session.compileProgram program s = .error e s' → s.staticInit.code <+: s'.staticInit.code) ∧
    ∀ decl, s.Continues (lastState (Session.compileFunction decl s)) ∧
      s.staticInit.code <+: (lastState (Session.compileFunction decl s)).staticInit.code ∧
      ∀ name, (lastState (Session.compileFunction decl s)).scopes.resolve? name = s.scopes.resolve? name := by
  constructor
  · intro program
    exact ⟨Session.continues_compileProgram program h.enclosing, fun _ _ herror =>
      (Session.adds_of_error herror).setup⟩
  · intro decl
    have hadds := Session.adds_compileFunction decl s (.refl s)
    exact ⟨hadds.continues h.enclosing, hadds.setup, Session.resolve_compileFunction decl s⟩

/-- The name `d` is met inside two scopes and behind the array of `f`. The failed program leaves `a`, the
function and the setup of the array, and compiling the function once more adds another array. -/
theorem session_continues_after_failure : ∃ program decl s s',
    parse "int a; f() \x7b static int b[2] : 1; while true do \x7b int c; c = d; \x7d \x7d" = .ok program ∧
    program.children[1]? = some decl ∧
    Session.compileProgram program .empty = .error (.undeclaredName "d" 1) s ∧
    Session.compileFunction decl s = .error (.undeclaredName "d" 1) s' ∧
    s.scopes.statics = [.int, .array .int, .int, .int] ∧ s.Continues s' ∧
    s'.scopes.statics = s.scopes.statics ++ [.array .int, .int, .int] ∧
    s.staticInit.code <+: s'.staticInit.code := by
  have hrun : ((parse
      "int a; f() \x7b static int b[2] : 1; while true do \x7b int c; c = d; \x7d \x7d").toOption.any fun program =>
      program.children[1]?.any fun decl =>
      (failed? (Session.compileProgram program .empty)).any fun first =>
      (failed? (Session.compileFunction decl first.2)).any fun second =>
        decide (first.1 = .undeclaredName "d" 1 ∧ second.1 = .undeclaredName "d" 1 ∧
          first.2.scopes.statics = [.int, .array .int, .int, .int] ∧
          second.2.scopes.statics = first.2.scopes.statics ++ [.array .int, .int, .int])) = true := by
    decide +kernel
  obtain ⟨program, hparse, hrun⟩ := ok_of_any hrun
  obtain ⟨decl, hdecl, hrun⟩ := (Option.any_eq_true _ _).1 hrun
  obtain ⟨e, s, hprogram, hrun⟩ := error_of_failed hrun
  obtain ⟨e', s', hfunction, hrun⟩ := error_of_failed hrun
  obtain ⟨rfl, rfl, hstatics, hmore⟩ := of_decide_eq_true hrun
  have hlast : s = lastState (Session.compileProgram program .empty) := by rw [hprogram]; rfl
  have hreached : s.Reached := hlast ▸ .program .empty program
  obtain ⟨hcontinues, hsetup, -⟩ := (session_continues hreached).2 decl
  rw [hfunction] at hcontinues hsetup
  exact ⟨program, decl, s, s', hparse, hdecl, hprogram, hfunction, hstatics, hcontinues, hmore, hsetup⟩

end StackCompiler
