import Mathlib.Data.List.Nodup
import StackCompiler.Proofs.Lowering.Linking

/-!
Calls are linked to the right functions. The functions of an image stand in the order of their
declarations, and every call, in the body of a function or in the setup of static variables, has the
handle of the function that it names, whether that is declared before or after it.
-/

set_option autoImplicit false
namespace StackCompiler

open Lowering Typing Shape
open Typing (functionDeclarations)

/-! Signatures as they are written. -/

/-- The types of the parameters of one group: the type in front, or an array of it where brackets follow
the name. -/
def GroupTypes (group : Tree) (types : List Ty) : Prop :=
  ∃ spec ids base, group.children = spec :: ids ∧ typeOf spec = .ok base ∧
    types = ids.map fun id => if (id.find? .arrayMarker).isSome then .array base else base

structure Announces (decl : Tree) (signature : Signature) : Prop where
  name : decl.lexeme = .ok signature.name
  result : match decl.find? .typeSpec with
    | some spec => typeOf spec = .ok signature.result
    | none => signature.result = .void
  parameters : ∃ parms types, decl.find? .parms = some parms ∧
    List.Forall₂ GroupTypes parms.children types ∧ signature.parameters = types.flatten

theorem group_types {group : Tree} {parms : List (Tree × Ty)} (h : parameterGroup group = .ok parms) :
    GroupTypes group (parms.map Prod.snd) := by
  simp only [parameterGroup, Grammar.bind_eq_ok] at h
  obtain ⟨spec, hspec, base, hbase, hparms⟩ := h
  cases hparms
  cases hchildren : group.children with
  | nil => simp [Tree.child, hchildren] at hspec
  | cons first ids =>
    simp only [Tree.child, hchildren, List.getElem?_cons_zero] at hspec
    cases hspec
    refine ⟨spec, ids, base, hchildren, hbase, ?_⟩
    simp [parameterType]

theorem groups_types {groups : List Tree} {parms : List (Tree × Ty)} (h : parameterGroups groups = .ok parms) :
    ∃ types, List.Forall₂ GroupTypes groups types ∧ parms.map Prod.snd = types.flatten := by
  induction groups generalizing parms with
  | nil =>
    cases h
    exact ⟨[], .nil, rfl⟩
  | cons group rest ih =>
    simp only [parameterGroups, Grammar.bind_eq_ok] at h
    obtain ⟨first, hfirst, more, hmore, hparms⟩ := h
    cases hparms
    obtain ⟨types, hall, hflat⟩ := ih hmore
    exact ⟨first.map Prod.snd :: types, .cons (group_types hfirst) hall, by simp [hflat]⟩

theorem announces {decl : Tree} {name : String} {result : Ty} {parms : List (Tree × Ty)}
    (hname : decl.lexeme = .ok name) (hresult : Session.resultType decl = .ok result)
    (hparms : parameters decl = .ok parms) (handle : Nat) :
    Announces decl ⟨name, result, parms.map Prod.snd, handle⟩ := by
  refine ⟨hname, ?_, ?_⟩
  · unfold Session.resultType at hresult
    cases hspec : decl.find? .typeSpec with
    | none =>
      rw [hspec] at hresult
      exact (Except.ok.inj hresult).symm
    | some spec =>
      rw [hspec] at hresult
      exact hresult
  · unfold parameters at hparms
    cases hfound : decl.find? .parms with
    | none => simp [hfound] at hparms
    | some list =>
      rw [hfound] at hparms
      obtain ⟨types, hall, hflat⟩ := groups_types hparms
      exact ⟨list, types, rfl, hall, hflat⟩

namespace Tree

def setupCalls (decl : Tree) : List Tree :=
  if decl.tag = .varDecl then decl.calls else decl.staticCalls

/-- Parameters call nothing and declare nothing. -/
theorem calls_group {group : Tree} (h : Group group) : group.ownCalls = [] ∧ group.staticCalls = [] := by
  cases h with
  | mk type each =>
    have hparts : ∀ {id : Tree}, Parameter id → id.ownCalls = [] ∧ id.staticCalls = [] := by
      rintro _ ⟨name, bracket⟩
      cases bracket <;> simp [ownCalls_marked, staticCalls_marked]
    refine ⟨?_, ?_⟩
    · rw [ownCalls_inner (by simp), List.flatMap_cons, ownCalls_marked (by simp)]
      simpa using fun id hid => (hparts (each id hid)).1
    · rw [staticCalls_inner (by simp), List.flatMap_cons, staticCalls_marked (by simp)]
      simpa using fun id hid => (hparts (each id hid)).2

/-- The calls of a function are those of its body. -/
theorem calls_function {type : Option Token} {name brace : Token} {groups items : List Tree}
    (parms : ∀ group ∈ groups, Group group) :
    (functionNode type name groups brace items).ownCalls = items.flatMap ownCalls ∧
      (functionNode type name groups brace items).staticCalls = items.flatMap staticCalls := by
  have howns : groups.flatMap ownCalls = [] :=
    List.flatMap_eq_nil_iff.2 fun group hgroup => (calls_group (parms group hgroup)).1
  have hstatics : groups.flatMap staticCalls = [] :=
    List.flatMap_eq_nil_iff.2 fun group hgroup => (calls_group (parms group hgroup)).2
  cases type <;>
    simp [functionNode, ownCalls_marked, ownCalls_inner, staticCalls_marked, staticCalls_inner, howns, hstatics]

end Tree

namespace Session

/-- Registration gives the functions their signatures in the order of the declarations. -/
theorem registerAll_announces {decls : List Tree} {s s' : Session} {u : Unit}
    (h : registerAll decls s = .ok u s') :
    ∃ added, s'.functions.signatures = s.functions.signatures ++ added ∧
      List.Forall₂ Announces (functionDeclarations decls) added := by
  induction decls generalizing s with
  | nil =>
    cases registerAll_nil.1 h
    exact ⟨[], by simp, .nil⟩
  | cons decl rest ih =>
    by_cases htag : decl.tag = .funDecl
    · obtain ⟨s₁, hregister, h⟩ := (registerAll_function htag).1 h
      obtain ⟨name, result, parms, handle, functions, hname, hresult, hparms, hdeclare, rfl⟩ :=
        register_iff.1 hregister
      obtain ⟨-, rfl⟩ := FunctionTable.declare_ok hdeclare
      obtain ⟨added, hadded, hall⟩ := ih h
      rw [functionDeclarations_cons rest htag]
      exact ⟨_ :: added, by simpa using hadded, .cons (announces hname hresult hparms _) hall⟩
    · rw [registerAll_skip rest htag] at h
      rw [functionDeclarations_skip rest htag]
      exact ih h

theorem callees_closeBody (result : Ty) (code : Code) : callees (closeBody result code) = callees code := by
  unfold closeBody
  split
  next => rfl
  next => cases result <;> simp [defaultValue]

def Entered (table : FunctionTable) (decl : Tree) (g : Routine) : Prop :=
  ∃ name, decl.lexeme = .ok name ∧ table.lookup? name = some g.signature

/-- What the declaration of a function is compiled to: its entry of the table, and code that calls what the
declaration calls. -/
def Compiled (table : FunctionTable) (decl : Tree) (g : Routine) : Prop :=
  Entered table decl g ∧ Linked (Refers table) (callees g.code) decl.ownCalls

theorem signatures_entered {table : FunctionTable} (htable : table.Reachable) {decls : List Tree}
    {signatures : List Signature} {gs : List Routine} (hmem : ∀ entry ∈ signatures, entry ∈ table.signatures)
    (hannounced : List.Forall₂ Announces decls signatures) (hentered : List.Forall₂ (Entered table) decls gs) :
    gs.map Routine.signature = signatures := by
  induction hannounced generalizing gs with
  | nil =>
    cases hentered
    rfl
  | @cons decl entry decls signatures first _ ih =>
    cases hentered with
    | @cons _ g _ gs hg hgs =>
      rw [List.forall_mem_cons] at hmem
      obtain ⟨name, hname, hlookup⟩ := hg
      rw [first.name] at hname
      cases hname
      rw [htable.lookup hmem.1] at hlookup
      rw [List.map_cons, ih hmem.2 hgs, Option.some.inj hlookup]

theorem names_of_announces {decls : List Tree} {signatures : List Signature}
    (h : List.Forall₂ Announces decls signatures) : signatures.map Signature.name = decls.map word := by
  induction h with
  | nil => rfl
  | cons first _ ih => rw [List.map_cons, List.map_cons, ih, word_of_lexeme first.name]

/-- The table, the declarations and the compiled functions of a program stand in one order, and no two
functions have the same name. -/
theorem entries_of_registerAll {decls : List Tree} {s : Session} {u : Unit}
    (h : registerAll decls .empty = .ok u s) {gs : List Routine}
    (hentered : List.Forall₂ (Entered s.functions) (functionDeclarations decls) gs) :
    s.functions.Reachable ∧ gs.map Routine.signature = s.functions.signatures ∧
      List.Forall₂ (fun decl g => Announces decl g.signature) (functionDeclarations decls) gs ∧
      (gs.map fun g => g.signature.name).Nodup := by
  obtain ⟨-, -, hreachable⟩ := registerAll_ok h
  have htable := hreachable FunctionTable.Reachable.empty
  obtain ⟨added, hadded, hannounced⟩ := registerAll_announces h
  obtain rfl : s.functions.signatures = added := hadded
  have hentries := signatures_entered htable (fun _ hentry => hentry) hannounced hentered
  obtain ⟨hdistinct, -⟩ := registered h
  rw [← names_of_announces hannounced, ← hentries, List.map_map] at hdistinct
  rw [← hentries, List.forall₂_map_right_iff] at hannounced
  exact ⟨htable, hentries, hannounced, hdistinct⟩

theorem routine_links {decl : Tree} (hdecl : Function decl) {s s' : Session} {g : Routine}
    (h : routine decl s = .ok g s') :
    Compiled s.functions decl g ∧ ∃ more, callees s'.staticInit.code = callees s.staticInit.code ++ more ∧
      Linked (Refers s.functions) more decl.setupCalls := by
  obtain ⟨name, params, entry, block, flat, b, hname, hlookup, hparams, hentry, hblock, hflat, hg, rfl⟩ :=
    routine_iff.1 h
  cases hdecl with
  | @mk type id groups brace decls stmts parms head body =>
    rw [body_function] at hblock
    cases hblock
    obtain ⟨hown, hstatic⟩ := @Tree.calls_function type id brace groups (decls ++ stmts) parms
    have hinside : entry.depth ≠ 1 := by
      rw [(declareParameters_within hentry True).depth]
      simp [ScopeChain.depth, ScopeChain.enter]
    have hlinks := items_links (fun t ht => (List.mem_append.1 ht).imp (head t) fun ht =>
      ⟨body t ht, fun inside hrun => statement_links (body t ht) inside hrun⟩) hinside hflat
    rw [hg, Compiled, callees_closeBody, hown]
    refine ⟨⟨⟨name, hname, hlookup⟩, hlinks.own⟩, ?_⟩
    rw [Tree.setupCalls, if_neg (by simp [functionNode, Tree.marked]), hstatic]
    exact hlinks.init

/-- Variables at file scope call in their setup. -/
theorem variables_links {decl : Tree} (hdecl : Variables none decl) {s s' : Session} {code : Code}
    (atFile : s.scopes.enclosing = []) (h : inBody (declaration s.functions decl) s = .ok code s') :
    s'.functions = s.functions ∧ s'.scopes.enclosing = [] ∧
      ∃ more, callees s'.staticInit.code = callees s.staticInit.code ++ more ∧
        Linked (Refers s.functions) more decl.setupCalls := by
  obtain ⟨b, hrun, rfl⟩ := inBody_ok.1 h
  have hlinks := global_links hdecl (by simp [ScopeChain.depth, atFile]) hrun
  rw [Tree.setupCalls, if_pos hdecl.tag]
  refine ⟨rfl, ?_, hlinks⟩
  cases hdecl with
  | mk type each =>
    obtain ⟨base, -, hrun⟩ := (declaration_variables fun node hnode => (each node hnode).tag).1 hrun
    exact (declarators_contained each hrun).scopes.enclosing.trans atFile

theorem routines_links {decls : List Tree} (shaped : ∀ decl ∈ decls, Declaration decl) {s s' : Session}
    {gs : List Routine} (atFile : s.scopes.enclosing = []) (h : routines decls s = .ok gs s') :
    List.Forall₂ (Compiled s.functions) (functionDeclarations decls) gs ∧
      ∃ more, callees s'.staticInit.code = callees s.staticInit.code ++ more ∧
        Linked (Refers s.functions) more (decls.flatMap Tree.setupCalls) := by
  induction decls generalizing s gs with
  | nil =>
    obtain ⟨rfl, rfl⟩ := pure_ok.1 h
    exact ⟨.nil, [], by simp, .nil⟩
  | cons decl rest ih =>
    rw [List.forall_mem_cons] at shaped
    obtain ⟨hdecl | hdecl, hrest⟩ := shaped
    · obtain ⟨code, s₁, hcode, hroutines⟩ := (routines_variables hdecl.tag).1 h
      obtain ⟨hfunctions, hfile, first, hfirst, hlinked⟩ := variables_links hdecl atFile hcode
      obtain ⟨hall, more, hmore, hlinked'⟩ := ih hrest hfile hroutines
      rw [hfunctions] at hall hlinked'
      rw [functionDeclarations_skip rest (by simp [hdecl.tag]), List.flatMap_cons]
      exact ⟨hall, first ++ more, by rw [hmore, hfirst, List.append_assoc], hlinked.append hlinked'⟩
    · obtain ⟨g, s₁, gs, hg, hroutines, rfl⟩ := (routines_function hdecl.tag).1 h
      obtain ⟨hcompiled, first, hfirst, hlinked⟩ := routine_links hdecl hg
      obtain ⟨hfunctions, -, henclosing, -⟩ := routine_contained hdecl hg
      obtain ⟨hall, more, hmore, hlinked'⟩ := ih hrest (henclosing.trans atFile) hroutines
      rw [hfunctions] at hall hlinked'
      rw [functionDeclarations_cons rest hdecl.tag, List.flatMap_cons]
      exact ⟨.cons hcompiled hall, first ++ more, by rw [hmore, hfirst, List.append_assoc],
        hlinked.append hlinked'⟩

end Session

/-! Programs. -/

namespace Image

def Links (image : Image) (handle : Nat) (node : Tree) : Prop :=
  ∃ g, image.functions[handle]? = some g ∧ node.lexeme = .ok g.signature.name

/-- The functions of an image are the entries of a table, so handles lead to functions of the right name. -/
theorem links_of_refers {image : Image} {table : FunctionTable} (htable : table.Reachable)
    (hfunctions : image.functions.map Routine.signature = table.signatures) {handle : Nat} {node : Tree}
    (h : Refers table handle node) : image.Links handle node := by
  obtain ⟨name, signature, hname, hlookup, rfl⟩ := h
  have hentry := htable.sound.getElem_handle hlookup
  rw [← hfunctions, List.getElem?_map, Option.map_eq_some_iff] at hentry
  obtain ⟨g, hg, rfl⟩ := hentry
  obtain rfl : g.signature.name = name := by simpa using List.find?_some hlookup
  exact ⟨g, hg, hname⟩

/-- Where names are different, a function is found under its own. -/
theorem routine?_eq_some {image : Image} (distinct : (image.functions.map fun g => g.signature.name).Nodup)
    {name : String} {g : Routine} :
    image.routine? name = some g ↔ g ∈ image.functions ∧ g.signature.name = name := by
  constructor
  · intro hfound
    exact ⟨List.mem_of_find?_eq_some hfound, by simpa using List.find?_some hfound⟩
  · rintro ⟨hg, hname⟩
    have hsome : (image.routine? name).isSome = true := by
      rw [routine?, List.find?_isSome]
      exact ⟨g, hg, by simp [hname]⟩
    obtain ⟨found, hfound⟩ := Option.isSome_iff_exists.1 hsome
    have hsame : found.signature.name = name := by simpa using List.find?_some hfound
    have hmem : found ∈ image.functions := List.mem_of_find?_eq_some hfound
    rw [hfound, List.inj_on_of_nodup_map distinct hg hmem (hname.trans hsame.symm)]

/-- The program starts with the only function named `main`. -/
theorem entryPoint_eq_some {image : Image} (distinct : (image.functions.map fun g => g.signature.name).Nodup)
    {signature : Signature} : image.entryPoint? = some signature ↔
      ∃ g ∈ image.functions, g.signature.name = "main" ∧ g.signature = signature := by
  simp only [entryPoint?, Option.map_eq_some_iff, routine?_eq_some distinct, and_assoc]

end Image

/-- What relates two lists holds of the entries at one position. -/
theorem forall₂_getElem? {α β : Type} {R : α → β → Prop} {xs : List α} {ys : List β} (h : List.Forall₂ R xs ys)
    {i : Nat} {x : α} {y : β} (hx : xs[i]? = some x) (hy : ys[i]? = some y) : R x y := by
  obtain ⟨hxs, rfl⟩ := List.getElem?_eq_some_iff.1 hx
  obtain ⟨hys, rfl⟩ := List.getElem?_eq_some_iff.1 hy
  exact h.get hxs hys

theorem exists_related {α β : Type} {R : α → β → Prop} {xs : List α} {ys : List β} (h : List.Forall₂ R xs ys)
    {y : β} (hy : y ∈ ys) : ∃ x ∈ xs, R x y := by
  induction h with
  | nil => cases hy
  | cons first _ ih =>
    rcases List.mem_cons.1 hy with rfl | hy
    · exact ⟨_, List.mem_cons_self .., first⟩
    · obtain ⟨x, hx, hrelated⟩ := ih hy
      exact ⟨x, List.mem_cons_of_mem _ hx, hrelated⟩

/-- The functions of an image are the declared ones in their order, each with its own name and a handle
that is its position, and every call leads to the function that it names. -/
theorem calls_linked {source : String} {image : Image} (h : compile source = .ok image) :
    ∃ program, parse source = .ok program ∧
      image.functions.length = (functionDeclarations program.children).length ∧
      (∀ (i : Nat) (decl : Tree) (g : Routine), (functionDeclarations program.children)[i]? = some decl →
        image.functions[i]? = some g → g.signature.handle = i ∧ Announces decl g.signature ∧
          Linked image.Links (callees g.code) decl.ownCalls) ∧
      (image.functions.map fun g => g.signature.name).Nodup ∧
      (∀ g ∈ image.functions, g.signature.name ≠ "print" ∧ g.signature.name ≠ "put") ∧
      (∀ signature, image.entryPoint? = some signature ↔ ∃ (i : Nat) (decl : Tree) (g : Routine),
        (functionDeclarations program.children)[i]? = some decl ∧ decl.lexeme = .ok "main" ∧
          image.functions[i]? = some g ∧ g.signature = signature) ∧
      Linked image.Links (callees image.staticInit) (program.children.flatMap Tree.setupCalls) := by
  obtain ⟨program, s, hparse, hcompile⟩ := Session.compile_ok h
  obtain ⟨-, hshaped⟩ := Shape.of_program (Grammar.derives_of_parse hparse)
  obtain ⟨-, s₀, s₁, hregister, hroutines, himage, -⟩ := Session.compileProgram_iff.1 hcompile
  obtain ⟨hs₀, -⟩ := Session.registerAll_ok hregister
  obtain ⟨hcompiled, more, hmore, hsetup⟩ := Session.routines_links hshaped (by rw [hs₀]; rfl) hroutines
  obtain ⟨htable, hentries, hannounced, hnodup⟩ :=
    Session.entries_of_registerAll hregister (hcompiled.imp fun _ _ h => h.1)
  obtain ⟨-, hplain, -⟩ := registered hregister
  have hlinks : ∀ handle node, Refers s₀.functions handle node → image.Links handle node :=
    fun _ _ hrefers => image.links_of_refers htable hentries hrefers
  refine ⟨program, hparse, hcompiled.length_eq.symm, ?_, hnodup, ?_, ?_, ?_⟩
  · intro i decl g hdecl hg
    refine ⟨htable.sound.handle i g.signature ?_, forall₂_getElem? hannounced hdecl hg,
      (forall₂_getElem? hcompiled hdecl hg).2.imp hlinks⟩
    rw [← hentries, List.getElem?_map, hg]
    rfl
  · intro g hg
    obtain ⟨decl, hdecl, hannounce⟩ := exists_related hannounced hg
    have hplain := (hplain decl hdecl).2.1
    rw [word_of_lexeme hannounce.name] at hplain
    simpa [isIntrinsic, intrinsics] using hplain
  · intro signature
    rw [image.entryPoint_eq_some hnodup]
    constructor
    · rintro ⟨g, hg, hmain, hsignature⟩
      obtain ⟨i, hi⟩ := List.mem_iff_getElem?.1 hg
      obtain ⟨hlt, -⟩ := List.getElem?_eq_some_iff.1 hi
      obtain ⟨decl, hdecl⟩ : ∃ decl, (functionDeclarations program.children)[i]? = some decl :=
        ⟨_, List.getElem?_eq_getElem (hcompiled.length_eq ▸ hlt)⟩
      refine ⟨i, decl, g, hdecl, ?_, hi, hsignature⟩
      rw [← hmain]
      exact (forall₂_getElem? hannounced hdecl hi).name
    · rintro ⟨i, decl, g, hdecl, hmain, hg, hsignature⟩
      have hname := (forall₂_getElem? hannounced hdecl hg).name
      rw [hmain] at hname
      exact ⟨g, List.mem_of_getElem? hg, (Except.ok.inj hname).symm, hsignature⟩
  · have hinit : callees image.staticInit = more := by
      rw [himage, hmore, hs₀]
      rfl
    rw [hinit]
    exact hsetup.imp hlinks

/-- A function that calls itself and one declared behind it, which its static variable calls as well. -/
theorem calls_linked_mutually : ∃ program image decl g,
    parse "int f(int n) \x7b static int s : g(1); return f(g(n)); \x7d int g(int n) \x7b return f(n); \x7d" =
      .ok program ∧
    compile "int f(int n) \x7b static int s : g(1); return f(g(n)); \x7d int g(int n) \x7b return f(n); \x7d" =
      .ok image ∧
    (functionDeclarations program.children)[0]? = some decl ∧ image.functions[0]? = some g ∧
    callees g.code = [1, 0] ∧ Linked image.Links [1, 0] decl.ownCalls ∧ decl.ownCalls.length = 2 ∧
    Linked image.Links [1] (program.children.flatMap Tree.setupCalls) := by
  have hrun : ((parse
      "int f(int n) \x7b static int s : g(1); return f(g(n)); \x7d int g(int n) \x7b return f(n); \x7d").toOption.any
      fun program => (compile
        "int f(int n) \x7b static int s : g(1); return f(g(n)); \x7d int g(int n) \x7b return f(n); \x7d").toOption.any
      fun image => (functionDeclarations program.children)[0]?.any fun decl => image.functions[0]?.any fun g =>
        decide (callees image.staticInit = [1] ∧ callees g.code = [1, 0] ∧ decl.ownCalls.length = 2)) = true := by
    decide +kernel
  obtain ⟨program, hparse, hrun⟩ := ok_of_any hrun
  obtain ⟨image, hcompile, hrun⟩ := ok_of_any hrun
  obtain ⟨decl, hdecl, hrun⟩ := (Option.any_eq_true _ _).1 hrun
  obtain ⟨g, hg, hrun⟩ := (Option.any_eq_true _ _).1 hrun
  obtain ⟨hinit, hcallees, hlength⟩ := of_decide_eq_true hrun
  obtain ⟨program', hparse', -, hall, -, -, -, hsetup⟩ := calls_linked hcompile
  cases hparse.symm.trans hparse'
  obtain ⟨-, -, hown⟩ := hall 0 decl g hdecl hg
  rw [hcallees] at hown
  rw [hinit] at hsetup
  exact ⟨program, image, decl, g, hparse, hcompile, hdecl, hg, hcallees, hown, hlength, hsetup⟩

end StackCompiler
