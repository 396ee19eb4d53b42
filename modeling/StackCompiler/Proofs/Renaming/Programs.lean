import StackCompiler.Proofs.Renaming.Bodies

/-!
Programs under renaming. The names of variables leave no trace in an image: a program with one variable
renamed, wherever it is declared or used, is compiled to the same image.
-/

set_option autoImplicit false
namespace StackCompiler

open Lowering Typing Shape

namespace Tree

variable {r : Renaming}

/-- The body of a function shares the scope of the parameters. -/
theorem rename_function (b : Bindings) (type : Option Token) (name : Token) (groups : List Tree) (brace : Token)
    (items : List Tree) :
    (functionNode type name groups brace items).rename r b =
      (functionNode type name (renameAll r b.enter groups).1 brace
        (renameAll r (renameAll r b.enter groups).2 items).1,
        b.leave (renameAll r (renameAll r b.enter groups).2 items).2) := by
  cases type <;> rfl

theorem rename_group (b : Bindings) (type : Token) (ids : List Tree) :
    (inner .parmTypeList (.marked .typeSpec type [] :: ids)).rename r b =
      (inner .parmTypeList (.marked .typeSpec type [] :: (renameAll r b ids).1), (renameAll r b ids).2) := rfl

end Tree

namespace Renumbering

variable {table table' : FunctionTable} (ρ : Renumbering table table')

def signature (signature : Signature) : Signature :=
  { signature with handle := ρ.handle signature.handle }

def routine (g : Routine) : Routine :=
  ⟨ρ.signature g.signature, g.locals, ρ.code g.code⟩

def session (r : Renaming) (b : Bindings) (s : Session) : Session :=
  ⟨r.chain b s.scopes, table', ρ.segment s.staticInit⟩

theorem code_closeBody (result : Ty) (code : Code) :
    ρ.code (Session.closeBody result code) = Session.closeBody result (ρ.code code) := by
  have hlast : (ρ.code code).getLast? = some .return ↔ code.getLast? = some .return := by
    rw [Renumbering.code, List.getLast?_map, Option.map_eq_some_iff]
    constructor
    · rintro ⟨instr, hinstr, hreturn⟩
      rw [hinstr]
      cases instr <;> first | rfl | cases hreturn
    · exact fun hreturn => ⟨_, hreturn, rfl⟩
  unfold Session.closeBody
  by_cases hreturn : code.getLast? = some .return
  · rw [if_pos hreturn, if_pos (hlast.2 hreturn)]
  · rw [if_neg hreturn, if_neg fun h => hreturn (hlast.1 h)]
    cases result <;> simp [Session.defaultValue]

end Renumbering

namespace Session

variable {r : Renaming} {b : Bindings} {table table' : FunctionTable}

/-! Parameters. -/

theorem types_renamed (base : Ty) {ids : List Tree} (each : ∀ id ∈ ids, Parameter id) (b : Bindings) :
    (Tree.renameAll r b ids).1.map (parameterType base) = ids.map (parameterType base) := by
  induction ids generalizing b with
  | nil => rfl
  | cons id rest ih =>
    rw [List.forall_mem_cons] at each
    obtain ⟨name, bracket⟩ := each.1
    rw [Tree.renameAll, List.map_cons, List.map_cons, ih each.2]
    rfl

/-- Renaming changes the names of the parameters and keeps their types. -/
theorem parameterGroups_renamed {groups : List Tree} (shaped : ∀ group ∈ groups, Group group)
    {parms : List (Tree × Ty)} (h : parameterGroups groups = .ok parms) (b : Bindings) :
    (∀ parm ∈ parms, Parameter parm.1 ∧ ∃ group ∈ groups, parm.1 ∈ group.children) ∧
    ∃ parms', parameterGroups (Tree.renameAll r b groups).1 = .ok parms' ∧
      parms'.map Prod.snd = parms.map Prod.snd ∧
      Tree.renameAll r b (parms.map Prod.fst) = (parms'.map Prod.fst, (Tree.renameAll r b groups).2) := by
  induction groups generalizing parms b with
  | nil =>
    cases h
    exact ⟨by simp, [], rfl, rfl, rfl⟩
  | cons group rest ih =>
    rw [List.forall_mem_cons] at shaped
    obtain ⟨hgroup, hrest⟩ := shaped
    cases hgroup with
    | @mk type ids each =>
      simp only [parameterGroups, Grammar.bind_eq_ok] at h
      obtain ⟨first, hfirst, more, hmore, hparms⟩ := h
      cases hparms
      simp only [parameterGroup, Grammar.bind_eq_ok] at hfirst
      obtain ⟨spec, hspec, base, hbase, hfirst⟩ := hfirst
      cases hspec
      cases hfirst
      obtain ⟨heach, parms', hparms', htypes, hids⟩ := ih hrest hmore (Tree.renameAll r b ids).2
      have hnames : ∀ ids : List Tree, (ids.map fun id => (id, parameterType base id)).map Prod.fst = ids := by
        simp [Function.comp_def]
      have htypes' : ∀ ids : List Tree, (ids.map fun id => (id, parameterType base id)).map Prod.snd =
          ids.map (parameterType base) := by
        simp [Function.comp_def]
      refine ⟨?_, (Tree.renameAll r b ids).1.map (fun id => (id, parameterType base id)) ++ parms', ?_, ?_, ?_⟩
      · intro parm hparm
        rcases List.mem_append.1 hparm with hparm | hparm
        · obtain ⟨id, hid, rfl⟩ := List.mem_map.1 hparm
          exact ⟨each id hid, _, List.mem_cons_self .., List.mem_cons_of_mem _ hid⟩
        · obtain ⟨hparameter, group, hgroup, hmem⟩ := heach parm hparm
          exact ⟨hparameter, group, List.mem_cons_of_mem _ hgroup, hmem⟩
      · simp only [Tree.renameAll, Tree.rename_group, parameterGroups, parameterGroup, Grammar.bind_eq_ok]
        exact ⟨_, ⟨_, rfl, base, hbase, rfl⟩, parms', hparms', rfl⟩
      · rw [List.map_append, List.map_append, htypes, htypes', htypes']
        exact congrArg (· ++ _) (types_renamed base each b)
      · rw [List.map_append, List.map_append, hnames]
        simp only [List.drop_succ_cons, List.drop_zero, Tree.inner, hnames, Tree.renameAll_append, hids,
          Tree.renameAll]
        rfl

theorem declareParameters_renamed {parms parms' : List (Tree × Ty)} (shaped : ∀ parm ∈ parms, Parameter parm.1)
    (allows : ∀ parm ∈ parms, r.Allows parm.1) {b b' : Bindings}
    (hids : Tree.renameAll r b (parms.map Prod.fst) = (parms'.map Prod.fst, b'))
    (htypes : parms'.map Prod.snd = parms.map Prod.snd) {c c' : ScopeChain} {u : Unit} (hb : r.Follows b c)
    (h : declareParameters parms c = .ok u c') :
    declareParameters parms' (r.chain b c) = .ok u (r.chain b' c') ∧ r.Follows b' c' := by
  induction parms generalizing parms' b c with
  | nil =>
    obtain rfl := declareParameters_nil.1 h
    obtain rfl : parms' = [] := by simpa using htypes
    cases hids
    exact ⟨rfl, hb⟩
  | cons parm rest ih =>
    obtain ⟨id, ty⟩ := parm
    rw [List.forall_mem_cons] at shaped allows
    obtain ⟨name, slot, c₁, hname, hdeclare, hrest⟩ := declareParameters_cons.1 h
    cases parms' with
    | nil => simp at htypes
    | cons parm' rest' =>
      obtain ⟨id', ty'⟩ := parm'
      obtain ⟨rfl, htypesRest⟩ := List.cons.inj htypes
      obtain ⟨token, bracket⟩ := shaped.1
      cases hname
      have hallowed : r.allowed token.lexeme = true := allows.1.token rfl
      obtain ⟨hdeclare', hb₁⟩ := hb.declare hallowed hdeclare
      simp only [List.map_cons, Tree.renameAll, Prod.mk.injEq, List.cons.injEq] at hids
      obtain ⟨⟨rfl, hids⟩, hb'⟩ := hids
      obtain ⟨hrest', hfollows⟩ := ih shaped.2 allows.2 (Prod.ext hids hb') htypesRest hb₁ hrest
      exact ⟨declareParameters_cons.2 ⟨_, slot, _, rfl, hdeclare', hrest'⟩, hfollows⟩

/-! Functions. -/

/-- Renaming carries a function over; the scope around it is the one in front of it. -/
theorem routine_renamed {decl : Tree} (hdecl : Function decl) (allows : r.Allows decl)
    (ρ : Renumbering table table') {s s' : Session} {g : Routine} (hs : s.functions = table)
    (hb : r.Follows b s.scopes) (h : routine decl s = .ok g s') :
    routine (decl.rename r b).1 (ρ.session r b s) = .ok (ρ.routine g) (ρ.session r (decl.rename r b).2 s') ∧
      r.Follows (decl.rename r b).2 s'.scopes := by
  obtain ⟨name, parms, entry, block, flat, e, hname, hlookup, hparms, hentry, hblock, hflat, hg, rfl⟩ :=
    routine_iff.1 h
  cases hdecl with
  | @mk type id groups brace decls stmts hgroups head body =>
    rw [body_function] at hblock
    cases hblock
    rw [parameters_function] at hparms
    subst hs
    obtain ⟨hids, parms', hparms', htypes, hrenamed⟩ := @parameterGroups_renamed r _ hgroups _ hparms b.enter
    have hlist : r.Allows (.inner .parms groups) := allows.child (by simp [functionNode, Tree.marked])
    have hblock : r.Allows (.marked .compoundStmt brace (decls ++ stmts)) :=
      allows.child (by simp [functionNode, Tree.marked])
    obtain ⟨hentry', hb₁⟩ := declareParameters_renamed (fun parm hparm => (hids parm hparm).1)
      (fun parm hparm => by
        obtain ⟨-, group, hgroup, hmem⟩ := hids parm hparm
        exact (hlist.child hgroup).child hmem)
      hrenamed htypes (hb.enter .function) hentry
    obtain ⟨hflat', hb₂⟩ := items_renamed ρ (fun t ht => (List.mem_append.1 ht).imp (head t) fun hmem =>
      ⟨(body t hmem).tag, statement_renamed (body t hmem) (hblock.child ht) ρ⟩)
      (fun t ht => hblock.child ht) _ _ _ _ hb₁ hflat
    obtain ⟨hexit, hb'⟩ := hb₂.exit (b := b) (by simp [Bindings.enter, Bindings.scopes])
    rw [hb.depth] at hexit hb'
    rw [Tree.rename_function]
    rw [Renaming.chain_enter] at hentry'
    refine ⟨routine_iff.2 ⟨name, parms', _, _, _, _, hname, ρ.lookup hlookup, ?_, hentry', body_function ..,
      hflat', ?_, ?_⟩, hb'⟩
    · rw [parameters_function, hparms']
    · rw [hg]
      simp only [Renumbering.routine, ρ.code_closeBody]
      rfl
    · have hdepth : (r.chain b s.scopes).depth = s.scopes.depth := Renaming.depth_chain hb
      simp only [Renumbering.session, Renumbering.state, hexit, hdepth]

/-- Variables at file scope. -/
theorem variables_renamed {decl : Tree} (hdecl : Variables none decl) (allows : r.Allows decl)
    (ρ : Renumbering table table') {s s' : Session} {code : Code} (hs : s.functions = table)
    (hb : r.Follows b s.scopes) (h : inBody (declaration s.functions decl) s = .ok code s') :
    inBody (declaration table' (decl.rename r b).1) (ρ.session r b s) =
        .ok (ρ.code code) (ρ.session r (decl.rename r b).2 s') ∧
      r.Follows (decl.rename r b).2 s'.scopes := by
  obtain ⟨e, hrun, rfl⟩ := inBody_ok.1 h
  subst hs
  obtain ⟨hrun', hb'⟩ := declaration_renamed hdecl allows ρ _ _ _ hb hrun
  exact ⟨inBody_ok.2 ⟨_, hrun', rfl⟩, hb'⟩

theorem routines_renamed {decls : List Tree} (shaped : ∀ decl ∈ decls, Declaration decl)
    (allows : ∀ decl ∈ decls, r.Allows decl) (ρ : Renumbering table table') {s s' : Session}
    {gs : List Routine} (hs : s.functions = table) (hb : r.Follows b s.scopes)
    (h : routines decls s = .ok gs s') :
    routines (Tree.renameAll r b decls).1 (ρ.session r b s) =
        .ok (gs.map ρ.routine) (ρ.session r (Tree.renameAll r b decls).2 s') ∧
      r.Follows (Tree.renameAll r b decls).2 s'.scopes := by
  induction decls generalizing b s gs with
  | nil =>
    obtain ⟨rfl, rfl⟩ := pure_ok.1 h
    exact ⟨rfl, hb⟩
  | cons decl rest ih =>
    rw [List.forall_mem_cons] at shaped allows
    obtain ⟨hdecl | hdecl, hrest⟩ := shaped
    · obtain ⟨code, s₁, hcode, hroutines⟩ := (routines_variables hdecl.tag).1 h
      obtain ⟨hcode', hb₁⟩ := variables_renamed hdecl allows.1 ρ hs hb hcode
      obtain ⟨e, -, hs₁⟩ := inBody_ok.1 hcode
      obtain ⟨hmore, hb'⟩ := ih hrest allows.2 (by rw [hs₁, hs]) hb₁ hroutines
      exact ⟨(routines_variables (by simpa using hdecl.tag)).2 ⟨_, _, hcode', hmore⟩, hb'⟩
    · obtain ⟨g, s₁, more, hg, hroutines, rfl⟩ := (routines_function hdecl.tag).1 h
      obtain ⟨hg', hb₁⟩ := routine_renamed hdecl allows.1 ρ hs hb hg
      obtain ⟨hfunctions, -⟩ := routine_contained hdecl hg
      obtain ⟨hmore, hb'⟩ := ih hrest allows.2 (hfunctions.trans hs) hb₁ hroutines
      exact ⟨(routines_function (by simpa using hdecl.tag)).2 ⟨_, _, _, hg', hmore, rfl⟩, hb'⟩

/-! Programs. -/

/-- A function is registered under the same name, with the same types. -/
theorem register_renamed {decl : Tree} (hdecl : Function decl) {s s' : Session} {u : Unit}
    (h : register decl s = .ok u s') (b : Bindings) : register (decl.rename r b).1 s = .ok u s' := by
  obtain ⟨name, result, parms, handle, functions, hname, hresult, hparms, hdeclare, rfl⟩ := register_iff.1 h
  cases hdecl with
  | @mk type id groups brace decls stmts hgroups head body =>
    rw [parameters_function] at hparms
    rw [resultType_function] at hresult
    obtain ⟨-, parms', hparms', htypes, -⟩ := @parameterGroups_renamed r _ hgroups _ hparms b.enter
    rw [Tree.rename_function]
    refine register_iff.2 ⟨name, result, parms', handle, functions, hname, ?_, ?_, ?_, rfl⟩
    · rw [resultType_function, hresult]
    · rw [parameters_function, hparms']
    · rw [htypes]
      exact hdeclare

theorem registerAll_renamed {decls : List Tree} (shaped : ∀ decl ∈ decls, Declaration decl) {s s' : Session}
    {u : Unit} (h : registerAll decls s = .ok u s') (b : Bindings) :
    registerAll (Tree.renameAll r b decls).1 s = .ok u s' := by
  induction decls generalizing b s with
  | nil => exact h
  | cons decl rest ih =>
    rw [List.forall_mem_cons] at shaped
    obtain ⟨hdecl | hdecl, hrest⟩ := shaped
    · rw [registerAll_skip rest (by simp [hdecl.tag])] at h
      rw [Tree.renameAll, registerAll_skip _ (by simp [hdecl.tag])]
      exact ih hrest h _
    · obtain ⟨s₁, hregister, h⟩ := (registerAll_function hdecl.tag).1 h
      rw [Tree.renameAll, registerAll_function (by simp [hdecl.tag])]
      exact ⟨s₁, register_renamed hdecl hregister b, ih hrest h _⟩

end Session

theorem Renumbering.routine_refl (table : FunctionTable) : (Renumbering.refl table).routine = id := by
  funext g
  rw [routine, signature, code_refl]
  rfl

/-- A renaming that allows all words of a program leaves its image as it is. -/
theorem compileProgram_renamed {program : Tree} (shaped : ∀ decl ∈ program.children, Declaration decl)
    {r : Renaming} (allows : r.Allows program) {image : Image} {s : Session}
    (h : Session.compileProgram program .empty = .ok image s) :
    ∃ s', Session.compileProgram (program.rename r .start).1 .empty = .ok image s' := by
  obtain ⟨htag, s₀, s₁, hregister, hroutines, himage, -⟩ := Session.compileProgram_iff.1 h
  obtain ⟨hs₀, -⟩ := Session.registerAll_ok hregister
  have hchildren : (program.rename r .start).1.children = (Tree.renameAll r .start program.children).1 := by
    obtain ⟨tag, token, children⟩ := program
    cases htag
    rfl
  have hregister' := Session.registerAll_renamed (r := r) shaped hregister .start
  obtain ⟨hroutines', -⟩ := Session.routines_renamed shaped (fun decl hdecl => allows.child hdecl)
    (Renumbering.refl s₀.functions) rfl (b := .start) (by rw [hs₀]; exact Renaming.follows_start) hroutines
  have hstart : (Renumbering.refl s₀.functions).session r .start s₀ = s₀ := by
    rw [hs₀]
    rfl
  have hgs : image.functions.map (Renumbering.refl s₀.functions).routine = image.functions := by
    rw [Renumbering.routine_refl, List.map_id]
  rw [hstart, hgs] at hroutines'
  rw [← hchildren] at hregister' hroutines'
  refine ⟨_, Session.compileProgram_iff.2 ⟨?_, s₀, _, hregister', hroutines', ?_, rfl⟩⟩
  · rw [Tree.tag_rename, htag]
  · rw [himage]
    simp only [Renumbering.session, Renumbering.segment, Renumbering.code_refl]
    rfl

/-- A variable may have any name that is not in use: the program is compiled to the same image. -/
theorem renamed_variable {source : String} {program : Tree} (hparse : parse source = .ok program)
    {image : Image} {s : Session} (h : Session.compileProgram program .empty = .ok image s) {fresh : String}
    (unused : program.any (fun node => node.token.any fun token => token.lexeme == fresh) = false) (d : Nat) :
    ∃ s', Session.compileProgram (program.renameVariable d fresh) .empty = .ok image s' := by
  have hshaped := Shape.of_program (Grammar.derives_of_parse hparse)
  refine compileProgram_renamed hshaped.2 ?_ h
  simpa [Renaming.Allows, Renaming.single, bne] using unused

/-- The parameter `x` is renamed, with its use in the initializer of the inner `x` and behind the block. -/
theorem renamed_parameter : ∃ program image s,
    parse "int x; int f(int x, y) \x7b \x7b int x : x; x = x + y; \x7d return x; \x7d" = .ok program ∧
    Session.compileProgram program .empty = .ok image s ∧
    ((program.renameVariable 1 "n").collect (fun _ => false) fun t =>
      t.tag ∈ [Tag.varDeclId, .parmId, .mutable]).map word = ["x", "n", "y", "x", "n", "x", "x", "y", "n"] ∧
    ∃ s', Session.compileProgram (program.renameVariable 1 "n") .empty = .ok image s' := by
  have hrun : ((parse
      "int x; int f(int x, y) \x7b \x7b int x : x; x = x + y; \x7d return x; \x7d").toOption.any fun program =>
      (succeeded? (Session.compileProgram program .empty)).any fun _ =>
        decide (program.any (fun node => node.token.any fun token => token.lexeme == "n") = false ∧
          ((program.renameVariable 1 "n").collect (fun _ => false) fun t =>
            t.tag ∈ [Tag.varDeclId, .parmId, .mutable]).map word =
              ["x", "n", "y", "x", "n", "x", "x", "y", "n"])) = true := by decide +kernel
  obtain ⟨program, hparse, hrun⟩ := ok_of_any hrun
  obtain ⟨image, s, hcompile, hrun⟩ := ok_of_succeeded hrun
  obtain ⟨hunused, hnames⟩ := of_decide_eq_true hrun
  exact ⟨program, image, s, hparse, hcompile, hnames, renamed_variable hparse hcompile hunused 1⟩

end StackCompiler
