import StackCompiler.Proofs.Typing.Bodies

/-!
A program is compiled exactly if it is legal. Registration checks the heads of all functions before any
body is lowered, so calls may go forward; the declarations at file scope then come in order.
-/

set_option autoImplicit false
namespace StackCompiler.Typing

open Lowering
open ScopeChain

/-! Heads of functions. -/

theorem word_of_lexeme {t : Tree} {name : String} (h : t.lexeme = .ok name) : word t = name := by
  unfold Tree.lexeme at h
  unfold word
  split at h
  next token htoken =>
    cases h
    rw [htoken]
    rfl
  next => cases h

theorem lexeme_of_token {t : Tree} (h : t.token.isSome = true) : t.lexeme = .ok (word t) := by
  obtain ⟨token, htoken⟩ := Option.isSome_iff_exists.1 h
  simp [Tree.lexeme, word, htoken]

section Registration

variable {table table' : FunctionTable} {name : String} {result : Ty} {types : List Ty} {line handle : Nat}

theorem declare_plain (h : table.declare name result types line = .ok (handle, table')) :
    isIntrinsic name = false := by
  unfold FunctionTable.declare at h
  split at h
  next => cases h
  next hfree =>
    simp only [Bool.or_eq_true, not_or, Bool.not_eq_true] at hfree
    exact hfree.1

theorem declare_function_succeeds (plain : isIntrinsic name = false) (free : table.lookup? name = none) :
    ∃ handle table', table.declare name result types line = .ok (handle, table') := by
  simp [FunctionTable.declare, plain, free]

theorem lookup_declare (h : table.declare name result types line = .ok (handle, table')) (n : String) :
    table'.lookup? n =
      if n = name then some ⟨name, result, types, table.signatures.length⟩ else table.lookup? n := by
  obtain ⟨hfree, rfl⟩ := FunctionTable.declare_ok h
  rw [FunctionTable.lookup?, List.find?_append]
  by_cases hn : n = name
  · subst hn
    rw [FunctionTable.lookup?] at hfree
    simp [hfree]
  · have hne : (name == n) = false := by simpa using Ne.symm hn
    rw [if_neg hn, List.find?_cons, hne, List.find?_nil, Option.or_none, FunctionTable.lookup?]

theorem offeredBy_declare (h : table.declare name result types line = .ok (handle, table')) (n : String)
    (ts : List Ty) (r : Ty) :
    offeredBy table' n ts r ↔ offeredBy table n ts r ∨ (n = name ∧ ts = types ∧ r = result) := by
  obtain ⟨hfree, -⟩ := FunctionTable.declare_ok h
  unfold offeredBy
  rw [lookup_declare h]
  by_cases hn : n = name
  · subst hn
    simp [hfree, eq_comm]
  · simp [hn]

end Registration

theorem heads_iff {decl : Tree} {parms : List (Tree × Ty)} {result : Ty}
    (hparms : parameters decl = .ok parms) (hresult : Session.resultType decl = .ok result) (n : String)
    (ts : List Ty) (r : Ty) :
    Heads decl n ts r ↔ n = word decl ∧ ts = parms.map Prod.snd ∧ r = result := by
  simp [Heads, hparms, hresult, eq_comm]

theorem functionDeclarations_cons {decl : Tree} (rest : List Tree) (htag : decl.tag = .funDecl) :
    functionDeclarations (decl :: rest) = decl :: functionDeclarations rest := by
  simp [functionDeclarations, htag]

theorem functionDeclarations_skip {decl : Tree} (rest : List Tree) (htag : decl.tag ≠ .funDecl) :
    functionDeclarations (decl :: rest) = functionDeclarations rest := by
  simp [functionDeclarations, htag]

theorem functionsOf_cons {decl : Tree} (rest : List Tree) (htag : decl.tag = .funDecl) (n : String)
    (ts : List Ty) (r : Ty) :
    functionsOf (decl :: rest) n ts r ↔ Heads decl n ts r ∨ functionsOf rest n ts r := by
  simp [functionsOf, functionDeclarations_cons rest htag]

/-- Registration checks the heads of all functions, and enters them into the table. -/
theorem registered {decls : List Tree} {s s' : Session} {u : Unit}
    (h : Session.registerAll decls s = .ok u s') :
    ((functionDeclarations decls).map word).Nodup ∧
    (∀ decl ∈ functionDeclarations decls, (∃ types result, Heads decl (word decl) types result) ∧
      isIntrinsic (word decl) = false ∧ s.functions.lookup? (word decl) = none) ∧
    ∀ name types result, offeredBy s'.functions name types result ↔
      offeredBy s.functions name types result ∨ functionsOf decls name types result := by
  induction decls generalizing s with
  | nil =>
    obtain rfl := Session.registerAll_nil.1 h
    simp [functionDeclarations, functionsOf]
  | cons decl rest ih =>
    by_cases htag : decl.tag = .funDecl
    · obtain ⟨s₁, hregister, h⟩ := (Session.registerAll_function htag).1 h
      obtain ⟨name, result, parms, handle, functions, hname, hresult, hparms, hdeclare, rfl⟩ :=
        Session.register_iff.1 hregister
      obtain rfl := word_of_lexeme hname
      obtain ⟨hdistinct, heach, hoffered⟩ := ih h
      -- A later name is free in the table that holds this one, so it is a different name.
      have hfree : ∀ other ∈ functionDeclarations rest, word other ≠ word decl ∧
          s.functions.lookup? (word other) = none := by
        intro other hother
        have hnone := (heach other hother).2.2
        rw [lookup_declare hdeclare] at hnone
        split at hnone
        next => cases hnone
        next hne => exact ⟨hne, hnone⟩
      rw [functionDeclarations_cons rest htag]
      refine ⟨?_, ?_, ?_⟩
      · rw [List.map_cons, List.nodup_cons]
        refine ⟨fun hmem => ?_, hdistinct⟩
        obtain ⟨other, hother, hword⟩ := List.mem_map.1 hmem
        exact (hfree other hother).1 hword
      · rw [List.forall_mem_cons]
        exact ⟨⟨⟨_, _, (heads_iff hparms hresult ..).2 ⟨rfl, rfl, rfl⟩⟩, declare_plain hdeclare,
          (FunctionTable.declare_ok hdeclare).1⟩,
          fun other hother => ⟨(heach other hother).1, (heach other hother).2.1, (hfree other hother).2⟩⟩
      · intro n ts r
        rw [hoffered, offeredBy_declare hdeclare, functionsOf_cons rest htag, heads_iff hparms hresult,
          or_assoc]
    · rw [Session.registerAll_skip rest htag] at h
      unfold functionsOf
      rw [functionDeclarations_skip rest htag]
      exact ih h

/-- Heads of functions with different names are registered. -/
theorem registerAll_succeeds {decls : List Tree} {s : Session}
    (named : ∀ decl ∈ functionDeclarations decls, decl.token.isSome = true)
    (heads : ∀ decl ∈ functionDeclarations decls, ∃ types result, Heads decl (word decl) types result)
    (distinct : ((functionDeclarations decls).map word).Nodup)
    (plain : ∀ decl ∈ functionDeclarations decls, isIntrinsic (word decl) = false)
    (free : ∀ decl ∈ functionDeclarations decls, s.functions.lookup? (word decl) = none) :
    ∃ s', Session.registerAll decls s = .ok () s' := by
  induction decls generalizing s with
  | nil => exact ⟨s, Session.registerAll_nil.2 rfl⟩
  | cons decl rest ih =>
    by_cases htag : decl.tag = .funDecl
    · rw [functionDeclarations_cons rest htag] at named heads distinct plain free
      rw [List.forall_mem_cons] at named heads plain free
      rw [List.map_cons, List.nodup_cons] at distinct
      obtain ⟨types, result, -, ⟨parms, hparms, rfl⟩, hresult⟩ := heads.1
      obtain ⟨handle, functions, hdeclare⟩ : ∃ handle functions,
          s.functions.declare (word decl) result (parms.map Prod.snd) decl.line = .ok (handle, functions) :=
        declare_function_succeeds plain.1 free.1
      have hfree : ∀ other ∈ functionDeclarations rest, functions.lookup? (word other) = none := by
        intro other hother
        rw [lookup_declare hdeclare, if_neg ?_]
        · exact free.2 other hother
        · exact fun hword => distinct.1 (hword ▸ List.mem_map_of_mem hother)
      obtain ⟨s', hrest⟩ := @ih { s with functions } named.2 heads.2 distinct.2 plain.2 hfree
      have hregister : Session.register decl s = .ok () { s with functions } := Session.register_iff.2
        ⟨_, result, parms, handle, functions, lexeme_of_token named.1, hresult, hparms, hdeclare, rfl⟩
      exact ⟨s', (Session.registerAll_function htag).2 ⟨_, hregister, hrest⟩⟩
    · rw [functionDeclarations_skip rest htag] at named heads distinct plain free
      rw [Session.registerAll_skip rest htag]
      exact ih named heads distinct plain free

/-! Parameters. -/

theorem lookup_cons_eq_none {scope : Variables} {name text : String} {ty : Ty} :
    ((text, ty) :: scope).lookup name = none ↔ name ≠ text ∧ scope.lookup name = none := by
  rw [List.lookup_cons]
  by_cases h : name = text
  · simp [h]
  · have hne : (name == text) = false := by simpa using h
    rw [hne]
    exact (and_iff_right h).symm

/-- Declared parameters have different names, and are the scope of the function. -/
theorem parameters_typed {parms : List (Tree × Ty)} {c c' : ScopeChain} {u : Unit}
    (h : Session.declareParameters parms c = .ok u c') :
    (parms.map fun parm => word parm.1).Nodup ∧
    (∀ parm ∈ parms, c.declared.lookup (word parm.1) = none) ∧
    c'.environment = (parameterScope parms ++ c.declared) :: c.environment.tail := by
  induction parms generalizing c with
  | nil =>
    obtain rfl := Session.declareParameters_nil.1 h
    exact ⟨by simp, by simp, rfl⟩
  | cons parm rest ih =>
    obtain ⟨id, ty⟩ := parm
    obtain ⟨name, slot, c₁, hname, hdeclare, h⟩ := Session.declareParameters_cons.1 h
    obtain rfl := word_of_lexeme hname
    obtain ⟨hfree, henv₁⟩ := environment_declare hdeclare
    obtain ⟨hdistinct, heach, henv⟩ := ih h
    have hdeclared : c₁.declared = (word id, ty) :: c.declared := (List.cons.inj henv₁).1
    have htail : c₁.environment.tail = c.environment.tail := (List.cons.inj henv₁).2
    simp only [hdeclared, lookup_cons_eq_none] at heach
    refine ⟨?_, ?_, ?_⟩
    · rw [List.map_cons, List.nodup_cons]
      refine ⟨fun hmem => ?_, hdistinct⟩
      obtain ⟨parm, hparm, hword⟩ := List.mem_map.1 hmem
      exact (heach parm hparm).1 hword
    · rw [List.forall_mem_cons]
      exact ⟨hfree, fun parm hparm => (heach parm hparm).2⟩
    · rw [henv, hdeclared, htail]
      simp [parameterScope]

theorem parameters_succeed {parms : List (Tree × Ty)} {c : ScopeChain}
    (named : ∀ parm ∈ parms, parm.1.token.isSome = true)
    (distinct : (parms.map fun parm => word parm.1).Nodup)
    (free : ∀ parm ∈ parms, c.declared.lookup (word parm.1) = none) :
    ∃ c', Session.declareParameters parms c = .ok () c' := by
  induction parms generalizing c with
  | nil => exact ⟨c, Session.declareParameters_nil.2 rfl⟩
  | cons parm rest ih =>
    obtain ⟨id, ty⟩ := parm
    rw [List.forall_mem_cons] at named free
    rw [List.map_cons, List.nodup_cons] at distinct
    obtain ⟨slot, c₁, hdeclare⟩ : ∃ slot c₁, c.declare (word id) ty .arg none id.line = .ok (slot, c₁) :=
      ScopeChain.declare_succeeds free.1
    have hdeclared : c₁.declared = (word id, ty) :: c.declared :=
      (List.cons.inj (environment_declare hdeclare).2).1
    have hfree : ∀ parm ∈ rest, c₁.declared.lookup (word parm.1) = none := by
      intro parm hparm
      rw [hdeclared, lookup_cons_eq_none]
      exact ⟨fun hword => distinct.1 (List.mem_map.2 ⟨parm, hparm, hword⟩), free.2 parm hparm⟩
    obtain ⟨c', hrest⟩ := ih named.2 distinct.2 hfree
    exact ⟨c', Session.declareParameters_cons.2
      ⟨word id, slot, c₁, lexeme_of_token named.1, hdeclare, hrest⟩⟩

/-- The scope of a function holds its parameters and nothing else. -/
theorem environment_parameters {parms : List (Tree × Ty)} {c c' : ScopeChain} {u : Unit}
    (h : Session.declareParameters parms (c.enter .function) = .ok u c') :
    c'.environment = parameterScope parms :: c.environment := by
  obtain ⟨-, -, henv⟩ := parameters_typed h
  obtain ⟨hdeclared, htail⟩ : (c.enter .function).declared = [] ∧
      (c.enter .function).environment.tail = c.environment := List.cons.inj (environment_enter c .function)
  rw [henv, hdeclared, htail, List.append_nil]

theorem groups_named {groups : List Tree} {parms : List (Tree × Ty)} (h : parameterGroups groups = .ok parms)
    (hgroups : ∀ group ∈ groups, ∀ u ∈ group.children, u.token.isSome = true) :
    ∀ parm ∈ parms, parm.1.token.isSome = true := by
  induction groups generalizing parms with
  | nil =>
    cases h
    simp
  | cons group rest ih =>
    rw [List.forall_mem_cons] at hgroups
    simp only [parameterGroups, parameterGroup, Grammar.bind_eq_ok] at h
    obtain ⟨first, ⟨spec, -, base, -, hfirst⟩, more, hmore, hparms⟩ := h
    cases hfirst
    cases hparms
    rw [List.forall_mem_append]
    refine ⟨?_, ih hmore hgroups.2⟩
    intro parm hparm
    obtain ⟨id, hid, rfl⟩ := List.mem_map.1 hparm
    exact hgroups.1 id (List.mem_of_mem_drop hid)

theorem parameters_named {decl : Tree} (hdecl : decl.FromSource) {parms : List (Tree × Ty)}
    (h : parameters decl = .ok parms) : ∀ parm ∈ parms, parm.1.token.isSome = true := by
  unfold parameters at h
  cases hnode : decl.find? .parms with
  | none =>
    rw [hnode] at h
    cases h
  | some node =>
    rw [hnode] at h
    have htag : node.tag = .parms := by
      unfold Tree.find? at hnode
      simpa using List.find?_some hnode
    exact groups_named h ((hdecl.child (List.mem_of_find?_eq_some hnode)).parameters htag)

/-! Declarations at file scope. -/

variable {functions : Functions}

theorem variables_typed {decl : Tree} {s s' : Session} {code : Code}
    (hfunctions : Holds functions s.functions) (hsource : decl.FromSource) (hdecl : IsDeclaration decl)
    (h : Session.inBody (declaration s.functions decl) s = .ok code s') :
    (∃ base, baseType decl = .ok base ∧
      Declares functions base s.scopes.environment decl.declarators s'.scopes.environment) ∧
    s'.functions = s.functions := by
  obtain ⟨b, hb, rfl⟩ := Session.inBody_ok.1 h
  obtain ⟨base, hbase, hb⟩ := declaration_iff.1 hb
  obtain ⟨outline, houtlines, -⟩ := declarators_outlined ⟨.void, none⟩ hdecl hb
  have htyped := typed_of_outlines hfunctions houtlines fun node hnode =>
    ⟨hsource.child (List.mem_filter.1 hnode).1, by simpa using (List.mem_filter.1 hnode).2⟩
  exact ⟨⟨base, hbase, htyped⟩, rfl⟩

theorem variables_compiled {decl : Tree} {s : Session} {base : Ty} {env : Environment}
    (hfunctions : Holds functions s.functions) (hdecl : Unhoisted decl) (isDecl : decl.tag = .varDecl)
    (type : baseType decl = .ok base)
    (declares : Declares functions base s.scopes.environment decl.declarators env) :
    ∃ code s', Session.inBody (declaration s.functions decl) s = .ok code s' ∧
      s'.scopes.environment = env ∧ s'.functions = s.functions := by
  obtain ⟨code, b, hrun, henv⟩ := @declaration_succeeds functions s.functions hfunctions decl base _ env
    isDecl type declares hdecl ⟨s.scopes, s.staticInit, 0⟩ rfl
  exact ⟨code, _, Session.inBody_ok.2 ⟨b, hrun, rfl⟩, henv, rfl⟩

/-- A compiled function is legal, and leaves the environment as it was. -/
theorem routine_typed {decl : Tree} {s s' : Session} {g : Routine} {types : List Ty} {result : Ty}
    (hfunctions : Holds functions s.functions) (hsource : decl.FromSource)
    (hdecl : IsFunction s.functions decl) (hoffered : functions (word decl) types result)
    (h : Session.routine decl s = .ok g s') :
    (∃ parms block, parameters decl = .ok parms ∧ (parms.map fun parm => word parm.1).Nodup ∧
      decl.find? .compoundStmt = some block ∧
      WellFormed functions result false (parameterScope parms :: s.scopes.environment)
        (.items block.children)) ∧
    s'.scopes.environment = s.scopes.environment ∧ s'.functions = s.functions := by
  obtain ⟨name, parms, entry, body, c', hname, hlookup, ⟨hparms, hentry, block, hblock, houtlines⟩, -, -,
    hsame, hscopes⟩ := Session.routine_ok h hdecl
  obtain rfl := word_of_lexeme hname
  obtain ⟨signature, hlookup', -, hresult⟩ := (hfunctions _ _ _).1 hoffered
  -- The body is lowered for the result type in the table, the rules speak of the declared one.
  have hresult' : g.signature.result = result := by
    rw [hlookup, Option.some.injEq] at hlookup'
    rw [hlookup', hresult]
  have henv := environment_parameters hentry
  have hblock' : block.FromSource := hsource.child (List.mem_of_find?_eq_some hblock)
  obtain ⟨hitems, htail⟩ := typed_of_outlines hfunctions houtlines fun item hitem => hblock'.child hitem
  rw [henv, hresult'] at hitems
  rw [henv] at htail
  refine ⟨⟨parms, block, hparms, (parameters_typed hentry).1, hblock, hitems⟩, ?_, hsame⟩
  rw [hscopes]
  exact environment_exit htail

/-- A legal function is compiled. -/
theorem routine_succeeds {decl block : Tree} {s : Session} {parms : List (Tree × Ty)} {types : List Ty}
    {result : Ty} (hfunctions : Holds functions s.functions) (hdecl : Unhoisted decl)
    (isFunction : decl.tag = .funDecl) (hoffered : functions (word decl) types result)
    (takes : parameters decl = .ok parms) (distinct : (parms.map fun parm => word parm.1).Nodup)
    (body : decl.find? .compoundStmt = some block)
    (items : WellFormed functions result false (parameterScope parms :: s.scopes.environment)
      (.items block.children)) :
    ∃ g s', Session.routine decl s = .ok g s' ∧ s'.scopes.environment = s.scopes.environment ∧
      s'.functions = s.functions := by
  obtain ⟨signature, hlookup, -, rfl⟩ := (hfunctions _ _ _).1 hoffered
  have hlexeme := lexeme_of_token (hdecl.source.function isFunction)
  obtain ⟨entry, hentry⟩ := @parameters_succeed parms (s.scopes.enter .function)
    (parameters_named hdecl.source takes) distinct (by simp [ScopeChain.declared, ScopeChain.enter])
  have hblock : Unhoisted block := hdecl.child (List.mem_of_find?_eq_some body)
  have henv := environment_parameters hentry
  rw [← henv] at items
  obtain ⟨code, b, hcode, htail⟩ := items.succeeds hfunctions (fun item hitem => hblock.child hitem)
    ⟨signature.result, none⟩ ⟨entry, s.staticInit, 0⟩ rfl (by simp) rfl
  rw [henv] at htail
  exact ⟨⟨signature, b.scopes.locals, Session.closeBody signature.result code⟩,
    { s with scopes := b.scopes.exit s.scopes.depth, staticInit := b.staticInit },
    Session.routine_iff.2 ⟨word decl, parms, entry, block, code, b, hlexeme, hlookup, takes, hentry, body, hcode,
      rfl, rfl⟩, environment_exit htail, rfl⟩

/-- Compiled declarations are legal. -/
theorem wellFormed_of_routines {decls : List Tree} {s s' : Session} {gs : List Routine}
    (hfunctions : Holds functions s.functions)
    (each : ∀ decl ∈ decls, decl.FromSource ∧ IsTopLevel s.functions decl)
    (heads : ∀ decl ∈ functionDeclarations decls, ∃ types result, Heads decl (word decl) types result ∧
      functions (word decl) types result)
    (h : Session.routines decls s = .ok gs s') : WellFormedFile functions s.scopes.environment decls := by
  induction decls generalizing s gs with
  | nil => exact .done
  | cons decl rest ih =>
    rw [List.forall_mem_cons] at each
    obtain ⟨⟨hsource, ⟨htag, hdecl⟩ | hdecl⟩, heach⟩ := each
    · rw [functionDeclarations_skip rest (by simp [htag])] at heads
      obtain ⟨code, s₁, hcode, hrest⟩ := (Session.routines_variables htag).1 h
      obtain ⟨⟨base, hbase, hdeclares⟩, hsame⟩ := variables_typed hfunctions hsource hdecl hcode
      rw [← hsame] at hfunctions heach
      exact .declaration htag hbase hdeclares (ih hfunctions heach heads hrest)
    · rw [functionDeclarations_cons rest hdecl.1, List.forall_mem_cons] at heads
      obtain ⟨⟨types, result, ⟨-, -, hresult⟩, hoffered⟩, heads⟩ := heads
      obtain ⟨g, s₁, more, hg, hrest, -⟩ := (Session.routines_function hdecl.1).1 h
      obtain ⟨⟨parms, block, hparms, hdistinct, hblock, hitems⟩, henv, hsame⟩ :=
        routine_typed hfunctions hsource hdecl hoffered hg
      rw [← hsame] at hfunctions heach
      have hmore := ih hfunctions heach heads hrest
      rw [henv] at hmore
      exact .function hdecl.1 hparms hresult hdistinct hblock hitems hmore

/-- Legal declarations are compiled. -/
theorem WellFormedFile.succeeds {env : Environment} {decls : List Tree}
    (h : WellFormedFile functions env decls) {s : Session} (hfunctions : Holds functions s.functions)
    (each : ∀ decl ∈ decls, Unhoisted decl)
    (offered : ∀ decl ∈ functionDeclarations decls, ∀ types result, Heads decl (word decl) types result →
      functions (word decl) types result) (henv : s.scopes.environment = env) :
    ∃ gs s', Session.routines decls s = .ok gs s' := by
  induction h generalizing s with
  | done => exact ⟨[], s, rfl⟩
  | @declaration _ _ decl rest _ isDecl type declares _ more =>
    subst henv
    rw [List.forall_mem_cons] at each
    rw [functionDeclarations_skip rest (by simp [isDecl])] at offered
    obtain ⟨code, s₁, hcode, henv, hsame⟩ := variables_compiled hfunctions each.1 isDecl type declares
    rw [← hsame] at hfunctions
    obtain ⟨gs, s', hrest⟩ := more hfunctions each.2 offered henv
    exact ⟨gs, s', (Session.routines_variables isDecl).2 ⟨code, s₁, hcode, hrest⟩⟩
  | @function _ decl block rest parms result isFunction takes returns distinct body items _ more =>
    subst henv
    rw [List.forall_mem_cons] at each
    rw [functionDeclarations_cons rest isFunction, List.forall_mem_cons] at offered
    have hoffered : functions (word decl) (parms.map Prod.snd) result :=
      offered.1 _ _ ⟨rfl, ⟨parms, takes, rfl⟩, returns⟩
    obtain ⟨g, s₁, hg, henv, hsame⟩ :=
      routine_succeeds hfunctions each.1 isFunction hoffered takes distinct body items
    rw [← hsame] at hfunctions
    obtain ⟨gs, s', hrest⟩ := more hfunctions each.2 offered.2 henv
    exact ⟨g :: gs, s', (Session.routines_function isFunction).2 ⟨g, s₁, gs, hg, hrest, rfl⟩⟩

theorem WellFormedFile.heads {env : Environment} {decls : List Tree}
    (h : WellFormedFile functions env decls) :
    ∀ decl ∈ functionDeclarations decls, ∃ types result, Heads decl (word decl) types result := by
  induction h with
  | done => simp [functionDeclarations]
  | @declaration _ _ decl rest _ isDecl _ _ _ more =>
    rwa [functionDeclarations_skip rest (by simp [isDecl])]
  | @function _ decl _ rest parms result isFunction takes returns _ _ _ _ more =>
    rw [functionDeclarations_cons rest isFunction, List.forall_mem_cons]
    exact ⟨⟨_, _, rfl, ⟨parms, takes, rfl⟩, returns⟩, more⟩

/-! Programs. -/

/-- The functions of a program are those that registration enters into an empty table. -/
theorem holds_registered {decls : List Tree} {s : Session} {u : Unit}
    (h : Session.registerAll decls .empty = .ok u s) : Holds (functionsOf decls) s.functions := by
  intro name types result
  obtain ⟨-, -, hoffered⟩ := registered h
  have hnone : ¬ offeredBy Session.empty.functions name types result := by
    rintro ⟨signature, hlookup, -⟩
    cases hlookup
  rw [hoffered, or_iff_right hnone]

theorem tag_of_parse {source : String} {program : Tree} (h : parse source = .ok program) :
    program.tag = .program := by
  cases Grammar.derives_of_parse h
  rfl

/-- A program that gives no `static` variable an initial value is compiled if and only if it is legal. -/
theorem compiles_iff_wellFormed {source : String} {program : Tree} (hparse : parse source = .ok program)
    (hstatic : program.any initializesStatic = false) :
    (∃ image s, Session.compileProgram program .empty = .ok image s) ↔ WellFormedProgram program := by
  have hunhoisted : ∀ decl ∈ program.children, Unhoisted decl := fun decl hdecl =>
    Unhoisted.child ⟨fromSource_of_parse hparse, hstatic⟩ hdecl
  constructor
  · rintro ⟨image, s', h⟩
    obtain ⟨-, s, s₁, hregister, hroutines, -⟩ := Session.compileProgram_iff.1 h
    obtain ⟨hdistinct, heach, -⟩ := registered hregister
    obtain ⟨hs, -⟩ := Session.registerAll_ok hregister
    have htop : ∀ decl ∈ program.children, IsTopLevel s.functions decl :=
      outlinedAs (Grammar.derives_of_parse hparse) program (List.mem_singleton_self _)
    have hfile := wellFormed_of_routines (holds_registered hregister)
      (fun decl hdecl => ⟨(hunhoisted decl hdecl).source, htop decl hdecl⟩)
      (fun decl hdecl => by
        obtain ⟨types, result, hheads⟩ := (heach decl hdecl).1
        exact ⟨types, result, hheads, decl, hdecl, hheads⟩) hroutines
    rw [hs] at hfile
    exact ⟨hdistinct, fun decl hdecl => (heach decl hdecl).2.1, hfile⟩
  · rintro ⟨hdistinct, hplain, hfile⟩
    have hnamed : ∀ decl ∈ functionDeclarations program.children, decl.token.isSome = true := by
      intro decl hdecl
      obtain ⟨hmem, htag⟩ := List.mem_filter.1 hdecl
      exact (hunhoisted decl hmem).source.function (beq_iff_eq.1 htag)
    obtain ⟨s, hregister⟩ := @registerAll_succeeds program.children .empty hnamed hfile.heads hdistinct hplain
      (fun _ _ => rfl)
    obtain ⟨hs, -⟩ := Session.registerAll_ok hregister
    obtain ⟨gs, s₁, hroutines⟩ := hfile.succeeds (holds_registered hregister) hunhoisted
      (fun decl hdecl types result hheads => ⟨decl, hdecl, hheads⟩) (by rw [hs]; rfl)
    exact ⟨⟨gs, s₁.scopes.statics, s₁.staticInit.code⟩, { s₁ with staticInit := .empty },
      Session.compileProgram_iff.2 ⟨tag_of_parse hparse, s, s₁, hregister, hroutines, rfl, rfl⟩⟩

/-- A call may go forward, and a name may be declared anew in an inner scope. -/
theorem wellFormed_forward_call : ∃ program,
    parse "bool f() \x7b return g(1); \x7d bool g(int n) \x7b \x7b bool n : n < 2; return n; \x7d \x7d" =
      .ok program ∧ program.any initializesStatic = false ∧ WellFormedProgram program := by
  have hrun : (match
      parse "bool f() \x7b return g(1); \x7d bool g(int n) \x7b \x7b bool n : n < 2; return n; \x7d \x7d" with
      | .ok program => !program.any initializesStatic &&
        match Session.compileProgram program .empty with
        | .error _ _ => false
        | .ok _ _ => true
      | .error _ => false) = true := by decide +kernel
  split at hrun
  next program hparse =>
    obtain ⟨hstatic, hrun⟩ := Bool.and_eq_true_iff.1 hrun
    rw [Bool.not_eq_true'] at hstatic
    split at hrun
    next => cases hrun
    next image s hcompile =>
      exact ⟨program, hparse, hstatic, (compiles_iff_wellFormed hparse hstatic).1 ⟨image, s, hcompile⟩⟩
  next => cases hrun

end StackCompiler.Typing
