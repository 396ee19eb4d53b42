import StackCompiler.Proofs.Lowering.BodyRuns
import StackCompiler.Proofs.Lowering.BodyTypes
import StackCompiler.Proofs.Lowering.Calls

/-!
What a part of a function body leaves alone: the scopes around it, and, if it declares no `static`
variable, the static slots and the code that sets them up. A function without `static` variables leaves no
trace at all.
-/

set_option autoImplicit false
namespace StackCompiler

open Lowering Typing Shape

namespace Lowering

open ScopeChain

variable {table : FunctionTable}

structure Contained (quiet : Prop) (s s' : BodyState) : Prop where
  scopes : s.scopes.Within quiet s'.scopes
  staticInit : quiet → s.scopes.depth ≠ 1 → s'.staticInit = s.staticInit

namespace Contained

variable {quiet quiet' : Prop} {s s₁ s' : BodyState}

theorem refl (quiet : Prop) (s : BodyState) : Contained quiet s s :=
  ⟨.refl _ _, fun _ _ => rfl⟩

theorem depth (h : Contained quiet s s') : s'.scopes.depth = s.scopes.depth :=
  h.scopes.depth

theorem trans (h : Contained quiet s s₁) (h' : Contained quiet s₁ s') : Contained quiet s s' :=
  ⟨h.scopes.trans h'.scopes, fun hquiet inside =>
    (h'.staticInit hquiet (by rwa [h.depth])).trans (h.staticInit hquiet inside)⟩

theorem mono (h : Contained quiet s s') (hquiet : quiet' → quiet) : Contained quiet' s s' :=
  ⟨h.scopes.mono hquiet, fun hq => h.staticInit (hquiet hq)⟩

/-- Where a whole declares no `static` variable, no part does. -/
theorem part {t u : Tree} (hu : u ∈ t.children) (h : Contained (u.any Tree.declaresStatic = false) s s') :
    Contained (t.any Tree.declaresStatic = false) s s' :=
  h.mono fun hquiet => Tree.child_of_not_any hquiet hu

/-- An expression takes temporaries at most. -/
theorem expression {c' : ScopeChain} (h : Temps s.scopes c') (next : Label) :
    Contained quiet s ⟨c', s.staticInit, next⟩ :=
  ⟨.temps h, fun _ _ => rfl⟩

theorem behind {c₁ : ScopeChain} {next : Label} (h : Temps s.scopes c₁)
    (rest : Contained quiet ⟨c₁, s.staticInit, next⟩ s') : Contained quiet s s' :=
  (expression h next).trans rest

/-- A block is left as it was entered. -/
theorem block (h : Contained quiet { s with scopes := s.scopes.enter .block } s') :
    Contained quiet s { s' with scopes := s'.scopes.exit s.scopes.depth } := by
  have hexit : s'.scopes.exit s.scopes.depth = { s'.scopes with
      innermost := s.scopes.innermost.resume s'.scopes.innermost, enclosing := s.scopes.enclosing } :=
    exit_innermost h.scopes.enclosing
  have hinside : (s.scopes.enter .block).depth ≠ 1 := by simp [ScopeChain.depth, enter]
  rw [hexit]
  exact ⟨⟨rfl, Scope.resume_kind _ _, fun hquiet _ => h.scopes.statics hquiet hinside⟩, fun hquiet _ =>
    h.staticInit hquiet hinside⟩

end Contained

variable {s s' : BodyState} {code : Code}

theorem declarators_contained {base : Ty} {storage : Storage} {hoisted : Bool} {nodes : List Tree}
    (each : ∀ node ∈ nodes, Shape.Declarator node)
    (h : declarators table base storage hoisted nodes s = .ok code s') :
    Contained (storage ≠ .static) s s' := by
  induction nodes generalizing s code with
  | nil =>
    obtain ⟨-, rfl⟩ := declarators_nil.1 h
    exact .refl _ s'
  | cons node rest ih =>
    obtain ⟨setup, c₁, more, hsetup, hmore, -⟩ := declarators_cons.1 h
    have hwithin := (prepares_of_ok (each node (by simp)).isDeclarator hsetup).within
    refine Contained.trans ⟨?_, ?_⟩ (ih (fun node hmem => each node (by simp [hmem])) hmore)
    · unfold installed
      split <;> exact hwithin
    · intro hstorage inside
      rw [installed, if_neg hstorage]

theorem local_contained {t : Tree} (ht : Local t) (inside : s.scopes.depth ≠ 1)
    (h : declaration table t s = .ok code s') : Contained (t.declaresStatic = false) s s' := by
  obtain ⟨keyword, ht⟩ := ht
  cases ht with
  | @mk type nodes each =>
    have htags := fun node hnode => (each node hnode).tag
    have hstatic : (variablesNode keyword type nodes).declaresStatic = keyword.isSome :=
      static_variables keyword type htags
    obtain ⟨base, -, hrun⟩ := (declaration_variables htags).1 h
    refine (declarators_contained each hrun).mono fun hquiet => ?_
    rw [hstatic] at hquiet
    simp [hquiet, inside]

/-- A block stays in its scope if each of its statements does. -/
theorem items_contained {ctx : Context} {items : List Tree}
    (each : ∀ t ∈ items, Local t ∨ Shape.Statement t ∧ ∀ {ctx : Context} {s s' : BodyState} {code : Code},
      s.scopes.depth ≠ 1 → statement table ctx t s = .ok code s' →
      Contained (t.any Tree.declaresStatic = false) s s')
    (inside : s.scopes.depth ≠ 1) (h : blockItems table ctx items s = .ok code s') :
    Contained (Tree.anyOf Tree.declaresStatic items = false) s s' := by
  induction items generalizing s code with
  | nil =>
    obtain ⟨-, rfl⟩ := items_nil.1 h
    exact .refl _ s'
  | cons t rest ih =>
    rw [List.forall_mem_cons] at each
    obtain ⟨hitem, hrest⟩ := each
    have hfirst : ∃ s₁ more, Contained (t.any Tree.declaresStatic = false) s s₁ ∧
        blockItems table ctx rest s₁ = .ok more s' := by
      rcases hitem with hlocal | ⟨hstatement, hcontained⟩
      · obtain ⟨keyword, hvariables⟩ := hlocal
        obtain ⟨first, s₁, more, hfirst, hmore, -⟩ := (items_variables hvariables.tag).1 h
        exact ⟨s₁, more, (local_contained ⟨keyword, hvariables⟩ inside hfirst).mono Tree.root_of_not_any, hmore⟩
      · obtain ⟨first, s₁, more, hfirst, hmore, -⟩ := (items_statement hstatement.tag).1 h
        exact ⟨s₁, more, hcontained inside hfirst, hmore⟩
    obtain ⟨s₁, more, hcontained, hmore⟩ := hfirst
    exact (hcontained.mono fun hquiet => (Bool.or_eq_false_iff.1 hquiet).1).trans
      ((ih hrest (by rwa [hcontained.depth]) hmore).mono fun hquiet => (Bool.or_eq_false_iff.1 hquiet).2)

/-- A statement leaves the scopes around it open, and sets no static variable up unless it declares one. -/
theorem statement_contained {t : Tree} (ht : Shape.Statement t) {ctx : Context} (inside : s.scopes.depth ≠ 1)
    (h : statement table ctx t s = .ok code s') : Contained (t.any Tree.declaresStatic = false) s s' := by
  induction ht generalizing ctx s s' code with
  | empty =>
    obtain ⟨-, rfl⟩ := statement_empty.1 h
    exact .refl _ s'
  | expression _ value =>
    obtain ⟨c', hrun, rfl⟩ := statement_expression.1 h
    exact .expression (effect_of_run value hrun).temps _
  | compound _ head body ih =>
    obtain ⟨s₁, hitems, rfl⟩ := statement_compound.1 h
    have hcontained := items_contained
      (fun t ht => (List.mem_append.1 ht).imp (head t) fun ht => ⟨body t ht, ih t ht⟩)
      (by simp [ScopeChain.depth, enter]) hitems
    exact Contained.block (hcontained.mono fun hquiet =>
      Tree.anyOf_eq_false.2 fun t ht => Tree.child_of_not_any hquiet ht)
  | ifThen _ condition _ ih =>
    obtain ⟨test, c₁, branch, htest, hbranch, -⟩ := statement_ifThen.1 h
    have htemps := (lowers_of_valueOf condition htest).temps
    have hyes := ih (by rwa [htemps.depth]) hbranch
    exact .behind htemps (.part (by simp [Tree.marked]) hyes)
  | ifElse _ condition _ _ ih ih' =>
    obtain ⟨test, c₁, branch, s₂, other, htest, hbranch, hother, -⟩ := statement_ifElse.1 h
    have htemps := (lowers_of_valueOf condition htest).temps
    have hyes := ih (by rwa [htemps.depth]) hbranch
    have hno := ih' (by rwa [hyes.depth, htemps.depth]) hother
    exact .behind htemps (.trans (.part (by simp [Tree.marked]) hyes) (.part (by simp [Tree.marked]) hno))
  | whileDo _ condition _ ih =>
    obtain ⟨test, c₁, inner, htest, hinner, -⟩ := statement_while.1 h
    have htemps := (lowers_of_valueOf condition htest).temps
    have hbody := ih (by rwa [htemps.depth]) hinner
    exact .behind htemps (.part (by simp [Tree.marked]) hbody)
  | forDo _ range _ ih =>
    obtain ⟨symbol, r, c₁, inner, -, -, hrange, hinner, -⟩ := statement_for.1 h
    obtain ⟨counting, hcounts, -⟩ := counts_of_ok range hrange
    have hbody := ih (by rwa [hcounts.temps.depth]) hinner
    exact .behind hcounts.temps (.part (by simp [Tree.marked]) hbody)
  | returnPlain =>
    obtain ⟨-, -, rfl⟩ := statement_returnPlain.1 h
    exact .refl _ s'
  | returnValue _ value =>
    obtain ⟨code, c', hrun, -, rfl⟩ := statement_return.1 h
    exact .expression (lowers_of_valueOf value hrun).temps _
  | breakLoop =>
    obtain ⟨exit, -, -, rfl⟩ := statement_break.1 h
    exact .refl _ s'

end Lowering

namespace Session

open ScopeChain

/-- Parameters are declared in the scope of the function. -/
theorem declareParameters_within {parms : List (Tree × Ty)} {c c' : ScopeChain} {u : Unit}
    (h : declareParameters parms c = .ok u c') (quiet : Prop) : Within quiet c c' := by
  induction parms generalizing c with
  | nil =>
    obtain rfl := declareParameters_nil.1 h
    exact .refl _ _
  | cons parm rest ih =>
    obtain ⟨name, slot, c₁, -, hdeclare, hrest⟩ := declareParameters_cons.1 h
    exact ((Within.declare hdeclare).mono (by simp)).trans (ih hrest)

/-- A function closes the scope that it opens, and leaves no other trace if it declares no `static`
variable. -/
theorem routine_contained {decl : Tree} (hdecl : Function decl) {s s' : Session} {g : Routine}
    (h : routine decl s = .ok g s') :
    s'.functions = s.functions ∧ s'.scopes.innermost = s.scopes.innermost ∧
      s'.scopes.enclosing = s.scopes.enclosing ∧
      (decl.any Tree.declaresStatic = false →
        s'.scopes.statics = s.scopes.statics ∧ s'.staticInit = s.staticInit) := by
  obtain ⟨name, params, entry, block, flat, b, -, -, -, hentry, hblock, hflat, -, rfl⟩ := routine_iff.1 h
  cases hdecl with
  | @mk type id groups brace decls stmts parms head body =>
    rw [body_function] at hblock
    cases hblock
    have hparms := declareParameters_within hentry (Tree.anyOf Tree.declaresStatic (decls ++ stmts) = false)
    have hinside : (s.scopes.enter .function).depth ≠ 1 := by simp [ScopeChain.depth, enter]
    have hbody := items_contained (fun t ht => (List.mem_append.1 ht).imp (head t) fun ht =>
      ⟨body t ht, fun inside hrun => statement_contained (body t ht) inside hrun⟩) (by rwa [hparms.depth]) hflat
    have hwithin := hparms.trans hbody.scopes
    have hexit : b.scopes.exit s.scopes.depth = { b.scopes with
        innermost := s.scopes.innermost.resume b.scopes.innermost, enclosing := s.scopes.enclosing } :=
      exit_innermost hwithin.enclosing
    rw [hexit]
    refine ⟨rfl, ?_, rfl, fun hquiet => ?_⟩
    · exact Scope.resume_of_not_block (by simp [hwithin.kind, enter])
    · have hitems : Tree.anyOf Tree.declaresStatic (decls ++ stmts) = false := by
        have hblock : (Tree.marked .compoundStmt brace (decls ++ stmts)).any Tree.declaresStatic = false :=
          Tree.child_of_not_any hquiet (by simp [functionNode, Tree.marked])
        exact Tree.anyOf_eq_false.2 fun t ht => Tree.child_of_not_any hblock ht
      exact ⟨hwithin.statics hitems hinside, hbody.staticInit hitems (by rwa [hparms.depth])⟩

end Session

end StackCompiler
