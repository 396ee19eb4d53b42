import StackCompiler.Proofs.Lowering.Routines
import StackCompiler.Proofs.Lowering.Invariants

/-!
Labels resolve. The code of a function body jumps only to labels that it places itself, and places none
twice; so does the code that sets up static variables, which grows while bodies are compiled and stays in
the session when one of them fails. Both hold for all trees and after all earlier calls.
-/

set_option autoImplicit false
namespace StackCompiler

open Lowering Code

namespace Lowering

/-! The setup of static variables. -/

/-- Code that jumps within itself only, with all labels below the next one. -/
def Segment.Closed (s : Segment) : Prop :=
  Labelled s.code none 0 s.nextLabel

theorem closed_empty : Segment.empty.Closed :=
  labelled_straight straight_nil none 0

theorem Segment.Closed.append {s : Segment} {setup : Setup} (h : s.Closed) (hsetup : setup.Straight) :
    (s.append setup).Closed := by
  have hmore := hsetup.labelled none s.nextLabel
  rw [← Nat.zero_add s.nextLabel] at hmore
  have happend := Labelled.append h hmore
  rw [Nat.zero_add] at happend
  exact happend

abbrev SetupClosed (s : BodyState) : Prop :=
  s.staticInit.Closed

theorem closed_liftScope {α : Type} (m : ScopeM α) : Maintains SetupClosed (liftM m : BodyM α) := by
  intro s hs
  rw [liftScope_apply]
  cases m s.scopes <;> exact hs

theorem closed_freshLabels (n : Nat) : Maintains SetupClosed (freshLabels n) :=
  maintains_modifyGet fun _ hs => hs

theorem closed_install {storage : Storage} {setup : Setup} (h : setup.Straight) :
    Maintains SetupClosed (install storage setup) := by
  unfold install
  split
  next => exact .bind (maintains_modifyGet fun s hs => hs.append h) fun _ _ _ _ => maintains_pure _
  next => exact .bind (closed_freshLabels _) fun _ _ _ _ => maintains_pure _

variable {table : FunctionTable}

theorem straight_initialValue {name : String} {base : Ty} {hoisted : Bool} {init : Option Tree}
    {code : Code} {c c' : ScopeChain} (h : initialValue table name base hoisted init c = .ok (some code) c') :
    Straight code := by
  cases init with
  | none => cases (initialValue_none.1 h).1
  | some init =>
    obtain ⟨_, htyped, -, hcode⟩ := initialValue_some.1 h
    cases hcode
    exact straight_expression htyped

theorem straight_declarator {base : Ty} {storage : Storage} {hoisted : Bool} {node : Tree} {setup : Setup}
    {c c' : ScopeChain} (h : declarator table base storage hoisted node c = .ok setup c') :
    setup.Straight := by
  obtain ⟨id, name, length, value, c₁, -, -, -, hvalue, hslots⟩ := declarator_iff.1 h
  cases hslots with
  | nothing => trivial
  | scalar => exact straight_initialValue hvalue
  | array => simp [Setup.Straight]
  | filled =>
    intro fill hfill
    cases hfill
    exact straight_initialValue hvalue

theorem closed_declarators (base : Ty) (storage : Storage) (hoisted : Bool) (nodes : List Tree) :
    Maintains SetupClosed (declarators table base storage hoisted nodes) := by
  induction nodes with
  | nil => exact maintains_pure _
  | cons node rest ih =>
    refine .bind (closed_liftScope _) ?_
    intro setup s s' hsetup
    obtain ⟨c, hsetup, -⟩ := liftScope_ok.1 hsetup
    refine .bind (closed_install (straight_declarator hsetup)) ?_
    intro _ _ _ _
    exact .bind ih fun _ _ _ _ => maintains_pure _

theorem closed_declaration (node : Tree) : Maintains SetupClosed (declaration table node) := by
  refine .bind maintains_get ?_
  intro _ _ _ _
  exact .bind (maintains_lift _) fun _ _ _ _ => closed_declarators _ _ _ _

/-- Bodies keep the setup of static variables closed. -/
theorem closed_body : BodyInvariant table fun s s' => SetupClosed s → SetupClosed s' where
  refl _ hs := hs
  trans h h' hs := h' (h hs)
  temps _ hs := hs
  labels _ _ hs := hs
  declaration node s hs := closed_declaration node s hs
  block h hs := h hs

section Statements

variable {ctx : Context} {t : Tree} {children : List Tree}

/-! The labels of a body. Each part places those from the next label on. -/

def PlacesLabels (exit : Option Label) (s : BodyState) (code : Code) (s' : BodyState) : Prop :=
  ∃ count, s'.nextLabel = s.nextLabel + count ∧ Labelled code exit s.nextLabel count

theorem PlacesLabels.of_labelled {exit : Option Label} {s s' : BodyState} {code : Code}
    (h : Labelled code exit s.nextLabel 0) (hs : s'.nextLabel = s.nextLabel) :
    PlacesLabels exit s code s' :=
  ⟨0, hs, h⟩

theorem PlacesLabels.append {exit : Option Label} {s s₁ s' : BodyState} {code more : Code}
    (h : PlacesLabels exit s code s₁) (h' : PlacesLabels exit s₁ more s') :
    PlacesLabels exit s (code ++ more) s' := by
  obtain ⟨count, hs₁, hcode⟩ := h
  obtain ⟨count', hs', hmore⟩ := h'
  rw [hs₁] at hs' hmore
  exact ⟨count + count', hs'.trans (Nat.add_assoc _ _ _), hcode.append hmore⟩

variable {s s' : BodyState} {code : Code}

theorem places_installed (storage : Storage) {setup : Setup} (hsetup : setup.Straight) (s : BodyState)
    (exit : Option Label) :
    PlacesLabels exit s (installed storage setup s).1 (installed storage setup s).2 := by
  unfold installed
  split
  next => exact ⟨0, rfl, labelled_straight straight_nil exit _⟩
  next => exact ⟨_, rfl, hsetup.labelled exit _⟩

theorem places_declarators {base : Ty} {storage : Storage} {hoisted : Bool} {nodes : List Tree}
    (h : declarators table base storage hoisted nodes s = .ok code s') (exit : Option Label) :
    PlacesLabels exit s code s' := by
  induction nodes generalizing s code with
  | nil =>
    obtain ⟨rfl, rfl⟩ := declarators_nil.1 h
    exact .of_labelled (labelled_straight straight_nil exit _) rfl
  | cons node rest ih =>
    obtain ⟨setup, c₁, more, hsetup, hmore, rfl⟩ := declarators_cons.1 h
    have hplaces := places_installed storage (straight_declarator hsetup) { s with scopes := c₁ } exit
    exact PlacesLabels.append hplaces (ih hmore)

theorem places_declaration {node : Tree} (h : declaration table node s = .ok code s')
    (exit : Option Label) : PlacesLabels exit s code s' := by
  obtain ⟨base, -, h⟩ := declaration_iff.1 h
  exact places_declarators h exit

theorem straight_valueOf {ty : Ty} {c c' : ScopeChain} (h : valueOf table ty t c = .ok code c') :
    Straight code :=
  straight_expression (valueOf_iff.1 h)

theorem straight_valueOf? {ty : Ty} {t : Option Tree} {c c' : ScopeChain}
    (h : valueOf? table ty t c = .ok (some code) c') : Straight code := by
  cases t with
  | none => simp [valueOf?, pure_ok] at h
  | some t =>
    obtain ⟨value, hvalue, hcode⟩ := map_ok.1 h
    cases hcode
    exact straight_valueOf hvalue

theorem straight_expressionStatement {c c' : ScopeChain}
    (h : expressionStatement table children c = .ok code c') : Straight code := by
  cases children with
  | nil =>
    obtain ⟨rfl, -⟩ := pure_ok.1 h
    exact straight_nil
  | cons t rest =>
    have each : ∀ u ∈ t.children, EmitsStraight table u := fun u _ => emitsStraight table u
    rcases expressionStatement_iff.1 h with ⟨-, typed, htyped, rfl⟩ | ⟨-, typed, htyped, rfl⟩ |
      ⟨-, -, typed, htyped, rfl⟩
    · exact straight_assignment each htyped
    · exact straight_step each htyped
    · have hvalue := straight_expression htyped
      rcases dropped_eq typed with hcode | hcode <;> simp [hcode, hvalue]

theorem labelled_returnStatement {result : Ty} {c c' : ScopeChain}
    (h : returnStatement table t result children c = .ok code c') (exit : Option Label) (next : Nat) :
    Labelled code exit next 0 := by
  cases children with
  | nil =>
    obtain ⟨-, rfl, -⟩ := returnStatement_plain.1 h
    exact labelled_return straight_nil exit next
  | cons value rest =>
    obtain ⟨returned, hreturned, rfl⟩ := returnStatement_value.1 h
    exact labelled_return (straight_valueOf hreturned) exit next

/-- All three pieces of code of a range are straight. -/
theorem straight_counting {r : Counting} (hstart : Straight r.start)
    (hstop : ∀ stop, r.stop = some stop → Straight stop)
    (hstep : ∀ step temp, r.step = some (step, temp) → Straight step) :
    Straight r.range.code ∧ Straight r.range.advance ∧ Straight r.range.test := by
  have hhead : Straight r.head := by
    unfold Counting.head
    split
    next stop heq => simp [hstart, hstop stop heq]
    next => simp [hstart]
  unfold Counting.range
  split
  next => exact ⟨hhead, by simp [Range.advance], by simp [Range.test]⟩
  next step temp heq => simp [hhead, hstep step temp heq, Range.advance, Range.test]

theorem straight_range {counter : Place} {bounds : Tree} {r : Range} {c c' : ScopeChain}
    (h : range table counter bounds c = .ok r c') :
    Straight r.code ∧ Straight r.advance ∧ Straight r.test := by
  obtain ⟨first, counting, c₁, c₂, c₃, c₄, -, -, hstart, hstop, hstep, -, -, rfl⟩ := range_iff.1 h
  refine straight_counting (straight_valueOf hstart) (fun stop heq => ?_) fun step temp heq => ?_
  · rw [heq] at hstop
    exact straight_valueOf? hstop
  · rw [heq] at hstep
    exact straight_valueOf? hstep

/-- In every context, the code of a statement places labels of its own only. -/
def Places (table : FunctionTable) (t : Tree) : Prop :=
  ∀ {ctx : Context} {s s' : BodyState} {code : Code}, statement table ctx t s = .ok code s' →
    PlacesLabels ctx.loopExit s code s'

theorem places_blockItems (each : ∀ u ∈ children, Places table u)
    (h : blockItems table ctx children s = .ok code s') : PlacesLabels ctx.loopExit s code s' := by
  induction children generalizing s code with
  | nil =>
    obtain ⟨rfl, rfl⟩ := pure_ok.1 h
    exact .of_labelled (labelled_straight straight_nil _ _) rfl
  | cons item rest ih =>
    have hrest : ∀ u ∈ rest, Places table u := fun u hu => each u (by simp [hu])
    by_cases htag : item.tag = .varDecl
    · obtain ⟨first, s₁, more, hfirst, hmore, rfl⟩ := (items_variables htag).1 h
      exact (places_declaration hfirst _).append (ih hrest hmore)
    · obtain ⟨first, s₁, more, hfirst, hmore, rfl⟩ := (items_statement htag).1 h
      exact (each item (by simp) hfirst).append (ih hrest hmore)

theorem places_ifStatement (each : ∀ u ∈ children, Places table u)
    (h : ifStatement table ctx t children s = .ok code s') : PlacesLabels ctx.loopExit s code s' := by
  obtain ⟨test, yes, rfl⟩ | ⟨test, yes, no, rest, rfl⟩ := ifStatement_parts h
  · obtain ⟨condition, c₁, branch, hcondition, hbranch, rfl⟩ := (ifThen_iff t).1 h
    obtain ⟨count, hs₁, hlabelled⟩ := each yes (by simp) hbranch
    exact ⟨count + 1, hs₁.trans (Nat.add_right_comm _ _ _),
      labelled_ifThen (straight_valueOf hcondition) hlabelled⟩
  · obtain ⟨condition, c₁, first, s₁, second, hcondition, hfirst, hsecond, rfl⟩ := (ifElse_iff t rest).1 h
    obtain ⟨count, hs₁, hyes⟩ := each yes (by simp) hfirst
    obtain ⟨count', hs₂, hno⟩ := each no (by simp) hsecond
    rw [hs₁] at hs₂ hno
    have hsum : s.nextLabel + 2 + count + count' = s.nextLabel + (count + count' + 2) := by
      rw [Nat.add_assoc, Nat.add_assoc, Nat.add_comm 2]
    exact ⟨count + count' + 2, hs₂.trans hsum, labelled_ifElse (straight_valueOf hcondition) hyes hno⟩

theorem places_whileStatement (each : ∀ u ∈ children, Places table u)
    (h : whileStatement table ctx t children s = .ok code s') : PlacesLabels ctx.loopExit s code s' := by
  obtain ⟨test, body, rest, rfl⟩ := whileStatement_parts h
  obtain ⟨condition, c₁, inner, hcondition, hinner, rfl⟩ := (whileStatement_iff t rest).1 h
  obtain ⟨count, hs₁, hlabelled⟩ := each body (by simp) hinner
  exact ⟨count + 3, hs₁.trans (Nat.add_right_comm _ _ _),
    labelled_loop hlabelled straight_nil (straight_valueOf hcondition)⟩

theorem places_forStatement (each : ∀ u ∈ children, Places table u)
    (h : forStatement table ctx t children s = .ok code s') : PlacesLabels ctx.loopExit s code s' := by
  obtain ⟨bounds, body, rest, rfl⟩ := forStatement_children h
  obtain ⟨counter, c₀, r, c₁, inner, -, hrange, hinner, rfl⟩ := (forStatement_iff t rest).1 h
  obtain ⟨count, hs₁, hlabelled⟩ := each body (by simp) hinner
  obtain ⟨hcode, hadvance, htest⟩ := straight_range hrange
  exact ⟨count + 3, hs₁.trans (Nat.add_right_comm _ _ _),
    Labelled.straight_append hcode (labelled_loop hlabelled hadvance htest)⟩

theorem places_statement (t : Tree) : Places table t := by
  induction t using Tree.forall_of_children with
  | node tag token children each =>
    intro ctx s s' code h
    cases tag with
    | compoundStmt =>
      obtain ⟨s₁, hitems, rfl⟩ := inScope_ok.1 h
      have hplaces := places_blockItems each hitems
      exact hplaces
    | expStmt =>
      obtain ⟨c, hcode, rfl⟩ := liftScope_ok.1 h
      exact .of_labelled (labelled_straight (straight_expressionStatement hcode) _ _) rfl
    | ifStmt => exact places_ifStatement each h
    | whileStmt => exact places_whileStatement each h
    | forStmt => exact places_forStatement each h
    | returnStmt =>
      obtain ⟨c, hcode, rfl⟩ := liftScope_ok.1 h
      exact .of_labelled (labelled_returnStatement hcode _ _) rfl
    | breakStmt =>
      obtain ⟨exit, hexit, rfl, rfl⟩ := breakStatement_iff.1 h
      exact .of_labelled ⟨by simp, by simp, by simp [hexit]⟩ rfl
    | _ => exact absurd h (by simp [statement, throw_ok])

end Statements

end Lowering

/-- Every label that is jumped to is placed, and none is placed twice. -/
structure Code.Resolved (code : Code) : Prop where
  jumps : ∀ l ∈ targets code, l ∈ placed code
  once : (placed code).Nodup

theorem Labelled.resolved {code : Code} {next count : Nat} (h : Labelled code none next count) :
    Code.Resolved code := by
  refine ⟨?_, h.once⟩
  intro l hl
  rcases h.jumps l hl with hplaced | hexit
  · exact hplaced
  · cases hexit

theorem Code.Resolved.unresolved {code : Code} (h : Resolved code) : Code.unresolved code = [] := by
  have hmissing : (targets code).filter (fun l => !(placed code).contains l) = [] := by
    refine List.filter_eq_nil_iff.2 ?_
    intro l hl
    simp [h.jumps l hl]
  change List.foldr insertAscending [] ((targets code).filter fun l => !(placed code).contains l) = []
  rw [hmissing]
  rfl

namespace Session

/-! Whole calls. -/

abbrev Closed (s : Session) : Prop :=
  s.staticInit.Closed

theorem closed_inBody {α : Type} {m : BodyM α} (h : Maintains SetupClosed m) :
    Maintains Closed (inBody m) := by
  intro s hs
  rw [lastState_inBody]
  exact h ⟨s.scopes, s.staticInit, 0⟩ hs

theorem closed_register (decl : Tree) : Maintains Closed (register decl) := by
  refine .bind (maintains_lift _) fun _ _ _ _ => .bind (maintains_lift _) fun _ _ _ _ => ?_
  refine .bind (maintains_lift _) fun _ _ _ _ => .bind maintains_get fun _ _ _ _ => ?_
  refine .bind (maintains_lift _) ?_
  rintro ⟨_, functions⟩ _ _ _
  exact maintains_modifyGet fun _ hs => hs

theorem closed_registerAll (decls : List Tree) : Maintains Closed (registerAll decls) :=
  maintains_registerAll closed_register decls

theorem closed_routine (decl : Tree) : Maintains Closed (routine decl) := by
  refine maintains_routine fun table result => closed_inBody fun b hb => ?_
  obtain ⟨b', hb', hlast⟩ := (@closed_body table).functionFrame (fun parms _ => closed_liftScope _)
    (fun _ _ h h' => h' h) hb
  exact hlast ▸ hb'

theorem closed_routines (decls : List Tree) : Maintains Closed (routines decls) :=
  maintains_routines (fun _ decl => closed_inBody (closed_declaration decl)) closed_routine decls

theorem closed_compileProgram (program : Tree) : Maintains Closed (compileProgram program) :=
  maintains_compileProgram closed_register (fun _ decl => closed_inBody (closed_declaration decl))
    closed_routine (fun _ _ => closed_empty) program

theorem closed_compileFunction (decl : Tree) : Maintains Closed (compileFunction decl) :=
  maintains_compileFunction (closed_register decl) (closed_routine decl)

/-- The sessions that calls lead to, whether they succeed or fail. -/
inductive Reached : Session → Prop where
  | empty : Reached .empty
  | program {s : Session} (h : Reached s) (program : Tree) : Reached (lastState (compileProgram program s))
  | function {s : Session} (h : Reached s) (decl : Tree) : Reached (lastState (compileFunction decl s))

theorem Reached.closed {s : Session} (h : Reached s) : s.Closed := by
  induction h with
  | empty => exact closed_empty
  | program _ program ih => exact closed_compileProgram program _ ih
  | function _ decl ih => exact closed_compileFunction decl _ ih

theorem straight_defaultValue (result : Ty) : Straight (defaultValue result) := by
  cases result <;> simp [defaultValue, Instr.isPlain]

theorem labelled_closeBody {code : Code} {count : Nat} (h : Labelled code none 0 count) (result : Ty) :
    Labelled (closeBody result code) none 0 count := by
  unfold closeBody
  split
  next => exact h
  next =>
    have hreturn := labelled_return (straight_defaultValue result) none (0 + count)
    rw [List.append_assoc]
    exact h.append hreturn

theorem resolved_routine {decl : Tree} {s s' : Session} {g : Routine} (h : routine decl s = .ok g s') :
    Code.Resolved g.code := by
  obtain ⟨_, _, _, block, flat, b, -, -, -, -, -, hflat, hg, -⟩ := routine_iff.1 h
  obtain ⟨count, -, hlabelled⟩ := places_blockItems (fun u _ => places_statement u) hflat
  rw [hg]
  exact (labelled_closeBody hlabelled g.signature.result).resolved

theorem resolved_routines {decls : List Tree} {s s' : Session} {gs : List Routine}
    (h : routines decls s = .ok gs s') : ∀ g ∈ gs, Code.Resolved g.code := by
  induction decls generalizing s gs with
  | nil =>
    obtain ⟨rfl, -⟩ := pure_ok.1 h
    simp
  | cons decl rest ih =>
    rcases declaration_tag h with htag | htag
    · obtain ⟨code, s₁, -, hrest⟩ := (routines_variables htag).1 h
      exact ih hrest
    · obtain ⟨g, s₁, more, hg, hmore, rfl⟩ := (routines_function htag).1 h
      exact List.forall_mem_cons.2 ⟨resolved_routine hg, ih hmore⟩

theorem resolved_staticInit {program : Tree} {image : Image} {s s' : Session}
    (h : compileProgram program s = .ok image s') (hs : s.Closed) : Code.Resolved image.staticInit := by
  obtain ⟨-, s₀, s₁, hregister, hroutines, himage, -⟩ := compileProgram_iff.1 h
  rw [himage]
  have hs₀ := (closed_registerAll program.children).of_ok hregister hs
  have hs₁ := (closed_routines program.children).of_ok hroutines hs₀
  exact Labelled.resolved hs₁

theorem resolved_compileFunction {decl : Tree} {code : Code} {result : Ty} {s s' : Session}
    (h : compileFunction decl s = .ok (code, result) s') : Code.Resolved code := by
  simp only [compileFunction, bind_ok, lift_ok, pure_ok] at h
  obtain ⟨name, _, -, _, s₁, -, g, s₂, hg, hpair, -⟩ := h
  cases hpair
  exact resolved_routine hg

end Session

/-- After any calls, failed ones among them, all labels of what a further call yields resolve. -/
theorem labels_resolve {s s' : Session} (h : s.Reached) :
    (∀ {program : Tree} {image : Image}, Session.compileProgram program s = .ok image s' →
      (∀ g ∈ image.functions, Code.Resolved g.code ∧ g.code.unresolved = []) ∧
        Code.Resolved image.staticInit) ∧
    ∀ {decl : Tree} {code : Code} {result : Ty},
      Session.compileFunction decl s = .ok (code, result) s' →
        Code.Resolved code ∧ code.unresolved = [] := by
  constructor
  · intro program image hcompile
    obtain ⟨-, s₀, s₁, -, hroutines, -, -⟩ := Session.compileProgram_iff.1 hcompile
    refine ⟨?_, Session.resolved_staticInit hcompile h.closed⟩
    intro g hg
    have hresolved := Session.resolved_routines hroutines g hg
    exact ⟨hresolved, hresolved.unresolved⟩
  · intro decl code result hcompile
    have hresolved := Session.resolved_compileFunction hcompile
    exact ⟨hresolved, hresolved.unresolved⟩

/-- The loop that fills `a` stays in the setup when the function behind it fails, and the labels of the
next program go on behind those of the loop. -/
theorem labels_resolve_after_failure : ∃ failed program image s',
    parse "int a[2] : 1; f() \x7b break; \x7d" = .ok failed ∧
    parse "int b[2] : 1; g() \x7b while true do break; \x7d" = .ok program ∧
    (∃ e s, Session.compileProgram failed .empty = .error e s) ∧
    Session.compileProgram program (lastState (Session.compileProgram failed .empty)) = .ok image s' ∧
    placed image.staticInit = [0, 1, 2, 3] ∧ Code.Resolved image.staticInit ∧
    ∀ g ∈ image.functions, placed g.code = [0, 1, 2] ∧ Code.Resolved g.code ∧ g.code.unresolved = [] := by
  have hrun : (match parse "int a[2] : 1; f() \x7b break; \x7d",
      parse "int b[2] : 1; g() \x7b while true do break; \x7d" with
      | .ok failed, .ok program =>
        match Session.compileProgram failed .empty with
        | .error _ s =>
          match Session.compileProgram program s with
          | .error _ _ => false
          | .ok image _ => decide (placed image.staticInit = [0, 1, 2, 3] ∧
            ∀ g ∈ image.functions, placed g.code = [0, 1, 2])
        | .ok _ _ => false
      | _, _ => false) = true := by decide +kernel
  split at hrun
  next failed program hfailed hprogram =>
    split at hrun
    next e s herror =>
      split at hrun
      next => cases hrun
      next image s' hcompile =>
        obtain ⟨hsetup, hbodies⟩ := of_decide_eq_true hrun
        have hlast : s = lastState (Session.compileProgram failed .empty) := by rw [herror]; rfl
        rw [hlast] at hcompile
        obtain ⟨hfunctions, hresolved⟩ := (labels_resolve (.program .empty failed)).1 hcompile
        exact ⟨failed, program, image, s', hfailed, hprogram, ⟨e, s, herror⟩, hcompile, hsetup, hresolved,
          fun g hg => ⟨hbodies g hg, hfunctions g hg⟩⟩
    next => cases hrun
  next => cases hrun

end StackCompiler
