import StackCompiler.Proofs.Lowering.Containment
import StackCompiler.Proofs.Renaming.Expressions

/-!
Bodies of functions under renaming. A body that is lowered is lowered after renaming too, to the same code
up to the handles of functions, and the bindings that renaming carries along follow the scopes.
-/

set_option autoImplicit false
namespace StackCompiler

open Lowering Typing Shape

namespace Tree

variable (r : Renaming) (b : Bindings)

/-! What renaming makes of the trees of the grammar. -/

@[simp] theorem tag_renameUses (t : Tree) : (t.renameUses r b).tag = t.tag := by
  obtain ⟨tag, token, children⟩ := t
  rw [renameUses]

@[simp] theorem tag_rename (t : Tree) : (t.rename r b).1.tag = t.tag := by
  obtain ⟨tag, token, children⟩ := t
  cases tag <;> simp [rename, Renaming.declare] <;> cases token <;> rfl

theorem tags_renameAll (ts : List Tree) {tag : Tag} (each : ∀ t ∈ ts, t.tag = tag) :
    ∀ t ∈ (renameAll r b ts).1, t.tag = tag := by
  induction ts generalizing b with
  | nil => exact each
  | cons t rest ih =>
    rw [List.forall_mem_cons] at each
    rw [renameAll, List.forall_mem_cons]
    exact ⟨(tag_rename r b t).trans each.1, ih _ each.2⟩

/-- The scopes around a tree are the same in front of it and behind it. -/
@[simp] theorem enclosing_declare (t : Tree) : (r.declare b t).2.enclosing = b.enclosing := by
  unfold Renaming.declare
  split <;> rfl

@[simp] theorem enclosing_renameDeclarator (ts : List Tree) :
    (renameDeclarator r b ts).2.enclosing = b.enclosing := by
  cases ts with
  | nil => rfl
  | cons id inits => exact enclosing_declare r b id

mutual

@[simp] theorem enclosing_rename (b : Bindings) : (t : Tree) → (t.rename r b).2.enclosing = b.enclosing
  | ⟨tag, token, children⟩ => by
    have hall := enclosing_renameAll b children
    cases tag <;> simp [rename, Bindings.leave, hall]
termination_by structural t => t

@[simp] theorem enclosing_renameAll (b : Bindings) : (ts : List Tree) →
    (renameAll r b ts).2.enclosing = b.enclosing
  | [] => rfl
  | t :: rest => (enclosing_renameAll (t.rename r b).2 rest).trans (enclosing_rename b t)
termination_by structural ts => ts

end

theorem renameAll_append (ts us : List Tree) :
    renameAll r b (ts ++ us) = ((renameAll r b ts).1 ++ (renameAll r (renameAll r b ts).2 us).1,
      (renameAll r (renameAll r b ts).2 us).2) := by
  induction ts generalizing b with
  | nil => rfl
  | cons t rest ih => simp [renameAll, ih]

theorem rename_declarator (name : Token) (length : Option Token) (init : Option Tree) :
    (declaratorNode name length init).rename r b =
      (declaratorNode { name with lexeme := r.rename b.next name.lexeme } length (init.map (renameUses r b)),
        b.bind name.lexeme) := by
  cases init <;> rfl

/-- The words in front of the declared names do not matter. -/
theorem rename_variables (keyword : Option Token) (type : Token) (nodes : List Tree) :
    (variablesNode keyword type nodes).rename r b =
      (variablesNode keyword type (renameAll r b nodes).1, (renameAll r b nodes).2) := by
  cases keyword <;> rfl

variable {r b}

theorem rename_ifThen (token : Token) {test : Tree} (yes : Tree)
    (htest : test.rename r b = (test.renameUses r b, b)) :
    (marked .ifStmt token [test, yes]).rename r b =
      (marked .ifStmt token [test.renameUses r b, (yes.rename r b).1], (yes.rename r b).2) := by
  simp [marked, rename, renameAll, htest]

theorem rename_ifElse (token : Token) {test : Tree} (yes no : Tree)
    (htest : test.rename r b = (test.renameUses r b, b)) :
    (marked .ifStmt token [test, yes, no]).rename r b =
      (marked .ifStmt token [test.renameUses r b, (yes.rename r b).1, (no.rename r (yes.rename r b).2).1],
        (no.rename r (yes.rename r b).2).2) := by
  simp [marked, rename, renameAll, htest]

theorem rename_while (token : Token) {test : Tree} (body : Tree)
    (htest : test.rename r b = (test.renameUses r b, b)) :
    (marked .whileStmt token [test, body]).rename r b =
      (marked .whileStmt token [test.renameUses r b, (body.rename r b).1], (body.rename r b).2) := by
  simp [marked, rename, renameAll, htest]

theorem rename_for (name : Token) (bounds : List Tree) (body : Tree) :
    (marked .forStmt name [inner .iterRange bounds, body]).rename r b =
      (marked .forStmt (r.useToken b name) [inner .iterRange (renameUsesIn r b bounds), (body.rename r b).1],
        (body.rename r b).2) := rfl

theorem rename_compound (token : Token) (items : List Tree) :
    (marked .compoundStmt token items).rename r b =
      (marked .compoundStmt token (renameAll r b.enter items).1, b.leave (renameAll r b.enter items).2) := rfl

end Tree

namespace Renumbering

variable {table table' : FunctionTable} (ρ : Renumbering table table')

/-! Everything that holds code. -/

def counting (q : Counting) : Counting :=
  ⟨q.counter, ρ.code q.start, q.stop.map ρ.code, q.step.map (Prod.map ρ.code id), q.bound⟩

def setup : Setup → Setup
  | .nothing => .nothing
  | .scalar place value => .scalar place (ρ.code value)
  | .array place element length fill =>
    .array place element length (fill.map fun f => { f with value := ρ.code f.value })

def segment (segment : Segment) : Segment :=
  ⟨ρ.code segment.code, segment.nextLabel⟩

def state (r : Renaming) (b : Bindings) (s : BodyState) : BodyState :=
  ⟨r.chain b s.scopes, ρ.segment s.staticInit, s.nextLabel⟩

theorem range_counting (q : Counting) :
    (ρ.counting q).range.code = ρ.code q.range.code ∧ (ρ.counting q).range.advance = ρ.code q.range.advance ∧
      (ρ.counting q).range.test = ρ.code q.range.test := by
  obtain ⟨counter, start, stop, step, bound⟩ := q
  cases stop <;> cases step <;>
    simp [counting, Counting.range, Counting.head, Range.advance, Range.test]

@[simp] theorem code_setup (setup : Setup) (label : Label) :
    (ρ.setup setup).code label = ρ.code (setup.code label) := by
  cases setup with
  | nothing => rfl
  | scalar => simp [Renumbering.setup, Setup.code]
  | array place element length fill => cases fill <;> simp [Renumbering.setup, Setup.code, Fill.code]

@[simp] theorem labels_setup (setup : Setup) : (ρ.setup setup).labels = setup.labels := by
  cases setup with
  | nothing | scalar => rfl
  | array place element length fill => cases fill <;> rfl

theorem installed_renamed (r : Renaming) (b : Bindings) (storage : Storage) (setup : Setup) (s : BodyState) :
    installed storage (ρ.setup setup) (ρ.state r b s) =
      (ρ.code (installed storage setup s).1, ρ.state r b (installed storage setup s).2) := by
  unfold installed
  split <;> simp [state, segment, Segment.append]

/-- Whatever the first computation does where the names are bound by `b`, the second does after renaming,
and the names are bound by `b'` behind it. -/
def Carries (r : Renaming) (b : Bindings) (m m' : BodyM Code) (b' : Bindings) : Prop :=
  ∀ (s : BodyState) (code : Code) (s' : BodyState), r.Follows b s.scopes → m s = .ok code s' →
    m' (ρ.state r b s) = .ok (ρ.code code) (ρ.state r b' s') ∧ r.Follows b' s'.scopes

end Renumbering

namespace Renaming

/-- The names that a renaming keeps apart include all words in a tree. -/
def Allows (r : Renaming) (t : Tree) : Prop :=
  t.any (fun node => node.token.any fun token => !r.allowed token.lexeme) = false

variable {r : Renaming} {t : Tree}

theorem Allows.child (h : r.Allows t) {u : Tree} (hu : u ∈ t.children) : r.Allows u :=
  Tree.child_of_not_any h hu

theorem Allows.token (h : r.Allows t) {token : Token} (htoken : t.token = some token) :
    r.allowed token.lexeme = true := by
  simpa [htoken] using Tree.root_of_not_any h

end Renaming

namespace Lowering

variable {table table' : FunctionTable} {r : Renaming} {b : Bindings} {c c' : ScopeChain} {code : Code}

/-! Expressions in their places. -/

/-- An expression declares nothing. -/
theorem Lowers.rename_eq {t : Tree} {ty : Ty} (h : Lowers table (.value t) c ty code c')
    (r : Renaming) (b : Bindings) : t.rename r b = (t.renameUses r b, b) := by
  cases h with
  | @chain level => cases level <;> rfl
  | kept inner => cases inner <;> rfl
  | _ => rfl

theorem Effect.rename_eq {t : Tree} (h : Effect table t c code c') (r : Renaming) (b : Bindings) :
    t.rename r b = (t.renameUses r b, b) := by
  cases h with
  | stored lowers => cases lowers <;> rfl
  | value _ _ lowers => exact lowers.rename_eq r b

theorem Effect.renamed {t : Tree} (h : Effect table t c code c') (ρ : Renumbering table table')
    (hb : r.Follows b c) : Effect table' (t.renameUses r b) (r.chain b c) (ρ.code code) (r.chain b c') := by
  cases h with
  | stored lowers => exact .stored (lowers.renamed ρ hb)
  | @value ty code _ notAssign notStep lowers =>
    have hcode : ρ.code (if ty = .void then code else code ++ [.pop]) =
        if ty = .void then ρ.code code else ρ.code code ++ [.pop] := by
      split <;> simp
    rw [hcode]
    exact .value (by simpa using notAssign) (by simpa using notStep) (lowers.renamed ρ hb)

theorem Emits.renamed {ty : Ty} {t : Tree} (h : Emits table ty t c code c') (ρ : Renumbering table table')
    (hb : r.Follows b c) : Emits table' ty (t.renameUses r b) (r.chain b c) (ρ.code code) (r.chain b c') :=
  Lowers.emits (h.lowers.renamed ρ hb)

theorem valueOf_renamed {ty : Ty} {t : Tree} (ht : IsExpression t) (h : valueOf table ty t c = .ok code c')
    (ρ : Renumbering table table') (hb : r.Follows b c) :
    t.rename r b = (t.renameUses r b, b) ∧
      valueOf table' ty (t.renameUses r b) (r.chain b c) = .ok (ρ.code code) (r.chain b c') ∧
      r.Follows b c' := by
  have hlowers := lowers_of_valueOf ht h
  exact ⟨hlowers.rename_eq r b, (hlowers.renamed ρ hb).emits.emitted, hb.temps hlowers.temps⟩

theorem Counts.renamed {counter : Place} {parts : List Tree} {q : Counting}
    (h : Counts table counter parts c q c') (ρ : Renumbering table table') (hb : r.Follows b c) :
    Counts table' counter (Tree.renameUsesIn r b parts) (r.chain b c) (ρ.counting q) (r.chain b c') := by
  cases h with
  | start initial limit =>
    have hb₁ := hb.temps initial.lowers.temps
    exact .start (initial.renamed ρ hb) (reserveTemp_renamed hb₁ limit)
  | upTo initial final limit =>
    have hb₁ := hb.temps initial.lowers.temps
    have hb₂ := hb₁.temps final.lowers.temps
    exact .upTo (initial.renamed ρ hb) (final.renamed ρ hb₁) (reserveTemp_renamed hb₂ limit)
  | stride initial final increment limit held =>
    have hb₁ := hb.temps initial.lowers.temps
    have hb₂ := hb₁.temps final.lowers.temps
    have hb₃ := hb₂.temps increment.lowers.temps
    have hb₄ := hb₃.temps (temps_reserveTemp limit)
    exact .stride (initial.renamed ρ hb) (final.renamed ρ hb₁) (increment.renamed ρ hb₂)
      (reserveTemp_renamed hb₃ limit) (reserveTemp_renamed hb₄ held)

/-! Declarations. -/

theorem Initial.renamed {base : Ty} {hoisted : Bool} {init : Option Tree} {value : Option Code}
    (h : Initial table base hoisted init c value c') (ρ : Renumbering table table') (hb : r.Follows b c) :
    Initial table' base hoisted (init.map (Tree.renameUses r b)) (r.chain b c) (value.map ρ.code)
      (r.chain b c') ∧ r.Follows b c' := by
  cases h with
  | none => exact ⟨.none, hb⟩
  | some lowers frame =>
    refine ⟨.some (lowers.renamed ρ hb) fun hhoisted => ?_, hb.temps lowers.temps⟩
    simpa [Renumbering.code, List.any_map] using frame hhoisted

theorem reserve_renamed {ty : Ty} {storage : Storage} {slot : Nat} (hb : r.Follows b c)
    (h : c.reserve ty storage = (slot, c')) :
    (r.chain b c).reserve ty storage = (slot, r.chain b c') ∧ r.Follows b c' := by
  obtain rfl : (c.reserve ty storage).2 = c' := by rw [h]
  refine ⟨?_, hb.reserve ty storage⟩
  rw [Renaming.chain_reserve, h]

theorem TakesSlots.renamed {name : String} {line : Nat} {size : Option Int32} {value : Option Code} {base : Ty}
    {storage : Storage} {setup : Setup} (h : TakesSlots base storage ⟨name, line, size, value⟩ c setup c')
    (ρ : Renumbering table table') (hb : r.Follows b c) (hallowed : r.allowed name = true) :
    TakesSlots base storage ⟨r.rename b.next name, line, size, value.map ρ.code⟩ (r.chain b c) (ρ.setup setup)
        (r.chain (b.bind name) c') ∧ r.Follows (b.bind name) c' := by
  cases h with
  | nothing declared =>
    obtain ⟨hdeclare, hb'⟩ := hb.declare hallowed declared
    exact ⟨.nothing hdeclare, hb'⟩
  | scalar declared =>
    obtain ⟨hdeclare, hb'⟩ := hb.declare hallowed declared
    exact ⟨.scalar hdeclare, hb'⟩
  | array declared =>
    obtain ⟨hdeclare, hb'⟩ := hb.declare hallowed declared
    exact ⟨.array hdeclare, hb'⟩
  | filled declared valueTemp indexTemp =>
    obtain ⟨hdeclare, hb₁⟩ := hb.declare hallowed declared
    obtain ⟨hvalueTemp, hb₂⟩ := reserve_renamed hb₁ valueTemp
    obtain ⟨hindexTemp, hb₃⟩ := reserve_renamed hb₂ indexTemp
    exact ⟨.filled hdeclare hvalueTemp hindexTemp, hb₃⟩

theorem declarator_renamed {base : Ty} {storage : Storage} {hoisted : Bool} {node : Tree} {setup : Setup}
    (hnode : Shape.Declarator node) (allows : r.Allows node) (ρ : Renumbering table table')
    (hb : r.Follows b c) (h : declarator table base storage hoisted node c = .ok setup c') :
    declarator table' base storage hoisted (node.rename r b).1 (r.chain b c) =
        .ok (ρ.setup setup) (r.chain (node.rename r b).2 c') ∧ r.Follows (node.rename r b).2 c' := by
  cases hnode with
  | @mk name length init hinit =>
    obtain ⟨size, value, c₁, hsize, hvalue, hslots⟩ := declaratorNode_iff.1 h
    have hname : r.allowed name.lexeme = true :=
      (allows.child (List.mem_cons_self ..)).token rfl
    obtain ⟨hinitial, hb₁⟩ := (initial_of_run hinit hvalue).renamed ρ hb
    obtain ⟨hslots', hb'⟩ := hslots.renamed ρ hb₁ hname
    rw [Tree.rename_declarator]
    exact ⟨declaratorNode_iff.2 ⟨size, _, _, hsize, hinitial.run _, hslots'⟩, hb'⟩

theorem declarators_renamed {base : Ty} {storage : Storage} {hoisted : Bool} {nodes : List Tree}
    (each : ∀ node ∈ nodes, Shape.Declarator node) (allows : ∀ node ∈ nodes, r.Allows node)
    (ρ : Renumbering table table') :
    ρ.Carries r b (declarators table base storage hoisted nodes)
      (declarators table' base storage hoisted (Tree.renameAll r b nodes).1) (Tree.renameAll r b nodes).2 := by
  induction nodes generalizing b with
  | nil =>
    intro s code s' hb h
    obtain ⟨rfl, rfl⟩ := declarators_nil.1 h
    exact ⟨rfl, hb⟩
  | cons node rest ih =>
    intro s code s' hb h
    rw [List.forall_mem_cons] at each allows
    obtain ⟨setup, c₁, more, hsetup, hmore, rfl⟩ := declarators_cons.1 h
    obtain ⟨hsetup', hb₁⟩ := declarator_renamed each.1 allows.1 ρ hb hsetup
    have hb₂ : r.Follows (node.rename r b).2 (installed storage setup { s with scopes := c₁ }).2.scopes := by
      rw [scopes_installed]
      exact hb₁
    obtain ⟨hmore', hb'⟩ := ih each.2 allows.2 _ _ _ hb₂ hmore
    have hinstalled := ρ.installed_renamed r (node.rename r b).2 storage setup { s with scopes := c₁ }
    refine ⟨declarators_cons.2 ⟨_, _, ρ.code more, hsetup', ?_, ?_⟩, hb'⟩
    · exact (congrArg (fun p => declarators table' base storage hoisted _ p.2) hinstalled).trans hmore'
    · exact (ρ.code_append _ _).trans (congrArg (fun p => p.1 ++ ρ.code more) hinstalled).symm

/-- A declaration of variables, at file scope or in a block. -/
theorem declaration_renamed {keyword : Option Token} {t : Tree} (ht : Variables keyword t) (allows : r.Allows t)
    (ρ : Renumbering table table') :
    ρ.Carries r b (declaration table t) (declaration table' (t.rename r b).1) (t.rename r b).2 := by
  cases ht with
  | @mk type nodes each =>
    intro s code s' hb h
    have hnodes : ∀ node ∈ nodes, r.Allows node := fun node hnode =>
      allows.child (List.mem_append_right _ (List.mem_cons_of_mem _ hnode))
    obtain ⟨base, hbase, hrun⟩ := (declaration_variables fun node hnode => (each node hnode).tag).1 h
    obtain ⟨hrun', hb'⟩ := declarators_renamed each hnodes ρ _ _ _ hb hrun
    rw [Tree.rename_variables]
    refine ⟨(declaration_variables (Tree.tags_renameAll r b nodes fun node hnode => (each node hnode).tag)).2
      ⟨base, hbase, ?_⟩, hb'⟩
    have hdepth : (ρ.state r b s).scopes.depth = s.scopes.depth := Renaming.depth_chain hb
    rw [hdepth]
    exact hrun'

/-! Statements. -/

theorem items_renamed {ctx : Context} {items : List Tree} (ρ : Renumbering table table')
    (each : ∀ t ∈ items, Local t ∨ t.tag ≠ .varDecl ∧ ∀ (b : Bindings) (ctx : Context),
      ρ.Carries r b (statement table ctx t) (statement table' ctx (t.rename r b).1) (t.rename r b).2)
    (allows : ∀ t ∈ items, r.Allows t) (b : Bindings) :
    ρ.Carries r b (blockItems table ctx items) (blockItems table' ctx (Tree.renameAll r b items).1)
      (Tree.renameAll r b items).2 := by
  induction items generalizing b with
  | nil =>
    intro s code s' hb h
    obtain ⟨rfl, rfl⟩ := items_nil.1 h
    exact ⟨rfl, hb⟩
  | cons t rest ih =>
    intro s code s' hb h
    rw [List.forall_mem_cons] at each allows
    obtain ⟨⟨keyword, hvariables⟩ | ⟨htag, hstatement⟩, hrest⟩ := each
    · have htag := hvariables.tag
      obtain ⟨first, s₁, more, hfirst, hmore, rfl⟩ := (items_variables htag).1 h
      obtain ⟨hfirst', hb₁⟩ := declaration_renamed hvariables allows.1 ρ _ _ _ hb hfirst
      obtain ⟨hmore', hb'⟩ := ih hrest allows.2 _ _ _ _ hb₁ hmore
      exact ⟨(items_variables (by simpa using htag)).2 ⟨_, _, _, hfirst', hmore', ρ.code_append ..⟩, hb'⟩
    · obtain ⟨first, s₁, more, hfirst, hmore, rfl⟩ := (items_statement htag).1 h
      obtain ⟨hfirst', hb₁⟩ := hstatement _ _ _ _ _ hb hfirst
      obtain ⟨hmore', hb'⟩ := ih hrest allows.2 _ _ _ _ hb₁ hmore
      exact ⟨(items_statement (by simpa using htag)).2 ⟨_, _, _, hfirst', hmore', ρ.code_append ..⟩, hb'⟩

theorem code_loop (ρ : Renumbering table table') (label : Label) (body advance test : Code) :
    loopCode label (ρ.code body) (ρ.code advance) (ρ.code test) =
      ρ.code (loopCode label body advance test) := by
  simp [loopCode]

/-- Renaming carries a statement over, whatever names are in scope. -/
theorem statement_renamed {t : Tree} (ht : Shape.Statement t) (allows : r.Allows t)
    (ρ : Renumbering table table') (b : Bindings) (ctx : Context) :
    ρ.Carries r b (statement table ctx t) (statement table' ctx (t.rename r b).1) (t.rename r b).2 := by
  induction ht generalizing b ctx with
  | empty =>
    intro s code s' hb h
    obtain ⟨rfl, rfl⟩ := statement_empty.1 h
    exact ⟨statement_empty.2 ⟨rfl, rfl⟩, hb⟩
  | expression token value =>
    intro s code s' hb h
    obtain ⟨c', hrun, rfl⟩ := statement_expression.1 h
    have heffect := effect_of_run value hrun
    exact ⟨statement_expression.2 ⟨_, (heffect.renamed ρ hb).run, rfl⟩, hb.temps heffect.temps⟩
  | @compound token decls stmts head body ih =>
    intro s code s' hb h
    obtain ⟨s₁, hitems, rfl⟩ := statement_compound.1 h
    obtain ⟨hitems', hb₁⟩ := items_renamed ρ (fun t ht => (List.mem_append.1 ht).imp (head t) fun hmem =>
      ⟨(body t hmem).tag, ih t hmem (allows.child ht)⟩) (fun t ht => allows.child ht) b.enter _ _ _
      (hb.enter .block) hitems
    obtain ⟨hexit, hb'⟩ := hb₁.exit (Tree.enclosing_renameAll r b.enter _)
    rw [hb.depth] at hexit hb'
    rw [Tree.rename_compound]
    rw [Renumbering.state, Renaming.chain_enter] at hitems'
    refine ⟨statement_compound.2 ⟨_, hitems', ?_⟩, hb'⟩
    have hdepth : (ρ.state r b s).scopes.depth = s.scopes.depth := Renaming.depth_chain hb
    rw [hdepth]
    simp only [Renumbering.state, hexit]
  | ifThen token condition _ ih =>
    intro s code s' hb h
    obtain ⟨test, c₁, branch, htest, hbranch, rfl⟩ := statement_ifThen.1 h
    obtain ⟨hrename, htest', hb₁⟩ := valueOf_renamed condition htest ρ hb
    obtain ⟨hbranch', hb'⟩ := ih (allows.child (by simp [Tree.marked])) b _ _ _ _ hb₁ hbranch
    rw [Tree.rename_ifThen token _ hrename]
    exact ⟨statement_ifThen.2 ⟨_, _, _, htest', hbranch', by simp [Renumbering.state]⟩, hb'⟩
  | ifElse token condition _ _ ih ih' =>
    intro s code s' hb h
    obtain ⟨test, c₁, branch, s₂, other, htest, hbranch, hother, rfl⟩ := statement_ifElse.1 h
    obtain ⟨hrename, htest', hb₁⟩ := valueOf_renamed condition htest ρ hb
    obtain ⟨hbranch', hb₂⟩ := ih (allows.child (by simp [Tree.marked])) b _ _ _ _ hb₁ hbranch
    obtain ⟨hother', hb'⟩ := ih' (allows.child (by simp [Tree.marked])) _ _ _ _ _ hb₂ hother
    rw [Tree.rename_ifElse token _ _ hrename]
    exact ⟨statement_ifElse.2 ⟨_, _, _, _, _, htest', hbranch', hother', by simp [Renumbering.state]⟩, hb'⟩
  | whileDo token condition _ ih =>
    intro s code s' hb h
    obtain ⟨test, c₁, inner, htest, hinner, rfl⟩ := statement_while.1 h
    obtain ⟨hrename, htest', hb₁⟩ := valueOf_renamed condition htest ρ hb
    obtain ⟨hinner', hb'⟩ := ih (allows.child (by simp [Tree.marked])) b _ _ _ _ hb₁ hinner
    rw [Tree.rename_while token _ hrename]
    exact ⟨statement_while.2 ⟨_, _, _, htest', hinner', (code_loop ρ s.nextLabel inner [] test).symm⟩, hb'⟩
  | forDo name range _ ih =>
    intro s code s' hb h
    obtain ⟨symbol, q, c₁, inner, hfound, hint, hrange, hinner, rfl⟩ := statement_for.1 h
    obtain ⟨counting, hcounts, rfl⟩ := counts_of_ok range hrange
    obtain ⟨found, hfound', hty, hplace⟩ := hb.resolve hfound
    obtain ⟨hinner', hb'⟩ := ih (allows.child (by simp [Tree.marked])) b _ _ _ _ (hb.temps hcounts.temps) hinner
    obtain ⟨hcode, hadvance, htest⟩ := ρ.range_counting counting
    have hrange' := (hcounts.renamed ρ hb).run
    rw [← hplace] at hrange'
    rw [Tree.rename_for]
    refine ⟨statement_for.2 ⟨found, _, _, _, hfound', hty.trans hint, hrange', hinner', ?_⟩, hb'⟩
    rw [hcode, hadvance, htest, ρ.code_append, ← code_loop]
    rfl
  | returnPlain =>
    intro s code s' hb h
    obtain ⟨hvoid, rfl, rfl⟩ := statement_returnPlain.1 h
    exact ⟨statement_returnPlain.2 ⟨hvoid, rfl, rfl⟩, hb⟩
  | returnValue token value =>
    intro s code s' hb h
    obtain ⟨code, c', hrun, rfl, rfl⟩ := statement_return.1 h
    obtain ⟨-, hrun', hb'⟩ := valueOf_renamed value hrun ρ hb
    exact ⟨statement_return.2 ⟨_, _, hrun', by simp, rfl⟩, hb'⟩
  | breakLoop =>
    intro s code s' hb h
    obtain ⟨exit, hexit, rfl, rfl⟩ := statement_break.1 h
    exact ⟨statement_break.2 ⟨exit, hexit, rfl, rfl⟩, hb⟩

end Lowering

end StackCompiler
