import StackCompiler.Proofs.Lowering.BodyRuns
import StackCompiler.Proofs.Lowering.Routines

/-!
The code that sets up static variables. The declarators of a program take their static slots in the order
of the source, those of functions among those of the file scope, and in this order their setups stand in
the setup code of the image. Whatever else is compiled in between takes no static slot.
-/

set_option autoImplicit false
namespace StackCompiler

open Lowering ScopeChain

namespace Lowering

/-- The setup of a static variable, with the scopes before and behind its declarator. -/
structure Installation where
  var : StaticVariable
  before : ScopeChain
  setup : Setup
  behind : ScopeChain

/-- The setup is what the declarator is lowered to, in scopes that can be open there. -/
structure SetsUp (table : FunctionTable) (i : Installation) : Prop where
  isDeclarator : IsDeclarator i.var.node
  position : i.before.enclosing = [] ↔ i.var.owner = none
  lowered : ∃ params base, Reachable params i.before ∧ base.isScalar = true ∧
    declarator table base .static i.var.owner.isSome i.var.node i.before = .ok i.setup i.behind

/-- The static storage of a program so far: the types of its slots, and the code that sets them up. -/
structure StaticPart where
  slots : List Ty
  code : Segment

def StaticPart.empty : StaticPart :=
  ⟨[], .empty⟩

def StaticPart.install (part : StaticPart) (i : Installation) : StaticPart :=
  ⟨i.behind.statics, part.code.append i.setup⟩

def BodyState.staticPart (s : BodyState) : StaticPart :=
  ⟨s.scopes.statics, s.staticInit⟩

/-- Some setups one behind the other. Each finds the static slots of those before it and no others. -/
inductive Installs (table : FunctionTable) : List Installation → StaticPart → StaticPart → Prop where
  | done {part : StaticPart} : Installs table [] part part
  | next {i : Installation} {is : List Installation} {part part' : StaticPart} (first : SetsUp table i)
      (slots : i.before.statics = part.slots) (rest : Installs table is (part.install i) part') :
      Installs table (i :: is) part part'

def InstallsAll (table : FunctionTable) (vs : List StaticVariable) (part part' : StaticPart) : Prop :=
  ∃ is, is.map Installation.var = vs ∧ Installs table is part part'

variable {table : FunctionTable} {params : List Ty} {s s' : BodyState} {code : Code} {ctx : Context}
  {part part₁ part' : StaticPart} {i : Installation} {is : List Installation}

def Setup.initial : Setup → Code
  | .nothing => []
  | .scalar _ value => value
  | .array _ _ _ fill => (fill.map Fill.value).getD []

theorem TakesSlots.initial {d : Declarator} {base : Ty} {storage : Storage} {setup : Setup}
    {c c' : ScopeChain} (h : TakesSlots base storage d c setup c') : setup.initial = d.value.getD [] := by
  cases h <;> rfl

/-- The initial value is the code of the initializer, which must not read the frame if it is hoisted. -/
theorem declarator_initial {base : Ty} {storage : Storage} {hoisted : Bool} {node : Tree} {setup : Setup}
    {c c' : ScopeChain} (hnode : IsDeclarator node)
    (h : declarator table base storage hoisted node c = .ok setup c') :
    (node.children[1]? = none ∧ setup.initial = []) ∨ ∃ init c₁, node.children[1]? = some init ∧
      Lowers table (.value init) c base setup.initial c₁ ∧
        (hoisted = true → setup.initial.any Instr.readsFrame = false) := by
  obtain ⟨tag, token, children⟩ := node
  obtain ⟨-, id, inits, hchildren, hinits⟩ := hnode
  cases hchildren
  obtain ⟨id', name, length, value, c₁, -, -, -, hvalue, hslots⟩ := declarator_iff.1 h
  rw [hslots.initial]
  rcases hinits with rfl | ⟨init, rfl, hinit⟩
  · obtain ⟨rfl, -⟩ := initialValue_none.1 hvalue
    exact .inl ⟨rfl, rfl⟩
  · obtain ⟨code, htyped, hframe, rfl⟩ := initialValue_some.1 hvalue
    exact .inr ⟨init, c₁, rfl, hinit.lowers htyped, hframe⟩

/-- The instructions that set up a static variable, apart from those of its initial value. -/
def isSetupInstr : Instr → Bool
  | .pushInt _ | .newArray _ | .loadStatic _ | .storeStatic _ | .storeElem _ | .add | .lt | .jump _
  | .jumpIfTrue _ | .label _ => true
  | _ => false

/-- The code of a setup is that of its initial value between other instructions. -/
theorem Prepares.code_around {base : Ty} {setup : Setup} {c c' : ScopeChain}
    (h : Prepares table base .static c setup c') (label : Label) :
    ∃ front back, setup.code label = front ++ (setup.initial ++ back) ∧
      (front ++ back).all isSetupInstr = true := by
  cases h with
  | plain => exact ⟨[], [], rfl, rfl⟩
  | scalar => exact ⟨[], [_], rfl, rfl⟩
  | array => exact ⟨[_, _, _], [], rfl, rfl⟩
  | filled => exact ⟨_, _, rfl, rfl⟩

theorem SetsUp.prepares (h : SetsUp table i) : ∃ params base, Reachable params i.before ∧
    base.isScalar = true ∧ Prepares table base .static i.before i.setup i.behind := by
  obtain ⟨params, base, hc, hscalar, hrun⟩ := h.lowered
  exact ⟨params, base, hc, hscalar, prepares_of_ok h.isDeclarator hrun⟩

theorem SetsUp.any_code (h : SetsUp table i) {p : Instr → Bool}
    (hp : ∀ instr, isSetupInstr instr = true → p instr = false) (label : Label) :
    (i.setup.code label).any p = i.setup.initial.any p := by
  obtain ⟨params, base, -, -, hprepares⟩ := h.prepares
  obtain ⟨front, back, hcode, hall⟩ := hprepares.code_around label
  rw [List.all_append, Bool.and_eq_true, List.all_eq_true, List.all_eq_true] at hall
  have hnone : ∀ {code : Code}, (∀ instr ∈ code, isSetupInstr instr = true) → code.any p = false :=
    fun hcode => List.any_eq_false.2 fun instr hmem => by simp [hp instr (hcode instr hmem)]
  rw [hcode, List.any_append, List.any_append, hnone hall.1, hnone hall.2, Bool.false_or, Bool.or_false]

theorem SetsUp.slots (h : SetsUp table i) : i.before.statics <+: i.behind.statics := by
  obtain ⟨params, base, hc, hscalar, hprepares⟩ := h.prepares
  exact (hprepares.extends hc (.inl rfl) hscalar).grows.statics

/-! Several setups. -/

namespace Installs

theorem append {js : List Installation} (h : Installs table is part part₁)
    (h' : Installs table js part₁ part') : Installs table (is ++ js) part part' := by
  induction h with
  | done => exact h'
  | next first slots _ ih => exact .next first slots (ih h')

/-- Behind some setups, the instructions of other kinds are the earlier ones and those of the initial values. -/
theorem any_code (h : Installs table is part part') {p : Instr → Bool}
    (hp : ∀ instr, isSetupInstr instr = true → p instr = false) :
    part'.code.code.any p = (part.code.code.any p || is.any fun i => i.setup.initial.any p) := by
  induction h with
  | done => simp
  | @next i is part _ first _ _ ih =>
    have hcode : (part.install i).code.code = part.code.code ++ i.setup.code part.code.nextLabel := rfl
    rw [ih, hcode, List.any_append, first.any_code hp, List.any_cons, Bool.or_assoc]

theorem mem_code (h : Installs table is part part') {instr : Instr} (hinstr : isSetupInstr instr = false)
    (hmem : instr ∈ part'.code.code) : instr ∈ part.code.code ∨ ∃ i ∈ is, instr ∈ i.setup.initial := by
  have hcode := h.any_code (p := fun found => decide (found = instr)) fun found hfound => by
    rw [decide_eq_false_iff_not]
    rintro rfl
    rw [hinstr] at hfound
    cases hfound
  rw [List.any_eq_true.2 ⟨instr, hmem, decide_eq_true rfl⟩, eq_comm] at hcode
  simpa using hcode

theorem setsUp (h : Installs table is part part') (hi : i ∈ is) : SetsUp table i := by
  induction h with
  | done => cases hi
  | next first _ _ ih =>
    rcases List.mem_cons.1 hi with rfl | hi
    · exact first
    · exact ih hi

theorem code_front (h : Installs table is part part') : part.code.code <+: part'.code.code := by
  induction h with
  | done => exact List.prefix_refl _
  | @next i _ part _ _ _ _ ih =>
    have hfirst : part.code.code <+: (part.install i).code.code := List.prefix_append _ _
    exact hfirst.trans ih

theorem slots_front (h : Installs table is part part') : part.slots <+: part'.slots := by
  induction h with
  | done => exact List.prefix_refl _
  | next first slots _ ih =>
    rw [← slots]
    exact first.slots.trans ih

theorem split {is js : List Installation} (h : Installs table (is ++ i :: js) part part') :
    ∃ part₁, Installs table is part part₁ ∧ SetsUp table i ∧ i.before.statics = part₁.slots ∧
      Installs table js (part₁.install i) part' := by
  induction is generalizing part with
  | nil =>
    cases h with
    | next first slots rest => exact ⟨part, .done, first, slots, rest⟩
  | cons j is ih =>
    cases h with
    | next first slots rest =>
      obtain ⟨part₁, hbefore, hsetup, hslots, hafter⟩ := ih rest
      exact ⟨part₁, .next first slots hbefore, hsetup, hslots, hafter⟩

end Installs

theorem InstallsAll.done : InstallsAll table [] part part :=
  ⟨[], rfl, .done⟩

theorem InstallsAll.next {vs : List StaticVariable} (first : SetsUp table i)
    (slots : i.before.statics = part.slots) (rest : InstallsAll table vs (part.install i) part') :
    InstallsAll table (i.var :: vs) part part' := by
  obtain ⟨is, rfl, hrest⟩ := rest
  exact ⟨i :: is, rfl, .next first slots hrest⟩

theorem InstallsAll.append {vs ws : List StaticVariable} (h : InstallsAll table vs part part₁)
    (h' : InstallsAll table ws part₁ part') : InstallsAll table (vs ++ ws) part part' := by
  obtain ⟨is, rfl, his⟩ := h
  obtain ⟨js, rfl, hjs⟩ := h'
  exact ⟨is ++ js, List.map_append, his.append hjs⟩

/-! The slot of a variable. -/

/-- Where the setup stores the variable. A scalar without initial value is not stored. -/
def Setup.place? : Setup → Option Place
  | .nothing => none
  | .scalar place _ | .array place _ _ _ => some place

/-- A variable's own slot: taken for its declarator, denoted by its name behind it, and stored to by the
setup. -/
structure OwnSlot (slots : List Ty) (i : Installation) (slot : Nat) : Prop where
  named : ∃ id name symbol, i.var.node.child 0 = .ok id ∧ id.lexeme = .ok name ∧
    i.behind.resolve? name = some symbol ∧ symbol.place = ⟨.static, slot⟩ ∧ slots[slot]? = some symbol.ty
  isNew : i.before.statics.length ≤ slot
  taken : slot < i.behind.statics.length
  stored : ∀ place ∈ i.setup.place?, place = ⟨.static, slot⟩

theorem declare_static {name : String} {ty : Ty} {length : Option Nat} {line slot : Nat} {c c' : ScopeChain}
    (h : c.declare name ty .static length line = .ok (slot, c')) :
    slot = c.statics.length ∧ c'.statics = c.statics ++ [ty] ∧
      c'.resolve? name = some ⟨name, ty, ⟨.static, slot⟩, length, line⟩ := by
  obtain ⟨rfl, rfl⟩ := declare_ok h
  refine ⟨rfl, rfl, ?_⟩
  simp [resolve?, Scope.lookup?, Scope.bind]

theorem TakesSlots.own {d : Declarator} {base : Ty} {setup : Setup} {c c' : ScopeChain}
    (h : TakesSlots base .static d c setup c') :
    ∃ symbol, c'.resolve? d.name = some symbol ∧ symbol.place = ⟨.static, c.statics.length⟩ ∧
      c.statics ++ [symbol.ty] <+: c'.statics ∧
      ∀ place ∈ setup.place?, place = ⟨.static, c.statics.length⟩ := by
  cases h with
  | nothing declared =>
    obtain ⟨rfl, hstatics, hresolve⟩ := declare_static declared
    exact ⟨_, hresolve, rfl, by simp [hstatics], by simp [Setup.place?]⟩
  | scalar declared | array declared =>
    obtain ⟨rfl, hstatics, hresolve⟩ := declare_static declared
    exact ⟨_, hresolve, rfl, by simp [hstatics], by simp [Setup.place?]⟩
  | filled declared valueTemp indexTemp =>
    obtain ⟨rfl, hstatics, hresolve⟩ := declare_static declared
    cases valueTemp
    cases indexTemp
    exact ⟨_, hresolve, rfl, by simp [hstatics], by simp [Setup.place?]⟩

theorem initialValue_temps {node : Tree} {name : String} {base : Ty} {hoisted : Bool} {value : Option Code}
    {c c' : ScopeChain} (hnode : IsDeclarator node)
    (h : initialValue table name base hoisted node.children[1]? c = .ok value c') : Temps c c' := by
  obtain ⟨-, id, inits, hchildren, hinits⟩ := hnode
  rw [hchildren] at h
  rcases initialValue_ok hinits h with ⟨-, rfl⟩ | ⟨init, code, -, hlowers⟩
  · exact .none
  · exact hlowers.temps

theorem SetsUp.ownSlot (h : SetsUp table i) {slots : List Ty} (hslots : i.behind.statics <+: slots) :
    ∃ slot, OwnSlot slots i slot := by
  obtain ⟨params, base, hc, -, hrun⟩ := h.lowered
  obtain ⟨id, name, length, value, c₁, hid, hname, -, hvalue, htakes⟩ := declarator_iff.1 hrun
  obtain ⟨symbol, hresolve, hplace, hbehind, hstored⟩ := htakes.own
  have hbefore := ((initialValue_temps h.isDeclarator hvalue).grows hc).statics
  have hown : (c₁.statics ++ [symbol.ty])[c₁.statics.length]? = some symbol.ty := by simp
  refine ⟨c₁.statics.length, ⟨id, name, symbol, hid, hname, hresolve, hplace, ?_⟩, hbefore.length_le, ?_,
    hstored⟩
  · exact getElem?_of_prefix (hbehind.trans hslots) hown
  · have hlength := hbehind.length_le
    rw [List.length_append, List.length_singleton] at hlength
    exact hlength

/-! Bodies of functions. -/

open Shape

abbrev ownedBy (name : String) (nodes : List Tree) : List StaticVariable :=
  nodes.map (StaticVariable.mk (some name))

/-- A part of a body installs the setups of some variables, and the scopes behind it can be open there. -/
structure Hoists (table : FunctionTable) (params : List Ty) (vs : List StaticVariable) (s s' : BodyState) :
    Prop where
  reachable : Reachable params s'.scopes
  grows : Grows s.scopes s'.scopes
  installs : InstallsAll table vs s.staticPart s'.staticPart

namespace Hoists

variable {vs ws : List StaticVariable} {s₁ : BodyState} {c₁ : ScopeChain}

theorem refl (hc : Reachable params s.scopes) : Hoists table params [] s s :=
  ⟨hc, .refl _, .done⟩

theorem trans (h : Hoists table params vs s s₁) (h' : Hoists table params ws s₁ s') :
    Hoists table params (vs ++ ws) s s' :=
  ⟨h'.reachable, h.grows.trans h'.grows, h.installs.append h'.installs⟩

theorem quiet (hc₁ : Reachable params c₁) (grows : Grows s.scopes c₁)
    (statics : c₁.statics = s.scopes.statics) (next : Label) :
    Hoists table params [] s ⟨c₁, s.staticInit, next⟩ := by
  refine ⟨hc₁, grows, ?_⟩
  rw [BodyState.staticPart, BodyState.staticPart, statics]
  exact .done

theorem temps (hc : Reachable params s.scopes) (inside : s.scopes.enclosing ≠ []) (h : Temps s.scopes c₁)
    (next : Label) : Hoists table params [] s ⟨c₁, s.staticInit, next⟩ :=
  quiet (h.reachable hc) (h.grows hc) (h.statics inside) next

/-- What stands behind an expression is installed behind its temporaries. -/
theorem behind {next : Label} (hc : Reachable params s.scopes) (inside : s.scopes.enclosing ≠ [])
    (h : Temps s.scopes c₁)
    (rest : Reachable params c₁ → c₁.enclosing ≠ [] →
      Hoists table params vs ⟨c₁, s.staticInit, next⟩ s') : Hoists table params vs s s' :=
  (temps hc inside h next).trans (rest (h.reachable hc) (by rwa [h.enclosing]))

theorem block (inside : s.scopes.enclosing ≠ [])
    (h : Hoists table params vs { s with scopes := s.scopes.enter .block } s') :
    Hoists table params vs s { s' with scopes := s'.scopes.exit s.scopes.depth } :=
  ⟨h.reachable.block inside h.grows, h.grows.block.1, h.installs⟩

end Hoists

/-- Declarators with static storage install their setups in order. -/
theorem hoists_static {base : Ty} {nodes : List Tree} (owner : Option String)
    (each : ∀ node ∈ nodes, IsDeclarator node) (hc : Reachable params s.scopes)
    (position : s.scopes.enclosing = [] ↔ owner = none) (scalar : base.isScalar = true)
    (h : declarators table base .static owner.isSome nodes s = .ok code s') :
    Hoists table params (nodes.map (StaticVariable.mk owner)) s s' := by
  induction nodes generalizing s code with
  | nil =>
    obtain ⟨-, rfl⟩ := declarators_nil.1 h
    exact .refl hc
  | cons node rest ih =>
    obtain ⟨setup, c₁, more, hsetup, hmore, -⟩ := declarators_cons.1 h
    rw [installed_static] at hmore
    rw [List.forall_mem_cons] at each
    have hextends := (prepares_of_ok each.1 hsetup).extends hc (.inl rfl) scalar
    have hposition : c₁.enclosing = [] ↔ owner = none := by
      rw [hextends.grows.enclosing]
      exact position
    have hrest := ih each.2 hextends.reachable hposition hmore
    have hfirst : SetsUp table ⟨⟨owner, node⟩, s.scopes, setup, c₁⟩ :=
      ⟨each.1, position, params, base, hc, scalar, hsetup⟩
    exact ⟨hrest.reachable, hextends.grows.trans hrest.grows, hrest.installs.next hfirst rfl⟩

/-- Other declarators of a function install nothing. -/
theorem hoists_local {base : Ty} {hoisted : Bool} {nodes : List Tree}
    (each : ∀ node ∈ nodes, IsDeclarator node) (hc : Reachable params s.scopes)
    (inside : s.scopes.enclosing ≠ []) (scalar : base.isScalar = true)
    (h : declarators table base .local hoisted nodes s = .ok code s') : Hoists table params [] s s' := by
  induction nodes generalizing s code with
  | nil =>
    obtain ⟨-, rfl⟩ := declarators_nil.1 h
    exact .refl hc
  | cons node rest ih =>
    obtain ⟨setup, c₁, more, hsetup, hmore, -⟩ := declarators_cons.1 h
    rw [installed_other (by simp)] at hmore
    rw [List.forall_mem_cons] at each
    have hprepares := prepares_of_ok each.1 hsetup
    have hextends := hprepares.extends hc (.inr ⟨rfl, inside⟩) scalar
    have hstatics := hprepares.within.statics (by simp) (depth_ne_one inside)
    have hrest := ih each.2 hextends.reachable (by rwa [hextends.grows.enclosing]) hmore
    exact (Hoists.quiet hextends.reachable hextends.grows hstatics _).trans hrest

theorem staticDeclarators_variables (keyword : Option Token) (type : Token) {nodes : List Tree}
    (each : ∀ node ∈ nodes, node.tag = .varDeclInit) :
    (variablesNode keyword type nodes).staticDeclarators = if keyword.isSome then nodes else [] := by
  have hdeclarators := declarators_variables keyword type each
  rw [← static_variables keyword type each]
  change (if ((variablesNode keyword type nodes).find? .static).isSome then
    (variablesNode keyword type nodes).children.filter (fun c => c.tag == .varDeclInit) else []) = _
  rw [hdeclarators]

theorem staticsOf_variables (keyword : Option Token) (type : Token) {nodes : List Tree}
    (each : ∀ node ∈ nodes, node.tag = .varDeclInit) :
    staticsOf (variablesNode keyword type nodes) = nodes.map (StaticVariable.mk none) :=
  congrArg (List.map (StaticVariable.mk none)) (declarators_variables keyword type each)

theorem staticsOf_function (type : Option Token) (name : Token) (groups : List Tree) (brace : Token)
    (items : List Tree) : staticsOf (functionNode type name groups brace items) =
      ownedBy name.lexeme (Tree.allStaticDeclarators items) := by
  rw [staticsOf, if_neg (by simp [functionNode]), body_function]
  rfl

/-- A declaration in a function installs the setups of its static variables. -/
theorem hoists_declaration {t : Tree} (name : String) (ht : Local t) (hc : Reachable params s.scopes)
    (inside : s.scopes.enclosing ≠ []) (h : declaration table t s = .ok code s') :
    Hoists table params (ownedBy name t.staticDeclarators) s s' := by
  obtain ⟨keyword, ht⟩ := ht
  cases ht with
  | @mk type nodes each =>
    have htags := fun node hnode => (each node hnode).tag
    have hnodes := fun node hnode => (each node hnode).isDeclarator
    obtain ⟨base, hbase, hrun⟩ := (declaration_variables htags).1 h
    have hscalar := typeOf_scalar hbase
    have hdepth := depth_ne_one inside
    have hhoisted : (s.scopes.depth != 1) = true := bne_iff_ne.2 hdepth
    rw [staticDeclarators_variables keyword type htags]
    cases keyword with
    | none => exact hoists_local hnodes hc inside hscalar (by simpa [hdepth] using hrun)
    | some word =>
      exact hoists_static (some name) hnodes hc (by simp [inside]) hscalar (by simpa [hhoisted] using hrun)

/-- A block installs what its declarations and statements install. -/
theorem hoists_items {items : List Tree} (name : String)
    (each : ∀ t ∈ items, Local t ∨ Shape.Statement t ∧ ∀ {ctx : Context} {s s' : BodyState} {code : Code},
      Reachable params s.scopes → s.scopes.enclosing ≠ [] → statement table ctx t s = .ok code s' →
      Hoists table params (ownedBy name t.staticDeclarators) s s')
    (hc : Reachable params s.scopes) (inside : s.scopes.enclosing ≠ [])
    (h : blockItems table ctx items s = .ok code s') :
    Hoists table params (ownedBy name (Tree.allStaticDeclarators items)) s s' := by
  induction items generalizing s code with
  | nil =>
    obtain ⟨-, rfl⟩ := items_nil.1 h
    exact .refl hc
  | cons t rest ih =>
    rw [List.forall_mem_cons] at each
    obtain ⟨hitem, hrest⟩ := each
    have hfirst : ∃ s₁ more, Hoists table params (ownedBy name t.staticDeclarators) s s₁ ∧
        blockItems table ctx rest s₁ = .ok more s' := by
      rcases hitem with hlocal | ⟨hstatement, hhoists⟩
      · obtain ⟨keyword, hvariables⟩ := hlocal
        obtain ⟨first, s₁, more, hfirst, hmore, -⟩ := (items_variables hvariables.tag).1 h
        exact ⟨s₁, more, hoists_declaration name ⟨keyword, hvariables⟩ hc inside hfirst, hmore⟩
      · obtain ⟨first, s₁, more, hfirst, hmore, -⟩ := (items_statement hstatement.tag).1 h
        exact ⟨s₁, more, hhoists hc inside hfirst, hmore⟩
    obtain ⟨s₁, more, hhoists, hmore⟩ := hfirst
    have hinside : s₁.scopes.enclosing ≠ [] := by rwa [hhoists.grows.enclosing]
    rw [Tree.allStaticDeclarators, ownedBy, List.map_append]
    exact hhoists.trans (ih hrest hhoists.reachable hinside hmore)

/-- A statement installs the setups of the static variables that it declares, in the order of the source. -/
theorem hoists_statement {t : Tree} (name : String) (ht : Shape.Statement t) (hc : Reachable params s.scopes)
    (inside : s.scopes.enclosing ≠ []) (h : statement table ctx t s = .ok code s') :
    Hoists table params (ownedBy name t.staticDeclarators) s s' := by
  induction ht generalizing ctx s s' code with
  | empty =>
    obtain ⟨-, rfl⟩ := statement_empty.1 h
    exact .refl hc
  | expression _ value =>
    obtain ⟨c', hrun, rfl⟩ := statement_expression.1 h
    exact .temps hc inside (effect_of_run value hrun).temps _
  | compound _ head body ih =>
    obtain ⟨s₁, hitems, rfl⟩ := statement_compound.1 h
    have hinside : (s.scopes.enter .block).enclosing ≠ [] := by simp [enter]
    exact .block inside (hoists_items name (fun t ht => (List.mem_append.1 ht).imp (head t) fun ht =>
      ⟨body t ht, fun hc inside hrun => ih t ht hc inside hrun⟩) (hc.enterBlock inside) hinside hitems)
  | ifThen _ condition _ ih =>
    obtain ⟨test, c₁, branch, htest, hbranch, -⟩ := statement_ifThen.1 h
    have hyes := Hoists.behind hc inside (lowers_of_valueOf condition htest).temps fun hc₁ inside₁ =>
      ih hc₁ inside₁ hbranch
    simpa [Tree.marked, Tree.staticDeclarators, Tree.staticDeclaratorsBehind, Tree.allStaticDeclarators]
      using hyes
  | ifElse _ condition _ _ ih ih' =>
    obtain ⟨test, c₁, branch, s₂, other, htest, hbranch, hother, -⟩ := statement_ifElse.1 h
    have hboth := Hoists.behind hc inside (lowers_of_valueOf condition htest).temps fun hc₁ inside₁ =>
      have hyes := ih hc₁ inside₁ hbranch
      hyes.trans (ih' hyes.reachable (by rwa [hyes.grows.enclosing]) hother)
    simpa [Tree.marked, Tree.staticDeclarators, Tree.staticDeclaratorsBehind, Tree.allStaticDeclarators]
      using hboth
  | whileDo _ condition _ ih =>
    obtain ⟨test, c₁, inner, htest, hinner, -⟩ := statement_while.1 h
    have hbody := Hoists.behind hc inside (lowers_of_valueOf condition htest).temps fun hc₁ inside₁ =>
      ih hc₁ inside₁ hinner
    simpa [Tree.marked, Tree.staticDeclarators, Tree.staticDeclaratorsBehind, Tree.allStaticDeclarators]
      using hbody
  | forDo _ range _ ih =>
    obtain ⟨symbol, r, c₁, inner, -, -, hrange, hinner, -⟩ := statement_for.1 h
    obtain ⟨counting, hcounts, -⟩ := counts_of_ok range hrange
    have hbody := Hoists.behind hc inside hcounts.temps fun hc₁ inside₁ => ih hc₁ inside₁ hinner
    simpa [Tree.marked, Tree.staticDeclarators, Tree.staticDeclaratorsBehind, Tree.allStaticDeclarators]
      using hbody
  | returnPlain =>
    obtain ⟨-, -, rfl⟩ := statement_returnPlain.1 h
    exact .refl hc
  | returnValue _ value =>
    obtain ⟨code, c', hrun, -, rfl⟩ := statement_return.1 h
    exact .temps hc inside (lowers_of_valueOf value hrun).temps _
  | breakLoop =>
    obtain ⟨exit, -, -, rfl⟩ := statement_break.1 h
    exact .refl hc

end Lowering

/-! Programs. -/

namespace Session

def staticPart (s : Session) : StaticPart :=
  ⟨s.scopes.statics, s.staticInit⟩

theorem installs_routine {decl : Tree} {s s' : Session} {g : Routine} (h : routine decl s = .ok g s')
    (hdecl : Shape.Function decl) (hs : AtFile s) :
    InstallsAll s.functions (staticsOf decl) s.staticPart s'.staticPart := by
  obtain ⟨name, parms, entry, block, flat, b, hname, -, hparms, hentry, hblock, hflat, -, rfl⟩ := routine_iff.1 h
  have hdepth : (s.scopes.enter .function).depth = 2 := by simp [depth, enter, hs.enclosing]
  obtain ⟨hreachable, henclosing, -, hstatics⟩ := declareParameters_ok hentry
    (hs.reachable.enterFunction hs.enclosing) hdepth (parameters_storable hparms)
  have hinside : entry.enclosing ≠ [] := by simp [henclosing, enter]
  cases hdecl with
  | @mk type id groups brace decls stmts _ head body =>
    rw [Shape.body_function] at hblock
    cases hblock
    cases hname
    have hbody := hoists_items id.lexeme (fun t ht => (List.mem_append.1 ht).imp (head t) fun ht =>
      ⟨body t ht, fun hc inside hrun => hoists_statement id.lexeme (body t ht) hc inside hrun⟩)
      hreachable hinside hflat
    have hstart : BodyState.staticPart ⟨entry, s.staticInit, 0⟩ = s.staticPart :=
      congrArg (StaticPart.mk · s.staticInit) hstatics
    have hinstalls := hbody.installs
    rw [hstart] at hinstalls
    rw [staticsOf_function]
    exact hinstalls

theorem installs_variables {decl : Tree} {s s' : Session} {code : Code}
    (h : inBody (declaration s.functions decl) s = .ok code s') (hdecl : Shape.Variables none decl)
    (hs : AtFile s) : InstallsAll s.functions (staticsOf decl) s.staticPart s'.staticPart := by
  obtain ⟨b, hb, rfl⟩ := inBody_ok.1 h
  cases hdecl with
  | @mk type nodes each =>
    have htags := fun node hnode => (each node hnode).tag
    obtain ⟨base, hbase, hrun⟩ := (declaration_variables htags).1 hb
    have hdepth : s.scopes.depth = 1 := by simp [depth, hs.enclosing]
    have hnodes := fun node hnode => (each node hnode).isDeclarator
    have hposition : s.scopes.enclosing = [] ↔ (none : Option String) = none := by simp [hs.enclosing]
    have hhoists := hoists_static none hnodes hs.reachable hposition (typeOf_scalar hbase)
      (by simpa [hdepth] using hrun)
    rw [staticsOf_variables none type htags]
    exact hhoists.installs

theorem installs_routines {decls : List Tree} {s s' : Session} {gs : List Routine}
    (h : routines decls s = .ok gs s') (each : ∀ decl ∈ decls, IsTopLevel s.functions decl)
    (shapes : ∀ decl ∈ decls, Shape.Declaration decl) (hs : AtFile s) :
    InstallsAll s.functions (decls.flatMap staticsOf) s.staticPart s'.staticPart := by
  induction decls generalizing s gs with
  | nil =>
    obtain ⟨-, rfl⟩ := pure_ok.1 h
    exact .done
  | cons decl rest ih =>
    rw [List.flatMap_cons]
    have hshape := shapes decl (by simp)
    rcases each decl (by simp) with ⟨htag, hdecl⟩ | hdecl
    · have hvariables := hshape.resolve_right fun hfunction =>
        absurd (hfunction.tag.symm.trans htag) (by simp)
      obtain ⟨code, s₁, hcode, hrest⟩ := (routines_variables htag).1 h
      have hkeeps := keeps_declaration hcode hdecl hs
      have hfirst := installs_variables hcode hvariables hs
      rw [← hkeeps.functions] at each hfirst ⊢
      exact hfirst.append (ih hrest (fun decl hmem => each decl (by simp [hmem]))
        (fun decl hmem => shapes decl (by simp [hmem])) hkeeps.atFile)
    · have hfunction := hshape.resolve_left fun hvariables =>
        absurd (hvariables.tag.symm.trans hdecl.1) (by simp)
      obtain ⟨g, s₁, more, hg, hrest, rfl⟩ := (routines_function hdecl.1).1 h
      have hkeeps := keeps_routine hg hdecl hs
      have hfirst := installs_routine hg hfunction hs
      rw [← hkeeps.functions] at each hfirst ⊢
      exact hfirst.append (ih hrest (fun decl hmem => each decl (by simp [hmem]))
        (fun decl hmem => shapes decl (by simp [hmem])) hkeeps.atFile)

end Session

open Grammar in
/-- The static slots and the setup code of an image are those of the static variables of the program, in the
order of the source. -/
theorem image_installs {program : Tree} {ts : List Token} (hprogram : Derives .program ts [program])
    {image : Image} {s' : Session} (h : Session.compileProgram program .empty = .ok image s') :
    ∃ table installed part, table.Reachable ∧ table.signatures = image.functions.map Routine.signature ∧
      installed.map Installation.var = staticVariables program ∧ Installs table installed .empty part ∧
      image.statics = part.slots ∧ image.staticInit = part.code.code := by
  obtain ⟨-, s₀, s₁, hregister, hroutines, himage, -⟩ := Session.compileProgram_iff.1 h
  obtain ⟨hs₀, -, htable⟩ := Session.registerAll_ok hregister
  have hfile : s₀.AtFile := by
    rw [hs₀]
    exact ⟨ScopeChain.Reachable.empty, rfl⟩
  have heach : ∀ decl ∈ program.children, IsTopLevel s₀.functions decl :=
    outlinedAs hprogram program (List.mem_singleton_self _)
  obtain ⟨hsignatures, -⟩ := Session.signatures_ok hregister hroutines rfl FunctionTable.Reachable.empty
    heach hfile
  obtain ⟨installed, hvariables, hinstalls⟩ :=
    Session.installs_routines hroutines heach (Shape.of_program hprogram).2 hfile
  have hempty : s₀.staticPart = .empty := by
    rw [hs₀]
    rfl
  rw [hempty] at hinstalls
  exact ⟨s₀.functions, installed, s₁.staticPart, htable FunctionTable.Reachable.empty, hsignatures, hvariables,
    hinstalls, congrArg Image.statics himage, congrArg Image.staticInit himage⟩

end StackCompiler
