import StackCompiler.Proofs.Grammar.ProgramSoundness
import StackCompiler.Proofs.Lowering.StaticSetup

/-!
Frame slots in the setup of static variables, which runs before any function has a frame. File-scope
initializers name static slots only. The initializer of a `static` variable of a function is refused when
it reads the frame, and whatever writes the frame also reads it, with one exception: a plain assignment to
a local variable or an argument.
-/

set_option autoImplicit false
namespace StackCompiler

open Lowering ScopeChain

def Instr.usesFrame : Instr → Bool
  | loadLocal _ | storeLocal _ | loadArg _ | storeArg _ => true
  | _ => false

@[simp] theorem usesFrame_load (place : Place) :
    (Instr.load place).usesFrame = decide (place.storage ≠ .static) := by
  obtain ⟨storage, slot⟩ := place
  cases storage <;> rfl

@[simp] theorem usesFrame_store (place : Place) :
    (Instr.store place).usesFrame = decide (place.storage ≠ .static) := by
  obtain ⟨storage, slot⟩ := place
  cases storage <;> rfl

@[simp] theorem readsFrame_load (place : Place) :
    (Instr.load place).readsFrame = decide (place.storage ≠ .static) := by
  obtain ⟨storage, slot⟩ := place
  cases storage <;> rfl

@[simp] theorem readsFrame_store (place : Place) : (Instr.store place).readsFrame = false := by
  obtain ⟨storage, slot⟩ := place
  cases storage <;> rfl

section NoSlot

variable (ty : Ty) (n : Nat)

@[simp] theorem usesFrame_pushInt (value : Int32) : (Instr.pushInt value).usesFrame = false := rfl

@[simp] theorem usesFrame_loadElem : (Instr.loadElem ty).usesFrame = false := rfl

@[simp] theorem usesFrame_storeElem : (Instr.storeElem ty).usesFrame = false := rfl

@[simp] theorem usesFrame_not : Instr.not.usesFrame = false := rfl

@[simp] theorem usesFrame_dup : Instr.dup.usesFrame = false := rfl

@[simp] theorem usesFrame_call : (Instr.call n).usesFrame = false := rfl

@[simp] theorem usesFrame_box : (Instr.box ty).usesFrame = false := rfl

@[simp] theorem usesFrame_print : Instr.print.usesFrame = false := rfl

@[simp] theorem usesFrame_printFormatted : (Instr.printFormatted n).usesFrame = false := rfl

@[simp] theorem usesFrame_read : (Instr.read ty).usesFrame = false := rfl

end NoSlot

theorem usesFrame_eq_readsFrame {instr : Instr} (h : instr.usesFrame = false) :
    instr.usesFrame = instr.readsFrame := by
  cases instr <;> first | rfl | cases h

theorem readsFrame_of_usesFrame {instr : Instr} (h : instr.usesFrame = false) : instr.readsFrame = false := by
  rw [← usesFrame_eq_readsFrame h, h]

theorem usesFrame_setup {instr : Instr} (h : isSetupInstr instr = true) : instr.usesFrame = false := by
  cases instr <;> first | rfl | cases h

def Tree.namesFrame (c : ScopeChain) (t : Tree) : Bool :=
  t.tag == .mutable && t.token.any fun name =>
    (c.resolve? name.lexeme).any fun symbol => symbol.place.storage != .static

/-- A plain assignment `x = e` to a local variable or an argument. -/
def Tree.assignsFrame (c : ScopeChain) (t : Tree) : Bool :=
  t.tag == .assign && t.token.any (fun op => op.lexeme == "=") &&
    t.children.head?.any fun target => target.children.isEmpty && target.namesFrame c

namespace Code

def FrameFree (code : Code) : Prop :=
  ∀ instr ∈ code, instr.usesFrame = false

@[simp] theorem frameFree_nil : FrameFree [] := by
  simp [FrameFree]

@[simp] theorem frameFree_cons (instr : Instr) (code : Code) :
    FrameFree (instr :: code) ↔ instr.usesFrame = false ∧ FrameFree code :=
  List.forall_mem_cons

@[simp] theorem frameFree_append (code more : Code) :
    FrameFree (code ++ more) ↔ FrameFree code ∧ FrameFree more :=
  List.forall_mem_append

end Code

open Code

namespace Lowering

variable {table : FunctionTable} {params : List Ty} {c c' : ScopeChain} {ty : Ty} {code : Code} {form : Form}

theorem usesFrame_literal {token : Token} {push : Instr} (h : literal? token = some (push, ty)) :
    push.usesFrame = false := by
  rcases literal_ok h with ⟨_, rfl, -⟩ | ⟨_, rfl, -⟩ | ⟨_, rfl, -⟩ | ⟨_, rfl, -⟩ <;> rfl

theorem usesFrame_binaryInstr {word : String} {instr : Instr} (h : binaryInstr? word = some instr) :
    instr.usesFrame = false := by
  unfold binaryInstr? at h
  split at h <;> cases h <;> rfl

theorem usesFrame_unaryOperator {t : Tree} {operand : OperandType} {instr : Instr}
    (h : unaryOperator t operand = .ok instr) : instr.usesFrame = false := by
  unfold unaryOperator at h
  obtain ⟨word, -, h⟩ := Grammar.bind_eq_ok.1 h
  split at h
  next =>
    obtain ⟨-, -, h⟩ := Grammar.bind_eq_ok.1 h
    cases h
    rfl
  next =>
    obtain ⟨-, -, h⟩ := Grammar.bind_eq_ok.1 h
    cases h
    rfl
  next =>
    split at h <;> cases h
    rfl
  next => cases h

theorem usesFrame_storing {op : Option Instr} {instr : Instr} (h : Storing op ty) (hop : op = some instr) :
    instr.usesFrame = false := by
  have hmem := (h instr hop).2
  simp only [List.mem_cons, List.not_mem_nil, or_false] at hmem
  rcases hmem with rfl | rfl | rfl | rfl <;> rfl

theorem frameFree_boxed (h : FrameFree code) : FrameFree (boxed ty code) := by
  unfold boxed
  split
  next => exact h
  next => simp [h]

/-! At file scope. -/

structure AtFileScope (c : ScopeChain) : Prop where
  enclosing : c.enclosing = []
  static : ∀ s ∈ c.innermost.symbols, s.place.storage = .static

theorem AtFileScope.of_reachable (hc : Reachable params c) (h : c.enclosing = []) : AtFileScope c := by
  have hnested := hc.sound.nested
  rw [h] at hnested
  exact ⟨h, hnested⟩

theorem AtFileScope.temps (h : AtFileScope c) (htemps : Temps c c') : AtFileScope c' :=
  ⟨htemps.enclosing.trans h.enclosing, by rw [htemps.symbols]; exact h.static⟩

theorem AtFileScope.resolve (h : AtFileScope c) {name : String} {symbol : Symbol}
    (hsymbol : c.resolve? name = some symbol) : symbol.place.storage = .static := by
  obtain ⟨scope, hscope, hmem⟩ := mem_of_resolve hsymbol
  rw [ScopeChain.scopes, h.enclosing, List.mem_singleton] at hscope
  rw [hscope] at hmem
  exact h.static symbol hmem

theorem AtFileScope.temp (h : AtFileScope c) {temp : Place} (htemp : c.reserveTemp ty = (temp, c')) :
    temp.storage = .static := by
  rw [reserveTemp_eq] at htemp
  obtain ⟨rfl, -⟩ := Prod.mk.inj htemp
  simp [tempStorage, depth, h.enclosing]

theorem AtFileScope.frameFree_assign (h : AtFileScope c) {r : Target} {value : Code} {op : Option Instr}
    {keep : Bool} (hassign : r.assign value op keep c = .ok code c') (hplace : r.place.storage = .static)
    (hindex : ∀ index, r.index = some index → FrameFree index) (hvalue : FrameFree value)
    (hop : ∀ instr, op = some instr → instr.usesFrame = false) : FrameFree code := by
  obtain ⟨place, element, index⟩ := r
  change place.storage = .static at hplace
  have hfinish : ∀ {finish : Code} {c₁ c₂ : ScopeChain}, AtFileScope c₁ →
      Target.storeElement element keep c₁ = .ok finish c₂ → FrameFree finish := by
    intro finish c₁ c₂ hc₁ hstore
    rcases storeElement_ok hstore with ⟨-, rfl, -⟩ | ⟨-, temp, htemp, rfl⟩
    · simp
    · simp [hc₁.temp htemp]
  cases index with
  | none =>
    obtain ⟨-, rfl⟩ := assign_variable_ok hassign
    have hupdated : FrameFree (updated place value op) := by
      cases op with
      | none => exact hvalue
      | some instr => simp [updated, hplace, hvalue, hop]
    cases keep <;> simp [hupdated, hplace]
  | some position =>
    have hposition := hindex position rfl
    rcases assign_element_ok hassign with ⟨-, finish, hstore, rfl⟩ |
      ⟨instr, temp, c₁, finish, rfl, htemp, hstore, rfl⟩
    · simp [hplace, hposition, hvalue, hfinish h hstore]
    · simp [hplace, hposition, hvalue, hop, h.temp htemp,
        hfinish (h.temps (temps_reserveTemp htemp)) hstore]

/-- At file scope expressions use static slots only. -/
theorem Lowers.frameFree (h : Lowers table form c ty code c') (hc : AtFileScope c) : FrameFree code := by
  induction h with
  | constant hliteral => simp [usesFrame_literal hliteral]
  | «variable» hsymbol => simp [hc.resolve hsymbol]
  | element hsymbol _ _ ih => simp [hc.resolve hsymbol, ih hc]
  | paren _ ih | put _ _ _ ih | kept _ ih | assign _ _ ih | step _ _ ih | value _ ih => exact ih hc
  | chain operand _ first rest | argument operand _ first rest | filled operand _ first rest =>
    exact (frameFree_append _ _).2 ⟨first hc, rest (hc.temps operand.temps)⟩
  | noLinks | noArguments | noPrinted | noFilled => exact frameFree_nil
  | link _ hop operand _ first rest =>
    simp [first hc, rest (hc.temps operand.temps), usesFrame_binaryInstr hop]
  | compare hop _ operand _ first second =>
    simp [first hc, second (hc.temps operand.temps), usesFrame_binaryInstr hop]
  | negate _ ih => simp [ih hc]
  | unary hop _ ih => simp [ih hc, usesFrame_unaryOperator hop]
  | call _ _ _ _ ih => simp [ih hc]
  | print _ _ _ ih => simp [frameFree_boxed (ih hc)]
  | printFormatted _ format _ first rest => simp [first hc, rest (hc.temps format.temps)]
  | printed _ operand _ first rest =>
    exact (frameFree_append _ _).2 ⟨frameFree_boxed (first hc), rest (hc.temps operand.temps)⟩
  | storeVariable hsymbol storing inner hassign ih =>
    exact (hc.temps inner.temps).frameFree_assign hassign (hc.resolve hsymbol) (by simp) (ih hc)
      fun _ => usesFrame_storing storing
  | storeElement hsymbol _ storing outer inner hassign index value =>
    have hvalue := value (hc.temps outer.temps)
    refine ((hc.temps outer.temps).temps inner.temps).frameFree_assign hassign (hc.resolve hsymbol) ?_ hvalue
      fun _ => usesFrame_storing storing
    intro position hposition
    cases hposition
    exact index hc
  | one => simp
  | input => simp

/-! In functions. -/

/-- Taking temporaries, the scopes keep their names. -/
theorem namesFrame_temps (h : Temps c c') : Tree.namesFrame c' = Tree.namesFrame c := by
  funext t
  simp only [Tree.namesFrame, h.resolve]

structure InFunction (params : List Ty) (c : ScopeChain) : Prop where
  reachable : Reachable params c
  inside : c.enclosing ≠ []

theorem InFunction.temps (h : InFunction params c) (htemps : Temps c c') : InFunction params c' :=
  ⟨htemps.reachable h.reachable, by rw [htemps.enclosing]; exact h.inside⟩

theorem temp_local (inside : c.enclosing ≠ []) {temp : Place} (htemp : c.reserveTemp ty = (temp, c')) :
    temp.storage = .local := by
  rw [reserveTemp_eq] at htemp
  obtain ⟨rfl, -⟩ := Prod.mk.inj htemp
  rw [tempStorage, if_neg (depth_ne_one inside)]

/-- A store into an element loads a temporary in the end. -/
theorem reads_assign_element (inside : c.enclosing ≠ []) {place : Place} {element : Ty}
    {position value : Code} {op : Option Instr}
    (h : Target.assign ⟨place, element, some position⟩ value op true c = .ok code c') :
    code.any Instr.readsFrame = true := by
  have hfinish : ∀ {finish : Code} {c₁ : ScopeChain}, c₁.enclosing ≠ [] →
      Target.storeElement element true c₁ = .ok finish c' → ∃ temp : Place, temp.storage = .local ∧
        .load temp ∈ finish := by
    intro finish c₁ inside₁ hstore
    rcases storeElement_ok hstore with ⟨hkeep, -⟩ | ⟨-, temp, htemp, rfl⟩
    · cases hkeep
    · exact ⟨temp, temp_local inside₁ htemp, by simp⟩
  have hload : ∃ temp : Place, temp.storage = .local ∧ .load temp ∈ code := by
    rcases assign_element_ok h with ⟨-, finish, hstore, rfl⟩ |
      ⟨instr, temp, c₁, finish, -, htemp, hstore, rfl⟩
    · obtain ⟨temp, hlocal, hmem⟩ := hfinish inside hstore
      exact ⟨temp, hlocal, List.mem_append_right _ hmem⟩
    · have inside₁ : c₁.enclosing ≠ [] := by rwa [(temps_reserveTemp htemp).enclosing]
      obtain ⟨temp, hlocal, hmem⟩ := hfinish inside₁ hstore
      exact ⟨temp, hlocal, List.mem_append_right _ (List.mem_cons_of_mem _ hmem)⟩
  obtain ⟨temp, hlocal, hmem⟩ := hload
  exact List.any_eq_true.2 ⟨_, hmem, by simp [hlocal]⟩

/-- The form is part of an initial value: what it leaves is no `void`, and stores keep their value. -/
def Form.Kept : Form → Ty → Prop
  | .value _, ty | .source _, ty => ty ≠ .void
  | .stored keep _, _ | .store keep _ _ _, _ => keep = true
  | .links _ _, _ => True
  | .arguments types _, _ => ∀ ty ∈ types, ty ≠ .void
  | .printed _, _ | .filled _, _ => False

/-- The form assigns plainly to a variable of the frame. -/
def Form.assignsFrame (c : ScopeChain) : Form → Bool
  | .store _ op target origin =>
    op.isNone && (target.children.isEmpty && target.namesFrame c) ||
      (target :: origin.trees).any (Tree.any (Tree.assignsFrame c))
  | form => form.trees.any (Tree.any (Tree.assignsFrame c))

theorem Form.assignsFrame_temps (h : Temps c c') : form.assignsFrame c' = form.assignsFrame c := by
  have hnames := namesFrame_temps h
  have htree : Tree.assignsFrame c' = Tree.assignsFrame c := by
    funext t
    rw [Tree.assignsFrame, Tree.assignsFrame, hnames]
  cases form <;> simp only [Form.assignsFrame, hnames, htree]

@[simp] theorem assignsFrame_value (t : Tree) :
    (Form.value t).assignsFrame c = t.any (Tree.assignsFrame c) := by
  simp [Form.assignsFrame, Form.trees]

/-- A node that is no assignment itself. -/
theorem any_assignsFrame {t : Tree} (h : t.tag ≠ .assign) :
    t.any (Tree.assignsFrame c) = t.children.any (Tree.any (Tree.assignsFrame c)) := by
  rw [Tree.any_eq, Tree.assignsFrame, beq_false_of_ne h, Bool.false_and, Bool.false_and, Bool.false_or]

theorem leaf_assigns_nothing {tag : Tag} (h : tag ≠ .assign) (token : Token) :
    (Tree.marked tag token []).any (Tree.assignsFrame c) = false := by
  rw [any_assignsFrame h]
  rfl

theorem level_ne_assign (level : Grammar.Level) : level.tag ≠ .assign := by
  cases level <;> simp [Grammar.Level.tag]

/-- An assignment is plain if its operator does nothing with the old value. -/
theorem any_assignsFrame_assign {op : Token} {target value : Tree} {instr : Option Instr}
    (hop : assignmentOperator (.marked .assign op [target, value]) = .ok instr) :
    (Tree.marked .assign op [target, value]).any (Tree.assignsFrame c) =
      (instr.isNone && (target.children.isEmpty && target.namesFrame c) ||
        [target, value].any (Tree.any (Tree.assignsFrame c))) := by
  have hplain : (op.lexeme == "=") = instr.isNone := by
    unfold assignmentOperator at hop
    rw [lexeme_marked, Grammar.ok_bind] at hop
    split at hop <;> cases hop <;> simp_all
  rw [Tree.any_eq, Tree.assignsFrame, ← hplain]
  rfl

/-- A store uses the frame for its value, and for a variable of the frame, whose old value it cannot read. -/
theorem usesFrame_assign_variable {place : Place} {value : Code} {op : Option Instr} {keep : Bool}
    (h : Target.assign ⟨place, ty, none⟩ value op keep c = .ok code c')
    (hop : ∀ instr, op = some instr → instr.usesFrame = false)
    (hreads : code.any Instr.readsFrame = false) :
    value.any Instr.readsFrame = false ∧
      code.any Instr.usesFrame = (op.isNone && place.storage != .static || value.any Instr.usesFrame) := by
  obtain ⟨-, rfl⟩ := assign_variable_ok h
  rw [List.any_append, Bool.or_eq_false_iff] at hreads
  have hend : ((if keep then [Instr.dup] else []) ++ [Instr.store place]).any Instr.usesFrame =
      (place.storage != .static) := by
    obtain ⟨storage, slot⟩ := place
    cases keep <;> cases storage <;> rfl
  rw [List.any_append, hend]
  cases op with
  | none => exact ⟨hreads.1, Bool.or_comm _ _⟩
  | some instr =>
    have hparts : decide (place.storage ≠ .static) = false ∧ value.any Instr.readsFrame = false ∧
        instr.readsFrame = false := by
      simpa [updated] using hreads.1
    have hstatic : place.storage = .static := by simpa using hparts.1
    exact ⟨hparts.2.1, by simp [updated, hstatic, hop instr rfl]⟩

/-- In a function, code that reads no frame uses the frame just where it assigns plainly to a variable of
it. -/
theorem Lowers.any_usesFrame (h : Lowers table form c ty code c') (htable : table.Sound)
    (hc : InFunction params c) (hkept : form.Kept ty) (hreads : code.any Instr.readsFrame = false) :
    code.any Instr.usesFrame = form.assignsFrame c := by
  induction h with
  | constant hliteral =>
    have hpush := usesFrame_literal hliteral
    rw [assignsFrame_value, any_assignsFrame (by simp)]
    simp [Tree.marked, hpush]
  | «variable» hsymbol =>
    rw [assignsFrame_value, any_assignsFrame (by simp)]
    simpa [Tree.marked] using hreads
  | @element name index symbol element code c c' hsymbol _ _ ih =>
    simp only [List.any_append, List.any_cons, Bool.or_eq_false_iff, readsFrame_load] at hreads
    have hindex := ih hc (by simp [Form.Kept]) hreads.1.2
    rw [assignsFrame_value, any_assignsFrame (by simp)]
    simp [Tree.marked, hreads.1.1, hindex]
  | paren _ ih =>
    have hinner := ih hc hkept hreads
    rw [assignsFrame_value, any_assignsFrame (by simp)]
    simp [Tree.marked, hinner]
  | @chain level first links code more c c₁ c' operand _ ih ih' =>
    rw [List.any_append, Bool.or_eq_false_iff] at hreads
    have hfirst := ih hc (ne_void_level level) hreads.1
    have hrest := ih' (hc.temps operand.temps) trivial hreads.2
    rw [assignsFrame_value] at hfirst ⊢
    rw [any_assignsFrame (level_ne_assign level), List.any_append, hfirst, hrest,
      Form.assignsFrame_temps operand.temps]
    rfl
  | noLinks | noArguments => rfl
  | @link level op t links instr code more c c₁ c' _ hop operand _ ih ih' =>
    rw [List.any_append, List.any_cons, Bool.or_eq_false_iff, Bool.or_eq_false_iff] at hreads
    have hfirst := ih hc (ne_void_level level) hreads.1
    have hrest := ih' (hc.temps operand.temps) trivial hreads.2.2
    have hoperator : (Tree.marked .operator op []).any (Tree.assignsFrame c) = false :=
      leaf_assigns_nothing (by simp) op
    rw [assignsFrame_value] at hfirst
    rw [List.any_append, List.any_cons, hfirst, hrest, Form.assignsFrame_temps operand.temps,
      usesFrame_binaryInstr hop]
    simp [Form.assignsFrame, Form.trees, hoperator]
  | @compare op left right instr ty code code' c c₁ c' hop defined operand _ ih ih' =>
    simp only [List.any_append, Bool.or_eq_false_iff] at hreads
    have hty := ne_void_of_compares defined
    have hfirst := ih hc hty hreads.1.1
    have hsecond := ih' (hc.temps operand.temps) hty hreads.1.2
    have hoperator : (Tree.marked .operator op []).any (Tree.assignsFrame c) = false :=
      leaf_assigns_nothing (by simp) op
    rw [Form.assignsFrame_temps operand.temps, assignsFrame_value] at hsecond
    rw [assignsFrame_value, any_assignsFrame (by simp)]
    simp [Tree.inner, hfirst, hsecond, usesFrame_binaryInstr hop, hoperator]
  | negate _ ih =>
    rw [List.any_append, Bool.or_eq_false_iff] at hreads
    have hinner := ih hc (by simp [Form.Kept]) hreads.1
    rw [assignsFrame_value, any_assignsFrame (by simp)]
    simp [Tree.marked, hinner]
  | unary hop _ ih =>
    rw [List.any_append, Bool.or_eq_false_iff] at hreads
    have hinner := ih hc (ne_void_of_unary hop) hreads.1
    rw [assignsFrame_value, any_assignsFrame (by simp)]
    simp [Tree.marked, hinner, usesFrame_unaryOperator hop]
  | call _ hlookup _ _ ih =>
    rw [List.any_append, Bool.or_eq_false_iff] at hreads
    have hparameters := htable.parameters _ (List.mem_of_find?_eq_some hlookup)
    have hargs := ih hc (fun ty hty => ne_void_of_storable (hparameters ty hty)) hreads.1
    rw [assignsFrame_value, any_assignsFrame (by simp), List.any_append, hargs]
    simp [Form.assignsFrame, Form.trees, Tree.marked]
  | print | printFormatted | put => exact absurd rfl hkept
  | kept _ ih => exact ih hc rfl hreads
  | assign hop _ ih =>
    rw [ih hc hkept hreads]
    exact (any_assignsFrame_assign hop).symm.trans (assignsFrame_value _).symm
  | @step keep op target instr code c c' _ _ ih =>
    rw [ih hc hkept hreads]
    exact (any_assignsFrame (t := .marked .incDec op [target]) (by simp)).symm.trans
      (assignsFrame_value _).symm
  | @storeVariable keep op name symbol origin value code c c₁ c' hsymbol storing inner hassign ih =>
    have hty := ne_void_of_storable (storable_of_resolve hc.reachable hsymbol)
    obtain ⟨hreads, huses⟩ := usesFrame_assign_variable hassign (fun _ => usesFrame_storing storing) hreads
    have htarget : (Tree.marked .mutable name []).any (Tree.assignsFrame c) = false :=
      leaf_assigns_nothing (by simp) name
    have hnames : (Tree.marked .mutable name []).namesFrame c = (symbol.place.storage != .static) := by
      simp [Tree.namesFrame, Tree.marked, hsymbol]
    rw [huses, ih hc hty hreads, Form.assignsFrame, List.any_cons, htarget, hnames]
    rfl
  | storeElement _ _ _ outer inner hassign =>
    cases (show _ = true from hkept)
    have hinside := ((hc.temps outer.temps).temps inner.temps).inside
    rw [reads_assign_element hinside hassign] at hreads
    cases hreads
  | value _ ih => exact ih hc hkept hreads
  | one | input => rfl
  | argument operand _ ih ih' =>
    rw [List.any_append, Bool.or_eq_false_iff] at hreads
    have hfirst := ih hc (hkept _ (by simp)) hreads.1
    have hrest := ih' (hc.temps operand.temps) (fun ty hty => hkept ty (by simp [hty])) hreads.2
    rw [assignsFrame_value] at hfirst
    rw [List.any_append, hfirst, hrest, Form.assignsFrame_temps operand.temps]
    rfl
  | noPrinted | printed | noFilled | filled => exact hkept.elim

/-! In setups. -/

variable {i : Installation}

/-- The initializer stands in a function and assigns plainly to a variable of its frame. -/
def Installation.assignsFrame (i : Installation) : Bool :=
  i.var.owner.isSome && i.var.initializer?.any (Tree.any (Tree.assignsFrame i.before))

/-- The code of an initial value reads no frame, and uses it just if the initializer assigns to it. -/
theorem SetsUp.initial_frame (h : SetsUp table i) (htable : table.Sound) :
    i.setup.initial.any Instr.readsFrame = false ∧
      i.setup.initial.any Instr.usesFrame = i.assignsFrame := by
  obtain ⟨params, base, hc, hscalar, hrun⟩ := h.lowered
  rcases declarator_initial h.isDeclarator hrun with ⟨hnone, hempty⟩ | ⟨init, c₁, hinit, hlowers, hframe⟩
  · have hnone : i.var.initializer? = none := hnone
    simp [hempty, Installation.assignsFrame, hnone]
  · have hinit : i.var.initializer? = some init := hinit
    cases howner : i.var.owner with
    | none =>
      have hfree := hlowers.frameFree (.of_reachable hc (h.position.2 howner))
      have huses : i.setup.initial.any Instr.usesFrame = false := by simpa [FrameFree] using hfree
      have hreads : i.setup.initial.any Instr.readsFrame = false := by
        simpa using fun instr hmem => readsFrame_of_usesFrame (hfree instr hmem)
      exact ⟨hreads, by simp [huses, Installation.assignsFrame, howner]⟩
    | some name =>
      have inside : i.before.enclosing ≠ [] := by simp [h.position, howner]
      have hreads := hframe (by simp [howner])
      have huses := hlowers.any_usesFrame htable ⟨hc, inside⟩ (ne_void_of_scalar hscalar) hreads
      exact ⟨hreads, by simp [huses, Installation.assignsFrame, howner, hinit]⟩

end Lowering

/-- The setup code of a compiled source reads no frame slot. It writes one just if the initializer of a
`static` variable of a function assigns plainly to a name that denotes a local variable or an argument. -/
theorem static_setup_frame {source : String} {image : Image} (h : compile source = .ok image) :
    (∀ instr ∈ image.staticInit, instr.readsFrame = false) ∧
    ∃ program table installed part, parse source = .ok program ∧
      installed.map Installation.var = staticVariables program ∧
      Installs table installed .empty part ∧ image.statics = part.slots ∧ image.staticInit = part.code.code ∧
      ((∀ instr ∈ image.staticInit, instr.usesFrame = false) ↔
        ∀ i ∈ installed, i.assignsFrame = false) := by
  obtain ⟨program, s, hparse, hcompile⟩ := Session.compile_ok h
  obtain ⟨table, installed, part, htable, -, hvariables, hinstalls, hstatics, hcode⟩ :=
    image_installs (Grammar.derives_of_parse hparse) hcompile
  have hframe : ∀ i ∈ installed, i.setup.initial.any Instr.readsFrame = false ∧
      i.setup.initial.any Instr.usesFrame = i.assignsFrame :=
    fun i hi => (hinstalls.setsUp hi).initial_frame htable.sound
  have hreads : image.staticInit.any Instr.readsFrame = false := by
    rw [hcode, hinstalls.any_code fun instr hinstr => readsFrame_of_usesFrame (usesFrame_setup hinstr)]
    refine Bool.or_eq_false_iff.2 ⟨rfl, List.any_eq_false.2 fun i hi => ?_⟩
    simp [(hframe i hi).1]
  have huses : image.staticInit.any Instr.usesFrame =
      installed.any fun i => i.setup.initial.any Instr.usesFrame := by
    rw [hcode, hinstalls.any_code fun _ => usesFrame_setup]
    exact Bool.false_or _
  refine ⟨by simpa using hreads, program, table, installed, part, hparse, hvariables, hinstalls, hstatics,
    hcode, ?_⟩
  calc (∀ instr ∈ image.staticInit, instr.usesFrame = false)
      ↔ image.staticInit.any Instr.usesFrame = false := by simp
    _ ↔ ∀ i ∈ installed, ¬i.setup.initial.any Instr.usesFrame = true := by rw [huses, List.any_eq_false]
    _ ↔ ∀ i ∈ installed, i.assignsFrame = false := by
        refine forall₂_congr fun i hi => ?_
        rw [(hframe i hi).2, Bool.not_eq_true]

/-- A call and an assignment to a file-scope variable in the initializer of a `static` array. -/
theorem static_setup_frame_array : ∃ image,
    compile "int k; int g() \x7b return k; \x7d f(int p) \x7b static int a[3] : g() + (k = 4); p = a[0]; \x7d" =
      .ok image ∧ (∀ instr ∈ image.staticInit, instr.usesFrame = false) ∧
      ∃ table installed part i, Installs table installed .empty part ∧ image.staticInit = part.code.code ∧
        i ∈ installed ∧ i.var.owner = some "f" ∧
        i.var.initializer?.any (Tree.any fun t => t.tag == .assign) = true ∧ i.assignsFrame = false := by
  have hcompiled : (compile
      "int k; int g() \x7b return k; \x7d f(int p) \x7b static int a[3] : g() + (k = 4); p = a[0]; \x7d").toOption.any
      (fun image => decide (∀ instr ∈ image.staticInit, instr.usesFrame = false)) = true := by decide +kernel
  have hparsed : (parse
      "int k; int g() \x7b return k; \x7d f(int p) \x7b static int a[3] : g() + (k = 4); p = a[0]; \x7d").toOption.any
      (fun program => (staticVariables program).any fun v => decide (v.owner = some "f") &&
        v.initializer?.any (Tree.any fun t => t.tag == .assign)) = true := by decide +kernel
  obtain ⟨image, hcompile, hfree⟩ := ok_of_any hcompiled
  obtain ⟨program, hparse, hvariable⟩ := ok_of_any hparsed
  obtain ⟨v, hv, hvariable⟩ := List.any_eq_true.1 hvariable
  rw [Bool.and_eq_true, decide_eq_true_eq] at hvariable
  have hfree := of_decide_eq_true hfree
  obtain ⟨-, program', table, installed, part, hparse', hvariables, hinstalls, -, hcode, hiff⟩ :=
    static_setup_frame hcompile
  cases hparse.symm.trans hparse'
  rw [← hvariables] at hv
  obtain ⟨i, hi, rfl⟩ := List.mem_map.1 hv
  exact ⟨image, hcompile, hfree, table, installed, part, i, hinstalls, hcode, hi, hvariable.1, hvariable.2,
    hiff.1 hfree i hi⟩

/-- An assignment in the initializer of a `static` variable writes an argument before any call. -/
theorem static_setup_writes_argument : ∃ image,
    compile "int f(int p) \x7b static int n : (p = 4); return n; \x7d" = .ok image ∧
      Instr.storeArg 0 ∈ image.staticInit := by
  have hrun : (match compile "int f(int p) \x7b static int n : (p = 4); return n; \x7d" with
      | .ok image => decide (Instr.storeArg 0 ∈ image.staticInit)
      | .error _ => false) = true := by decide +kernel
  split at hrun
  next image hcompile => exact ⟨image, hcompile, of_decide_eq_true hrun⟩
  next => cases hrun

end StackCompiler
