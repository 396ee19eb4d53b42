import StackCompiler.Proofs.Lowering.FormRuns

/-!
Runs of the lowering of statements and declarations, one equivalence for each function: what runs inside it
and how the outcome is put together. Read from left to right they take a run apart, from right to left they
build one, which is how two runs are compared. They hold for all trees, whether or not a source has them.
-/

set_option autoImplicit false
namespace StackCompiler.Lowering

variable {table : FunctionTable} {c c' : ScopeChain} {code : Code}

/-! Expressions in their places. -/

theorem valueOf_iff {ty : Ty} {t : Tree} :
    valueOf table ty t c = .ok code c' ↔ expression table t c = .ok (.value ty code) c' := by
  simp only [valueOf, bind_ok, lift_ok, expectValue_ok, pure_ok]
  constructor
  · rintro ⟨⟨_, _⟩, _, htyped, _, _, ⟨rfl, rfl⟩, rfl, rfl⟩
    exact htyped
  · intro htyped
    exact ⟨_, c', htyped, (), c', ⟨rfl, rfl⟩, rfl, rfl⟩

def Typed.dropped (typed : Typed) : Code :=
  match typed.ty with
  | .operator | .value .void => typed.code
  | .value _ => typed.code ++ [.pop]

theorem dropped_eq (typed : Typed) :
    typed.dropped = typed.code ∨ typed.dropped = typed.code ++ [.pop] := by
  unfold Typed.dropped
  split
  · exact .inl rfl
  · exact .inl rfl
  · exact .inr rfl

theorem dropped_value (ty : Ty) (code : Code) :
    (Typed.value ty code).dropped = if ty = .void then code else code ++ [.pop] := by
  cases ty <;> rfl

/-- An assignment leaves no value here, and the value of any other expression is dropped. -/
theorem expressionStatement_iff {t : Tree} {rest : List Tree} :
    expressionStatement table (t :: rest) c = .ok code c' ↔
      (t.tag = .assign ∧ ∃ typed, assignment table t false t.children c = .ok typed c' ∧ code = typed.code) ∨
      (t.tag = .incDec ∧ ∃ typed, step table t false t.children c = .ok typed c' ∧ code = typed.code) ∨
      (t.tag ≠ .assign ∧ t.tag ≠ .incDec ∧
        ∃ typed, expression table t c = .ok typed c' ∧ code = typed.dropped) := by
  by_cases hassign : t.tag = .assign
  · simp only [expressionStatement, hassign, bind_ok, pure_ok]
    constructor
    · rintro ⟨typed, _, htyped, rfl, rfl⟩
      exact .inl ⟨trivial, typed, htyped, rfl⟩
    · rintro (⟨-, typed, htyped, rfl⟩ | ⟨h, -⟩ | ⟨h, -⟩)
      · exact ⟨typed, c', htyped, rfl, rfl⟩
      · cases h
      · exact absurd rfl h
  by_cases hstep : t.tag = .incDec
  · simp only [expressionStatement, hstep, bind_ok, pure_ok]
    constructor
    · rintro ⟨typed, _, htyped, rfl, rfl⟩
      exact .inr (.inl ⟨trivial, typed, htyped, rfl⟩)
    · rintro (⟨h, -⟩ | ⟨-, typed, htyped, rfl⟩ | ⟨-, h, -⟩)
      · cases h
      · exact ⟨typed, c', htyped, rfl, rfl⟩
      · exact absurd rfl h
  have hdropped : expressionStatement table (t :: rest) =
      (expression table t >>= fun typed => pure typed.dropped) := by
    simp only [expressionStatement]
    congr 1
    funext ⟨ty, value⟩
    cases ty with
    | operator => rfl
    | value ty => cases ty <;> rfl
  rw [hdropped, bind_ok]
  simp only [pure_ok]
  constructor
  · rintro ⟨typed, _, htyped, rfl, rfl⟩
    exact .inr (.inr ⟨hassign, hstep, typed, htyped, rfl⟩)
  · rintro (⟨h, -⟩ | ⟨h, -⟩ | ⟨-, -, typed, htyped, rfl⟩)
    · exact absurd h hassign
    · exact absurd h hstep
    · exact ⟨typed, c', htyped, rfl, rfl⟩

theorem Lowers.stored_statement {t : Tree} {ty : Ty} (h : Lowers table (.stored false t) c ty code c') :
    expressionStatement table [t] c = .ok code c' := by
  rcases h.runs with ⟨htag, hrun⟩ | ⟨htag, hrun⟩
  · exact expressionStatement_iff.2 (.inl ⟨htag, _, hrun, rfl⟩)
  · exact expressionStatement_iff.2 (.inr (.inl ⟨htag, _, hrun, rfl⟩))

theorem Lowers.value_statement {t : Tree} {ty : Ty} (notAssign : t.tag ≠ .assign) (notStep : t.tag ≠ .incDec)
    (h : Lowers table (.value t) c ty code c') :
    expressionStatement table [t] c = .ok (if ty = .void then code else code ++ [.pop]) c' := by
  rw [← dropped_value]
  exact expressionStatement_iff.2 (.inr (.inr ⟨notAssign, notStep, _, h.runs, rfl⟩))

section Return

variable {t : Tree} {result : Ty}

theorem returnStatement_plain :
    returnStatement table t result [] c = .ok code c' ↔ result = .void ∧ code = [.return] ∧ c' = c := by
  simp only [returnStatement, bind_ok, lift_ok, require_ok, pure_ok]
  constructor
  · rintro ⟨_, _, ⟨hvoid, rfl⟩, rfl, rfl⟩
    exact ⟨hvoid, rfl, rfl⟩
  · rintro ⟨hvoid, rfl, rfl⟩
    exact ⟨(), _, ⟨hvoid, rfl⟩, rfl, rfl⟩

theorem returnStatement_value {value : Tree} {rest : List Tree} :
    returnStatement table t result (value :: rest) c = .ok code c' ↔
      ∃ returned, valueOf table result value c = .ok returned c' ∧ code = returned ++ [.return] := by
  simp only [returnStatement, valueOf, bind_ok, lift_ok, expectValue_ok, pure_ok]
  constructor
  · rintro ⟨typed, _, htyped, _, _, ⟨hty, rfl⟩, rfl, rfl⟩
    exact ⟨typed.code, ⟨typed, _, htyped, (), _, ⟨hty, rfl⟩, rfl, rfl⟩, rfl⟩
  · rintro ⟨_, ⟨typed, _, htyped, _, _, ⟨hty, rfl⟩, rfl, rfl⟩, rfl⟩
    exact ⟨typed, _, htyped, (), _, ⟨hty, rfl⟩, rfl, rfl⟩

end Return

/-! Declarators. -/

theorem declare_place_ok {name : String} {ty : Ty} {storage : Storage} {length : Option Nat} {line : Nat}
    {place : Place} (h : declare name ty storage length line c = .ok place c') :
    ∃ slot, place = ⟨storage, slot⟩ ∧ c.declare name ty storage length line = .ok (slot, c') := by
  simp only [declare, bind_ok, get_ok, lift_ok, set_ok, pure_ok] at h
  obtain ⟨_, _, ⟨rfl, rfl⟩, ⟨slot, c₁⟩, _, ⟨hdeclare, rfl⟩, _, _, rfl, rfl, rfl⟩ := h
  exact ⟨slot, rfl, hdeclare⟩

theorem declare_run {name : String} {ty : Ty} {storage : Storage} {length : Option Nat} {line slot : Nat}
    (h : c.declare name ty storage length line = .ok (slot, c')) :
    Lowering.declare name ty storage length line c = .ok ⟨storage, slot⟩ c' := by
  simp only [Lowering.declare, bind_ok, get_ok, lift_ok, set_ok, pure_ok]
  exact ⟨c, c, ⟨rfl, rfl⟩, (slot, c'), c, ⟨h, rfl⟩, (), c', rfl, rfl, rfl⟩

theorem reserve_ok {ty : Ty} {storage : Storage} {place : Place} (h : reserve ty storage c = .ok place c') :
    ∃ slot, place = ⟨storage, slot⟩ ∧ c.reserve ty storage = (slot, c') := by
  have hreserve := modifyGet_ok.1 h
  cases hreserve
  exact ⟨_, rfl, rfl⟩

theorem reserve_run {ty : Ty} {storage : Storage} {slot : Nat} (h : c.reserve ty storage = (slot, c')) :
    reserve ty storage c = .ok ⟨storage, slot⟩ c' :=
  modifyGet_ok.2 (by rw [h])

inductive TakesSlots (base : Ty) (storage : Storage) : Declarator → ScopeChain → Setup → ScopeChain → Prop where
  | nothing {name : String} {line slot : Nat} {c c' : ScopeChain}
      (declared : c.declare name base storage none line = .ok (slot, c')) :
      TakesSlots base storage ⟨name, line, none, none⟩ c .nothing c'
  | scalar {name : String} {line slot : Nat} {value : Code} {c c' : ScopeChain}
      (declared : c.declare name base storage none line = .ok (slot, c')) :
      TakesSlots base storage ⟨name, line, none, some value⟩ c (.scalar ⟨storage, slot⟩ value) c'
  | array {name : String} {line slot : Nat} {n : Int32} {c c' : ScopeChain}
      (declared : c.declare name (.array base) storage (some n.toInt.toNat) line = .ok (slot, c')) :
      TakesSlots base storage ⟨name, line, some n, none⟩ c (.array ⟨storage, slot⟩ base n none) c'
  | filled {name : String} {line slot valueSlot indexSlot : Nat} {n : Int32} {value : Code}
      {c c₁ c₂ c' : ScopeChain}
      (declared : c.declare name (.array base) storage (some n.toInt.toNat) line = .ok (slot, c₁))
      (valueTemp : c₁.reserve base storage = (valueSlot, c₂))
      (indexTemp : c₂.reserve .int storage = (indexSlot, c')) :
      TakesSlots base storage ⟨name, line, some n, some value⟩ c
        (.array ⟨storage, slot⟩ base n (some ⟨value, ⟨storage, valueSlot⟩, ⟨storage, indexSlot⟩⟩)) c'

section Declarators

variable {name : String} {base : Ty} {storage : Storage} {hoisted : Bool}

theorem declare_iff {d : Declarator} {setup : Setup} :
    d.declare base storage c = .ok setup c' ↔ TakesSlots base storage d c setup c' := by
  constructor
  · intro h
    obtain ⟨name, line, length, value⟩ := d
    cases length <;> cases value <;> simp only [Declarator.declare, bind_ok, pure_ok] at h
    · obtain ⟨place, _, hplace, rfl, rfl⟩ := h
      obtain ⟨slot, -, hdeclare⟩ := declare_place_ok hplace
      exact .nothing hdeclare
    · obtain ⟨place, _, hplace, rfl, rfl⟩ := h
      obtain ⟨slot, rfl, hdeclare⟩ := declare_place_ok hplace
      exact .scalar hdeclare
    · obtain ⟨place, _, hplace, rfl, rfl⟩ := h
      obtain ⟨slot, rfl, hdeclare⟩ := declare_place_ok hplace
      exact .array hdeclare
    · obtain ⟨place, c₁, hplace, valueTemp, c₂, hvalue, indexTemp, _, hindex, rfl, rfl⟩ := h
      obtain ⟨slot, rfl, hdeclare⟩ := declare_place_ok hplace
      obtain ⟨valueSlot, rfl, hvalueSlot⟩ := reserve_ok hvalue
      obtain ⟨indexSlot, rfl, hindexSlot⟩ := reserve_ok hindex
      exact .filled hdeclare hvalueSlot hindexSlot
  · intro h
    cases h with
    | nothing declared | scalar declared | array declared =>
      exact bind_ok.2 ⟨_, c', declare_run declared, rfl⟩
    | filled declared valueTemp indexTemp =>
      refine bind_ok.2 ⟨_, _, declare_run declared, ?_⟩
      exact bind_ok.2 ⟨_, _, reserve_run valueTemp, bind_ok.2 ⟨_, c', reserve_run indexTemp, rfl⟩⟩

theorem initialValue_none {value : Option Code} :
    initialValue table name base hoisted none c = .ok value c' ↔ value = none ∧ c' = c := by
  rw [initialValue, pure_ok, eq_comm, eq_comm (a := c)]

theorem initialValue_some {init : Tree} {value : Option Code} :
    initialValue table name base hoisted (some init) c = .ok value c' ↔
      ∃ code, expression table init c = .ok (.value base code) c' ∧
        (hoisted = true → code.any Instr.readsFrame = false) ∧ value = some code := by
  have hframe : ∀ code : Code, (!(hoisted && code.any Instr.readsFrame)) = true ↔
      (hoisted = true → code.any Instr.readsFrame = false) := by
    intro code
    cases hoisted <;> simp
  simp only [initialValue, bind_ok, lift_ok, expectValue_ok, require_ok, pure_ok, hframe]
  constructor
  · rintro ⟨⟨_, code⟩, _, htyped, _, _, ⟨rfl, rfl⟩, _, _, ⟨hreads, rfl⟩, rfl, rfl⟩
    exact ⟨code, htyped, hreads, rfl⟩
  · rintro ⟨code, htyped, hreads, rfl⟩
    exact ⟨.value base code, c', htyped, (), c', ⟨rfl, rfl⟩, (), c', ⟨hreads, rfl⟩, rfl, rfl⟩

theorem readDeclarator_iff {node : Tree} {d : Declarator} :
    readDeclarator table base hoisted node c = .ok d c' ↔
      ∃ id name length value, node.child 0 = .ok id ∧ id.lexeme = .ok name ∧
        declaredLength id = .ok length ∧
        initialValue table name base hoisted node.children[1]? c = .ok value c' ∧
        d = ⟨name, id.line, length, value⟩ := by
  simp only [readDeclarator, bind_ok, lift_ok, pure_ok]
  constructor
  · rintro ⟨id, _, ⟨hid, rfl⟩, name, _, ⟨hname, rfl⟩, length, _, ⟨hlength, rfl⟩, value, _, hvalue, rfl, rfl⟩
    exact ⟨id, name, length, value, hid, hname, hlength, hvalue, rfl⟩
  · rintro ⟨id, name, length, value, hid, hname, hlength, hvalue, rfl⟩
    exact ⟨id, c, ⟨hid, rfl⟩, name, c, ⟨hname, rfl⟩, length, c, ⟨hlength, rfl⟩, value, c', hvalue, rfl, rfl⟩

theorem declarator_iff {node : Tree} {setup : Setup} :
    declarator table base storage hoisted node c = .ok setup c' ↔
      ∃ id name length value c₁, node.child 0 = .ok id ∧ id.lexeme = .ok name ∧
        declaredLength id = .ok length ∧
        initialValue table name base hoisted node.children[1]? c = .ok value c₁ ∧
        TakesSlots base storage ⟨name, id.line, length, value⟩ c₁ setup c' := by
  simp only [declarator, bind_ok, readDeclarator_iff, declare_iff]
  constructor
  · rintro ⟨_, c₁, ⟨id, name, length, value, hid, hname, hlength, hvalue, rfl⟩, hslots⟩
    exact ⟨id, name, length, value, c₁, hid, hname, hlength, hvalue, hslots⟩
  · rintro ⟨id, name, length, value, c₁, hid, hname, hlength, hvalue, hslots⟩
    exact ⟨_, c₁, ⟨id, name, length, value, hid, hname, hlength, hvalue, rfl⟩, hslots⟩

end Declarators

/-! Declarations. -/

theorem freshLabels_ok {n : Nat} {s s' : BodyState} {label : Label} :
    freshLabels n s = .ok label s' ↔
      label = s.nextLabel ∧ s' = { s with nextLabel := s.nextLabel + n } := by
  unfold freshLabels
  rw [modifyGet_ok, Prod.mk.injEq, eq_comm, and_congr_right_iff]
  intro _
  exact eq_comm

/-- Where the setup of a variable goes, and what is left of it in the body. -/
def installed (storage : Storage) (setup : Setup) (s : BodyState) : Code × BodyState :=
  if storage = .static then
    ([], { s with staticInit := s.staticInit.append setup })
  else
    (setup.code s.nextLabel, { s with nextLabel := s.nextLabel + setup.labels })

theorem install_eq (storage : Storage) (setup : Setup) (s : BodyState) :
    install storage setup s = .ok (installed storage setup s).1 (installed storage setup s).2 := by
  unfold install installed
  split <;> rfl

@[simp] theorem scopes_installed (storage : Storage) (setup : Setup) (s : BodyState) :
    (installed storage setup s).2.scopes = s.scopes := by
  unfold installed
  split <;> rfl

theorem installed_static (setup : Setup) (s : BodyState) :
    installed .static setup s = ([], { s with staticInit := s.staticInit.append setup }) :=
  rfl

theorem installed_other {storage : Storage} (h : storage ≠ .static) (setup : Setup) (s : BodyState) :
    installed storage setup s = (setup.code s.nextLabel, { s with nextLabel := s.nextLabel + setup.labels }) :=
  if_neg h

variable {s s' : BodyState}

theorem declarators_nil {base : Ty} {storage : Storage} {hoisted : Bool} :
    declarators table base storage hoisted [] s = .ok code s' ↔ code = [] ∧ s' = s := by
  rw [declarators, pure_ok, eq_comm, eq_comm (a := s)]

theorem declarators_cons {base : Ty} {storage : Storage} {hoisted : Bool} {node : Tree} {rest : List Tree} :
    declarators table base storage hoisted (node :: rest) s = .ok code s' ↔
      ∃ setup c₁ more, declarator table base storage hoisted node s.scopes = .ok setup c₁ ∧
        declarators table base storage hoisted rest (installed storage setup { s with scopes := c₁ }).2 =
          .ok more s' ∧
        code = (installed storage setup { s with scopes := c₁ }).1 ++ more := by
  simp only [declarators, bind_ok, liftScope_ok, pure_ok, install_eq]
  constructor
  · rintro ⟨setup, _, ⟨c₁, hsetup, rfl⟩, _, _, hinstall, more, _, hmore, rfl, rfl⟩
    cases hinstall
    exact ⟨setup, c₁, more, hsetup, hmore, rfl⟩
  · rintro ⟨setup, c₁, more, hsetup, hmore, rfl⟩
    exact ⟨setup, _, ⟨c₁, hsetup, rfl⟩, _, _, rfl, more, s', hmore, rfl, rfl⟩

theorem declaration_iff {node : Tree} :
    declaration table node s = .ok code s' ↔
      ∃ base, baseType node = .ok base ∧
        declarators table base (storageOf s.scopes.depth node)
          (storageOf s.scopes.depth node = .static && s.scopes.depth ≠ 1)
          (node.children.filter fun child => child.tag == .varDeclInit) s = .ok code s' := by
  simp only [declaration, bind_ok, get_ok, lift_ok]
  constructor
  · rintro ⟨_, _, ⟨rfl, rfl⟩, base, _, ⟨hbase, rfl⟩, hrun⟩
    exact ⟨base, hbase, hrun⟩
  · rintro ⟨base, hbase, hrun⟩
    exact ⟨s, s, ⟨rfl, rfl⟩, base, s, ⟨hbase, rfl⟩, hrun⟩

/-! Statements. -/

section Statements

variable {ctx : Context} {token : Token}

theorem items_nil : blockItems table ctx [] s = .ok code s' ↔ code = [] ∧ s' = s := by
  rw [blockItems, pure_ok, eq_comm, eq_comm (a := s)]

theorem items_variables {item : Tree} {rest : List Tree} (htag : item.tag = .varDecl) :
    blockItems table ctx (item :: rest) s = .ok code s' ↔
      ∃ first s₁ more, declaration table item s = .ok first s₁ ∧
        blockItems table ctx rest s₁ = .ok more s' ∧ code = first ++ more := by
  rw [blockItems, if_pos htag]
  simp only [bind_ok, pure_ok]
  constructor
  · rintro ⟨first, s₁, hfirst, more, _, hmore, rfl, rfl⟩
    exact ⟨first, s₁, more, hfirst, hmore, rfl⟩
  · rintro ⟨first, s₁, more, hfirst, hmore, rfl⟩
    exact ⟨first, s₁, hfirst, more, s', hmore, rfl, rfl⟩

theorem items_statement {item : Tree} {rest : List Tree} (htag : item.tag ≠ .varDecl) :
    blockItems table ctx (item :: rest) s = .ok code s' ↔
      ∃ first s₁ more, statement table ctx item s = .ok first s₁ ∧
        blockItems table ctx rest s₁ = .ok more s' ∧ code = first ++ more := by
  rw [blockItems, if_neg htag]
  simp only [bind_ok, pure_ok]
  constructor
  · rintro ⟨first, s₁, hfirst, more, _, hmore, rfl, rfl⟩
    exact ⟨first, s₁, more, hfirst, hmore, rfl⟩
  · rintro ⟨first, s₁, more, hfirst, hmore, rfl⟩
    exact ⟨first, s₁, hfirst, more, s', hmore, rfl, rfl⟩

theorem statement_empty :
    statement table ctx (.marked .expStmt token []) s = .ok code s' ↔ code = [] ∧ s' = s := by
  change (pure [] : BodyM Code) s = .ok code s' ↔ _
  rw [pure_ok, eq_comm, eq_comm (a := s)]

theorem statement_expression {t : Tree} :
    statement table ctx (.marked .expStmt token [t]) s = .ok code s' ↔
      ∃ c', expressionStatement table [t] s.scopes = .ok code c' ∧ s' = { s with scopes := c' } :=
  liftScope_ok

theorem statement_compound {items : List Tree} :
    statement table ctx (.marked .compoundStmt token items) s = .ok code s' ↔
      ∃ s₁, blockItems table ctx items { s with scopes := s.scopes.enter .block } = .ok code s₁ ∧
        s' = { s₁ with scopes := s₁.scopes.exit s.scopes.depth } :=
  inScope_ok

section Parts

variable (t : Tree) {test yes no body bounds : Tree} (rest : List Tree) {children : List Tree}

theorem ifThen_iff :
    ifStatement table ctx t [test, yes] s = .ok code s' ↔
      ∃ condition c₁ branch, valueOf table .bool test s.scopes = .ok condition c₁ ∧
        statement table ctx yes ⟨c₁, s.staticInit, s.nextLabel + 1⟩ = .ok branch s' ∧
        code = condition ++ .jumpIfFalse s.nextLabel :: branch ++ [.label s.nextLabel] := by
  simp only [ifStatement, bind_ok, liftScope_ok, freshLabels_ok, pure_ok]
  constructor
  · rintro ⟨condition, _, ⟨c₁, hcondition, rfl⟩, _, _, ⟨rfl, rfl⟩, branch, _, hbranch, rfl, rfl⟩
    exact ⟨condition, c₁, branch, hcondition, hbranch, rfl⟩
  · rintro ⟨condition, c₁, branch, hcondition, hbranch, rfl⟩
    exact ⟨condition, _, ⟨c₁, hcondition, rfl⟩, _, _, ⟨rfl, rfl⟩, branch, s', hbranch, rfl, rfl⟩

theorem ifElse_iff :
    ifStatement table ctx t (test :: yes :: no :: rest) s = .ok code s' ↔
      ∃ condition c₁ first s₂ second, valueOf table .bool test s.scopes = .ok condition c₁ ∧
        statement table ctx yes ⟨c₁, s.staticInit, s.nextLabel + 2⟩ = .ok first s₂ ∧
        statement table ctx no s₂ = .ok second s' ∧
        code = condition ++ .jumpIfFalse s.nextLabel :: first ++
          [.jump (s.nextLabel + 1), .label s.nextLabel] ++ second ++ [.label (s.nextLabel + 1)] := by
  simp only [ifStatement, bind_ok, liftScope_ok, freshLabels_ok, pure_ok]
  constructor
  · rintro ⟨condition, _, ⟨c₁, hcondition, rfl⟩, _, _, ⟨rfl, rfl⟩, first, s₂, hfirst, second, _, hsecond, rfl,
      rfl⟩
    exact ⟨condition, c₁, first, s₂, second, hcondition, hfirst, hsecond, rfl⟩
  · rintro ⟨condition, c₁, first, s₂, second, hcondition, hfirst, hsecond, rfl⟩
    exact ⟨condition, _, ⟨c₁, hcondition, rfl⟩, _, _, ⟨rfl, rfl⟩, first, s₂, hfirst, second, s', hsecond, rfl,
      rfl⟩

variable {t} in
theorem ifStatement_parts (h : ifStatement table ctx t children s = .ok code s') :
    (∃ test yes, children = [test, yes]) ∨ ∃ test yes no rest, children = test :: yes :: no :: rest := by
  match children with
  | [] => exact absurd h (by simp [ifStatement, throw_ok])
  | [_] => exact absurd h (by simp [ifStatement, bind_ok, throw_ok])
  | [test, yes] => exact .inl ⟨test, yes, rfl⟩
  | test :: yes :: no :: rest => exact .inr ⟨test, yes, no, rest, rfl⟩

theorem whileStatement_iff :
    whileStatement table ctx t (test :: body :: rest) s = .ok code s' ↔
      ∃ condition c₁ inner, valueOf table .bool test s.scopes = .ok condition c₁ ∧
        statement table { ctx with loopExit := some (s.nextLabel + 2) } body
          ⟨c₁, s.staticInit, s.nextLabel + 3⟩ = .ok inner s' ∧
        code = loopCode s.nextLabel inner [] condition := by
  simp only [whileStatement, bind_ok, liftScope_ok, freshLabels_ok, pure_ok]
  constructor
  · rintro ⟨condition, _, ⟨c₁, hcondition, rfl⟩, _, _, ⟨rfl, rfl⟩, inner, _, hinner, rfl, rfl⟩
    exact ⟨condition, c₁, inner, hcondition, hinner, rfl⟩
  · rintro ⟨condition, c₁, inner, hcondition, hinner, rfl⟩
    exact ⟨condition, _, ⟨c₁, hcondition, rfl⟩, _, _, ⟨rfl, rfl⟩, inner, s', hinner, rfl, rfl⟩

variable {t} in
theorem whileStatement_parts (h : whileStatement table ctx t children s = .ok code s') :
    ∃ test body rest, children = test :: body :: rest := by
  match children with
  | [] => exact absurd h (by simp [whileStatement, throw_ok])
  | [_] => exact absurd h (by simp [whileStatement, bind_ok, throw_ok])
  | test :: body :: rest => exact ⟨test, body, rest, rfl⟩

theorem forStatement_iff :
    forStatement table ctx t (bounds :: body :: rest) s = .ok code s' ↔
      ∃ counter c₀ r c₁ inner, counterOf t s.scopes = .ok counter c₀ ∧
        range table counter bounds c₀ = .ok r c₁ ∧
        statement table { ctx with loopExit := some (s.nextLabel + 2) } body
          ⟨c₁, s.staticInit, s.nextLabel + 3⟩ = .ok inner s' ∧
        code = r.code ++ loopCode s.nextLabel inner r.advance r.test := by
  simp only [forStatement, bind_ok, liftScope_ok, freshLabels_ok, pure_ok]
  constructor
  · rintro ⟨counter, _, ⟨c₀, hcounter, rfl⟩, r, _, ⟨c₁, hrange, rfl⟩, _, _, ⟨rfl, rfl⟩, inner, _, hinner, rfl,
      rfl⟩
    exact ⟨counter, c₀, r, c₁, inner, hcounter, hrange, hinner, rfl⟩
  · rintro ⟨counter, c₀, r, c₁, inner, hcounter, hrange, hinner, rfl⟩
    exact ⟨counter, _, ⟨c₀, hcounter, rfl⟩, r, _, ⟨c₁, hrange, rfl⟩, _, _, ⟨rfl, rfl⟩, inner, s', hinner, rfl,
      rfl⟩

variable {t} in
theorem forStatement_children (h : forStatement table ctx t children s = .ok code s') :
    ∃ bounds body rest, children = bounds :: body :: rest := by
  match children with
  | [] => exact absurd h (by simp [forStatement, bind_ok, throw_ok])
  | [_] => exact absurd h (by simp [forStatement, bind_ok, throw_ok])
  | bounds :: body :: rest => exact ⟨bounds, body, rest, rfl⟩

end Parts

theorem statement_ifThen {test yes : Tree} :
    statement table ctx (.marked .ifStmt token [test, yes]) s = .ok code s' ↔
      ∃ condition c₁ branch, valueOf table .bool test s.scopes = .ok condition c₁ ∧
        statement table ctx yes ⟨c₁, s.staticInit, s.nextLabel + 1⟩ = .ok branch s' ∧
        code = condition ++ .jumpIfFalse s.nextLabel :: branch ++ [.label s.nextLabel] :=
  ifThen_iff (.marked .ifStmt token [test, yes])

theorem statement_ifElse {test yes no : Tree} :
    statement table ctx (.marked .ifStmt token [test, yes, no]) s = .ok code s' ↔
      ∃ condition c₁ first s₂ second, valueOf table .bool test s.scopes = .ok condition c₁ ∧
        statement table ctx yes ⟨c₁, s.staticInit, s.nextLabel + 2⟩ = .ok first s₂ ∧
        statement table ctx no s₂ = .ok second s' ∧
        code = condition ++ .jumpIfFalse s.nextLabel :: first ++
          [.jump (s.nextLabel + 1), .label s.nextLabel] ++ second ++ [.label (s.nextLabel + 1)] :=
  ifElse_iff (.marked .ifStmt token [test, yes, no]) []

theorem statement_while {test body : Tree} :
    statement table ctx (.marked .whileStmt token [test, body]) s = .ok code s' ↔
      ∃ condition c₁ inner, valueOf table .bool test s.scopes = .ok condition c₁ ∧
        statement table { ctx with loopExit := some (s.nextLabel + 2) } body
          ⟨c₁, s.staticInit, s.nextLabel + 3⟩ = .ok inner s' ∧
        code = loopCode s.nextLabel inner [] condition :=
  whileStatement_iff (.marked .whileStmt token [test, body]) []

theorem counterOf_iff {tag : Tag} {children : List Tree} {place : Place} :
    counterOf (.marked tag token children) c = .ok place c' ↔
      ∃ symbol, c.resolve? token.lexeme = some symbol ∧ symbol.ty = .int ∧ place = symbol.place ∧ c' = c := by
  simp only [counterOf, bind_ok, lift_ok, expectType_ok, pure_ok]
  constructor
  · rintro ⟨symbol, _, hsymbol, _, _, ⟨hint, rfl⟩, rfl, rfl⟩
    obtain ⟨hfound, rfl⟩ := resolve_marked.1 hsymbol
    exact ⟨symbol, hfound, hint, rfl, rfl⟩
  · rintro ⟨symbol, hfound, hint, rfl, rfl⟩
    exact ⟨symbol, _, resolve_marked.2 ⟨hfound, rfl⟩, (), _, ⟨hint, rfl⟩, rfl, rfl⟩

theorem statement_for {bounds : List Tree} {body : Tree} :
    statement table ctx (.marked .forStmt token [.inner .iterRange bounds, body]) s = .ok code s' ↔
      ∃ symbol r c₁ inner, s.scopes.resolve? token.lexeme = some symbol ∧ symbol.ty = .int ∧
        range table symbol.place (.inner .iterRange bounds) s.scopes = .ok r c₁ ∧
        statement table { ctx with loopExit := some (s.nextLabel + 2) } body
          ⟨c₁, s.staticInit, s.nextLabel + 3⟩ = .ok inner s' ∧
        code = r.code ++ loopCode s.nextLabel inner r.advance r.test := by
  change forStatement table ctx (.marked .forStmt token [.inner .iterRange bounds, body])
    [.inner .iterRange bounds, body] s = .ok code s' ↔ _
  simp only [forStatement_iff, counterOf_iff]
  constructor
  · rintro ⟨_, _, r, c₁, inner, ⟨symbol, hfound, hint, rfl, rfl⟩, hrange, hinner, rfl⟩
    exact ⟨symbol, r, c₁, inner, hfound, hint, hrange, hinner, rfl⟩
  · rintro ⟨symbol, r, c₁, inner, hfound, hint, hrange, hinner, rfl⟩
    exact ⟨_, _, r, c₁, inner, ⟨symbol, hfound, hint, rfl, rfl⟩, hrange, hinner, rfl⟩

theorem statement_returnPlain :
    statement table ctx (.marked .returnStmt token []) s = .ok code s' ↔
      ctx.result = .void ∧ code = [.return] ∧ s' = s := by
  change (liftM (returnStatement table (.marked .returnStmt token []) ctx.result []) : BodyM Code) s =
    .ok code s' ↔ _
  simp only [liftScope_ok, returnStatement_plain]
  constructor
  · rintro ⟨_, ⟨hvoid, rfl, rfl⟩, rfl⟩
    exact ⟨hvoid, rfl, rfl⟩
  · rintro ⟨hvoid, rfl, rfl⟩
    exact ⟨_, ⟨hvoid, rfl, rfl⟩, rfl⟩

theorem statement_return {t : Tree} :
    statement table ctx (.marked .returnStmt token [t]) s = .ok code s' ↔
      ∃ value c', valueOf table ctx.result t s.scopes = .ok value c' ∧ code = value ++ [.return] ∧
        s' = { s with scopes := c' } := by
  change (liftM (returnStatement table (.marked .returnStmt token [t]) ctx.result [t]) : BodyM Code) s =
    .ok code s' ↔ _
  simp only [liftScope_ok, returnStatement_value]
  constructor
  · rintro ⟨c', ⟨value, hvalue, rfl⟩, rfl⟩
    exact ⟨value, c', hvalue, rfl, rfl⟩
  · rintro ⟨value, c', hvalue, rfl, rfl⟩
    exact ⟨c', ⟨value, hvalue, rfl⟩, rfl⟩

theorem breakStatement_iff {t : Option Token} {children : List Tree} :
    statement table ctx ⟨.breakStmt, t, children⟩ s = .ok code s' ↔
      ∃ exit, ctx.loopExit = some exit ∧ code = [.jump exit] ∧ s' = s := by
  obtain ⟨result, exit⟩ := ctx
  cases exit with
  | none => simp [statement, throw_ok]
  | some exit =>
    change (pure [.jump exit] : BodyM Code) s = .ok code s' ↔ _
    rw [pure_ok]
    constructor
    · rintro ⟨rfl, rfl⟩
      exact ⟨exit, rfl, rfl, rfl⟩
    · rintro ⟨_, hexit, rfl, rfl⟩
      cases hexit
      exact ⟨rfl, rfl⟩

theorem statement_break :
    statement table ctx (.marked .breakStmt token []) s = .ok code s' ↔
      ∃ exit, ctx.loopExit = some exit ∧ code = [.jump exit] ∧ s' = s :=
  breakStatement_iff

end Statements

end StackCompiler.Lowering
