import StackCompiler.Proofs.Semantics.ExpressionMeaning

/-!
Stores into elements of arrays, plain ones and updates, side by side. Both evaluate the index once and
before the value. But a plain store holds on to the array that the variable has before the index is
evaluated, and an update takes the one it has behind the index: an index that assigns to the variable
makes the two touch different arrays.
-/

set_option autoImplicit false
namespace StackCompiler

open Lowering ScopeChain

/-- A tree that stores into the element `index` of the array `name`: an assignment, or a step. -/
inductive ElementStore (name : Token) (index : Tree) : Option Instr → Source → Tree → Prop where
  | assign {sign : Token} {value : Tree} {op : Option Instr} (hop : updateInstr? sign.lexeme = some op) :
      ElementStore name index op (.value value)
        (.marked .assign sign [.marked .mutable name [index], value])
  | step {sign : Token} {instr : Instr} (hop : updateInstr? sign.lexeme = some (some instr)) :
      ElementStore name index (some instr) .one (.marked .incDec sign [.marked .mutable name [index]])

def Lowering.store (table : FunctionTable) (keep : Bool) (t : Tree) : ScopeM Typed :=
  if t.tag = .incDec then step table t keep t.children else assignment table t keep t.children

variable {V W : Type}

/-- The state behind a store, compared with its evaluation: the value is on the stack if it is kept, and
the memories agree outside of `T`. -/
def BehindStore (T : Place → Prop) (keep : Bool) (stack : List V) (s : State V W) (r : V × Memory V W) : Prop :=
  s.stack = (if keep then [r.1] else []) ++ stack ∧ s.memory.Agree T r.2

variable {table : FunctionTable} {params : List Ty} {c c' : ScopeChain} {name : Token} {index t : Tree}
  {op : Option Instr} {origin : Source} {keep : Bool} {ty : Ty} {code : Code}

/-- The code of such a tree is that of a store into the array that the name denotes. -/
theorem ElementStore.lowers (h : ElementStore name index op origin t)
    (hlowers : Lowers table (.stored keep t) c ty code c') :
    (∃ symbol, c.resolve? name.lexeme = some symbol ∧ symbol.ty = .array ty) ∧
      Lowers table (.store keep op (.marked .mutable name [index]) origin) c ty code c' := by
  have hstore : Lowers table (.store keep op (.marked .mutable name [index]) origin) c ty code c' := by
    cases h with
    | assign hop =>
      cases hlowers with
      | assign hop' inner =>
        rw [updateInstr_of_assign hop'] at hop
        cases hop
        exact inner
    | step hop =>
      cases hlowers with
      | step hop' inner =>
        rw [updateInstr_of_step hop'] at hop
        cases hop
        exact inner
  refine ⟨?_, hstore⟩
  cases hstore with
  | storeElement hsymbol isArray => exact ⟨_, hsymbol, isArray⟩

theorem ElementStore.stored_of_ok (h : ElementStore name index op origin t) (hlowerable : Lowerable table t)
    {typed : Typed} (hcode : Lowering.store table keep t c = .ok typed c') :
    ∃ ty code, typed = .value ty code ∧ Lowers table (.stored keep t) c ty code c' := by
  cases h with
  | assign => exact hlowerable.assignment rfl hcode
  | step => exact hlowerable.step rfl hcode

/-- The code of a store into an element does what its evaluation does. -/
theorem ElementStore.runs (I : Interpretation V W) (htable : table.Sound) (hc : Reachable params c)
    (h : ElementStore name index op origin t) (hlowerable : Lowerable table t) {typed : Typed}
    (hcode : Lowering.store table keep t c = .ok typed c') (hI : I.Ignores (Taken params c c')) :
    ∃ symbol element, c.resolve? name.lexeme = some symbol ∧ symbol.ty = .array element ∧
      ∀ (stack : List V) (m : Memory V W),
        Option.Rel (BehindStore (Taken params c c') keep stack)
          (I.run table.signatures typed.code ⟨stack, m⟩)
          (I.evalStore table c.resolve? op (I.source table c.resolve? origin)
            (.marked .mutable name [index]) m) := by
  obtain ⟨ty, code, rfl, hlowers⟩ := h.stored_of_ok hlowerable hcode
  obtain ⟨⟨symbol, hsymbol, isArray⟩, hstore⟩ := h.lowers hlowers
  obtain ⟨-, -, hfollows⟩ := hstore.computes htable hc hI .none .none
  exact ⟨symbol, ty, hsymbol, isArray, fun stack m => (hfollows stack).rel m⟩

/-- Of an update `a[i] op= e`, `a[i]++` or `a[i]--` and an assignment `a[i] = e'` to the same element, run
from the same state: both evaluate `i` once and first. Then the assignment writes to the array that `a` had
before that, and the update reads and writes the element of the array that `a` has now. -/
theorem element_update_and_assignment (I : Interpretation V W) {table : FunctionTable}
    (htable : table.Reachable) {params : List Ty} {c c₁ c₂ : ScopeChain} (hc : Reachable params c)
    {ts ts' : List Token} {parsed : Grammar.Read Tree ts.length} {parsed' : Grammar.Read Tree ts'.length}
    (hparsed : Grammar.expression true ts = .ok (some parsed))
    (hparsed' : Grammar.expression true ts' = .ok (some parsed'))
    {name : Token} {index : Tree} {instr : Instr} {origin origin' : Source}
    (hupdate : ElementStore name index (some instr) origin parsed.value)
    (hassign : ElementStore name index none origin' parsed'.value)
    {keep keep' : Bool} {typed typed' : Typed}
    (hcode : Lowering.store table keep parsed.value c = .ok typed c₁)
    (hcode' : Lowering.store table keep' parsed'.value c = .ok typed' c₂)
    (hI : I.Ignores (Taken params c c₁)) (hI' : I.Ignores (Taken params c c₂)) :
    ∃ symbol element, c.resolve? name.lexeme = some symbol ∧ symbol.ty = .array element ∧
      ∀ (stack : List V) (m : Memory V W),
        ((I.eval table c.resolve? index).value m = none →
          I.run table.signatures typed.code ⟨stack, m⟩ = none ∧
          I.run table.signatures typed'.code ⟨stack, m⟩ = none) ∧
        ∀ i m₁, (I.eval table c.resolve? index).value m = some (i, m₁) →
          Option.Rel (BehindStore (Taken params c c₁) keep stack)
            (I.run table.signatures typed.code ⟨stack, m⟩)
            (I.storeAt table element (some instr) (I.source table c.resolve? origin)
              (m₁.cell symbol.place) i m₁) ∧
          Option.Rel (BehindStore (Taken params c c₂) keep' stack)
            (I.run table.signatures typed'.code ⟨stack, m⟩)
            (I.storeAt table element none (I.source table c.resolve? origin')
              (m.cell symbol.place) i m₁) := by
  have hlowerable : ∀ {ts : List Token} {parsed : Grammar.Read Tree ts.length},
      Grammar.expression true ts = .ok (some parsed) → Lowerable table parsed.value := by
    intro ts parsed hparsed
    obtain ⟨used, -, hderives⟩ := Grammar.expression_reads hparsed
    exact lowerable_of_derives hderives
  obtain ⟨symbol, element, hsymbol, isArray, hruns⟩ :=
    hupdate.runs I htable.sound hc (hlowerable hparsed) hcode hI
  obtain ⟨symbol', element', hsymbol', isArray', hruns'⟩ :=
    hassign.runs I htable.sound hc (hlowerable hparsed') hcode' hI'
  cases hsymbol.symm.trans hsymbol'
  cases isArray.symm.trans isArray'
  rw [evalStore_element_update hsymbol isArray] at hruns
  rw [evalStore_element_plain hsymbol isArray] at hruns'
  refine ⟨symbol, element, hsymbol, isArray, ?_⟩
  intro stack m
  have hupdated := hruns stack m
  have hassigned := hruns' stack m
  change Option.Rel _ _ (((I.eval table c.resolve? index).value m).bind fun r =>
    I.storeAt table element (some instr) (I.source table c.resolve? origin) (r.2.cell symbol.place) r.1 r.2)
    at hupdated
  change Option.Rel _ _ (((I.eval table c.resolve? index).value m).bind fun r =>
    I.storeAt table element none (I.source table c.resolve? origin') (m.cell symbol.place) r.1 r.2) at hassigned
  constructor
  · intro hnone
    rw [hnone, Option.bind_none] at hupdated hassigned
    exact ⟨rel_none_right hupdated rfl, rel_none_right hassigned rfl⟩
  · intro i m₁ hindex
    rw [hindex, Option.bind_some] at hupdated hassigned
    exact ⟨hupdated, hassigned⟩

/-- The scopes in a function without parameters behind `int a[1]; int b[1];`. -/
def scopesWithArrays : ScopeChain :=
  ⟨⟨.function, [], 0, 0⟩,
    [⟨.file, [⟨"b", .array .int, ⟨.static, 1⟩, some 1, 1⟩, ⟨"a", .array .int, ⟨.static, 0⟩, some 1, 1⟩], 0, 0⟩],
    [.array .int, .array .int], []⟩

theorem reachable_scopesWithArrays : Reachable [] scopesWithArrays := by
  have ha : ScopeChain.empty.declare "a" (.array .int) .static (some 1) 1 =
      .ok (0, ⟨⟨.file, [⟨"a", .array .int, ⟨.static, 0⟩, some 1, 1⟩], 0, 0⟩, [], [.array .int], []⟩) := rfl
  have harray := Reachable.empty.declare (.inl rfl) rfl ha
  have hboth := harray.declare (.inl rfl) rfl
    (show ScopeChain.declare _ "b" (.array .int) .static (some 1) 1 = _ from rfl)
  exact hboth.enterFunction rfl

/-- The sign, the name and the constant of an assignment to an element with a constant index. -/
def constantIndex? : Tree → Option (Token × Token × Token)
  | ⟨.assign, some sign, [⟨.mutable, some name, [⟨.constant, some digit, []⟩]⟩, _]⟩ => some (sign, name, digit)
  | _ => none

theorem eq_of_constantIndex {t : Tree} {sign name digit : Token}
    (h : constantIndex? t = some (sign, name, digit)) :
    ∃ value, t = .marked .assign sign [.marked .mutable name [.marked .constant digit []], value] := by
  unfold constantIndex? at h
  split at h
  next value =>
    cases h
    exact ⟨value, rfl⟩
  next => cases h

/-- Whether `source` is an assignment to `a[0]` with the sign, and its dropped store has the code. -/
def storesFirst (source sign : String) (code : Code) : Bool :=
  (Grammar.expression true (tokenize source)).toOption.any fun read => read.any fun parsed =>
    decide (constantIndex? parsed.value = some (⟨.operator, sign, 1⟩, ⟨.identifier, "a", 1⟩, ⟨.number, "0", 1⟩)) &&
      (succeeded? (Lowering.store .empty false parsed.value scopesWithArrays)).any
        fun r => decide (r.1.code = code)

theorem exists_of_storesFirst {source sign : String} {op : Option Instr} {code : Code}
    (h : storesFirst source sign code = true) (hop : updateInstr? sign = some op) :
    ∃ parsed origin typed c', Grammar.expression true (tokenize source) = .ok (some parsed) ∧
      ElementStore ⟨.identifier, "a", 1⟩ (.marked .constant ⟨.number, "0", 1⟩ []) op origin parsed.value ∧
      Lowering.store .empty false parsed.value scopesWithArrays = .ok typed c' ∧ typed.code = code := by
  unfold storesFirst at h
  obtain ⟨read, hread, hstore⟩ := ok_of_any h
  obtain ⟨parsed, rfl, hparsed⟩ := (Option.any_eq_true _ _).1 hstore
  rw [Bool.and_eq_true, decide_eq_true_eq] at hparsed
  obtain ⟨hshape, hlowered⟩ := hparsed
  obtain ⟨typed, c', hcode, heq⟩ := ok_of_succeeded hlowered
  obtain ⟨value, hvalue⟩ := eq_of_constantIndex hshape
  refine ⟨parsed, .value value, typed, c', hread, ?_, hcode, of_decide_eq_true heq⟩
  rw [hvalue]
  exact .assign hop

/-- The index `0` leaves `a` as it is, so that both forms touch the same element. -/
theorem element_update_and_assignment_first : ∃ (typed typed' : Typed) (c₁ c₂ : ScopeChain)
    (origin origin' : Source),
    typed.code = [.pushInt 0, .storeLocal 0, .loadStatic 0, .loadLocal 0, .loadStatic 0, .loadLocal 0,
      .loadElem .int, .pushInt 5, .add, .storeElem .int] ∧
    typed'.code = [.loadStatic 0, .pushInt 0, .pushInt 7, .storeElem .int] ∧
    ∀ (stack : List Int) (m : Memory Int (Int → Int)),
      Option.Rel (BehindStore (Taken [] scopesWithArrays c₁) false stack)
        (arrayMachine.run [] typed.code ⟨stack, m⟩)
        (arrayMachine.storeAt .empty .int (some .add)
          (arrayMachine.source .empty scopesWithArrays.resolve? origin) (m.cell ⟨.static, 0⟩) 0 m) ∧
      Option.Rel (BehindStore (Taken [] scopesWithArrays c₂) false stack)
        (arrayMachine.run [] typed'.code ⟨stack, m⟩)
        (arrayMachine.storeAt .empty .int none
          (arrayMachine.source .empty scopesWithArrays.resolve? origin') (m.cell ⟨.static, 0⟩) 0 m) := by
  have hupdated : storesFirst "a[0] += 5" "+=" [.pushInt 0, .storeLocal 0, .loadStatic 0, .loadLocal 0,
      .loadStatic 0, .loadLocal 0, .loadElem .int, .pushInt 5, .add, .storeElem .int] = true := by
    decide +kernel
  have hassigned : storesFirst "a[0] = 7" "=" [.loadStatic 0, .pushInt 0, .pushInt 7, .storeElem .int] = true := by
    decide +kernel
  obtain ⟨parsed, origin, typed, c₁, hparsed, hupdate, hcode, heq⟩ := exists_of_storesFirst hupdated rfl
  obtain ⟨parsed', origin', typed', c₂, hparsed', hassign, hcode', heq'⟩ := exists_of_storesFirst hassigned rfl
  refine ⟨typed, typed', c₁, c₂, origin, origin', heq, heq', fun stack m => ?_⟩
  obtain ⟨symbol, element, hsymbol, isArray, hruns⟩ :=
    element_update_and_assignment arrayMachine .empty reachable_scopesWithArrays hparsed hparsed' hupdate
      hassign hcode hcode' (arrayMachine_ignores _) (arrayMachine_ignores _)
  cases hsymbol
  cases isArray
  exact (hruns stack m).2 0 m rfl

/-- A machine with arrays of one int each. A value is an int or the number of an array; the world holds
the elements. -/
def shortArrays : Interpretation Int (Int → Int) where
  int n := n.toInt
  bool b := if b then 1 else 0
  char c := c.toNat
  string text := text.length
  act instr operands g :=
    match instr, operands with
    | .add, [a, b] => some (a + b, g)
    | .sub, [a, b] => some (a - b, g)
    | .length, [_] => some (1, g)
    | .loadElem _, [array, 0] => some (g.world array, g)
    | .storeElem _, [array, 0, v] =>
      some (v, { g with world := fun other => if other = array then v else g.world other })
    | _, _ => none
  truth v := some (v ≠ 0)

def memoryWithArrays : Memory Int (Int → Int) :=
  ⟨⟨fun slot => slot + 1, fun _ => 0⟩, fun _ => 0, fun _ => 0⟩

def elementsBehind (source : String) : Option (Int × Int) :=
  match Grammar.expression true (tokenize source) with
  | .ok (some parsed) =>
    match Lowering.store .empty false parsed.value scopesWithArrays with
    | .ok typed _ => (shortArrays.run [] typed.code ⟨[], memoryWithArrays⟩).map fun s =>
      (s.memory.globals.world 1, s.memory.globals.world 2)
    | .error _ _ => none
  | _ => none

/-- The index is zero and makes `b` of `a` on the way. The assignment stores into the array that `a` was
before, the update into the one that it is then. -/
theorem element_update_elsewhere :
    elementsBehind "a[*(a = b) - 1] = 5" = some (5, 0) ∧
      elementsBehind "a[*(a = b) - 1] += 5" = some (0, 5) := by
  decide +kernel

end StackCompiler
