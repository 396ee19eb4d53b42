import Mathlib.Logic.Relation
import StackCompiler.Proofs.Grammar.ProgramSoundness
import StackCompiler.Proofs.Lowering.StaticSetup

/-!
Calls in the setup of static variables. The setups stand in the order of the source, and each calls only
what its initializer calls. So a `static` variable of a function is set up before the function can run,
unless an initializer up to its own calls a function that leads there.
-/

set_option autoImplicit false
namespace StackCompiler

open Lowering ScopeChain

/-- One function of an image calls another, both given by their positions. -/
def Image.Calls (image : Image) (caller callee : Nat) : Prop :=
  ∃ g, image.functions[caller]? = some g ∧ Instr.call callee ∈ g.code

/-- A chain of calls leads from one function to another; every function leads to itself. -/
def Image.Reaches (image : Image) : Nat → Nat → Prop :=
  Relation.ReflTransGen image.Calls

@[simp] theorem call_ne_load (handle : Nat) (place : Place) : Instr.call handle ≠ Instr.load place := by
  obtain ⟨storage, slot⟩ := place
  cases storage <;> simp [Instr.load]

@[simp] theorem call_ne_store (handle : Nat) (place : Place) : Instr.call handle ≠ Instr.store place := by
  obtain ⟨storage, slot⟩ := place
  cases storage <;> simp [Instr.store]

namespace Lowering

def isCallOf (name : String) (t : Tree) : Bool :=
  t.tag == .call && t.token.any fun token => token.lexeme == name

def CallsIn (table : FunctionTable) (trees : List Tree) (handle : Nat) : Prop :=
  ∃ name signature, table.lookup? name = some signature ∧ signature.handle = handle ∧
    ∃ t ∈ trees, t.any (isCallOf name) = true

variable {table : FunctionTable} {handle : Nat} {code : Code} {ty : Ty} {c c' : ScopeChain}

theorem CallsIn.mono {trees more : List Tree} (h : CallsIn table trees handle)
    (hsubset : ∀ t ∈ trees, t ∈ more) : CallsIn table more handle := by
  obtain ⟨name, signature, hlookup, hhandle, t, ht, hany⟩ := h
  exact ⟨name, signature, hlookup, hhandle, t, hsubset t ht, hany⟩

theorem CallsIn.parent {trees : List Tree} {u : Tree} (h : CallsIn table trees handle)
    (hsubset : ∀ t ∈ trees, t ∈ u.children) : CallsIn table [u] handle := by
  obtain ⟨name, signature, hlookup, hhandle, t, ht, hany⟩ := h
  exact ⟨name, signature, hlookup, hhandle, u, by simp, Tree.any_child (hsubset t ht) hany⟩

theorem call_ne_binaryInstr {word : String} {instr : Instr} (h : binaryInstr? word = some instr) :
    Instr.call handle ≠ instr := by
  rintro rfl
  unfold binaryInstr? at h
  split at h <;> cases h

theorem call_ne_unaryOperator {t : Tree} {operand : OperandType} {instr : Instr}
    (h : unaryOperator t operand = .ok instr) : Instr.call handle ≠ instr := by
  rintro rfl
  unfold unaryOperator at h
  obtain ⟨word, -, h⟩ := Grammar.bind_eq_ok.1 h
  split at h
  next =>
    obtain ⟨-, -, h⟩ := Grammar.bind_eq_ok.1 h
    cases h
  next =>
    obtain ⟨-, -, h⟩ := Grammar.bind_eq_ok.1 h
    cases h
  next => split at h <;> cases h
  next => cases h

theorem call_mem_boxed (h : Instr.call handle ∈ boxed ty code) : Instr.call handle ∈ code := by
  unfold boxed at h
  split at h
  next => exact h
  next => simpa using h

theorem call_not_mem_storeElement {element : Ty} {keep : Bool}
    (h : Target.storeElement element keep c = .ok code c') : Instr.call handle ∉ code := by
  rcases storeElement_ok h with ⟨-, rfl, -⟩ | ⟨-, temp, -, rfl⟩ <;> simp

/-- A store calls what its index and its value call. -/
theorem call_mem_assign {r : Target} {value : Code} {op : Option Instr} {keep : Bool}
    (hassign : r.assign value op keep c = .ok code c') (storing : Storing op ty)
    (h : Instr.call handle ∈ code) :
    Instr.call handle ∈ value ∨ ∃ index, r.index = some index ∧ Instr.call handle ∈ index := by
  have hop : ∀ instr, op = some instr → Instr.call handle ≠ instr := by
    rintro instr hinstr rfl
    simpa using (storing _ hinstr).2
  obtain ⟨place, element, index⟩ := r
  cases index with
  | none =>
    obtain ⟨-, rfl⟩ := assign_variable_ok hassign
    refine .inl ?_
    cases op with
    | none => cases keep <;> simpa [updated] using h
    | some instr => cases keep <;> simpa [updated, hop] using h
  | some position =>
    rcases assign_element_ok hassign with ⟨-, finish, hfinish, rfl⟩ |
      ⟨instr, temp, c₁, finish, rfl, -, hfinish, rfl⟩
    · have hmem : Instr.call handle ∈ position ∨ Instr.call handle ∈ value := by
        simpa [call_not_mem_storeElement hfinish] using h
      exact hmem.symm.imp_right fun hmem => ⟨position, rfl, hmem⟩
    · have hmem : Instr.call handle ∈ position ∨ Instr.call handle ∈ value := by
        simpa [call_not_mem_storeElement hfinish, hop] using h
      exact hmem.symm.imp_right fun hmem => ⟨position, rfl, hmem⟩

/-- Every call in the code of an expression is a call in its tree. -/
theorem Lowers.calls {form : Form} (h : Lowers table form c ty code c')
    (hmem : Instr.call handle ∈ code) : CallsIn table form.trees handle := by
  induction h with
  | constant hliteral =>
    rcases literal_ok hliteral with ⟨_, rfl, -⟩ | ⟨_, rfl, -⟩ | ⟨_, rfl, -⟩ | ⟨_, rfl, -⟩ <;> simp at hmem
  | «variable» => simp at hmem
  | element _ _ _ ih => exact (ih (by simpa using hmem)).parent (by simp [Form.trees, Tree.marked])
  | paren _ ih => exact (ih hmem).parent (by simp [Form.trees, Tree.marked])
  | chain _ _ first rest =>
    rcases List.mem_append.1 hmem with hmem | hmem
    · exact (first hmem).parent (by simp [Form.trees, Tree.inner])
    · exact (rest hmem).parent (by simp +contextual [Form.trees, Tree.inner])
  | noLinks | noArguments | noPrinted | noFilled | one | input => simp at hmem
  | link _ hop _ _ first rest =>
    rcases List.mem_append.1 hmem with hmem | hmem
    · exact (first hmem).mono (by simp [Form.trees])
    · rw [List.mem_cons] at hmem
      exact (rest (hmem.resolve_left (call_ne_binaryInstr hop))).mono (by simp +contextual [Form.trees])
  | @compare _ _ _ _ _ left right _ _ _ hop _ _ _ first second =>
    have hmem : Instr.call handle ∈ left ∨ Instr.call handle ∈ right := by
      simpa [call_ne_binaryInstr hop] using hmem
    rcases hmem with hmem | hmem
    · exact (first hmem).parent (by simp [Form.trees, Tree.inner])
    · exact (second hmem).parent (by simp [Form.trees, Tree.inner])
  | negate _ ih => exact (ih (by simpa using hmem)).parent (by simp [Form.trees, Tree.marked])
  | unary hop _ ih =>
    exact (ih (by simpa [call_ne_unaryOperator hop] using hmem)).parent (by simp [Form.trees, Tree.marked])
  | @call name args signature code c c' _ hlookup _ _ ih =>
    rcases List.mem_append.1 hmem with hmem | hmem
    · exact (ih hmem).parent (by simp [Form.trees, Tree.marked])
    · cases List.mem_singleton.1 hmem
      refine ⟨name.lexeme, signature, hlookup, rfl, _, List.mem_singleton_self _, Tree.any_root ?_⟩
      simp [isCallOf, Tree.marked]
  | print _ _ _ ih =>
    rcases List.mem_append.1 hmem with hmem | hmem
    · exact (ih (call_mem_boxed hmem)).parent (by simp [Form.trees, Tree.marked])
    · simp at hmem
  | @printFormatted _ _ _ _ format values _ _ _ _ _ _ first rest =>
    have hmem : Instr.call handle ∈ format ∨ Instr.call handle ∈ values := by simpa using hmem
    rcases hmem with hmem | hmem
    · exact (first hmem).parent (by simp [Form.trees, Tree.marked])
    · exact (rest hmem).parent (by simp +contextual [Form.trees, Tree.marked])
  | put _ _ _ ih => exact (ih hmem).parent (by simp [Form.trees, Tree.marked])
  | kept _ ih | value _ ih => exact ih hmem
  | assign _ _ ih => exact (ih hmem).parent (by simp [Form.trees, Source.trees, Tree.marked])
  | step _ _ ih => exact (ih hmem).parent (by simp [Form.trees, Source.trees, Tree.marked])
  | storeVariable _ storing _ hassign ih =>
    rcases call_mem_assign hassign storing hmem with hmem | ⟨index, hindex, -⟩
    · exact (ih hmem).mono (by simp +contextual [Form.trees])
    · cases hindex
  | @storeElement _ _ name position _ _ _ _ _ _ _ _ _ _ _ _ storing _ _ hassign index value =>
    rcases call_mem_assign hassign storing hmem with hmem | ⟨found, hindex, hmem⟩
    · exact (value hmem).mono (by simp +contextual [Form.trees])
    · cases hindex
      have htarget : CallsIn table [Tree.marked .mutable name [position]] handle :=
        (index hmem).parent (by simp [Form.trees, Tree.marked])
      exact htarget.mono (by simp [Form.trees])
  | argument _ _ first rest | filled _ _ first rest =>
    rcases List.mem_append.1 hmem with hmem | hmem
    · exact (first hmem).mono (by simp [Form.trees, Source.trees])
    · exact (rest hmem).mono (by simp +contextual [Form.trees])
  | printed _ _ _ first rest =>
    rcases List.mem_append.1 hmem with hmem | hmem
    · exact (first (call_mem_boxed hmem)).mono (by simp [Form.trees])
    · exact (rest hmem).mono (by simp +contextual [Form.trees])

/-- An initial value calls only what the initializer calls. -/
theorem SetsUp.calls {i : Installation} (h : SetsUp table i) (hmem : Instr.call handle ∈ i.setup.initial) :
    ∃ init, i.var.initializer? = some init ∧ CallsIn table [init] handle := by
  obtain ⟨params, base, -, -, hrun⟩ := h.lowered
  rcases declarator_initial h.isDeclarator hrun with ⟨-, hempty⟩ | ⟨init, c₁, hinit, hlowers, -⟩
  · rw [hempty] at hmem
    cases hmem
  · exact ⟨init, hinit, hlowers.calls hmem⟩

end Lowering

/-- No initializer of these variables calls a function that leads to function `i`. -/
def Image.NotReachedBy (image : Image) (i : Nat) (vs : List StaticVariable) : Prop :=
  ∀ v ∈ vs, ∀ init, v.initializer? = some init → ∀ j g, image.functions[j]? = some g →
    init.any (isCallOf g.signature.name) = true → ¬image.Reaches j i

theorem Image.NotReachedBy.callsIn {image : Image} {table : FunctionTable} {i handle : Nat}
    {vs : List StaticVariable} {v : StaticVariable} {init : Tree} (h : image.NotReachedBy i vs)
    (htable : table.Sound) (hfunctions : table.signatures = image.functions.map Routine.signature)
    (hv : v ∈ vs) (hinit : v.initializer? = some init) (hcalls : CallsIn table [init] handle) :
    ¬image.Reaches handle i := by
  obtain ⟨name, signature, hlookup, rfl, t, ht, hany⟩ := hcalls
  rw [List.mem_singleton.1 ht] at hany
  have hentry := htable.getElem_handle hlookup
  rw [hfunctions, List.getElem?_map, Option.map_eq_some_iff] at hentry
  obtain ⟨g, hg, rfl⟩ := hentry
  have hname : g.signature.name = name := by simpa using List.find?_some hlookup
  rw [← hname] at hany
  exact h v hv init hinit _ g hg hany

/-- The setup of a variable stands behind what the variables before it install and before what those behind
it install, and it stores to the slot that its declarator takes behind theirs. -/
structure SetUpAt (table : FunctionTable) (image : Image) (before after : List StaticVariable)
    (part : StaticPart) (i : Installation) : Prop where
  setsUp : SetsUp table i
  earlier : InstallsAll table before .empty part
  slots : i.before.statics = part.slots
  later : ∃ total, InstallsAll table after (part.install i) total ∧ image.statics = total.slots ∧
    image.staticInit = total.code.code
  code : ∃ more, image.staticInit = part.code.code ++ i.setup.code part.code.nextLabel ++ more
  own : ∃ slot, OwnSlot image.statics i slot

theorem setUpAt_of_installs {table : FunctionTable} {image : Image} {installed : List Installation}
    {total : StaticPart} {before after : List StaticVariable} {v : StaticVariable}
    (hvariables : installed.map Installation.var = before ++ v :: after)
    (hinstalls : Installs table installed .empty total) (hstatics : image.statics = total.slots)
    (hcode : image.staticInit = total.code.code) :
    ∃ part i, i.var = v ∧ SetUpAt table image before after part i := by
  obtain ⟨earlier, rest, rfl, hearlier, hrest⟩ := List.map_eq_append_iff.1 hvariables
  obtain ⟨i, later, rfl, hvar, hlater⟩ := List.map_eq_cons_iff.1 hrest
  obtain ⟨part, hbefore, hsetup, hslots, hafter⟩ := hinstalls.split
  obtain ⟨more, hmore⟩ := hafter.code_front
  have hbehind : i.behind.statics <+: image.statics := by
    rw [hstatics]
    exact hafter.slots_front
  exact ⟨part, i, hvar, hsetup, ⟨earlier, hearlier, hbefore⟩, hslots,
    ⟨total, ⟨later, hlater, hafter⟩, hstatics, hcode⟩, ⟨more, hcode.trans hmore.symm⟩, hsetup.ownSlot hbehind⟩

/-- The calls up to the end of a setup are calls in the initializers up to its own. -/
theorem SetUpAt.before_calls {table : FunctionTable} {image : Image} {before after : List StaticVariable}
    {part : StaticPart} {i : Installation} {k p q handle : Nat} (h : SetUpAt table image before after part i)
    (htable : table.Sound) (hfunctions : table.signatures = image.functions.map Routine.signature)
    (hnone : image.NotReachedBy k (before ++ [i.var]))
    (hp : p < part.code.code.length + (i.setup.code part.code.nextLabel).length)
    (hq : image.staticInit[q]? = some (.call handle)) (hreaches : image.Reaches handle k) : p < q := by
  refine Nat.lt_of_not_le fun hle => ?_
  obtain ⟨earlier, rfl, hearlier⟩ := h.earlier
  obtain ⟨more, hcode⟩ := h.code
  rw [hcode, List.getElem?_append_left (by rw [List.length_append]; omega)] at hq
  have hboth : Installs table (earlier ++ [i]) .empty (part.install i) :=
    hearlier.append (.next h.setsUp h.slots .done)
  rcases hboth.mem_code rfl (List.mem_of_getElem? hq) with hmem | ⟨j, hj, hmem⟩
  · cases hmem
  · obtain ⟨init, hinit, hcalls⟩ := (hboth.setsUp hj).calls hmem
    have hvar : j.var ∈ earlier.map Installation.var ++ [i.var] := by
      simpa using List.mem_map_of_mem hj
    exact hnone.callsIn htable hfunctions hvar hinit hcalls hreaches

/-- The static variables are set up in the order of the source, each in slots of its own. If no initializer
up to that of `v` calls a function that leads to the function `k`, the whole setup of `v` stands before every
call that does. -/
theorem static_variable_set_up {source : String} {image : Image} (h : compile source = .ok image) :
    ∃ program table, parse source = .ok program ∧
      table.signatures = image.functions.map Routine.signature ∧
      ∀ before v after, staticVariables program = before ++ v :: after →
        ∃ part i, i.var = v ∧ SetUpAt table image before after part i ∧
          ∀ k, image.NotReachedBy k (before ++ [v]) →
            ∀ p q handle, p < part.code.code.length + (i.setup.code part.code.nextLabel).length →
              image.staticInit[q]? = some (.call handle) → image.Reaches handle k → p < q := by
  obtain ⟨program, s, hparse, hcompile⟩ := Session.compile_ok h
  obtain ⟨table, installed, total, htable, hfunctions, hvariables, hinstalls, hstatics, hcode⟩ :=
    image_installs (Grammar.derives_of_parse hparse) hcompile
  refine ⟨program, table, hparse, hfunctions, ?_⟩
  intro before v after hsplit
  rw [hsplit] at hvariables
  obtain ⟨part, i, rfl, hsetup⟩ := setUpAt_of_installs hvariables hinstalls hstatics hcode
  exact ⟨part, i, rfl, hsetup, fun k hnone p q handle hp hq hreaches =>
    hsetup.before_calls htable.sound hfunctions hnone hp hq hreaches⟩

/-- The `static` variable of `f` is declared before the initializer that calls `f`. -/
theorem static_variable_set_up_before_call : ∃ image,
    compile "int f() \x7b static int s : 3; return s; \x7d int x : f();" = .ok image ∧
      Instr.call 0 ∈ image.staticInit ∧
      ∃ table after part i, i.var.owner.isSome ∧ SetUpAt table image [] after part i ∧
        ∀ p q handle, p < part.code.code.length + (i.setup.code part.code.nextLabel).length →
          image.staticInit[q]? = some (.call handle) → image.Reaches handle 0 → p < q := by
  have hrun : (parse "int f() \x7b static int s : 3; return s; \x7d int x : f();").toOption.any (fun program =>
      (compile "int f() \x7b static int s : 3; return s; \x7d int x : f();").toOption.any fun image =>
        decide (Instr.call 0 ∈ image.staticInit) &&
          (staticVariables program).head?.any fun v => v.owner.isSome && v.initializer?.all fun init =>
            image.functions.all fun g => !init.any (isCallOf g.signature.name)) = true := by decide +kernel
  obtain ⟨program, hparse, hrun⟩ := ok_of_any hrun
  obtain ⟨image, hcompile, hrun⟩ := ok_of_any hrun
  rw [Bool.and_eq_true, decide_eq_true_eq] at hrun
  obtain ⟨hcall, hrun⟩ := hrun
  obtain ⟨v, hv, hrun⟩ := (Option.any_eq_true _ _).1 hrun
  obtain ⟨after, hvariables⟩ := List.head?_eq_some_iff.1 hv
  obtain ⟨howner, hinitializer⟩ := Bool.and_eq_true_iff.1 hrun
  obtain ⟨program', table, hparse', -, hsetups⟩ := static_variable_set_up hcompile
  cases hparse.symm.trans hparse'
  obtain ⟨part, i, rfl, hsetup, hbefore⟩ := hsetups [] v after hvariables
  refine ⟨image, hcompile, hcall, table, after, part, i, howner, hsetup, hbefore 0 ?_⟩
  intro w hw init hinit j g hg hany
  cases List.mem_singleton.1 hw
  rw [hinit] at hinitializer
  have hnone := List.all_eq_true.1 hinitializer g (List.mem_of_getElem? hg)
  simp [hany] at hnone

/-- The initializer of `x` calls `f` before the `static` variable of `f` is set up. -/
theorem called_before_set_up : ∃ image, compile "int x : f(); int f() \x7b static int s : 3; return s; \x7d" =
    .ok image ∧ image.staticInit = [.call 0, .storeStatic 0, .pushInt 3, .storeStatic 1] ∧
      image.Reaches 0 0 := by
  have hrun : (match compile "int x : f(); int f() \x7b static int s : 3; return s; \x7d" with
      | .ok image => decide (image.staticInit = [.call 0, .storeStatic 0, .pushInt 3, .storeStatic 1])
      | .error _ => false) = true := by decide +kernel
  split at hrun
  next image hcompile => exact ⟨image, hcompile, of_decide_eq_true hrun, .refl⟩
  next => cases hrun

end StackCompiler
