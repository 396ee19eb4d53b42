import StackCompiler.Proofs.Lowering.FormRuns
import StackCompiler.Proofs.Lowering.StaticOrder
import StackCompiler.Proofs.Renaming.Scopes

/-!
Expressions under renaming. Two things change at once: the names of variables, and the handles under
which the table has its functions. The code of a renamed expression is that of the expression, up to the
handles in its calls.
-/

set_option autoImplicit false
namespace StackCompiler

namespace Instr

def renumber (f : Nat → Nat) : Instr → Instr
  | call handle => call (f handle)
  | instr => instr

@[simp] theorem renumber_call (f : Nat → Nat) (handle : Nat) : (call handle).renumber f = call (f handle) := rfl

@[simp] theorem renumber_of_ne {f : Nat → Nat} {instr : Instr} (h : ∀ handle, call handle ≠ instr) :
    instr.renumber f = instr := by
  cases instr with
  | call handle => exact absurd rfl (h handle)
  | _ => rfl

@[simp] theorem readsFrame_renumber (f : Nat → Nat) (instr : Instr) :
    (instr.renumber f).readsFrame = instr.readsFrame := by
  cases instr <;> rfl

end Instr

/-- The second table has the functions of the first under other handles. -/
structure Renumbering (table table' : FunctionTable) where
  handle : Nat → Nat
  lookup : ∀ {name : String} {signature : Signature}, table.lookup? name = some signature →
    table'.lookup? name = some { signature with handle := handle signature.handle }

namespace Renumbering

variable {table table' : FunctionTable}

def refl (table : FunctionTable) : Renumbering table table :=
  ⟨id, id⟩

def code (ρ : Renumbering table table') (code : Code) : Code :=
  code.map (Instr.renumber ρ.handle)

variable (ρ : Renumbering table table')

@[simp] theorem code_nil : ρ.code [] = [] := rfl

@[simp] theorem code_cons (instr : Instr) (code : Code) :
    ρ.code (instr :: code) = instr.renumber ρ.handle :: ρ.code code := rfl

@[simp] theorem code_append (first second : Code) :
    ρ.code (first ++ second) = ρ.code first ++ ρ.code second :=
  List.map_append ..

@[simp] theorem code_refl (code : Code) : (refl table).code code = code := by
  have hinstr : Instr.renumber id = id := by
    funext instr
    cases instr <;> rfl
  rw [Renumbering.code, refl, hinstr, List.map_id]

end Renumbering

namespace Tree

variable (r : Renaming) (b : Bindings)

@[simp] theorem renameUsesIn_nil : renameUsesIn r b [] = [] := rfl

@[simp] theorem renameUsesIn_cons (t : Tree) (ts : List Tree) :
    renameUsesIn r b (t :: ts) = t.renameUses r b :: renameUsesIn r b ts := rfl

@[simp] theorem renameUsesIn_length (ts : List Tree) : (renameUsesIn r b ts).length = ts.length := by
  induction ts with
  | nil => rfl
  | cons t rest ih => exact congrArg (· + 1) ih

@[simp] theorem renameUses_inner (tag : Tag) (children : List Tree) :
    (inner tag children).renameUses r b = inner tag (renameUsesIn r b children) := by
  simp [inner, renameUses]

@[simp] theorem renameUses_mutable (name : Token) (children : List Tree) :
    (marked .mutable name children).renameUses r b =
      marked .mutable (r.useToken b name) (renameUsesIn r b children) := rfl

@[simp] theorem renameUses_marked {tag : Tag} (htag : tag ≠ .mutable) (token : Token) (children : List Tree) :
    (marked tag token children).renameUses r b = marked tag token (renameUsesIn r b children) := by
  simp [marked, renameUses, htag]

end Tree

namespace Lowering

variable {table table' : FunctionTable} {ρ : Renumbering table table'} {r : Renaming} {b : Bindings}
  {c c' : ScopeChain}

def Source.renameUses (r : Renaming) (b : Bindings) : Source → Source
  | .value t => .value (t.renameUses r b)
  | .one => .one
  | .input ty => .input ty

def Form.renameUses (r : Renaming) (b : Bindings) : Form → Form
  | .value t => .value (t.renameUses r b)
  | .stored keep t => .stored keep (t.renameUses r b)
  | .store keep op target origin => .store keep op (target.renameUses r b) (origin.renameUses r b)
  | .source origin => .source (origin.renameUses r b)
  | .links level ts => .links level (Tree.renameUsesIn r b ts)
  | .arguments types ts => .arguments types (Tree.renameUsesIn r b ts)
  | .printed ts => .printed (Tree.renameUsesIn r b ts)
  | .filled ts => .filled (Tree.renameUsesIn r b ts)

/-! Stores. -/

theorem renumber_binaryInstr {f : Nat → Nat} {word : String} {instr : Instr}
    (h : binaryInstr? word = some instr) : instr.renumber f = instr :=
  Instr.renumber_of_ne fun _ => call_ne_binaryInstr h

theorem renumber_unaryOperator {f : Nat → Nat} {t : Tree} {operand : OperandType} {instr : Instr}
    (h : unaryOperator t operand = .ok instr) : instr.renumber f = instr :=
  Instr.renumber_of_ne fun _ => call_ne_unaryOperator h

theorem renumber_literal {f : Nat → Nat} {token : Token} {push : Instr} {ty : Ty}
    (h : literal? token = some (push, ty)) : push.renumber f = push := by
  rcases literal_ok h with ⟨_, rfl, -⟩ | ⟨_, rfl, -⟩ | ⟨_, rfl, -⟩ | ⟨_, rfl, -⟩ <;> rfl

theorem Storing.renumber {f : Nat → Nat} {op : Option Instr} {ty : Ty} (h : Storing op ty) :
    ∀ instr ∈ op, instr.renumber f = instr := by
  intro instr hinstr
  obtain ⟨-, hmem⟩ := h instr hinstr
  simp only [List.mem_cons, List.not_mem_nil, or_false] at hmem
  rcases hmem with rfl | rfl | rfl | rfl <;> rfl

theorem code_boxed (ty : Ty) (code : Code) : ρ.code (boxed ty code) = boxed ty (ρ.code code) := by
  unfold boxed
  split
  next => rfl
  next => exact ρ.code_append code [.box ty]

theorem reserveTemp_renamed (hb : r.Follows b c) {ty : Ty} {temp : Place}
    (h : c.reserveTemp ty = (temp, c')) : (r.chain b c).reserveTemp ty = (temp, r.chain b c') := by
  rw [Renaming.chain_reserveTemp hb, h]

variable (ρ : Renumbering table table')

theorem storeElement_renamed (hb : r.Follows b c) {element : Ty} {keep : Bool} {code : Code}
    (h : Target.storeElement element keep c = .ok code c') :
    Target.storeElement element keep (r.chain b c) = .ok (ρ.code code) (r.chain b c') := by
  rcases storeElement_ok h with ⟨rfl, rfl, rfl⟩ | ⟨rfl, temp, htemp, rfl⟩
  · rfl
  · simp only [Target.storeElement, if_true, bind_ok, pure_ok]
    exact ⟨temp, _, modifyGet_ok.2 (reserveTemp_renamed hb htemp), by simp, rfl⟩

theorem assign_renamed (hb : r.Follows b c) {place : Place} {element : Ty} {index : Option Code}
    {value code : Code} {op : Option Instr} {ty : Ty} {keep : Bool} (storing : Storing op ty)
    (h : Target.assign ⟨place, element, index⟩ value op keep c = .ok code c') :
    Target.assign ⟨place, element, index.map ρ.code⟩ (ρ.code value) op keep (r.chain b c) =
      .ok (ρ.code code) (r.chain b c') := by
  cases index with
  | none =>
    obtain ⟨rfl, rfl⟩ := assign_variable_ok h
    cases op with
    | none => cases keep <;> simp [Target.assign, updated, pure_ok]
    | some instr => cases keep <;> simp [Target.assign, updated, pure_ok, storing.renumber instr rfl]
  | some position =>
    rcases assign_element_ok h with ⟨rfl, finish, hfinish, rfl⟩ |
      ⟨instr, temp, c₁, finish, rfl, htemp, hfinish, rfl⟩
    · simp only [Target.assign, Option.map_some, bind_ok, pure_ok]
      exact ⟨_, _, storeElement_renamed ρ hb hfinish, by simp, rfl⟩
    · have hb₁ : r.Follows b c₁ := hb.temps (temps_reserveTemp htemp)
      have htemp' := reserveTemp_renamed hb htemp
      simp only [Target.assign, Option.map_some, bind_ok, pure_ok]
      exact ⟨temp, _, modifyGet_ok.2 htemp', _, _, storeElement_renamed ρ hb₁ hfinish,
        by simp [storing.renumber instr rfl], rfl⟩

/-- The rules for a form hold of the renamed form, in the renamed scopes. -/
theorem Lowers.renamed {form : Form} {ty : Ty} {code : Code} (h : Lowers table form c ty code c')
    (ρ : Renumbering table table') (hb : r.Follows b c) :
    Lowers table' (form.renameUses r b) (r.chain b c) ty (ρ.code code) (r.chain b c') := by
  induction h with
  | constant hliteral =>
    simpa [Form.renameUses, renumber_literal hliteral] using Lowers.constant hliteral
  | @«variable» name symbol c hfound =>
    obtain ⟨found, hfound', hty, hplace⟩ := hb.resolve hfound
    have hlowers := @Lowers.variable table' (r.useToken b name) found (r.chain b c) hfound'
    simpa [Form.renameUses, hty, hplace] using hlowers
  | @element name index symbol element code c c' hfound isArray position ih =>
    obtain ⟨found, hfound', hty, hplace⟩ := hb.resolve hfound
    have hlowers := @Lowers.element table' (r.useToken b name) _ found element _ _ _ hfound' (hty.trans isArray)
      (ih hb)
    simpa [Form.renameUses, hplace] using hlowers
  | paren _ ih => simpa [Form.renameUses] using Lowers.paren (ih hb)
  | @chain level first links code more c c₁ c' operand rest ih ih' =>
    have hlowers := Lowers.chain (ih hb) (ih' (hb.temps operand.temps))
    simpa [Form.renameUses] using hlowers
  | noLinks => exact .noLinks
  | link isOp hop operand rest ih ih' =>
    have hlowers := Lowers.link isOp hop (ih hb) (ih' (hb.temps operand.temps))
    simpa [Form.renameUses, renumber_binaryInstr hop] using hlowers
  | compare hop defined first second ih ih' =>
    have hlowers := Lowers.compare hop defined (ih hb) (ih' (hb.temps first.temps))
    simpa [Form.renameUses, renumber_binaryInstr hop] using hlowers
  | negate _ ih => simpa [Form.renameUses] using Lowers.negate (ih hb)
  | @unary op t instr ty code c c' hop operand ih =>
    have hlowers := @Lowers.unary table' op (t.renameUses r b) _ _ _ _ _ hop (ih hb)
    simpa [Form.renameUses, renumber_unaryOperator hop] using hlowers
  | @call name args signature code c c' plain hlookup count inner ih =>
    have hlowers := @Lowers.call table' name (Tree.renameUsesIn r b args) _ _ _ _ plain (ρ.lookup hlookup)
      (by simpa using count) (ih hb)
    simpa [Form.renameUses] using hlowers
  | print isPrint scalar _ ih =>
    simpa [Form.renameUses, code_boxed] using Lowers.print isPrint scalar (ih hb)
  | printFormatted isPrint format values ih ih' =>
    have hlowers := Lowers.printFormatted isPrint (ih hb) (ih' (hb.temps format.temps))
    simpa [Form.renameUses] using hlowers
  | @put name args code c c' isPut nonempty _ ih =>
    have hnonempty : Tree.renameUsesIn r b args ≠ [] := by
      rwa [← List.length_pos_iff, Tree.renameUsesIn_length, List.length_pos_iff]
    have hlowers := Lowers.put isPut hnonempty (ih hb)
    simpa [Form.renameUses] using hlowers
  | kept _ ih => exact .kept (ih hb)
  | @assign keep op target value instr ty code c c' hop _ ih =>
    have hlowers := @Lowers.assign table' keep op (target.renameUses r b) (value.renameUses r b) _ _ _ _ _ hop
      (ih hb)
    simpa [Form.renameUses] using hlowers
  | @step keep op target instr code c c' hop _ ih =>
    have hlowers := @Lowers.step table' keep op (target.renameUses r b) _ _ _ _ hop (ih hb)
    simpa [Form.renameUses] using hlowers
  | @storeVariable keep op name symbol origin value code c c₁ c' hfound storing inner hassign ih =>
    obtain ⟨found, hfound', hty, hplace⟩ := hb.resolve hfound
    have hassign' := assign_renamed ρ (hb.temps inner.temps) storing hassign
    simp only [← hty, ← hplace] at storing ih hassign' ⊢
    have hlowers := @Lowers.storeVariable table' keep op (r.useToken b name) found _ _ _ _ _ _ hfound' storing
      (ih hb) hassign'
    simpa [Form.renameUses] using hlowers
  | @storeElement keep op name index symbol element origin position value code c c₁ c₂ c' hfound isArray storing
      outer inner hassign ih ih' =>
    obtain ⟨found, hfound', hty, hplace⟩ := hb.resolve hfound
    have hb₁ := hb.temps outer.temps
    have hassign' := assign_renamed ρ (hb₁.temps inner.temps) storing hassign
    rw [← hplace] at hassign'
    have hlowers := @Lowers.storeElement table' keep op (r.useToken b name) _ found element _ _ _ _ _ _ _ _
      hfound' (hty.trans isArray) storing (ih hb) (ih' hb₁) hassign'
    simpa [Form.renameUses] using hlowers
  | value _ ih => exact .value (ih hb)
  | one => exact .one
  | input scalar => exact .input scalar
  | noArguments => exact .noArguments
  | argument first rest ih ih' =>
    simpa [Form.renameUses] using Lowers.argument (ih hb) (ih' (hb.temps first.temps))
  | noPrinted => exact .noPrinted
  | printed scalar first rest ih ih' =>
    simpa [Form.renameUses, code_boxed] using Lowers.printed scalar (ih hb) (ih' (hb.temps first.temps))
  | noFilled => exact .noFilled
  | filled first rest ih ih' =>
    simpa [Form.renameUses] using Lowers.filled (ih hb) (ih' (hb.temps first.temps))

end Lowering

end StackCompiler
