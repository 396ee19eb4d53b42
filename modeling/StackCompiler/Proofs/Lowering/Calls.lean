import Mathlib.Data.List.Forall2
import StackCompiler.Proofs.Lowering.StaticOrder

/-!
Calls in code and calls in trees. The code of an expression has one call instruction for each call of a
declared function in its tree, though not in the same order: the arguments come first.
-/

set_option autoImplicit false
namespace StackCompiler

/-! Calls in code. -/

namespace Instr

def callee? : Instr → Option Nat
  | call handle => some handle
  | _ => none

@[simp] theorem callee_call (handle : Nat) : (call handle).callee? = some handle := rfl

@[simp] theorem callee_of_ne {instr : Instr} (h : ∀ handle, call handle ≠ instr) : instr.callee? = none := by
  cases instr with
  | call handle => exact absurd rfl (h handle)
  | _ => rfl

end Instr

def callees (code : Code) : List Nat :=
  code.filterMap Instr.callee?

@[simp] theorem callees_nil : callees [] = [] := rfl

@[simp] theorem callees_cons (instr : Instr) (code : Code) :
    callees (instr :: code) = instr.callee?.toList ++ callees code := by
  rw [callees, List.filterMap_cons]
  cases instr.callee? <;> rfl

@[simp] theorem callees_append (first second : Code) :
    callees (first ++ second) = callees first ++ callees second :=
  List.filterMap_append ..

/-! Calls in trees. -/

namespace Tree

mutual

/-- The nodes of a kind, in the order of the source. Nodes to be skipped are left out with all below. -/
def collect (skip keep : Tree → Bool) : Tree → List Tree
  | ⟨tag, token, children⟩ =>
    if skip ⟨tag, token, children⟩ then
      []
    else
      (if keep ⟨tag, token, children⟩ then [⟨tag, token, children⟩] else []) ++ collectIn skip keep children
termination_by structural t => t

def collectIn (skip keep : Tree → Bool) : List Tree → List Tree
  | [] => []
  | t :: rest => t.collect skip keep ++ collectIn skip keep rest
termination_by structural ts => ts

end

def isCall (t : Tree) : Bool :=
  t.tag == .call && t.token.any fun name => !isIntrinsic name.lexeme

def declaresStatic (t : Tree) : Bool :=
  t.tag == .varDecl && (t.find? .static).isSome

def calls (t : Tree) : List Tree :=
  t.collect (fun _ => false) isCall

/-- The calls that stand in no initializer of a `static` variable. -/
def ownCalls (t : Tree) : List Tree :=
  t.collect declaresStatic isCall

def staticCalls (t : Tree) : List Tree :=
  (t.collect (fun _ => false) declaresStatic).flatMap calls

variable {skip keep : Tree → Bool}

theorem collectIn_eq (ts : List Tree) : collectIn skip keep ts = ts.flatMap (collect skip keep) := by
  induction ts with
  | nil => rfl
  | cons t rest ih => rw [collectIn, ih, List.flatMap_cons]

theorem collect_node {t : Tree} (hskip : skip t = false) :
    t.collect skip keep = (if keep t then [t] else []) ++ t.children.flatMap (collect skip keep) := by
  obtain ⟨tag, token, children⟩ := t
  rw [collect, hskip, collectIn_eq]
  rfl

theorem collect_skipped {t : Tree} (hskip : skip t = true) : t.collect skip keep = [] := by
  obtain ⟨tag, token, children⟩ := t
  rw [collect, if_pos hskip]

/-- A node that is not of the kind contributes what its parts do. -/
theorem collect_parts {t : Tree} (hskip : skip t = false) (hkeep : keep t = false) :
    t.collect skip keep = t.children.flatMap (collect skip keep) := by
  rw [collect_node hskip, hkeep]
  rfl

mutual

theorem collect_none : (t : Tree) → t.any keep = false → t.collect skip keep = []
  | ⟨tag, token, children⟩, h => by
    rw [any, Bool.or_eq_false_iff] at h
    rw [collect, h.1, collectIn_none children h.2]
    split <;> rfl
termination_by structural t => t

theorem collectIn_none : (ts : List Tree) → anyOf keep ts = false → collectIn skip keep ts = []
  | [], _ => rfl
  | t :: rest, h => by
    rw [anyOf, Bool.or_eq_false_iff] at h
    rw [collectIn, collect_none t h.1, collectIn_none rest h.2]
    rfl
termination_by structural ts => ts

end

mutual

/-- Where nothing is skipped, skipping makes no difference. -/
theorem collect_unskipped : (t : Tree) → t.any skip = false →
    t.collect skip keep = t.collect (fun _ => false) keep
  | ⟨tag, token, children⟩, h => by
    rw [any, Bool.or_eq_false_iff] at h
    rw [collect, collect, h.1, collectIn_unskipped children h.2]
termination_by structural t => t

theorem collectIn_unskipped : (ts : List Tree) → anyOf skip ts = false →
    collectIn skip keep ts = collectIn (fun _ => false) keep ts
  | [], _ => rfl
  | t :: rest, h => by
    rw [anyOf, Bool.or_eq_false_iff] at h
    rw [collectIn, collectIn, collect_unskipped t h.1, collectIn_unskipped rest h.2]
termination_by structural ts => ts

end

theorem calls_inner (tag : Tag) (children : List Tree) :
    (inner tag children).calls = children.flatMap calls :=
  collect_parts rfl (by simp [isCall, inner])

theorem calls_marked {tag : Tag} (htag : tag ≠ .call) (token : Token) (children : List Tree) :
    (marked tag token children).calls = children.flatMap calls :=
  collect_parts rfl (by simp [isCall, marked, htag])

theorem calls_call {name : Token} (plain : isIntrinsic name.lexeme = false) (args : List Tree) :
    (marked .call name args).calls = marked .call name args :: args.flatMap calls := by
  rw [calls, collect_node rfl]
  simp [isCall, marked, plain]
  rfl

theorem calls_intrinsic {name : Token} (plain : isIntrinsic name.lexeme = true) (args : List Tree) :
    (marked .call name args).calls = args.flatMap calls :=
  collect_parts rfl (by simp [isCall, marked, plain])

end Tree

/-! Calls in code and in trees match. -/

/-- Some handles and some calls match one to one, each handle with a call that it may stand for. -/
def Linked (R : Nat → Tree → Prop) (handles : List Nat) (nodes : List Tree) : Prop :=
  ∃ order, order.Perm nodes ∧ List.Forall₂ R handles order

namespace Linked

variable {R : Nat → Tree → Prop} {handles more : List Nat} {nodes others : List Tree}

theorem nil : Linked R [] [] :=
  ⟨[], .nil, .nil⟩

theorem single {handle : Nat} {node : Tree} (h : R handle node) : Linked R [handle] [node] :=
  ⟨[node], .refl _, .cons h .nil⟩

theorem append (h : Linked R handles nodes) (h' : Linked R more others) :
    Linked R (handles ++ more) (nodes ++ others) := by
  obtain ⟨order, hperm, hall⟩ := h
  obtain ⟨order', hperm', hall'⟩ := h'
  exact ⟨order ++ order', hperm.append hperm', List.rel_append hall hall'⟩

theorem perm (h : Linked R handles nodes) (hperm : nodes.Perm others) : Linked R handles others := by
  obtain ⟨order, horder, hall⟩ := h
  exact ⟨order, horder.trans hperm, hall⟩

theorem imp {R' : Nat → Tree → Prop} (h : Linked R handles nodes)
    (hR : ∀ handle node, R handle node → R' handle node) : Linked R' handles nodes := by
  obtain ⟨order, hperm, hall⟩ := h
  exact ⟨order, hperm, hall.imp hR⟩

end Linked

namespace Lowering

variable {table : FunctionTable} {code : Code} {ty : Ty} {c c' : ScopeChain}

def Refers (table : FunctionTable) (handle : Nat) (node : Tree) : Prop :=
  ∃ name signature, node.lexeme = .ok name ∧ table.lookup? name = some signature ∧
    signature.handle = handle

@[simp] theorem callees_boxed (ty : Ty) (code : Code) : callees (boxed ty code) = callees code := by
  unfold boxed
  split <;> simp

theorem callees_storeElement {element : Ty} {keep : Bool}
    (h : Target.storeElement element keep c = .ok code c') : callees code = [] := by
  rcases storeElement_ok h with ⟨-, rfl, -⟩ | ⟨-, temp, -, rfl⟩ <;> simp

/-- A store calls what its index and its value call. -/
theorem callees_assign {place : Place} {element : Ty} {index : Option Code} {value : Code} {op : Option Instr}
    {keep : Bool} (storing : Storing op ty)
    (h : Target.assign ⟨place, element, index⟩ value op keep c = .ok code c') :
    callees code = callees (index.getD []) ++ callees value := by
  have hop : ∀ instr, op = some instr → instr.callee? = none := by
    intro instr hinstr
    obtain ⟨-, hmem⟩ := storing instr hinstr
    simp only [List.mem_cons, List.not_mem_nil, or_false] at hmem
    rcases hmem with rfl | rfl | rfl | rfl <;> rfl
  cases index with
  | none =>
    obtain ⟨-, rfl⟩ := assign_variable_ok h
    cases op with
    | none => cases keep <;> simp [updated]
    | some instr => cases keep <;> simp [updated, hop instr rfl]
  | some position =>
    rcases assign_element_ok h with ⟨-, finish, hfinish, rfl⟩ |
      ⟨instr, temp, c₁, finish, rfl, -, hfinish, rfl⟩
    · simp [callees_storeElement hfinish]
    · simp [callees_storeElement hfinish, hop instr rfl]

/-- The calls of an expression are linked to the calls in its tree. -/
theorem Lowers.linked {form : Form} (h : Lowers table form c ty code c') :
    Linked (Refers table) (callees code) (form.trees.flatMap Tree.calls) := by
  induction h with
  | constant hliteral =>
    rcases literal_ok hliteral with ⟨_, rfl, -⟩ | ⟨_, rfl, -⟩ | ⟨_, rfl, -⟩ | ⟨_, rfl, -⟩ <;> exact .nil
  | «variable» => simpa [Form.trees, Tree.calls_marked] using Linked.nil
  | element _ _ _ ih => simpa [Form.trees, Tree.calls_marked] using ih
  | paren _ ih => simpa [Form.trees, Tree.calls_marked] using ih
  | chain _ _ first rest => simpa [Form.trees, Tree.calls_inner] using first.append rest
  | noLinks | noArguments | noPrinted | noFilled | one | input => exact .nil
  | link _ hop _ _ first rest =>
    have hinstr := Instr.callee_of_ne fun _ => call_ne_binaryInstr hop
    simpa [Form.trees, Tree.calls_marked, hinstr] using first.append rest
  | compare hop _ _ _ first second =>
    have hinstr := Instr.callee_of_ne fun _ => call_ne_binaryInstr hop
    simpa [Form.trees, Tree.calls_inner, Tree.calls_marked, hinstr] using first.append second
  | negate _ ih => simpa [Form.trees, Tree.calls_marked] using ih
  | unary hop _ ih =>
    have hinstr := Instr.callee_of_ne fun _ => call_ne_unaryOperator hop
    simpa [Form.trees, Tree.calls_marked, hinstr] using ih
  | @call name args signature code c c' plain hlookup _ _ ih =>
    have hnode : Refers table signature.handle (.marked .call name args) :=
      ⟨name.lexeme, signature, lexeme_marked .., hlookup, rfl⟩
    have hall := (ih.append (.single hnode)).perm (List.perm_append_singleton ..)
    simpa [Form.trees, Tree.calls_call plain] using hall
  | print isPrint _ _ ih =>
    simpa [Form.trees, Tree.calls_intrinsic (show isIntrinsic _ = true by rw [isPrint]; rfl)] using ih
  | printFormatted isPrint _ _ first rest =>
    simpa [Form.trees, Tree.calls_intrinsic (show isIntrinsic _ = true by rw [isPrint]; rfl)] using
      first.append rest
  | put isPut _ _ ih =>
    simpa [Form.trees, Tree.calls_intrinsic (show isIntrinsic _ = true by rw [isPut]; rfl)] using ih
  | kept _ ih | value _ ih => exact ih
  | assign _ _ ih => simpa [Form.trees, Source.trees, Tree.calls_marked] using ih
  | step _ _ ih => simpa [Form.trees, Source.trees, Tree.calls_marked] using ih
  | storeVariable _ storing _ hassign ih =>
    rw [callees_assign storing hassign]
    simpa [Form.trees, Tree.calls_marked] using ih
  | storeElement _ _ storing _ _ hassign index value =>
    rw [callees_assign storing hassign]
    simpa [Form.trees, Tree.calls_marked] using index.append value
  | argument _ _ first rest | filled _ _ first rest | printed _ _ _ first rest =>
    simpa [Form.trees, Source.trees] using first.append rest

end Lowering

end StackCompiler
