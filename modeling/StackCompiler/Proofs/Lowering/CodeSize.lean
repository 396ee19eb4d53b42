import StackCompiler.Proofs.Layout.Bodies
import StackCompiler.Proofs.Lowering.BodyRuns
import StackCompiler.Proofs.Lowering.LabelResolution

/-!
The length of the code of a program is linear in the number of nodes of its tree, whatever its shape. Every
node adds at most 21 instructions to those of its children: the code of a child is used once, and what is
needed twice goes through a temporary. Only the fill of an array takes all of the 21.
-/

set_option autoImplicit false
namespace StackCompiler

open Lowering

theorem Tree.size_node (tag : Tag) (token : Option Token) (children : List Tree) :
    Tree.size ⟨tag, token, children⟩ = 1 + Tree.sizes children := rfl

theorem Tree.sizes_cons (t : Tree) (ts : List Tree) : Tree.sizes (t :: ts) = t.size + Tree.sizes ts := rfl

theorem Tree.size_eq (t : Tree) : t.size = 1 + Tree.sizes t.children := by
  cases t
  rfl

theorem Tree.size_le_sizes {t : Tree} {ts : List Tree} (h : t ∈ ts) : t.size ≤ Tree.sizes ts := by
  induction ts with
  | nil => cases h
  | cons u us ih =>
    rw [Tree.sizes_cons]
    rcases List.mem_cons.1 h with rfl | h
    · exact Nat.le_add_right _ _
    · exact (ih h).trans (Nat.le_add_left _ _)

theorem Tree.sizes_filter_le (p : Tree → Bool) (ts : List Tree) : Tree.sizes (ts.filter p) ≤ Tree.sizes ts := by
  induction ts with
  | nil => exact Nat.le_refl _
  | cons u us ih =>
    rw [List.filter_cons]
    split
    next => exact Nat.add_le_add_left ih _
    next => exact ih.trans (Nat.le_add_left _ _)

namespace Lowering

/-! Stores. -/

def Target.indexCode (r : Target) : Code :=
  r.index.getD []

theorem length_boxed_le (ty : Ty) (code : Code) : (boxed ty code).length ≤ code.length + 1 := by
  unfold boxed
  split
  next => exact Nat.le_succ _
  next => exact (List.length_append ..).le

theorem length_storeElement_le {element : Ty} {keep : Bool} {code : Code} {c c' : ScopeChain}
    (h : Target.storeElement element keep c = .ok code c') : code.length ≤ 4 := by
  rcases storeElement_ok h with ⟨-, rfl, -⟩ | ⟨-, temp, -, rfl⟩
  · exact (by decide : 1 ≤ 4)
  · exact Nat.le_refl 4

/-- The index is evaluated once also where the element is read and written. -/
theorem length_assign_le {r : Target} {value code : Code} {op : Option Instr} {keep : Bool}
    {c c' : ScopeChain} (h : r.assign value op keep c = .ok code c') :
    code.length ≤ r.indexCode.length + value.length + 11 := by
  obtain ⟨place, ty, index⟩ := r
  cases index with
  | none =>
    obtain ⟨-, rfl⟩ := assign_variable_ok h
    have hupdated : (updated place value op).length ≤ value.length + 2 := by
      cases op <;> simp [updated]
    have hdup : (if keep then [Instr.dup] else []).length ≤ 1 := by
      cases keep <;> simp
    simp only [List.length_append, List.length_singleton]
    omega
  | some position =>
    rcases assign_element_ok h with ⟨-, finish, hfinish, rfl⟩ | ⟨instr, temp, c₁, finish, -, -, hfinish, rfl⟩
    all_goals
      have hlength := length_storeElement_le hfinish
      simp only [Target.indexCode, Option.getD_some, List.length_append, List.length_cons, List.length_nil]
      omega

variable {table : FunctionTable} {t : Tree} {children : List Tree} {typed : Typed} {code : Code}
  {c c' : ScopeChain}

/-- What is known about the length of the code of a tree. A value leaves room for one more instruction, and
a target for all that its own node may add. -/
structure EmitsShort (table : FunctionTable) (t : Tree) : Prop where
  value : ∀ {c : ScopeChain} {typed : Typed} {c' : ScopeChain}, expression table t c = .ok typed c' →
    typed.code.length < 21 * t.size
  target : ∀ {c : ScopeChain} {r : Target} {c' : ScopeChain}, target table t c = .ok r c' →
    r.indexCode.length + 21 ≤ 21 * t.size

theorem EmitsShort.short {ty : Ty} (h : EmitsShort table t)
    (hrun : expression table t c = .ok (.value ty code) c') : code.length < 21 * t.size :=
  h.value hrun

/-! One lemma for each form of expression, from what is known about the children of the node. -/

theorem short_constant (h : constant t = .ok typed) : typed.code.length = 1 := by
  unfold constant at h
  split at h
  next => cases h
  next =>
    split at h
    next =>
      cases h
      rfl
    next => cases h

theorem short_location (each : ∀ u ∈ children, EmitsShort table u)
    (h : location table t children c = .ok typed c') : typed.code.length ≤ 2 + 21 * Tree.sizes children := by
  cases children with
  | nil =>
    obtain ⟨symbol, -, rfl⟩ := location_variable.1 h
    exact (by decide : 1 ≤ 2)
  | cons index rest =>
    obtain ⟨symbol, c₁, element, position, -, -, hposition, rfl⟩ := location_element.1 h
    have hindex := (each index (by simp)).short hposition
    simp only [Typed.value, List.length_append, List.length_cons, List.length_nil, Tree.sizes_cons]
    omega

theorem short_parenthesized (each : ∀ u ∈ children, EmitsShort table u)
    (h : parenthesized table t children c = .ok typed c') :
    typed.code.length ≤ 2 + 21 * Tree.sizes children := by
  cases children with
  | nil => simp [parenthesized, throw_ok] at h
  | cons inner rest =>
    rw [parenthesized_cons] at h
    have hinner := (each inner (by simp)).value h
    rw [Tree.sizes_cons]
    omega

/-- An operator node has no code of its own, which pays for the instruction that waits for an operand. -/
theorem short_chainLinks {required : Ty} {pending : Option Instr} (each : ∀ u ∈ children, EmitsShort table u)
    (h : chainLinks table required pending children c = .ok code c') :
    code.length ≤ pending.toList.length + 21 * Tree.sizes children := by
  induction children generalizing pending c code c' with
  | nil =>
    obtain ⟨rfl, -⟩ := chainLinks_nil.1 h
    exact Nat.zero_le _
  | cons next rest ih =>
    have hrest : ∀ u ∈ rest, EmitsShort table u := fun u hu => each u (by simp [hu])
    have hsize := next.size_eq
    rw [Tree.sizes_cons]
    rcases chainLinks_cons.1 h with ⟨unused, c₁, op, -, -, h⟩ | ⟨operand, c₁, op, links, hoperand, rfl, hlinks, rfl⟩
    · have hlinks := ih hrest h
      rw [Option.toList_some, List.length_singleton] at hlinks
      omega
    · have hcode := (each next (by simp)).short hoperand
      have hmore := ih hrest hlinks
      rw [Option.toList_none, List.length_nil] at hmore
      rw [Option.toList_some, List.length_singleton, List.length_append, List.length_cons]
      omega

theorem short_chain {required : Ty} (each : ∀ u ∈ children, EmitsShort table u)
    (h : chain table t required children c = .ok typed c') :
    typed.code.length ≤ 2 + 21 * Tree.sizes children := by
  cases children with
  | nil => simp [chain, throw_ok] at h
  | cons first rest =>
    obtain ⟨operand, c₁, links, hoperand, hlinks, rfl⟩ := chain_iff.1 h
    have hfirst := (each first (by simp)).short hoperand
    have hmore := short_chainLinks (fun u hu => each u (by simp [hu])) hlinks
    rw [Option.toList_none, List.length_nil] at hmore
    rw [Typed.value, List.length_append, Tree.sizes_cons]
    omega

theorem short_comparison (each : ∀ u ∈ children, EmitsShort table u)
    (h : comparison table t children c = .ok typed c') :
    typed.code.length ≤ 2 + 21 * Tree.sizes children := by
  obtain ⟨first, operator, second, rest, rfl⟩ := comparison_parts h
  obtain ⟨left, c₁, op, right, hleft, -, hright, -, rfl⟩ := comparison_iff.1 h
  have hfirst := (each first (by simp)).value hleft
  have hsecond := (each second (by simp)).value hright
  simp only [Typed.value, List.length_append, List.length_singleton, Tree.sizes_cons]
  omega

theorem short_negation (each : ∀ u ∈ children, EmitsShort table u)
    (h : negation table t children c = .ok typed c') : typed.code.length ≤ 2 + 21 * Tree.sizes children := by
  cases children with
  | nil => simp [negation, throw_ok] at h
  | cons inner rest =>
    obtain ⟨operand, hoperand, rfl⟩ := negation_iff.1 h
    have hinner := (each inner (by simp)).short hoperand
    rw [Typed.value, List.length_append, List.length_singleton, Tree.sizes_cons]
    omega

theorem short_unary (each : ∀ u ∈ children, EmitsShort table u)
    (h : unary table t children c = .ok typed c') : typed.code.length ≤ 2 + 21 * Tree.sizes children := by
  cases children with
  | nil => simp [unary, throw_ok] at h
  | cons inner rest =>
    obtain ⟨operand, op, hoperand, -, rfl⟩ := unary_iff.1 h
    have hinner := (each inner (by simp)).value hoperand
    rw [Typed.value, List.length_append, List.length_singleton, Tree.sizes_cons]
    omega

theorem short_assignment {keep : Bool} (each : ∀ u ∈ children, EmitsShort table u)
    (h : assignment table t keep children c = .ok typed c') :
    typed.code.length ≤ 2 + 21 * Tree.sizes children := by
  obtain ⟨first, second, rest, rfl⟩ := assignment_parts h
  obtain ⟨r, c₁, value, c₂, op, code, htarget, hvalue, -, -, hassign, rfl⟩ := assignment_iff.1 h
  have hfirst := (each first (by simp)).target htarget
  have hsecond := (each second (by simp)).short hvalue
  have hcode := length_assign_le hassign
  simp only [Typed.value, Tree.sizes_cons]
  omega

theorem short_step {keep : Bool} (each : ∀ u ∈ children, EmitsShort table u)
    (h : step table t keep children c = .ok typed c') :
    typed.code.length ≤ 2 + 21 * Tree.sizes children := by
  cases children with
  | nil => simp [step, throw_ok] at h
  | cons first rest =>
    obtain ⟨r, c₁, op, code, htarget, -, -, hassign, rfl⟩ := step_iff.1 h
    have hfirst := (each first (by simp)).target htarget
    have hcode := length_assign_le hassign
    rw [List.length_singleton] at hcode
    simp only [Typed.value, Tree.sizes_cons]
    omega

theorem short_arguments {types : List Ty} (each : ∀ u ∈ children, EmitsShort table u)
    (h : arguments table types children c = .ok code c') : code.length ≤ 21 * Tree.sizes children := by
  induction children generalizing types c code c' with
  | nil =>
    obtain ⟨rfl, -⟩ := arguments_nil.1 h
    exact Nat.zero_le _
  | cons first rest ih =>
    cases types with
    | nil =>
      obtain ⟨rfl, -⟩ := arguments_beyond.1 h
      exact Nat.zero_le _
    | cons ty types =>
      obtain ⟨argument, c₁, more, hargument, hmore, rfl⟩ := arguments_cons.1 h
      have hfirst := (each first (by simp)).short hargument
      have hrest := ih (fun u hu => each u (by simp [hu])) hmore
      rw [List.length_append, Tree.sizes_cons]
      omega

theorem short_printArguments (each : ∀ u ∈ children, EmitsShort table u)
    (h : printArguments table children c = .ok code c') : code.length ≤ 21 * Tree.sizes children := by
  induction children generalizing c code c' with
  | nil =>
    obtain ⟨rfl, -⟩ := printArguments_nil.1 h
    exact Nat.zero_le _
  | cons first rest ih =>
    obtain ⟨ty, argument, c₁, more, -, hargument, hmore, rfl⟩ := printArguments_cons.1 h
    have hfirst := (each first (by simp)).short hargument
    have hboxed := length_boxed_le ty argument
    have hrest := ih (fun u hu => each u (by simp [hu])) hmore
    rw [List.length_append, Tree.sizes_cons]
    omega

theorem short_print (each : ∀ u ∈ children, EmitsShort table u)
    (h : print table t children c = .ok typed c') : typed.code.length ≤ 2 + 21 * Tree.sizes children := by
  match children with
  | [] => simp [print, throw_ok] at h
  | [first] =>
    obtain ⟨ty, value, -, hvalue, rfl⟩ := print_value.1 h
    have hfirst := (each first (by simp)).short hvalue
    have hboxed := length_boxed_le ty value
    rw [Typed.value, List.length_append, List.length_singleton, Tree.sizes_cons]
    omega
  | first :: next :: rest =>
    obtain ⟨format, c₁, values, hformat, hvalues, rfl⟩ := print_formatted.1 h
    have hfirst := (each first (by simp)).short hformat
    have hrest := short_printArguments (fun u hu => each u (List.mem_cons_of_mem _ hu)) hvalues
    rw [Tree.sizes_cons first]
    simp only [Typed.value, List.length_append, List.length_singleton]
    omega

theorem short_putArguments (each : ∀ u ∈ children, EmitsShort table u)
    (h : putArguments table children c = .ok code c') : code.length ≤ 21 * Tree.sizes children := by
  induction children generalizing c code c' with
  | nil =>
    obtain ⟨rfl, -⟩ := putArguments_nil.1 h
    exact Nat.zero_le _
  | cons first rest ih =>
    obtain ⟨r, c₁, stored, c₂, more, htarget, -, hassign, hmore, rfl⟩ := putArguments_cons.1 h
    have hfirst := (each first (by simp)).target htarget
    have hcode := length_assign_le hassign
    rw [List.length_singleton] at hcode
    have hrest := ih (fun u hu => each u (by simp [hu])) hmore
    rw [List.length_append, Tree.sizes_cons]
    omega

theorem short_call {token : Option Token} (each : ∀ u ∈ children, EmitsShort table u)
    (h : expression table ⟨.call, token, children⟩ c = .ok typed c') :
    typed.code.length ≤ 2 + 21 * Tree.sizes children := by
  obtain ⟨name, -, ⟨-, h⟩ | ⟨-, -, code, hcode, rfl⟩ | ⟨-, signature, code, -, -, hcode, rfl⟩⟩ := call_iff.1 h
  · exact short_print each h
  · exact (short_putArguments each hcode).trans (Nat.le_add_left _ _)
  · have harguments := short_arguments each hcode
    rw [Typed.value, List.length_append, List.length_singleton]
    omega

theorem short_target {tag : Tag} {token : Option Token} {r : Target} (each : ∀ u ∈ children, EmitsShort table u)
    (h : target table ⟨tag, token, children⟩ c = .ok r c') :
    r.indexCode.length ≤ 21 * Tree.sizes children := by
  cases children with
  | nil =>
    obtain ⟨-, symbol, -, rfl⟩ := target_variable.1 h
    exact Nat.zero_le _
  | cons index rest =>
    obtain ⟨-, symbol, c₁, element, position, -, -, hposition, rfl⟩ := target_element.1 h
    have hindex := (each index (by simp)).short hposition
    rw [Tree.sizes_cons]
    change position.length ≤ _
    omega

theorem emitsShort (table : FunctionTable) (t : Tree) : EmitsShort table t := by
  induction t using Tree.forall_of_children with
  | node tag token children each =>
    constructor
    · intro c typed c' h
      have hlength : typed.code.length ≤ 2 + 21 * Tree.sizes children := by
        cases tag with
        | constant =>
          obtain ⟨hconstant, -⟩ := lift_ok.1 h
          have hone := short_constant hconstant
          omega
        | mutable => exact short_location each h
        | paren => exact short_parenthesized each h
        | call => exact short_call each h
        | operator =>
          obtain ⟨rfl, -⟩ := pure_ok.1 h
          exact Nat.zero_le _
        | simpleExp | andExp | minMaxExp | sumExp | mulExp => exact short_chain each h
        | relExp => exact short_comparison each h
        | notExp => exact short_negation each h
        | unaryExp => exact short_unary each h
        | assign => exact short_assignment each h
        | incDec => exact short_step each h
        | _ => exact absurd h (by simp [expression, throw_ok])
      rw [Tree.size_node]
      omega
    · intro c r c' h
      have hindex := short_target each h
      rw [Tree.size_node]
      omega

theorem short_expression (h : expression table t c = .ok typed c') : typed.code.length < 21 * t.size :=
  (emitsShort table t).value h

/-! Statements. -/

theorem short_valueOf {ty : Ty} (h : valueOf table ty t c = .ok code c') : code.length < 21 * t.size :=
  short_expression (valueOf_iff.1 h)

theorem short_valueOf? {ty : Ty} {found : Option Tree} {value : Option Code}
    (h : valueOf? table ty found c = .ok value c') :
    (value.getD []).length ≤ 21 * Tree.sizes found.toList := by
  cases found with
  | none =>
    obtain ⟨rfl, -⟩ := pure_ok.1 h
    exact Nat.zero_le _
  | some t =>
    obtain ⟨code, hcode, rfl⟩ := map_ok.1 h
    exact (short_valueOf hcode).le

theorem short_expressionStatement (h : expressionStatement table children c = .ok code c') :
    code.length ≤ 21 * Tree.sizes children := by
  cases children with
  | nil =>
    obtain ⟨rfl, -⟩ := pure_ok.1 h
    exact Nat.zero_le _
  | cons t rest =>
    have each : ∀ u ∈ t.children, EmitsShort table u := fun u _ => emitsShort table u
    have hsize := t.size_eq
    rw [Tree.sizes_cons]
    rcases expressionStatement_iff.1 h with ⟨-, typed, htyped, rfl⟩ | ⟨-, typed, htyped, rfl⟩ |
      ⟨-, -, typed, htyped, rfl⟩
    · have hlength := short_assignment each htyped
      omega
    · have hlength := short_step each htyped
      omega
    · have hlength := short_expression htyped
      rcases dropped_eq typed with hcode | hcode <;> rw [hcode]
      · omega
      · rw [List.length_append, List.length_singleton]
        omega

theorem short_returnStatement {result : Ty} (h : returnStatement table t result children c = .ok code c') :
    code.length ≤ 1 + 21 * Tree.sizes children := by
  cases children with
  | nil =>
    obtain ⟨-, rfl, -⟩ := returnStatement_plain.1 h
    exact Nat.le_add_right 1 _
  | cons value rest =>
    obtain ⟨returned, hreturned, rfl⟩ := returnStatement_value.1 h
    have hlength := short_valueOf hreturned
    rw [List.length_append, List.length_singleton, Tree.sizes_cons]
    omega

theorem sizes_bounds {bounds first : Tree} (h : bounds.child 0 = .ok first) :
    first.size + Tree.sizes bounds.children[1]?.toList + Tree.sizes bounds.children[2]?.toList ≤
      Tree.sizes bounds.children := by
  obtain ⟨tag, token, children⟩ := bounds
  match children with
  | [] => cases h
  | [_] | [_, _] | _ :: _ :: _ :: _ =>
    cases h
    simp [Tree.sizes, Nat.add_assoc]

theorem length_head_le (r : Counting) : r.head.length ≤ 3 + r.start.length + (r.stop.getD []).length := by
  unfold Counting.head
  cases r.stop <;> simp <;> omega

/-- Start, end and step appear once each, beside what stores them. -/
theorem length_range_le (r : Counting) :
    r.range.code.length ≤
      4 + r.start.length + (r.stop.getD []).length + ((r.step.map Prod.fst).getD []).length := by
  have hhead := length_head_le r
  unfold Counting.range
  split
  next hstep =>
    rw [hstep]
    simp only [Option.map_none, Option.getD_none, List.length_nil]
    omega
  next step temp hstep =>
    rw [hstep]
    simp only [Option.map_some, Option.getD_some, List.length_append, List.length_singleton]
    omega

theorem short_range {counter : Place} {bounds : Tree} {r : Range}
    (h : range table counter bounds c = .ok r c') :
    r.code.length ≤ 4 + 21 * Tree.sizes bounds.children := by
  obtain ⟨first, counting, c₁, c₂, c₃, c₄, -, hfirst, hstart, hstop, hstep, -, -, rfl⟩ := range_iff.1 h
  have hsizes := sizes_bounds hfirst
  have hstart := short_valueOf hstart
  have hstop := short_valueOf? hstop
  have hstep := short_valueOf? hstep
  have hlength := length_range_le counting
  omega

/-! Declarations. -/

/-- The setup of a variable has at most 21 instructions beside those of its initial value. -/
theorem length_setup_le {d : Declarator} {base : Ty} {storage : Storage} {setup : Setup}
    (h : TakesSlots base storage d c setup c') (label : Label) :
    (setup.code label).length ≤ 21 + (d.value.getD []).length := by
  cases h with
  | nothing => exact Nat.zero_le _
  | scalar =>
    simp only [Setup.code, Option.getD_some, List.length_append, List.length_singleton]
    omega
  | array => exact (by decide : 3 ≤ 21)
  | filled =>
    simp only [Setup.code, Fill.code, Option.getD_some, List.length_append, List.length_cons, List.length_nil]
    omega

theorem short_initialValue {name : String} {base : Ty} {hoisted : Bool} {init : Option Tree}
    {value : Option Code} (h : initialValue table name base hoisted init c = .ok value c') :
    (value.getD []).length ≤ 21 * Tree.sizes init.toList := by
  cases init with
  | none =>
    obtain ⟨rfl, -⟩ := initialValue_none.1 h
    exact Nat.zero_le _
  | some init =>
    obtain ⟨code, htyped, -, rfl⟩ := initialValue_some.1 h
    exact (short_expression htyped).le

theorem short_declarator {base : Ty} {storage : Storage} {hoisted : Bool} {node : Tree} {setup : Setup}
    (h : declarator table base storage hoisted node c = .ok setup c') (label : Label) :
    (setup.code label).length ≤ 21 * node.size := by
  obtain ⟨id, name, length, value, c₁, hid, -, -, hvalue, hslots⟩ := declarator_iff.1 h
  have hsetup := length_setup_le hslots label
  have hvalue := short_initialValue hvalue
  have hsizes := sizes_bounds hid
  have hsize := node.size_eq
  change _ ≤ 21 + (value.getD []).length at hsetup
  omega

/-- A static variable leaves its setup with the static ones, any other one in the body. -/
theorem length_installed (storage : Storage) (setup : Setup) (s : BodyState) : ∃ label,
    (installed storage setup s).1.length + (installed storage setup s).2.staticInit.code.length =
      s.staticInit.code.length + (setup.code label).length := by
  unfold installed
  split
  next =>
    refine ⟨s.staticInit.nextLabel, ?_⟩
    rw [List.length_nil, Nat.zero_add]
    exact List.length_append
  next => exact ⟨s.nextLabel, Nat.add_comm _ _⟩

section Statements

variable {ctx : Context} {s s₁ s' : BodyState}

/-- The code and what static variables have added to their setup, paid for by a number of nodes. -/
def PaidBy (nodes : Nat) (s : BodyState) (code : Code) (s' : BodyState) : Prop :=
  code.length + s'.staticInit.code.length ≤ s.staticInit.code.length + 21 * nodes

theorem PaidBy.of_code {nodes : Nat} (h : code.length ≤ 21 * nodes) (hs : s'.staticInit = s.staticInit) :
    PaidBy nodes s code s' := by
  rw [PaidBy, hs, Nat.add_comm]
  exact Nat.add_le_add_left h _

theorem PaidBy.append {first rest : Nat} {more : Code} (h : PaidBy first s code s₁)
    (h' : PaidBy rest s₁ more s') : PaidBy (first + rest) s (code ++ more) s' := by
  unfold PaidBy at *
  rw [List.length_append]
  omega

theorem PaidBy.mono {nodes more : Nat} (h : PaidBy nodes s code s') (hle : nodes ≤ more) :
    PaidBy more s code s' :=
  Nat.le_trans h (Nat.add_le_add_left (Nat.mul_le_mul_left 21 hle) _)

theorem paid_declarators {base : Ty} {storage : Storage} {hoisted : Bool} {nodes : List Tree}
    (h : declarators table base storage hoisted nodes s = .ok code s') :
    PaidBy (Tree.sizes nodes) s code s' := by
  induction nodes generalizing s code with
  | nil =>
    obtain ⟨rfl, rfl⟩ := declarators_nil.1 h
    exact .of_code (Nat.zero_le _) rfl
  | cons node rest ih =>
    obtain ⟨setup, c₁, more, hsetup, hmore, rfl⟩ := declarators_cons.1 h
    refine PaidBy.append ?_ (ih hmore)
    obtain ⟨label, hlength⟩ := length_installed storage setup { s with scopes := c₁ }
    have hshort := short_declarator hsetup label
    unfold PaidBy
    change _ = s.staticInit.code.length + _ at hlength
    omega

theorem paid_declaration {node : Tree} (h : declaration table node s = .ok code s') :
    PaidBy node.size s code s' := by
  obtain ⟨base, -, h⟩ := declaration_iff.1 h
  refine (paid_declarators h).mono ((Tree.sizes_filter_le _ _).trans ?_)
  rw [Tree.size_eq]
  exact Nat.le_add_left _ _

def Pays (table : FunctionTable) (t : Tree) : Prop :=
  ∀ {ctx : Context} {s s' : BodyState} {code : Code}, statement table ctx t s = .ok code s' →
    PaidBy t.size s code s'

theorem paid_blockItems (each : ∀ u ∈ children, Pays table u)
    (h : blockItems table ctx children s = .ok code s') : PaidBy (Tree.sizes children) s code s' := by
  induction children generalizing s code with
  | nil =>
    obtain ⟨rfl, rfl⟩ := items_nil.1 h
    exact .of_code (Nat.zero_le _) rfl
  | cons item rest ih =>
    have hrest : ∀ u ∈ rest, Pays table u := fun u hu => each u (by simp [hu])
    by_cases htag : item.tag = .varDecl
    · obtain ⟨first, s₁, more, hfirst, hmore, rfl⟩ := (items_variables htag).1 h
      exact (paid_declaration hfirst).append (ih hrest hmore)
    · obtain ⟨first, s₁, more, hfirst, hmore, rfl⟩ := (items_statement htag).1 h
      exact PaidBy.append (each item (by simp) hfirst) (ih hrest hmore)

theorem paid_ifStatement (each : ∀ u ∈ children, Pays table u)
    (h : ifStatement table ctx t children s = .ok code s') : PaidBy (1 + Tree.sizes children) s code s' := by
  obtain ⟨test, yes, rfl⟩ | ⟨test, yes, no, rest, rfl⟩ := ifStatement_parts h
  · obtain ⟨condition, c₁, branch, hcondition, hbranch, rfl⟩ := (ifThen_iff t).1 h
    have hcondition := short_valueOf hcondition
    have hyes := each yes (by simp) hbranch
    simp only [PaidBy, List.length_append, List.length_cons, List.length_nil, Tree.sizes_cons] at hyes ⊢
    omega
  · obtain ⟨condition, c₁, first, s₁, second, hcondition, hfirst, hsecond, rfl⟩ := (ifElse_iff t rest).1 h
    have hcondition := short_valueOf hcondition
    have hyes := each yes (by simp) hfirst
    have hno := each no (by simp) hsecond
    simp only [PaidBy, List.length_append, List.length_cons, List.length_nil, Tree.sizes_cons] at hyes hno ⊢
    omega

theorem length_loopCode (label : Label) (body advance test : Code) :
    (loopCode label body advance test).length = body.length + advance.length + test.length + 5 := by
  simp only [loopCode, List.length_append, List.length_cons, List.length_nil]
  omega

theorem paid_whileStatement (each : ∀ u ∈ children, Pays table u)
    (h : whileStatement table ctx t children s = .ok code s') :
    PaidBy (1 + Tree.sizes children) s code s' := by
  obtain ⟨test, body, rest, rfl⟩ := whileStatement_parts h
  obtain ⟨condition, c₁, inner, hcondition, hinner, rfl⟩ := (whileStatement_iff t rest).1 h
  have hcondition := short_valueOf hcondition
  have hbody := each body (by simp) hinner
  simp only [PaidBy, length_loopCode, List.length_nil, Tree.sizes_cons] at hbody ⊢
  omega

theorem paid_forStatement (each : ∀ u ∈ children, Pays table u)
    (h : forStatement table ctx t children s = .ok code s') :
    PaidBy (1 + Tree.sizes children) s code s' := by
  obtain ⟨bounds, body, rest, rfl⟩ := forStatement_children h
  obtain ⟨counter, c₀, r, c₁, inner, -, hrange, hinner, rfl⟩ := (forStatement_iff t rest).1 h
  have hhead := short_range hrange
  have hsize := bounds.size_eq
  have hbody := each body (by simp) hinner
  have hadvance : r.advance.length = 4 := rfl
  have htest : r.test.length = 3 := rfl
  simp only [PaidBy, length_loopCode, List.length_append, Tree.sizes_cons] at hbody ⊢
  omega

theorem pays (t : Tree) : Pays table t := by
  induction t using Tree.forall_of_children with
  | node tag token children each =>
    intro ctx s s' code h
    rw [Tree.size_node]
    cases tag with
    | compoundStmt =>
      obtain ⟨s₁, hitems, rfl⟩ := inScope_ok.1 h
      have hpaid := paid_blockItems each hitems
      exact PaidBy.mono hpaid (Nat.le_add_left _ _)
    | expStmt =>
      obtain ⟨c, hcode, rfl⟩ := liftScope_ok.1 h
      exact PaidBy.of_code ((short_expressionStatement hcode).trans (by omega)) rfl
    | ifStmt => exact paid_ifStatement each h
    | whileStmt => exact paid_whileStatement each h
    | forStmt => exact paid_forStatement each h
    | returnStmt =>
      obtain ⟨c, hcode, rfl⟩ := liftScope_ok.1 h
      exact PaidBy.of_code ((short_returnStatement hcode).trans (by omega)) rfl
    | breakStmt =>
      obtain ⟨exit, -, rfl, rfl⟩ := breakStatement_iff.1 h
      refine PaidBy.of_code ?_ rfl
      rw [List.length_singleton]
      omega
    | _ => exact absurd h (by simp [statement, throw_ok])

end Statements

end Lowering

def Image.instructions (image : Image) : Nat :=
  (image.functions.flatMap (·.code)).length + image.staticInit.length

namespace Session

theorem length_closeBody_le (result : Ty) (code : Code) : (closeBody result code).length ≤ code.length + 2 := by
  unfold closeBody
  split
  next => exact Nat.le_add_right _ _
  next =>
    have hdefault : (defaultValue result).length ≤ 1 := by cases result <;> simp [defaultValue]
    rw [List.length_append, List.length_append, List.length_singleton]
    omega

theorem size_of_find {decl block : Tree} {tag : Tag} (h : decl.find? tag = some block) :
    1 + block.size ≤ decl.size := by
  rw [Tree.size_eq decl]
  exact Nat.add_le_add_left (Tree.size_le_sizes (List.mem_of_find?_eq_some h)) 1

theorem paid_routine {decl : Tree} {s s' : Session} {g : Routine} (h : routine decl s = .ok g s') :
    g.code.length + s'.staticInit.code.length ≤ s.staticInit.code.length + 21 * decl.size := by
  obtain ⟨_, _, entry, block, code, b, -, -, -, -, hblock, hitems, hg, rfl⟩ := routine_iff.1 h
  have hpaid : code.length + b.staticInit.code.length ≤
      s.staticInit.code.length + 21 * Tree.sizes block.children := paid_blockItems (fun u _ => pays u) hitems
  have hclose := length_closeBody_le g.signature.result code
  have hsize := size_of_find hblock
  rw [Tree.size_eq block] at hsize
  rw [hg]
  dsimp only
  omega

theorem paid_routines {decls : List Tree} {s s' : Session} {gs : List Routine}
    (h : routines decls s = .ok gs s') :
    (gs.flatMap (·.code)).length + s'.staticInit.code.length ≤
      s.staticInit.code.length + 21 * Tree.sizes decls := by
  induction decls generalizing s gs with
  | nil =>
    obtain ⟨rfl, rfl⟩ := pure_ok.1 h
    exact Nat.le_of_eq (Nat.zero_add _)
  | cons decl rest ih =>
    rw [Tree.sizes_cons]
    rcases declaration_tag h with htag | htag
    · obtain ⟨code, s₁, hcode, hrest⟩ := (routines_variables htag).1 h
      obtain ⟨b, hb, rfl⟩ := inBody_ok.1 hcode
      have hfirst : code.length + b.staticInit.code.length ≤ s.staticInit.code.length + 21 * decl.size :=
        paid_declaration hb
      have hmore := ih hrest
      dsimp only at hmore
      omega
    · obtain ⟨g, s₁, more, hg, hmore, rfl⟩ := (routines_function htag).1 h
      have hfirst := paid_routine hg
      have hrest := ih hmore
      rw [List.flatMap_cons, List.length_append]
      omega

/-- What a program adds to the setup code that is there before it is paid for by its tree. -/
theorem instructions_le {program : Tree} {image : Image} {s s' : Session}
    (h : compileProgram program s = .ok image s') :
    image.instructions ≤ s.staticInit.code.length + 21 * program.size := by
  obtain ⟨-, s₀, s₁, hregister, hroutines, himage, -⟩ := compileProgram_iff.1 h
  have hinit : s₀.staticInit = s.staticInit := by rw [(registerAll_ok hregister).1]
  have hpaid := paid_routines hroutines
  have hsize := program.size_eq
  rw [hinit] at hpaid
  rw [himage]
  unfold Image.instructions
  dsimp only
  omega

end Session

/-- Every constant may stand for every other one. -/
abbrev AnyNumbers (_ _ : Int32) : Prop :=
  True

/-- The code of a program has at most 21 instructions for each node of its tree. If its arrays get other
lengths, the program is compiled again, to an image that differs in numbers that are pushed only. -/
theorem code_size_linear {program : Tree} {image : Image} {s : Session}
    (h : Session.compileProgram program .empty = .ok image s) :
    image.instructions ≤ 21 * program.size ∧
      ∀ resized, program.Resembles AnyNumbers resized → ∃ image' s',
        Session.compileProgram resized .empty = .ok image' s' ∧ image.Resembles AnyNumbers image' := by
  constructor
  · have hle := Session.instructions_le h
    change image.instructions ≤ 0 + 21 * program.size at hle
    rwa [Nat.zero_add] at hle
  · intro resized hresized
    have hstart : Session.empty.Resembles AnyNumbers Session.empty := ⟨rfl, rfl, ⟨.nil, rfl⟩⟩
    have hend := Session.compileProgram_resembles hresized _ _ hstart
    rw [h] at hend
    generalize hrun : Session.compileProgram resized .empty = run at hend
    cases hend with
    | ok images _ => exact ⟨_, _, rfl, images⟩

def filledArray (length : String) : Tree :=
  .inner .program [.inner .varDecl [.marked .typeSpec ⟨.keyword, "int", 1⟩ [],
    .inner .varDeclInit [.marked .varDeclId ⟨.identifier, "a", 1⟩ [.marked .constant ⟨.number, length, 1⟩ []],
      .marked .constant ⟨.number, "7", 1⟩ []]]]

theorem filledArray_resembles : (filledArray "2").Resembles AnyNumbers (filledArray "300") := by
  have leaf : ∀ tag token, (Tree.marked tag token []).Resembles AnyNumbers (Tree.marked tag token []) :=
    fun _ _ => .node rfl .nil
  have htwo : arrayLength (.marked .constant ⟨.number, "2", 1⟩ []) = .ok 2 := rfl
  have hmany : arrayLength (.marked .constant ⟨.number, "300", 1⟩ []) = .ok 300 := rfl
  refine .node rfl (.cons (.declaration rfl (.cons (.same (leaf _ _)) (.cons ?_ .nil))) .nil)
  exact .array rfl rfl htwo hmany trivial .nil (.cons (leaf _ _) .nil)

/-- The loop that fills the array has 18 instructions for any length. -/
theorem code_size_linear_filled : ∃ image s image' s',
    Session.compileProgram (filledArray "2") .empty = .ok image s ∧ image.instructions = 22 ∧
      image.instructions ≤ 21 * (filledArray "2").size ∧
      Session.compileProgram (filledArray "300") .empty = .ok image' s' ∧ image.Resembles AnyNumbers image' := by
  have hrun : (succeeded? (Session.compileProgram (filledArray "2") .empty)).any
      (fun r => decide (r.1.instructions = 22)) = true := by decide +kernel
  obtain ⟨image, s, hcompile, hcount⟩ := ok_of_succeeded hrun
  obtain ⟨hle, hresized⟩ := code_size_linear hcompile
  obtain ⟨image', s', hcompile', himages⟩ := hresized _ filledArray_resembles
  exact ⟨image, s, image', s', hcompile, of_decide_eq_true hcount, hle, hcompile', himages⟩

end StackCompiler
