import StackCompiler.Proofs.Typing.SourceTrees

/-!
Expressions are lowered exactly if they have a type. What the rules need of the open scopes is the
environment of names and types; temporaries do not change it.
-/

set_option autoImplicit false
namespace StackCompiler

open Lowering Typing
open Grammar (Level)

def ScopeChain.environment (c : ScopeChain) : Environment :=
  c.scopes.map fun scope => scope.symbols.map fun s => (s.name, s.ty)

theorem Scope.lookup_types (scope : Scope) (name : String) :
    (scope.symbols.map fun s => (s.name, s.ty)).lookup name = (scope.lookup? name).map Symbol.ty := by
  rw [Scope.lookup?]
  induction scope.symbols with
  | nil => rfl
  | cons s rest ih =>
    by_cases hname : s.name = name
    · simp [hname]
    · have hne : (name == s.name) = false := by simpa using Ne.symm hname
      have hne' : (s.name == name) = false := by simpa using hname
      rw [List.map_cons, List.lookup_cons, hne, List.find?_cons, hne']
      exact ih

namespace ScopeChain

variable {c c' : ScopeChain}

theorem typeOf_environment (c : ScopeChain) (name : String) :
    c.environment.typeOf? name = (c.resolve? name).map Symbol.ty := by
  rw [Environment.typeOf?, environment, resolve?]
  change _ = (List.findSome? _ c.scopes).map Symbol.ty
  induction c.scopes with
  | nil => rfl
  | cons scope rest ih =>
    rw [List.map_cons, List.findSome?_cons, List.findSome?_cons, Scope.lookup_types]
    cases scope.lookup? name with
    | none => exact ih
    | some s => rfl

theorem typeOf_of_resolve {name : String} {symbol : Symbol} (h : c.resolve? name = some symbol) :
    c.environment.typeOf? name = some symbol.ty := by
  rw [typeOf_environment, h]
  rfl

theorem resolve_of_typeOf {name : String} {ty : Ty} (h : c.environment.typeOf? name = some ty) :
    ∃ symbol, c.resolve? name = some symbol ∧ symbol.ty = ty := by
  rw [typeOf_environment] at h
  exact Option.map_eq_some_iff.1 h

theorem environment_eq (hsymbols : c'.innermost.symbols = c.innermost.symbols)
    (henclosing : c'.enclosing = c.enclosing) : c'.environment = c.environment := by
  simp only [environment, scopes, List.map_cons, hsymbols, henclosing]

theorem Temps.environment (h : Temps c c') : c'.environment = c.environment :=
  environment_eq h.symbols h.enclosing

end ScopeChain

namespace Typing

def offeredBy (table : FunctionTable) : Functions := fun name types result =>
  ∃ signature, table.lookup? name = some signature ∧ signature.parameters = types ∧
    signature.result = result

def Holds (functions : Functions) (table : FunctionTable) : Prop :=
  ∀ name types result, functions name types result ↔ offeredBy table name types result

/-! Operators. -/

theorem compared_iff {op : Token} {ty : Ty} :
    (∃ instr, binaryInstr? op.lexeme = some instr ∧ Compares instr ty) ↔ Compared op ty := by
  constructor
  · rintro ⟨instr, hop, ⟨hinstr, hscalar⟩ | ⟨hinstr, hordered⟩⟩
    · refine .equality ?_ hscalar
      unfold binaryInstr? at hop
      split at hop <;> cases hop <;> simp_all
    · refine .order ?_ hordered
      unfold binaryInstr? at hop
      split at hop <;> cases hop <;> simp_all
  · rintro (⟨hop, hscalar⟩ | ⟨hop, hordered⟩)
    · simp only [List.mem_cons, List.not_mem_nil, or_false] at hop
      rcases hop with hop | hop
      · exact ⟨.eq, by rw [hop]; rfl, .inl ⟨by simp, hscalar⟩⟩
      · exact ⟨.ne, by rw [hop]; rfl, .inl ⟨by simp, hscalar⟩⟩
    · simp only [List.mem_cons, List.not_mem_nil, or_false] at hop
      rcases hop with hop | hop | hop | hop
      · exact ⟨.lt, by rw [hop]; rfl, .inr ⟨by simp, hordered⟩⟩
      · exact ⟨.le, by rw [hop]; rfl, .inr ⟨by simp, hordered⟩⟩
      · exact ⟨.gt, by rw [hop]; rfl, .inr ⟨by simp, hordered⟩⟩
      · exact ⟨.ge, by rw [hop]; rfl, .inr ⟨by simp, hordered⟩⟩

theorem unaryOperator_iff {op : Token} {t : Tree} {ty : Ty} :
    (∃ instr, unaryOperator (.marked .unaryExp op [t]) (.value ty) = .ok instr) ↔
      (op.lexeme ∈ ["-", "?"] ∧ ty = .int) ∨ (op.lexeme = "*" ∧ ∃ element, ty = .array element) := by
  unfold unaryOperator
  rw [lexeme_marked, Grammar.ok_bind]
  split
  next h => simp [h, Grammar.bind_eq_ok, expectValue_ok, pure, Except.pure]
  next h => simp [h, Grammar.bind_eq_ok, expectValue_ok, pure, Except.pure]
  next h => cases ty <;> simp [h, pure, Except.pure, throw, throwThe, MonadExceptOf.throw]
  next => simp_all [throw, throwThe, MonadExceptOf.throw]

theorem assignmentOperator_plain {op : Token} {children : List Tree} :
    assignmentOperator (.marked .assign op children) = .ok none ↔ op.lexeme = "=" := by
  unfold assignmentOperator
  rw [lexeme_marked, Grammar.ok_bind]
  split <;> simp_all [pure, Except.pure, throw, throwThe, MonadExceptOf.throw]

theorem assignmentOperator_update {op : Token} {children : List Tree} :
    (∃ instr, assignmentOperator (.marked .assign op children) = .ok (some instr)) ↔
      op.lexeme ∈ ["+=", "-=", "*=", "/="] := by
  unfold assignmentOperator
  rw [lexeme_marked, Grammar.ok_bind]
  split <;> simp_all [pure, Except.pure, throw, throwThe, MonadExceptOf.throw]

theorem stepOperator_iff {op : Token} {children : List Tree} :
    (∃ instr, stepOperator (.marked .incDec op children) = .ok instr) ↔ op.lexeme ∈ ["++", "--"] := by
  unfold stepOperator
  rw [lexeme_marked, Grammar.ok_bind]
  split <;> simp_all [pure, Except.pure, throw, throwThe, MonadExceptOf.throw]

/-! From lowering to types. -/

def SourceTyped (functions : Functions) (env : Environment) : Source → Ty → Prop
  | .value t, ty => HasType functions env t ty
  | .one, ty => ty = .int
  | .input type, ty => ty = type ∧ ty.isScalar = true

def HaveTypes (functions : Functions) (env : Environment) (trees : List Tree) (types : List Ty) : Prop :=
  trees.length = types.length ∧ ∀ arg ∈ trees.zip types, HasType functions env arg.1 arg.2

def FormTyped (functions : Functions) (env : Environment) : Form → Ty → Prop
  | .value t, ty | .stored _ t, ty => HasType functions env t ty
  | .store _ op target source, ty => target.tag = .mutable ∧ HasType functions env target ty ∧
    SourceTyped functions env source ty ∧ Storing op ty
  | .source source, ty => SourceTyped functions env source ty
  | .links level nodes, _ => ∃ links, nodes = linkNodes links ∧
    (∀ link ∈ links, level.Connective link.1) ∧ ∀ link ∈ links, HasType functions env link.2 level.ty
  | .arguments types args, _ => HaveTypes functions env args types
  | .printed args, _ => ∃ types, (∀ ty ∈ types, ty.isScalar = true) ∧ HaveTypes functions env args types
  | .filled args, _ => (∀ t ∈ args, t.tag = .mutable) ∧
    ∃ types, (∀ ty ∈ types, ty.isScalar = true) ∧ HaveTypes functions env args types

variable {functions : Functions} {table : FunctionTable} {env : Environment}

theorem HaveTypes.cons {t : Tree} {trees : List Tree} {ty : Ty} {types : List Ty}
    (first : HasType functions env t ty) (rest : HaveTypes functions env trees types) :
    HaveTypes functions env (t :: trees) (ty :: types) := by
  refine ⟨by simpa using rest.1, ?_⟩
  intro arg harg
  rcases List.mem_cons.1 harg with rfl | harg
  · exact first
  · exact rest.2 arg harg

theorem HaveTypes.nil : HaveTypes functions env [] [] :=
  ⟨rfl, by simp⟩

theorem storing_none (ty : Ty) : Storing none ty := by
  intro instr hinstr
  cases hinstr

/-- The trees below a node of a source. -/
theorem sourced_below {u : Tree} {trees : List Tree} (h : ∀ t ∈ [u], t.FromSource)
    (hsubset : ∀ t ∈ trees, t ∈ u.children) : ∀ t ∈ trees, t.FromSource :=
  fun t ht => (h u (List.mem_singleton_self u)).child (hsubset t ht)

/-- What is lowered has a type, in the environment before it. -/
theorem typed_of_lowers (hfunctions : Holds functions table) {form : Form} {c c' : ScopeChain} {ty : Ty}
    {code : Code} (h : Lowers table form c ty code c') (hsource : ∀ t ∈ form.trees, t.FromSource) :
    FormTyped functions c.environment form ty := by
  -- The parts of a form are lowered one behind the other, but in the same environment: lowering an
  -- expression takes slots for its own values and declares no names.
  induction h with
  | constant hliteral =>
    have hscanned := (hsource _ (List.mem_singleton_self _)).scanned (token_marked ..)
    exact .literal ((literal_iff hscanned).1 ⟨_, hliteral⟩)
  | «variable» hfound => exact .variable (ScopeChain.typeOf_of_resolve hfound)
  | element hfound harray _ ih =>
    have hdeclared := ScopeChain.typeOf_of_resolve hfound
    rw [harray] at hdeclared
    exact .element hdeclared (ih (sourced_below hsource (by simp [Form.trees, Tree.marked])))
  | paren _ ih => exact .paren (ih (sourced_below hsource (by simp [Form.trees, Tree.marked])))
  | chain operand _ first rest =>
    have hfirst := first (sourced_below hsource (by simp [Form.trees, Tree.inner]))
    obtain ⟨links, rfl, hoperators, hoperands⟩ :=
      rest (sourced_below hsource (by simp +contextual [Form.trees, Tree.inner]))
    rw [operand.temps.environment] at hoperands
    exact .chain hoperators hfirst hoperands
  | noLinks => exact ⟨[], rfl, by simp, by simp⟩
  | @link level op t _ _ _ _ _ _ _ isOp _ operand _ first rest =>
    have hfirst := first (by simpa [Form.trees] using hsource t (by simp [Form.trees]))
    obtain ⟨links, rfl, hoperators, hoperands⟩ := rest fun u hu => hsource u (by simp_all [Form.trees])
    rw [operand.temps.environment] at hoperands
    exact ⟨(op, t) :: links, rfl, List.forall_mem_cons.2 ⟨isOp, hoperators⟩,
      List.forall_mem_cons.2 ⟨hfirst, hoperands⟩⟩
  | compare hop hdefined left _ first second =>
    have hfirst := first (sourced_below hsource (by simp [Form.trees, Tree.inner]))
    have hsecond := second (sourced_below hsource (by simp [Form.trees, Tree.inner]))
    rw [left.temps.environment] at hsecond
    exact .compare (compared_iff.1 ⟨_, hop, hdefined⟩) hfirst hsecond
  | negate _ ih => exact .negate (ih (sourced_below hsource (by simp [Form.trees, Tree.marked])))
  | unary hop _ ih =>
    have hoperand := ih (sourced_below hsource (by simp [Form.trees, Tree.marked]))
    rcases unaryOperator_iff.1 ⟨_, hop⟩ with ⟨hword, rfl⟩ | ⟨hword, element, rfl⟩
    · exact .sign hword hoperand
    · exact .length hword hoperand
  | call plain hlookup _ _ ih =>
    obtain ⟨hcount, heach⟩ := ih (sourced_below hsource (by simp [Form.trees, Tree.marked]))
    exact .call plain ((hfunctions _ _ _).2 ⟨_, hlookup, rfl, rfl⟩) hcount heach
  | print isPrint scalar _ ih =>
    exact .print isPrint scalar (ih (sourced_below hsource (by simp [Form.trees, Tree.marked])))
  | printFormatted isPrint format _ first rest =>
    have hfirst := first (sourced_below hsource (by simp [Form.trees, Tree.marked]))
    obtain ⟨types, hscalar, hcount, heach⟩ :=
      rest (sourced_below hsource (by simp +contextual [Form.trees, Tree.marked]))
    rw [format.temps.environment] at heach
    exact .printFormatted isPrint (by simp) hcount hscalar hfirst heach
  | put isPut nonempty _ ih =>
    obtain ⟨hmutable, types, hscalar, hcount, heach⟩ :=
      ih (sourced_below hsource (by simp [Form.trees, Tree.marked]))
    exact .put isPut nonempty hmutable hcount hscalar heach
  | kept _ ih | value _ ih => exact ih hsource
  | @assign _ _ _ _ instr _ _ _ _ hop _ ih =>
    obtain ⟨hmutable, hleft, hright, hstoring⟩ :=
      ih (sourced_below hsource (by simp [Form.trees, Source.trees, Tree.marked]))
    cases instr with
    | none => exact .assign (assignmentOperator_plain.1 hop) hmutable hleft hright
    | some instr =>
      obtain ⟨rfl, -⟩ := hstoring instr rfl
      exact .update (assignmentOperator_update.1 ⟨_, hop⟩) hmutable hleft hright
  | step hop _ ih =>
    obtain ⟨hmutable, hleft, -⟩ :=
      ih (sourced_below hsource (by simp [Form.trees, Source.trees, Tree.marked]))
    exact .step (stepOperator_iff.1 ⟨_, hop⟩) hmutable hleft
  | storeVariable hfound storing _ _ ih =>
    have hvalue := ih fun u hu => hsource u (by simp_all [Form.trees])
    exact ⟨rfl, .variable (ScopeChain.typeOf_of_resolve hfound), hvalue, storing⟩
  | @storeElement _ _ name index _ _ _ _ _ _ _ _ _ _ hfound harray storing position _ _ first second =>
    have hnode := hsource (.marked .mutable name [index]) (by simp [Form.trees])
    have hindex := first (List.forall_mem_singleton.2 (hnode.child (List.mem_singleton_self index)))
    have hvalue := second fun u hu => hsource u (by simp_all [Form.trees])
    rw [position.temps.environment] at hvalue
    have hdeclared := ScopeChain.typeOf_of_resolve hfound
    rw [harray] at hdeclared
    exact ⟨rfl, .element hdeclared hindex, hvalue, storing⟩
  | one => exact rfl
  | input scalar => exact ⟨rfl, scalar⟩
  | noArguments => exact .nil
  | argument operand _ first rest =>
    have hrest := rest fun u hu => hsource u (by simp_all [Form.trees])
    rw [operand.temps.environment] at hrest
    exact .cons (first fun u hu => hsource u (by simp_all [Form.trees])) hrest
  | noPrinted => exact ⟨[], by simp, .nil⟩
  | @printed ty _ _ _ _ _ _ _ scalar operand _ first rest =>
    obtain ⟨types, hscalar, hrest⟩ := rest fun u hu => hsource u (by simp_all [Form.trees])
    rw [operand.temps.environment] at hrest
    exact ⟨ty :: types, List.forall_mem_cons.2 ⟨scalar, hscalar⟩,
      .cons (first fun u hu => hsource u (by simp_all [Form.trees])) hrest⟩
  | noFilled => exact ⟨by simp, [], by simp, .nil⟩
  | @filled ty _ _ _ _ _ _ _ operand _ first rest =>
    obtain ⟨hmutable, hfirst, ⟨-, hscalar⟩, -⟩ :=
      first fun u hu => hsource u (by simp_all [Form.trees, Source.trees])
    obtain ⟨hmutables, types, hscalars, hrest⟩ := rest fun u hu => hsource u (by simp_all [Form.trees])
    rw [operand.temps.environment] at hrest
    exact ⟨List.forall_mem_cons.2 ⟨hmutable, hmutables⟩, ty :: types,
      List.forall_mem_cons.2 ⟨hscalar, hscalars⟩, .cons hfirst hrest⟩

/-! From types to lowering. -/

/-- Wherever the environment is this one, the form is lowered. -/
def Accepts (table : FunctionTable) (env : Environment) (form : Form) (ty : Ty) : Prop :=
  ∀ c : ScopeChain, c.environment = env → ∃ code c', Lowers table form c ty code c'

theorem connective_instr {level : Level} {op : Token} (h : level.Connective op) :
    ∃ instr, binaryInstr? op.lexeme = some instr := by
  cases level <;> simp only [Level.Connective, Token.OneOf, List.mem_cons, List.not_mem_nil, or_false] at h
  · rcases h with ⟨-, h⟩ | ⟨-, h⟩ <;> exact ⟨.or, by rw [h]; rfl⟩
  · rcases h with ⟨-, h⟩ | ⟨-, h⟩ <;> exact ⟨.and, by rw [h]; rfl⟩
  · rcases h with ⟨-, h | h⟩
    · exact ⟨.max, by rw [h]; rfl⟩
    · exact ⟨.min, by rw [h]; rfl⟩
  · rcases h with ⟨-, h | h⟩
    · exact ⟨.add, by rw [h]; rfl⟩
    · exact ⟨.sub, by rw [h]; rfl⟩
  · rcases h with ⟨-, h | h | h⟩
    · exact ⟨.mul, by rw [h]; rfl⟩
    · exact ⟨.div, by rw [h]; rfl⟩
    · exact ⟨.rem, by rw [h]; rfl⟩

theorem accepts_links {level : Level} {links : List (Token × Tree)}
    (operators : ∀ link ∈ links, level.Connective link.1)
    (operands : ∀ link ∈ links, Accepts table env (.value link.2) level.ty) :
    Accepts table env (.links level (linkNodes links)) .void := by
  induction links with
  | nil => exact fun c _ => ⟨_, _, .noLinks⟩
  | cons link rest ih =>
    intro c hc
    rw [List.forall_mem_cons] at operators operands
    obtain ⟨instr, hinstr⟩ := connective_instr operators.1
    obtain ⟨code, c₁, hfirst⟩ := operands.1 c hc
    obtain ⟨more, c', hrest⟩ := ih operators.2 operands.2 c₁ (hfirst.temps.environment.trans hc)
    exact ⟨_, c', .link operators.1 hinstr hfirst hrest⟩

theorem accepts_arguments {types : List Ty} {args : List Tree} (count : args.length = types.length)
    (each : ∀ arg ∈ args.zip types, Accepts table env (.value arg.1) arg.2) :
    Accepts table env (.arguments types args) .void := by
  induction args generalizing types with
  | nil =>
    cases List.length_eq_zero_iff.1 count.symm
    exact fun c _ => ⟨_, _, .noArguments⟩
  | cons t args ih =>
    cases types with
    | nil => cases count
    | cons ty types =>
      intro c hc
      rw [List.zip_cons_cons, List.forall_mem_cons] at each
      obtain ⟨code, c₁, hfirst⟩ := each.1 c hc
      obtain ⟨more, c', hrest⟩ := ih (by simpa using count) each.2 c₁ (hfirst.temps.environment.trans hc)
      exact ⟨_, c', .argument hfirst hrest⟩

theorem accepts_printed {types : List Ty} {args : List Tree} (count : args.length = types.length)
    (scalar : ∀ ty ∈ types, ty.isScalar = true)
    (each : ∀ arg ∈ args.zip types, Accepts table env (.value arg.1) arg.2) :
    Accepts table env (.printed args) .void := by
  induction args generalizing types with
  | nil => exact fun c _ => ⟨_, _, .noPrinted⟩
  | cons t args ih =>
    cases types with
    | nil => cases count
    | cons ty types =>
      intro c hc
      rw [List.zip_cons_cons, List.forall_mem_cons] at each
      rw [List.forall_mem_cons] at scalar
      obtain ⟨code, c₁, hfirst⟩ := each.1 c hc
      obtain ⟨more, c', hrest⟩ :=
        ih (by simpa using count) scalar.2 each.2 c₁ (hfirst.temps.environment.trans hc)
      exact ⟨_, c', .printed scalar.1 hfirst hrest⟩

/-- A lowered location is a target, too. -/
theorem targets_of_lowers {t : Tree} {c c' : ScopeChain} {ty : Ty} {code : Code}
    (h : Lowers table (.value t) c ty code c') (mutable : t.tag = .mutable) :
    ∃ r, Targets table t c r c' ∧ r.ty = ty := by
  cases h with
  | «variable» hfound => exact ⟨_, .inl ⟨_, _, rfl, hfound, rfl, rfl⟩, rfl⟩
  | element hfound harray hindex => exact ⟨_, .inr ⟨_, _, _, _, _, rfl, hfound, harray, hindex, rfl⟩, rfl⟩
  | @chain level => cases level <;> cases mutable
  | kept inner => cases inner <;> cases mutable
  | _ => cases mutable

theorem assign_succeeds (r : Target) (value : Code) (op : Option Instr) (keep : Bool) (c : ScopeChain) :
    ∃ code c', r.assign value op keep c = .ok code c' := by
  obtain ⟨place, ty, index⟩ := r
  cases index <;> cases op <;> cases keep <;> exact ⟨_, _, rfl⟩

theorem accepts_store {t : Tree} {source : Source} {ty : Ty} {op : Option Instr} {keep : Bool}
    (mutable : t.tag = .mutable) (left : Accepts table env (.value t) ty) (storing : Storing op ty)
    (right : Accepts table env (.source source) ty) : Accepts table env (.store keep op t source) ty := by
  intro c hc
  obtain ⟨_, c₁, hleft⟩ := left c hc
  obtain ⟨r, htargets, rfl⟩ := targets_of_lowers hleft mutable
  obtain ⟨value, c₂, hright⟩ := right c₁ (hleft.temps.environment.trans hc)
  obtain ⟨code, c', hassign⟩ := assign_succeeds r value op keep c₂
  exact ⟨code, c', htargets.store storing hright hassign⟩

theorem accepts_filled {types : List Ty} {args : List Tree} (count : args.length = types.length)
    (mutable : ∀ t ∈ args, t.tag = .mutable) (scalar : ∀ ty ∈ types, ty.isScalar = true)
    (each : ∀ arg ∈ args.zip types, Accepts table env (.value arg.1) arg.2) :
    Accepts table env (.filled args) .void := by
  induction args generalizing types with
  | nil => exact fun c _ => ⟨_, _, .noFilled⟩
  | cons t args ih =>
    cases types with
    | nil => cases count
    | cons ty types =>
      intro c hc
      rw [List.zip_cons_cons, List.forall_mem_cons] at each
      rw [List.forall_mem_cons] at scalar mutable
      have hinput : Accepts table env (.source (.input ty)) ty := fun c _ => ⟨_, _, .input scalar.1⟩
      obtain ⟨code, c₁, hfirst⟩ := accepts_store mutable.1 each.1 (storing_none ty) hinput c hc
      obtain ⟨more, c', hrest⟩ :=
        ih (by simpa using count) mutable.2 scalar.2 each.2 c₁ (hfirst.temps.environment.trans hc)
      exact ⟨_, c', .filled hfirst hrest⟩

theorem Accepts.value {t : Tree} {ty : Ty} (h : Accepts table env (.value t) ty) :
    Accepts table env (.source (.value t)) ty := by
  intro c hc
  obtain ⟨code, c', hvalue⟩ := h c hc
  exact ⟨code, c', .value hvalue⟩

/-- An operator of an assignment or a step works on ints. -/
theorem storing_update {op : Token} {children : List Tree} {instr : Instr}
    (h : assignmentOperator (.marked .assign op children) = .ok (some instr)) : Storing (some instr) .int :=
  assignmentOperator_ok h (.inr rfl)

/-- An expression with a type is lowered. -/
theorem HasType.accepts (hfunctions : Holds functions table) {t : Tree} {ty : Ty}
    (h : HasType functions env t ty) (hsource : t.FromSource) : Accepts table env (.value t) ty := by
  -- `Accepts` is about all chains with this environment, since each operand starts from the chain that
  -- the operand before it leaves.
  induction h with
  | literal htype =>
    obtain ⟨push, hpush⟩ := (literal_iff (hsource.scanned (token_marked ..))).2 htype
    exact fun c _ => ⟨_, _, .constant hpush⟩
  | «variable» hdeclared =>
    intro c hc
    rw [← hc] at hdeclared
    obtain ⟨symbol, hfound, rfl⟩ := ScopeChain.resolve_of_typeOf hdeclared
    exact ⟨_, _, .variable hfound⟩
  | element hdeclared _ position =>
    intro c hc
    obtain ⟨code, c', hindex⟩ := position (hsource.child (by simp [Tree.marked])) c hc
    rw [← hc] at hdeclared
    obtain ⟨symbol, hfound, harray⟩ := ScopeChain.resolve_of_typeOf hdeclared
    exact ⟨_, c', .element hfound harray hindex⟩
  | paren _ inner =>
    intro c hc
    obtain ⟨code, c', hinner⟩ := inner (hsource.child (by simp [Tree.marked])) c hc
    exact ⟨code, c', .paren hinner⟩
  | chain operators _ _ operand operands =>
    intro c hc
    obtain ⟨code, c₁, hfirst⟩ := operand (hsource.child (by simp [Tree.inner])) c hc
    have hlinks := accepts_links operators fun link hlink => operands link hlink (hsource.child ?_)
    · obtain ⟨more, c', hrest⟩ := hlinks c₁ (hfirst.temps.environment.trans hc)
      exact ⟨_, c', .chain hfirst hrest⟩
    · exact List.mem_cons_of_mem _ (List.mem_flatMap.2 ⟨link, hlink, by simp⟩)
  | compare defined _ _ first second =>
    intro c hc
    obtain ⟨instr, hinstr, hcompares⟩ := compared_iff.2 defined
    obtain ⟨code, c₁, hleft⟩ := first (hsource.child (by simp [Tree.inner])) c hc
    obtain ⟨code', c', hright⟩ :=
      second (hsource.child (by simp [Tree.inner])) c₁ (hleft.temps.environment.trans hc)
    exact ⟨_, c', .compare hinstr hcompares hleft hright⟩
  | negate _ operand =>
    intro c hc
    obtain ⟨code, c', hoperand⟩ := operand (hsource.child (by simp [Tree.marked])) c hc
    exact ⟨_, c', .negate hoperand⟩
  | @sign _ t isOp _ operand =>
    intro c hc
    obtain ⟨instr, hinstr⟩ := (@unaryOperator_iff _ t _).2 (.inl ⟨isOp, rfl⟩)
    obtain ⟨code, c', hoperand⟩ := operand (hsource.child (by simp [Tree.marked])) c hc
    exact ⟨_, c', .unary hinstr hoperand⟩
  | @length _ t _ isOp _ operand =>
    intro c hc
    obtain ⟨instr, hinstr⟩ := (@unaryOperator_iff _ t _).2 (.inr ⟨isOp, _, rfl⟩)
    obtain ⟨code, c', hoperand⟩ := operand (hsource.child (by simp [Tree.marked])) c hc
    exact ⟨_, c', .unary hinstr hoperand⟩
  | call plain declared count _ each =>
    intro c hc
    obtain ⟨signature, hlookup, rfl, rfl⟩ := (hfunctions _ _ _).1 declared
    have hargs := accepts_arguments count fun arg harg =>
      each arg harg (hsource.child (List.of_mem_zip harg).1)
    obtain ⟨code, c', hinner⟩ := hargs c hc
    exact ⟨_, c', .call plain hlookup count hinner⟩
  | print isPrint scalar _ value =>
    intro c hc
    obtain ⟨code, c', hvalue⟩ := value (hsource.child (by simp [Tree.marked])) c hc
    exact ⟨_, c', .print isPrint scalar hvalue⟩
  | @printFormatted _ _ values _ isPrint nonempty count scalar _ _ format each =>
    intro c hc
    obtain ⟨code, c₁, hformat⟩ := format (hsource.child (by simp [Tree.marked])) c hc
    have hvalues := accepts_printed count scalar fun arg harg =>
      each arg harg (hsource.child (List.mem_cons_of_mem _ (List.of_mem_zip harg).1))
    obtain ⟨more, c', hmore⟩ := hvalues c₁ (hformat.temps.environment.trans hc)
    cases values with
    | nil => exact absurd rfl nonempty
    | cons next rest => exact ⟨_, c', .printFormatted isPrint hformat hmore⟩
  | put isPut nonempty mutable count scalar _ each =>
    intro c hc
    have htargets := accepts_filled count mutable scalar fun arg harg =>
      each arg harg (hsource.child (List.of_mem_zip harg).1)
    obtain ⟨code, c', hinner⟩ := htargets c hc
    exact ⟨_, c', .put isPut nonempty hinner⟩
  | assign isOp mutable _ _ left right =>
    intro c hc
    have hstore := @accepts_store _ _ _ _ _ _ true mutable (left (hsource.child (by simp [Tree.marked])))
      (storing_none _) (right (hsource.child (by simp [Tree.marked]))).value
    obtain ⟨code, c', hinner⟩ := hstore c hc
    exact ⟨_, c', .kept (.assign (assignmentOperator_plain.2 isOp) hinner)⟩
  | update isOp mutable _ _ left right =>
    intro c hc
    obtain ⟨instr, hinstr⟩ := assignmentOperator_update.2 isOp
    have hstore := @accepts_store _ _ _ _ _ _ true mutable (left (hsource.child (by simp [Tree.marked])))
      (storing_update hinstr) (right (hsource.child (by simp [Tree.marked]))).value
    obtain ⟨code, c', hinner⟩ := hstore c hc
    exact ⟨_, c', .kept (.assign hinstr hinner)⟩
  | step isOp mutable _ left =>
    intro c hc
    obtain ⟨instr, hinstr⟩ := stepOperator_iff.2 isOp
    have hone : Accepts table env (.source .one) .int := fun c _ => ⟨_, _, .one⟩
    have hstore := @accepts_store _ _ _ _ _ _ true mutable (left (hsource.child (by simp [Tree.marked])))
      (stepOperator_ok hinstr) hone
    obtain ⟨code, c', hinner⟩ := hstore c hc
    exact ⟨_, c', .kept (.step hinstr hinner)⟩

end Typing

end StackCompiler
