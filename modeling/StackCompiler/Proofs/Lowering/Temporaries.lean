import StackCompiler.Proofs.Lowering.StraightCode

/-!
Expressions take temporaries and do nothing else to the open scopes. This holds of every tree, and also
where lowering fails: what was taken before the failure stays taken.
-/

set_option autoImplicit false
namespace StackCompiler.Lowering

open ScopeChain

/-! What a computation keeps whether it succeeds or fails. -/

section Maintains

variable {σ α β : Type} {I : σ → Prop}

def lastState : EStateM.Result Diagnostic σ α → σ
  | .ok _ s => s
  | .error _ s => s

/-- The invariant `I` holds behind the computation if it holds before, also if the computation fails. -/
def Maintains (I : σ → Prop) (m : EStateM Diagnostic σ α) : Prop :=
  ∀ s, I s → I (lastState (m s))

theorem Maintains.of_ok {m : EStateM Diagnostic σ α} (h : Maintains I m) {s s' : σ} {a : α}
    (hm : m s = .ok a s') (hs : I s) : I s' := by
  have hlast := h s hs
  rw [hm] at hlast
  exact hlast

theorem Maintains.bind {m : EStateM Diagnostic σ α} {f : α → EStateM Diagnostic σ β} (hm : Maintains I m)
    (hf : ∀ a s s', m s = .ok a s' → Maintains I (f a)) : Maintains I (m >>= f) := by
  intro s hs
  have hlast := hm s hs
  change I (lastState (EStateM.bind m f s))
  unfold EStateM.bind
  cases hcase : m s with
  | ok a s' =>
    rw [hcase] at hlast
    exact hf a s s' hcase s' hlast
  | error e s' =>
    rw [hcase] at hlast
    exact hlast

theorem maintains_pure (a : α) : Maintains I (pure a : EStateM Diagnostic σ α) :=
  fun _ hs => hs

theorem maintains_throw (e : Diagnostic) : Maintains I (throw e : EStateM Diagnostic σ α) :=
  fun _ hs => hs

theorem maintains_get : Maintains I (get : EStateM Diagnostic σ σ) :=
  fun _ hs => hs

theorem maintains_lift (x : Except Diagnostic α) : Maintains I (liftM x : EStateM Diagnostic σ α) := by
  intro s hs
  cases x <;> exact hs

theorem maintains_modifyGet {f : σ → α × σ} (hf : ∀ s, I s → I (f s).2) :
    Maintains I (modifyGet f : EStateM Diagnostic σ α) := by
  intro s hs
  have hlast := hf s hs
  change I (lastState (match f s with | (a, s) => EStateM.Result.ok a s))
  rcases hpair : f s with ⟨a, s'⟩
  rw [hpair] at hlast
  exact hlast

end Maintains

/-! Expressions. -/

/-- Behind `c` the computation takes temporaries and does nothing else, also if it fails. -/
abbrev OnlyTemps {α : Type} (c : ScopeChain) (m : ScopeM α) : Prop :=
  Maintains (Temps c) m

variable {table : FunctionTable} {c : ScopeChain} {t : Tree} {children : List Tree}

theorem onlyTemps_reserveTemp (ty : Ty) : OnlyTemps c (reserveTemp ty) :=
  maintains_modifyGet fun _ h => h.more ty

theorem onlyTemps_resolve (t : Tree) : OnlyTemps c (resolve t) := by
  refine .bind (maintains_lift _) fun name _ _ _ => .bind maintains_get fun d _ _ _ => ?_
  cases hsymbol : d.resolve? name with
  | none => exact maintains_throw _
  | some symbol => exact maintains_pure _

theorem onlyTemps_storeElement (element : Ty) (keep : Bool) :
    OnlyTemps c (Target.storeElement element keep) := by
  cases keep with
  | false => exact maintains_pure _
  | true => exact .bind (onlyTemps_reserveTemp element) fun _ _ _ _ => maintains_pure _

/-- A store takes a temporary for its index, and one for the value it keeps on the stack. -/
theorem onlyTemps_assign (r : Target) (value : Code) (op : Option Instr) (keep : Bool) :
    OnlyTemps c (r.assign value op keep) := by
  obtain ⟨place, ty, index⟩ := r
  cases index with
  | none => cases op <;> exact maintains_pure _
  | some index =>
    cases op with
    | none => exact .bind (onlyTemps_storeElement ty keep) fun _ _ _ _ => maintains_pure _
    | some op =>
      refine .bind (onlyTemps_reserveTemp .int) fun _ _ _ _ => ?_
      exact .bind (onlyTemps_storeElement ty keep) fun _ _ _ _ => maintains_pure _

structure TakesTemps (table : FunctionTable) (c : ScopeChain) (t : Tree) : Prop where
  value : OnlyTemps c (expression table t)
  target : OnlyTemps c (target table t)

/-! One lemma for each form of expression, from what is known of the children of the node. -/

theorem onlyTemps_location (each : ∀ u ∈ children, TakesTemps table c u) :
    OnlyTemps c (location table t children) := by
  cases children with
  | nil => exact .bind (onlyTemps_resolve t) fun _ _ _ _ => maintains_pure _
  | cons index rest =>
    refine .bind (onlyTemps_resolve t) fun _ _ _ _ => .bind (maintains_lift _) fun _ _ _ _ => ?_
    refine .bind (each index (by simp)).value fun _ _ _ _ => ?_
    exact .bind (maintains_lift _) fun _ _ _ _ => maintains_pure _

theorem onlyTemps_parenthesized (each : ∀ u ∈ children, TakesTemps table c u) :
    OnlyTemps c (parenthesized table t children) := by
  cases children with
  | nil => exact maintains_throw _
  | cons inner rest => exact (each inner (by simp)).value

theorem onlyTemps_chainLinks {required : Ty} {pending : Option Instr}
    (each : ∀ u ∈ children, TakesTemps table c u) :
    OnlyTemps c (chainLinks table required pending children) := by
  induction children generalizing pending with
  | nil => exact maintains_pure _
  | cons next rest ih =>
    have hrest : ∀ u ∈ rest, TakesTemps table c u := fun u hu => each u (by simp [hu])
    refine .bind (each next (by simp)).value fun operand _ _ _ => ?_
    refine .bind (maintains_lift _) fun _ _ _ _ => ?_
    obtain ⟨ty, code⟩ := operand
    cases ty with
    | operator => exact .bind (maintains_lift _) fun _ _ _ _ => ih hrest
    | value ty =>
      cases pending with
      | none => exact maintains_throw _
      | some op => exact .bind (ih hrest) fun _ _ _ _ => maintains_pure _

theorem onlyTemps_chain {required : Ty} (each : ∀ u ∈ children, TakesTemps table c u) :
    OnlyTemps c (chain table t required children) := by
  cases children with
  | nil => exact maintains_throw _
  | cons first rest =>
    have hrest : ∀ u ∈ rest, TakesTemps table c u := fun u hu => each u (by simp [hu])
    refine .bind (each first (by simp)).value fun _ _ _ _ => .bind (maintains_lift _) fun _ _ _ _ => ?_
    exact .bind (onlyTemps_chainLinks hrest) fun _ _ _ _ => maintains_pure _

theorem onlyTemps_comparison (each : ∀ u ∈ children, TakesTemps table c u) :
    OnlyTemps c (comparison table t children) := by
  match children with
  | [] => exact maintains_throw _
  | [first] => exact .bind (each first (by simp)).value fun _ _ _ _ => maintains_throw _
  | [first, operator] =>
    refine .bind (each first (by simp)).value fun _ _ _ _ => ?_
    exact .bind (maintains_lift _) fun _ _ _ _ => maintains_throw _
  | first :: operator :: second :: rest =>
    refine .bind (each first (by simp)).value fun _ _ _ _ => .bind (maintains_lift _) fun _ _ _ _ => ?_
    refine .bind (each second (by simp)).value fun _ _ _ _ => ?_
    exact .bind (maintains_lift _) fun _ _ _ _ => maintains_pure _

theorem onlyTemps_negation (each : ∀ u ∈ children, TakesTemps table c u) :
    OnlyTemps c (negation table t children) := by
  cases children with
  | nil => exact maintains_throw _
  | cons inner rest =>
    refine .bind (each inner (by simp)).value fun _ _ _ _ => ?_
    exact .bind (maintains_lift _) fun _ _ _ _ => maintains_pure _

theorem onlyTemps_unary (each : ∀ u ∈ children, TakesTemps table c u) :
    OnlyTemps c (unary table t children) := by
  cases children with
  | nil => exact maintains_throw _
  | cons inner rest =>
    refine .bind (each inner (by simp)).value fun _ _ _ _ => ?_
    exact .bind (maintains_lift _) fun _ _ _ _ => maintains_pure _

theorem onlyTemps_assignment {keep : Bool} (each : ∀ u ∈ children, TakesTemps table c u) :
    OnlyTemps c (assignment table t keep children) := by
  match children with
  | [] => exact maintains_throw _
  | [first] => exact .bind (each first (by simp)).target fun _ _ _ _ => maintains_throw _
  | first :: second :: rest =>
    refine .bind (each first (by simp)).target fun _ _ _ _ => ?_
    refine .bind (each second (by simp)).value fun _ _ _ _ => .bind (maintains_lift _) fun _ _ _ _ => ?_
    refine .bind (maintains_lift _) fun _ _ _ _ => .bind (maintains_lift _) fun _ _ _ _ => ?_
    exact .bind (onlyTemps_assign _ _ _ _) fun _ _ _ _ => maintains_pure _

theorem onlyTemps_step {keep : Bool} (each : ∀ u ∈ children, TakesTemps table c u) :
    OnlyTemps c (step table t keep children) := by
  cases children with
  | nil => exact maintains_throw _
  | cons first rest =>
    refine .bind (each first (by simp)).target fun _ _ _ _ => .bind (maintains_lift _) fun _ _ _ _ => ?_
    refine .bind (maintains_lift _) fun _ _ _ _ => ?_
    exact .bind (onlyTemps_assign _ _ _ _) fun _ _ _ _ => maintains_pure _

theorem onlyTemps_arguments {types : List Ty} (each : ∀ u ∈ children, TakesTemps table c u) :
    OnlyTemps c (arguments table types children) := by
  induction children generalizing types with
  | nil => exact maintains_pure _
  | cons first rest ih =>
    have hrest : ∀ u ∈ rest, TakesTemps table c u := fun u hu => each u (by simp [hu])
    cases types with
    | nil => exact maintains_pure _
    | cons ty types =>
      refine .bind (each first (by simp)).value fun _ _ _ _ => .bind (maintains_lift _) fun _ _ _ _ => ?_
      exact .bind (ih hrest) fun _ _ _ _ => maintains_pure _

theorem onlyTemps_printArguments (each : ∀ u ∈ children, TakesTemps table c u) :
    OnlyTemps c (printArguments table children) := by
  induction children with
  | nil => exact maintains_pure _
  | cons first rest ih =>
    have hrest : ∀ u ∈ rest, TakesTemps table c u := fun u hu => each u (by simp [hu])
    refine .bind (each first (by simp)).value fun _ _ _ _ => .bind (maintains_lift _) fun _ _ _ _ => ?_
    exact .bind (ih hrest) fun _ _ _ _ => maintains_pure _

theorem onlyTemps_print (each : ∀ u ∈ children, TakesTemps table c u) :
    OnlyTemps c (print table t children) := by
  cases children with
  | nil => exact maintains_throw _
  | cons first rest =>
    have hrest : ∀ u ∈ rest, TakesTemps table c u := fun u hu => each u (by simp [hu])
    refine .bind (each first (by simp)).value fun _ _ _ _ => .bind (maintains_lift _) fun _ _ _ _ => ?_
    split
    next => exact maintains_pure _
    next =>
      refine .bind (maintains_lift _) fun _ _ _ _ => ?_
      exact .bind (onlyTemps_printArguments hrest) fun _ _ _ _ => maintains_pure _

theorem onlyTemps_putArguments (each : ∀ u ∈ children, TakesTemps table c u) :
    OnlyTemps c (putArguments table children) := by
  induction children with
  | nil => exact maintains_pure _
  | cons first rest ih =>
    have hrest : ∀ u ∈ rest, TakesTemps table c u := fun u hu => each u (by simp [hu])
    refine .bind (each first (by simp)).target fun _ _ _ _ => .bind (maintains_lift _) fun _ _ _ _ => ?_
    refine .bind (onlyTemps_assign _ _ _ _) fun _ _ _ _ => ?_
    exact .bind (ih hrest) fun _ _ _ _ => maintains_pure _

theorem onlyTemps_call {token : Option Token} (each : ∀ u ∈ children, TakesTemps table c u) :
    OnlyTemps c (expression table ⟨.call, token, children⟩) := by
  refine .bind (maintains_lift _) fun name _ _ _ => ?_
  split
  next => exact onlyTemps_print each
  next =>
    split
    next =>
      refine .bind (maintains_lift _) fun _ _ _ _ => ?_
      exact .bind (onlyTemps_putArguments each) fun _ _ _ _ => maintains_pure _
    next =>
      refine .bind (maintains_lift _) fun _ _ _ _ => ?_
      exact .bind (onlyTemps_arguments each) fun _ _ _ _ => maintains_pure _

theorem onlyTemps_target {tag : Tag} {token : Option Token} (each : ∀ u ∈ children, TakesTemps table c u) :
    OnlyTemps c (target table ⟨tag, token, children⟩) := by
  rw [target]
  refine .bind (maintains_lift _) fun _ _ _ _ => .bind (onlyTemps_resolve _) fun _ _ _ _ => ?_
  cases children with
  | nil => exact maintains_pure _
  | cons index rest =>
    refine .bind (maintains_lift _) fun _ _ _ _ => .bind (each index (by simp)).value fun _ _ _ _ => ?_
    exact .bind (maintains_lift _) fun _ _ _ _ => maintains_pure _

theorem takesTemps (table : FunctionTable) (c : ScopeChain) (t : Tree) : TakesTemps table c t := by
  induction t using Tree.forall_of_children with
  | node tag token children each =>
    refine ⟨?_, onlyTemps_target each⟩
    cases tag with
    | constant => exact maintains_lift _
    | mutable => exact onlyTemps_location each
    | paren => exact onlyTemps_parenthesized each
    | call => exact onlyTemps_call each
    | operator => exact maintains_pure _
    | simpleExp | andExp | minMaxExp | sumExp | mulExp => exact onlyTemps_chain each
    | relExp => exact onlyTemps_comparison each
    | notExp => exact onlyTemps_negation each
    | unaryExp => exact onlyTemps_unary each
    | assign => exact onlyTemps_assignment each
    | incDec => exact onlyTemps_step each
    | _ => exact maintains_throw _

/-- An expression only takes temporaries, whatever comes of it. -/
theorem onlyTemps_expression (t : Tree) : OnlyTemps c (expression table t) :=
  (takesTemps table c t).value

theorem onlyTemps_valueOf (ty : Ty) (t : Tree) : OnlyTemps c (valueOf table ty t) := by
  refine .bind (onlyTemps_expression t) fun _ _ _ _ => ?_
  exact .bind (maintains_lift _) fun _ _ _ _ => maintains_pure _

theorem onlyTemps_valueOf? (ty : Ty) (t : Option Tree) : OnlyTemps c (valueOf? table ty t) := by
  cases t with
  | none => exact maintains_pure _
  | some t =>
    rw [valueOf?, map_eq_pure_bind]
    exact .bind (onlyTemps_valueOf ty t) fun _ _ _ _ => maintains_pure _

theorem onlyTemps_initialValue (name : String) (base : Ty) (hoisted : Bool) (init : Option Tree) :
    OnlyTemps c (initialValue table name base hoisted init) := by
  cases init with
  | none => exact maintains_pure _
  | some init =>
    refine .bind (onlyTemps_expression init) fun _ _ _ _ => .bind (maintains_lift _) fun _ _ _ _ => ?_
    exact .bind (maintains_lift _) fun _ _ _ _ => maintains_pure _

theorem onlyTemps_readDeclarator (base : Ty) (hoisted : Bool) (node : Tree) :
    OnlyTemps c (readDeclarator table base hoisted node) := by
  refine .bind (maintains_lift _) fun _ _ _ _ => .bind (maintains_lift _) fun _ _ _ _ => ?_
  refine .bind (maintains_lift _) fun _ _ _ _ => ?_
  exact .bind (onlyTemps_initialValue _ base hoisted _) fun _ _ _ _ => maintains_pure _

theorem onlyTemps_expressionStatement (children : List Tree) :
    OnlyTemps c (expressionStatement table children) := by
  cases children with
  | nil => exact maintains_pure _
  | cons t rest =>
    have each : ∀ u ∈ t.children, TakesTemps table c u := fun u _ => takesTemps table c u
    simp only [expressionStatement]
    split
    next => exact .bind (onlyTemps_assignment each) fun _ _ _ _ => maintains_pure _
    next => exact .bind (onlyTemps_step each) fun _ _ _ _ => maintains_pure _
    next =>
      refine .bind (onlyTemps_expression t) fun typed _ _ _ => ?_
      split <;> exact maintains_pure _

theorem onlyTemps_returnStatement (t : Tree) (result : Ty) (children : List Tree) :
    OnlyTemps c (returnStatement table t result children) := by
  cases children with
  | nil => exact .bind (maintains_lift _) fun _ _ _ _ => maintains_pure _
  | cons value rest =>
    refine .bind (onlyTemps_expression value) fun _ _ _ _ => ?_
    exact .bind (maintains_lift _) fun _ _ _ _ => maintains_pure _

theorem onlyTemps_counterOf (t : Tree) : OnlyTemps c (counterOf t) := by
  refine .bind (onlyTemps_resolve t) fun _ _ _ _ => ?_
  exact .bind (maintains_lift _) fun _ _ _ _ => maintains_pure _

/-- The head of a `for` statement takes temporaries for its bound and its step. -/
theorem onlyTemps_range (counter : Place) (bounds : Tree) :
    OnlyTemps c (range table counter bounds) := by
  refine .bind (maintains_lift _) fun _ _ _ _ => .bind (onlyTemps_valueOf .int _) fun _ _ _ _ => ?_
  refine .bind (onlyTemps_valueOf? .int _) fun _ _ _ _ => .bind (onlyTemps_valueOf? .int _) fun step _ _ _ => ?_
  refine .bind (onlyTemps_reserveTemp .int) fun _ _ _ _ => ?_
  cases step with
  | none => exact maintains_pure _
  | some step => exact .bind (onlyTemps_reserveTemp .int) fun _ _ _ _ => maintains_pure _

end StackCompiler.Lowering
