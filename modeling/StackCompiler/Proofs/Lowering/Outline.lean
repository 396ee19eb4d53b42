import StackCompiler.Proofs.Lowering.StatementRuns

/-!
Function bodies in outline: statements with loops and branches, in which every expression is the block of
code that the lowering emits for it. `Stmt.code` lays an outline out as flat code with labels and jumps.
The lowering of a body yields the flat code of an outline of the body.
-/

set_option autoImplicit false
namespace StackCompiler

open Lowering

/-- How a `for` statement counts. The end is kept in the slot `bound`, a step in a slot of its own. -/
structure Counting where
  counter : Place
  start : Code
  stop : Option Code
  step : Option (Code × Place)
  bound : Place
  deriving DecidableEq

def Counting.head (r : Counting) : Code :=
  match r.stop with
  | some stop => r.start ++ .store r.counter :: stop ++ [.store r.bound]
  | none => r.start ++ [.dup, .store r.bound, .store r.counter]

def Counting.range (r : Counting) : Range :=
  match r.step with
  | none => ⟨r.counter, r.bound, .pushInt 1, r.head⟩
  | some (step, temp) => ⟨r.counter, r.bound, .load temp, r.head ++ step ++ [.store temp]⟩

def Counting.TakesTemp (r : Counting) (c c' : ScopeChain) : Prop :=
  match r.step with
  | none => c' = c
  | some (_, temp) => c.reserveTemp .int = (temp, c')

def Counting.temps (r : Counting) : List Place :=
  r.bound :: (r.step.map Prod.snd).toList

inductive Stmt where
  | skip
  | seq (first second : Stmt)
  | block (code : Code)
  /-- The setup of a declared variable, which runs where the declaration stands. -/
  | setup (prepared : Setup)
  | ifThen (test : Code) (yes : Stmt)
  | ifElse (test : Code) (yes no : Stmt)
  | whileDo (test : Code) (body : Stmt)
  | forTo (r : Counting) (body : Stmt)
  | return (value : Code)
  | breakLoop
  deriving DecidableEq

namespace Stmt

def labels : Stmt → Nat
  | skip | block _ | .return _ | breakLoop => 0
  | seq first second => first.labels + second.labels
  | setup prepared => prepared.labels
  | ifThen _ yes => yes.labels + 1
  | ifElse _ yes no => yes.labels + no.labels + 2
  | whileDo _ body | forTo _ body => body.labels + 3

/-- The code of a statement, with labels from `next` on; `exit` stands behind the loop around it. -/
def code (exit : Option Label) (next : Label) : Stmt → Code
  | skip => []
  | seq first second => first.code exit next ++ second.code exit (next + first.labels)
  | block code => code
  | setup prepared => prepared.code next
  | ifThen test yes => test ++ .jumpIfFalse next :: yes.code exit (next + 1) ++ [.label next]
  | ifElse test yes no =>
    test ++ .jumpIfFalse next :: yes.code exit (next + 2) ++ [.jump (next + 1), .label next]
      ++ no.code exit (next + 2 + yes.labels) ++ [.label (next + 1)]
  | whileDo test body => loopCode next (body.code (some (next + 2)) (next + 3)) [] test
  | forTo r body =>
    r.range.code ++
      loopCode next (body.code (some (next + 2)) (next + 3)) r.range.advance r.range.test
  | .return value => value ++ [.return]
  | breakLoop => (exit.map Instr.jump).toList

def temps : Stmt → List Place
  | skip | block _ | setup _ | .return _ | breakLoop => []
  | seq first second => first.temps ++ second.temps
  | ifThen _ yes => yes.temps
  | ifElse _ yes no => yes.temps ++ no.temps
  | whileDo _ body => body.temps
  | forTo r body => r.temps ++ body.temps

end Stmt

namespace Lowering

open Grammar (Phrase Derives)

structure Emits (table : FunctionTable) (ty : Ty) (t : Tree) (c : ScopeChain) (code : Code)
    (c' : ScopeChain) : Prop where
  emitted : valueOf table ty t c = .ok code c'
  lowers : Lowers table (.value t) c ty code c'

structure EmitsEffect (table : FunctionTable) (t : Tree) (c : ScopeChain) (code : Code)
    (c' : ScopeChain) : Prop where
  emitted : expressionStatement table [t] c = .ok code c'
  lowers : Lowers table (.value t) c .void code c' ∨
    (∃ ty, Lowers table (.stored false t) c ty code c') ∨
    ∃ ty value, ty ≠ .void ∧ code = value ++ [.pop] ∧ Lowers table (.value t) c ty value c'

inductive Prepares (table : FunctionTable) (base : Ty) (storage : Storage) :
    ScopeChain → Setup → ScopeChain → Prop where
  | plain {name : String} {line slot : Nat} {c c' : ScopeChain}
      (declared : c.declare name base storage none line = .ok (slot, c')) :
      Prepares table base storage c .nothing c'
  | scalar {name : String} {line slot : Nat} {init : Tree} {value : Code} {c c₁ c' : ScopeChain}
      (initial : Lowers table (.value init) c base value c₁)
      (declared : c₁.declare name base storage none line = .ok (slot, c')) :
      Prepares table base storage c (.scalar ⟨storage, slot⟩ value) c'
  | array {name : String} {line slot : Nat} {length : Option Nat} {n : Int32} {c c' : ScopeChain}
      (declared : c.declare name (.array base) storage length line = .ok (slot, c')) :
      Prepares table base storage c (.array ⟨storage, slot⟩ base n none) c'
  | filled {name : String} {line slot valueSlot indexSlot : Nat} {length : Option Nat} {n : Int32}
      {init : Tree} {value : Code} {c c₁ c₂ c₃ c' : ScopeChain}
      (initial : Lowers table (.value init) c base value c₁)
      (declared : c₁.declare name (.array base) storage length line = .ok (slot, c₂))
      (valueTemp : c₂.reserve base storage = (valueSlot, c₃))
      (indexTemp : c₃.reserve .int storage = (indexSlot, c')) :
      Prepares table base storage c
        (.array ⟨storage, slot⟩ base n (some ⟨value, ⟨storage, valueSlot⟩, ⟨storage, indexSlot⟩⟩)) c'

/-- The range of a `for` statement: its expressions in order, then the slots for end and step. -/
inductive Counts (table : FunctionTable) (counter : Place) :
    List Tree → ScopeChain → Counting → ScopeChain → Prop where
  | start {first : Tree} {start : Code} {bound : Place} {c c₁ c' : ScopeChain}
      (initial : Emits table .int first c start c₁) (limit : c₁.reserveTemp .int = (bound, c')) :
      Counts table counter [first] c ⟨counter, start, none, none, bound⟩ c'
  | upTo {first last : Tree} {start stop : Code} {bound : Place} {c c₁ c₂ c' : ScopeChain}
      (initial : Emits table .int first c start c₁) (final : Emits table .int last c₁ stop c₂)
      (limit : c₂.reserveTemp .int = (bound, c')) :
      Counts table counter [first, last] c ⟨counter, start, some stop, none, bound⟩ c'
  | stride {first last third : Tree} {start stop step : Code} {bound temp : Place}
      {c c₁ c₂ c₃ c₄ c' : ScopeChain}
      (initial : Emits table .int first c start c₁) (final : Emits table .int last c₁ stop c₂)
      (increment : Emits table .int third c₂ step c₃) (limit : c₃.reserveTemp .int = (bound, c₄))
      (held : c₄.reserveTemp .int = (temp, c')) :
      Counts table counter [first, last, third] c ⟨counter, start, some stop, some (step, temp), bound⟩ c'

inductive Part where
  | statement (t : Tree)
  | items (ts : List Tree)
  | declarators (base : Ty) (storage : Storage) (hoisted : Bool) (nodes : List Tree)

/-- The outline of a part of a function body, from the scopes before it to those behind it. Its first
index says whether the part stands in a loop. -/
inductive Outlines (table : FunctionTable) (result : Ty) :
    Bool → Part → ScopeChain → Stmt → ScopeChain → Prop where
  | empty {inLoop : Bool} {token : Token} {c : ScopeChain} :
      Outlines table result inLoop (.statement (.marked .expStmt token [])) c .skip c
  | expression {inLoop : Bool} {token : Token} {t : Tree} {code : Code} {c c' : ScopeChain}
      (effect : EmitsEffect table t c code c') :
      Outlines table result inLoop (.statement (.marked .expStmt token [t])) c (.block code) c'
  | compound {inLoop : Bool} {token : Token} {items : List Tree} {body : Stmt} {c c' : ScopeChain}
      (inner : Outlines table result inLoop (.items items) (c.enter .block) body c') :
      Outlines table result inLoop (.statement (.marked .compoundStmt token items)) c body
        (c'.exit c.depth)
  | ifThen {inLoop : Bool} {token : Token} {test yes : Tree} {code : Code} {first : Stmt}
      {c c₁ c' : ScopeChain} (condition : Emits table .bool test c code c₁)
      (branch : Outlines table result inLoop (.statement yes) c₁ first c') :
      Outlines table result inLoop (.statement (.marked .ifStmt token [test, yes])) c
        (.ifThen code first) c'
  | ifElse {inLoop : Bool} {token : Token} {test yes no : Tree} {code : Code} {first second : Stmt}
      {c c₁ c₂ c' : ScopeChain} (condition : Emits table .bool test c code c₁)
      (branch : Outlines table result inLoop (.statement yes) c₁ first c₂)
      (other : Outlines table result inLoop (.statement no) c₂ second c') :
      Outlines table result inLoop (.statement (.marked .ifStmt token [test, yes, no])) c
        (.ifElse code first second) c'
  | whileDo {inLoop : Bool} {token : Token} {test body : Tree} {code : Code} {inner : Stmt}
      {c c₁ c' : ScopeChain} (condition : Emits table .bool test c code c₁)
      (loop : Outlines table result true (.statement body) c₁ inner c') :
      Outlines table result inLoop (.statement (.marked .whileStmt token [test, body])) c
        (.whileDo code inner) c'
  | forTo {inLoop : Bool} {name : Token} {bounds : List Tree} {body : Tree} {symbol : Symbol}
      {r : Counting} {inner : Stmt} {c c₁ c' : ScopeChain}
      (counter : c.resolve? name.lexeme = some symbol) (isInt : symbol.ty = .int)
      (range : Counts table symbol.place bounds c r c₁)
      (loop : Outlines table result true (.statement body) c₁ inner c') :
      Outlines table result inLoop
        (.statement (.marked .forStmt name [.inner .iterRange bounds, body])) c (.forTo r inner) c'
  | returnPlain {inLoop : Bool} {token : Token} {c : ScopeChain} (isVoid : result = .void) :
      Outlines table result inLoop (.statement (.marked .returnStmt token [])) c (.return []) c
  | returnValue {inLoop : Bool} {token : Token} {t : Tree} {code : Code} {c c' : ScopeChain}
      (value : Emits table result t c code c') :
      Outlines table result inLoop (.statement (.marked .returnStmt token [t])) c (.return code) c'
  | breakLoop {token : Token} {c : ScopeChain} :
      Outlines table result true (.statement (.marked .breakStmt token [])) c .breakLoop c
  | noItems {inLoop : Bool} {c : ScopeChain} : Outlines table result inLoop (.items []) c .skip c
  | declaration {inLoop : Bool} {node : Tree} {rest : List Tree} {base : Ty} {first second : Stmt}
      {c c₁ c' : ScopeChain} (isDecl : node.tag = .varDecl) (type : baseType node = .ok base)
      (scalar : base.isScalar = true)
      (setups : Outlines table result inLoop
        (.declarators base (storageOf c.depth node) (storageOf c.depth node = .static && c.depth ≠ 1)
          (node.children.filter fun child => child.tag == .varDeclInit)) c first c₁)
      (more : Outlines table result inLoop (.items rest) c₁ second c') :
      Outlines table result inLoop (.items (node :: rest)) c (.seq first second) c'
  | statement {inLoop : Bool} {t : Tree} {rest : List Tree} {first second : Stmt} {c c₁ c' : ScopeChain}
      (isStmt : t.tag ≠ .varDecl) (step : Outlines table result inLoop (.statement t) c first c₁)
      (more : Outlines table result inLoop (.items rest) c₁ second c') :
      Outlines table result inLoop (.items (t :: rest)) c (.seq first second) c'
  | noDeclarators {inLoop hoisted : Bool} {base : Ty} {storage : Storage} {c : ScopeChain} :
      Outlines table result inLoop (.declarators base storage hoisted []) c .skip c
  | declarator {inLoop hoisted : Bool} {base : Ty} {storage : Storage} {node : Tree} {rest : List Tree}
      {setup : Setup} {second : Stmt} {c c₁ c' : ScopeChain}
      (emitted : declarator table base storage hoisted node c = .ok setup c₁)
      (prepares : Prepares table base storage c setup c₁)
      (more : Outlines table result inLoop (.declarators base storage hoisted rest) c₁ second c') :
      Outlines table result inLoop (.declarators base storage hoisted (node :: rest)) c
        (.seq (if storage = .static then .skip else .setup setup) second) c'

variable {table : FunctionTable}

def IsExpression (t : Tree) : Prop :=
  ∃ ts, Derives .expression ts [t]

theorem IsExpression.lowerable {t : Tree} (h : IsExpression t) : Lowerable table t := by
  obtain ⟨ts, hderives⟩ := h
  exact lowerable_of_derives hderives

/-- A lowered expression of a known type. -/
theorem IsExpression.lowers {ty : Ty} {t : Tree} {code : Code} {c c' : ScopeChain} (ht : IsExpression t)
    (h : expression table t c = .ok (.value ty code) c') : Lowers table (.value t) c ty code c' :=
  ht.lowerable.lowers h

theorem emits_of_ok {ty : Ty} {t : Tree} {code : Code} {c c' : ScopeChain} (ht : IsExpression t)
    (h : valueOf table ty t c = .ok code c') : Emits table ty t c code c' :=
  ⟨h, ht.lowers (valueOf_iff.1 h)⟩

theorem emitsEffect_of_ok {t : Tree} {code : Code} {c c' : ScopeChain} (ht : IsExpression t)
    (h : expressionStatement table [t] c = .ok code c') : EmitsEffect table t c code c' := by
  refine ⟨h, ?_⟩
  rcases expressionStatement_iff.1 h with ⟨htag, typed, htyped, rfl⟩ | ⟨htag, typed, htyped, rfl⟩ |
    ⟨-, -, typed, htyped, rfl⟩
  · obtain ⟨ty, code, rfl, hlowers⟩ := ht.lowerable.assignment htag htyped
    exact .inr (.inl ⟨ty, hlowers⟩)
  · obtain ⟨ty, code, rfl, hlowers⟩ := ht.lowerable.step htag htyped
    exact .inr (.inl ⟨ty, hlowers⟩)
  · obtain ⟨ty, value, rfl, hlowers⟩ := ht.lowerable.value htyped
    rw [dropped_value]
    by_cases hvoid : ty = .void
    · subst hvoid
      exact .inl hlowers
    · rw [if_neg hvoid]
      exact .inr (.inr ⟨ty, value, hvoid, rfl, hlowers⟩)

def IsDeclarator (node : Tree) : Prop :=
  node.tag = .varDeclInit ∧ ∃ id inits, node.children = id :: inits ∧
    (inits = [] ∨ ∃ init, inits = [init] ∧ IsExpression init)

theorem initialValue_ok {name : String} {base : Ty} {hoisted : Bool} {inits : List Tree}
    {value : Option Code} {c c' : ScopeChain} (hinits : inits = [] ∨ ∃ init, inits = [init] ∧ IsExpression init)
    (h : initialValue table name base hoisted inits[0]? c = .ok value c') :
    (value = none ∧ c' = c) ∨
      ∃ init code, value = some code ∧ Lowers table (.value init) c base code c' := by
  rcases hinits with rfl | ⟨init, rfl, hinit⟩
  · exact .inl (initialValue_none.1 h)
  · obtain ⟨code, htyped, -, rfl⟩ := initialValue_some.1 h
    exact .inr ⟨init, code, rfl, hinit.lowers htyped⟩

theorem prepares_of_ok {base : Ty} {storage : Storage} {hoisted : Bool} {node : Tree} {setup : Setup}
    {c c' : ScopeChain} (hnode : IsDeclarator node)
    (h : declarator table base storage hoisted node c = .ok setup c') :
    Prepares table base storage c setup c' := by
  obtain ⟨tag, token, children⟩ := node
  obtain ⟨-, id, inits, hchildren, hinits⟩ := hnode
  cases hchildren
  obtain ⟨id', name, length, value, c₁, -, -, -, hvalue, hslots⟩ := declarator_iff.1 h
  rcases initialValue_ok hinits hvalue with ⟨rfl, rfl⟩ | ⟨init, code, rfl, hlowers⟩
  · cases hslots with
    | nothing declared => exact .plain declared
    | array declared => exact .array declared
  · cases hslots with
    | scalar declared => exact .scalar hlowers declared
    | filled declared valueTemp indexTemp => exact .filled hlowers declared valueTemp indexTemp

theorem Prepares.within {base : Ty} {storage : Storage} {setup : Setup} {c c' : ScopeChain}
    (h : Prepares table base storage c setup c') : ScopeChain.Within (storage ≠ .static) c c' := by
  cases h with
  | plain declared | array declared => exact .declare declared
  | scalar initial declared => exact (ScopeChain.Within.temps initial.temps).trans (.declare declared)
  | filled initial declared valueTemp indexTemp =>
    exact ((ScopeChain.Within.temps initial.temps).trans (.declare declared)).trans
      ((ScopeChain.Within.reserve valueTemp).trans (.reserve indexTemp))

/-- A range: start, end and step in this order, then the slots for end and step. -/
theorem range_iff {counter : Place} {bounds : Tree} {r : Range} {c c' : ScopeChain} :
    range table counter bounds c = .ok r c' ↔
      ∃ (first : Tree) (counting : Counting) (c₁ c₂ c₃ c₄ : ScopeChain), counting.counter = counter ∧ bounds.child 0 = .ok first ∧
        valueOf table .int first c = .ok counting.start c₁ ∧
        valueOf? table .int bounds.children[1]? c₁ = .ok counting.stop c₂ ∧
        valueOf? table .int bounds.children[2]? c₂ = .ok (counting.step.map Prod.fst) c₃ ∧
        c₃.reserveTemp .int = (counting.bound, c₄) ∧ counting.TakesTemp c₄ c' ∧ r = counting.range := by
  simp only [range, bind_ok, lift_ok]
  constructor
  · rintro ⟨first, _, ⟨hfirst, rfl⟩, start, c₁, hstart, stop, c₂, hstop, step, c₃, hstep, bound, c₄, hbound, h⟩
    have hbound := reserveTemp_ok hbound
    cases step with
    | none =>
      obtain ⟨rfl, rfl⟩ := pure_ok.1 h
      exact ⟨first, ⟨counter, start, stop, none, bound⟩, c₁, c₂, c₃, c₄, rfl, hfirst, hstart, hstop, hstep, hbound,
        rfl, rfl⟩
    | some step =>
      obtain ⟨temp, c₅, htemp, h⟩ := bind_ok.1 h
      obtain ⟨rfl, rfl⟩ := pure_ok.1 h
      exact ⟨first, ⟨counter, start, stop, some (step, temp), bound⟩, c₁, c₂, c₃, c₄, rfl, hfirst, hstart, hstop,
        hstep, hbound, reserveTemp_ok htemp, rfl⟩
  · rintro ⟨first, ⟨_, start, stop, step, bound⟩, c₁, c₂, c₃, c₄, rfl, hfirst, hstart, hstop, hstep, hbound, htemp,
      rfl⟩
    refine ⟨first, c, ⟨hfirst, rfl⟩, start, c₁, hstart, stop, c₂, hstop, step.map Prod.fst, c₃, hstep, bound, c₄,
      modifyGet_ok.2 hbound, ?_⟩
    match step with
    | none =>
      cases htemp
      exact pure_ok.2 ⟨rfl, rfl⟩
    | some (step, temp) => exact bind_ok.2 ⟨temp, c', modifyGet_ok.2 htemp, pure_ok.2 ⟨rfl, rfl⟩⟩

def IsRange (parts : List Tree) : Prop :=
  (∃ first, parts = [first] ∧ IsExpression first) ∨
  (∃ first last, parts = [first, last] ∧ IsExpression first ∧ IsExpression last) ∨
  ∃ first last third, parts = [first, last, third] ∧ IsExpression first ∧ IsExpression last ∧
    IsExpression third

theorem counts_of_ok {counter : Place} {parts : List Tree} {r : Range} {c c' : ScopeChain}
    (hparts : IsRange parts) (h : range table counter (.inner .iterRange parts) c = .ok r c') :
    ∃ counting, Counts table counter parts c counting c' ∧ r = counting.range := by
  obtain ⟨head, ⟨_, start, stop, step, bound⟩, c₁, c₂, c₃, c₄, rfl, hhead, hstart, hstop, hstep, hbound, htemp,
    rfl⟩ := range_iff.1 h
  refine ⟨_, ?_, rfl⟩
  rcases hparts with ⟨first, rfl, hfirst⟩ | ⟨first, last, rfl, hfirst, hlast⟩ |
    ⟨first, last, third, rfl, hfirst, hlast, hthird⟩ <;> cases hhead
  · obtain ⟨rfl, rfl⟩ := pure_ok.1 hstop
    obtain ⟨hnone, rfl⟩ := pure_ok.1 hstep
    cases Option.map_eq_none_iff.1 hnone.symm
    cases htemp
    exact .start (emits_of_ok hfirst hstart) hbound
  · obtain ⟨bounding, hbounding, rfl⟩ := map_ok.1 hstop
    obtain ⟨hnone, rfl⟩ := pure_ok.1 hstep
    cases Option.map_eq_none_iff.1 hnone.symm
    cases htemp
    exact .upTo (emits_of_ok hfirst hstart) (emits_of_ok hlast hbounding) hbound
  · obtain ⟨bounding, hbounding, rfl⟩ := map_ok.1 hstop
    obtain ⟨stride, hstride, hsome⟩ := map_ok.1 hstep
    obtain ⟨⟨_, temp⟩, rfl, rfl⟩ := Option.map_eq_some_iff.1 hsome.symm
    exact .stride (emits_of_ok hfirst hstart) (emits_of_ok hlast hbounding) (emits_of_ok hthird hstride) hbound
      htemp

/-- The code of a part of a body is the flat code of an outline of it. -/
def Outlined (table : FunctionTable) (ctx : Context) (part : Part) (s : BodyState) (code : Code)
    (s' : BodyState) : Prop :=
  ∃ b : Stmt, Outlines table ctx.result ctx.loopExit.isSome part s.scopes b s'.scopes ∧
    code = b.code ctx.loopExit s.nextLabel ∧ s'.nextLabel = s.nextLabel + b.labels

/-- What is left of a setup in the body is the flat code of its outline. -/
theorem installed_outlined (storage : Storage) (setup : Setup) (s : BodyState) (exit : Option Label) :
    (installed storage setup s).1 = Stmt.code exit s.nextLabel (if storage = .static then .skip else .setup setup) ∧
      (installed storage setup s).2.nextLabel =
        s.nextLabel + Stmt.labels (if storage = .static then .skip else .setup setup) := by
  unfold installed
  split <;> exact ⟨rfl, rfl⟩

theorem declarators_outlined (ctx : Context) {base : Ty} {storage : Storage} {hoisted : Bool}
    {nodes : List Tree} (each : ∀ node ∈ nodes, IsDeclarator node) {s s' : BodyState} {code : Code}
    (h : declarators table base storage hoisted nodes s = .ok code s') :
    Outlined table ctx (.declarators base storage hoisted nodes) s code s' := by
  induction nodes generalizing s code s' with
  | nil =>
    obtain ⟨rfl, rfl⟩ := declarators_nil.1 h
    exact ⟨.skip, .noDeclarators, rfl, rfl⟩
  | cons node rest ih =>
    obtain ⟨setup, c₁, more, hsetup, hmore, rfl⟩ := declarators_cons.1 h
    obtain ⟨hfirst, hlabel⟩ := installed_outlined storage setup { s with scopes := c₁ } ctx.loopExit
    obtain ⟨b, hb, rfl, hnext⟩ := ih (fun node hnode => each node (by simp [hnode])) hmore
    have hprepares := prepares_of_ok (each node (by simp)) hsetup
    rw [scopes_installed] at hb
    refine ⟨_, .declarator hsetup hprepares hb, ?_, ?_⟩
    · rw [hfirst, hlabel]
      rfl
    · rw [hnext, hlabel, Nat.add_assoc]
      rfl

def IsDeclaration (node : Tree) : Prop :=
  ∀ child ∈ node.children.filter (fun child => child.tag == .varDeclInit), IsDeclarator child

theorem typeOf_scalar {spec : Tree} {ty : Ty} (h : typeOf spec = .ok ty) : ty.isScalar = true := by
  simp only [typeOf, Grammar.bind_eq_ok] at h
  obtain ⟨word, -, h⟩ := h
  unfold Ty.ofKeyword? at h
  split at h <;> cases h
  next hfound => split at hfound <;> cases hfound <;> rfl

theorem baseType_scalar {node : Tree} {base : Ty} (h : baseType node = .ok base) :
    base.isScalar = true := by
  unfold baseType at h
  split at h
  next => exact typeOf_scalar h
  next => cases h

structure Outlinable (table : FunctionTable) (t : Tree) : Prop where
  declaration : t.tag = .varDecl → IsDeclaration t
  statement : t.tag ≠ .varDecl → ∀ {ctx : Context} {s s' : BodyState} {code : Code},
    Lowering.statement table ctx t s = .ok code s' → Outlined table ctx (.statement t) s code s'

theorem items_outlined {ctx : Context} {items : List Tree} (each : ∀ t ∈ items, Outlinable table t)
    {s s' : BodyState} {code : Code} (h : blockItems table ctx items s = .ok code s') :
    Outlined table ctx (.items items) s code s' := by
  induction items generalizing s code s' with
  | nil =>
    obtain ⟨rfl, rfl⟩ := items_nil.1 h
    exact ⟨.skip, .noItems, rfl, rfl⟩
  | cons item rest ih =>
    have hitem := each item (by simp)
    have hrest : ∀ t ∈ rest, Outlinable table t := fun t ht => each t (by simp [ht])
    by_cases htag : item.tag = .varDecl
    · obtain ⟨first, s₁, more, hfirst, hmore, rfl⟩ := (items_variables htag).1 h
      obtain ⟨base, hbase, hfirst⟩ := declaration_iff.1 hfirst
      obtain ⟨b, hb, rfl, hnext⟩ := declarators_outlined ctx (hitem.declaration htag) hfirst
      obtain ⟨b', hb', rfl, hnext'⟩ := ih hrest hmore
      refine ⟨.seq b b', .declaration htag hbase (baseType_scalar hbase) hb hb', ?_, ?_⟩
      · rw [hnext]
        rfl
      · rw [hnext', hnext, Nat.add_assoc]
        rfl
    · obtain ⟨first, s₁, more, hfirst, hmore, rfl⟩ := (items_statement htag).1 h
      obtain ⟨b, hb, rfl, hnext⟩ := hitem.statement htag hfirst
      obtain ⟨b', hb', rfl, hnext'⟩ := ih hrest hmore
      refine ⟨.seq b b', .statement htag hb hb', ?_, ?_⟩
      · rw [hnext]
        rfl
      · rw [hnext', hnext, Nat.add_assoc]
        rfl

section Statements

variable {ctx : Context} {s s' : BodyState} {code : Code} {token : Token}

theorem outlined_expression {t : Tree} (ht : IsExpression t)
    (h : statement table ctx (.marked .expStmt token [t]) s = .ok code s') :
    Outlined table ctx (.statement (.marked .expStmt token [t])) s code s' := by
  obtain ⟨c, hcode, rfl⟩ := statement_expression.1 h
  exact ⟨.block code, .expression (emitsEffect_of_ok ht hcode), rfl, rfl⟩

theorem outlined_compound {items : List Tree} (each : ∀ t ∈ items, Outlinable table t)
    (h : statement table ctx (.marked .compoundStmt token items) s = .ok code s') :
    Outlined table ctx (.statement (.marked .compoundStmt token items)) s code s' := by
  obtain ⟨s₁, hitems, rfl⟩ := statement_compound.1 h
  obtain ⟨b, hb, rfl, hnext⟩ := items_outlined each hitems
  exact ⟨b, .compound hb, rfl, hnext⟩

theorem outlined_ifThen {test yes : Tree} (htest : IsExpression test)
    (hyes : ∀ {ctx : Context} {s s' : BodyState} {code : Code},
      statement table ctx yes s = .ok code s' → Outlined table ctx (.statement yes) s code s')
    (h : statement table ctx (.marked .ifStmt token [test, yes]) s = .ok code s') :
    Outlined table ctx (.statement (.marked .ifStmt token [test, yes])) s code s' := by
  obtain ⟨condition, c₁, branch, hcondition, hbranch, rfl⟩ := statement_ifThen.1 h
  obtain ⟨b, hb, rfl, hnext⟩ := hyes hbranch
  refine ⟨.ifThen condition b, .ifThen (emits_of_ok htest hcondition) hb, rfl, ?_⟩
  rw [hnext]
  change s.nextLabel + _ + _ = s.nextLabel + (_ + _)
  rw [Nat.add_assoc, Nat.add_comm b.labels]

theorem outlined_ifElse {test yes no : Tree} (htest : IsExpression test)
    (hyes : ∀ {ctx : Context} {s s' : BodyState} {code : Code},
      statement table ctx yes s = .ok code s' → Outlined table ctx (.statement yes) s code s')
    (hno : ∀ {ctx : Context} {s s' : BodyState} {code : Code},
      statement table ctx no s = .ok code s' → Outlined table ctx (.statement no) s code s')
    (h : statement table ctx (.marked .ifStmt token [test, yes, no]) s = .ok code s') :
    Outlined table ctx (.statement (.marked .ifStmt token [test, yes, no])) s code s' := by
  obtain ⟨condition, c₁, first, s₂, second, hcondition, hfirst, hsecond, rfl⟩ := statement_ifElse.1 h
  obtain ⟨b, hb, rfl, hnext⟩ := hyes hfirst
  obtain ⟨b', hb', rfl, hnext'⟩ := hno hsecond
  simp only at hnext
  refine ⟨.ifElse condition b b', .ifElse (emits_of_ok htest hcondition) hb hb', ?_, ?_⟩
  · rw [hnext]
    rfl
  · rw [hnext', hnext]
    change s.nextLabel + 2 + b.labels + b'.labels = s.nextLabel + (b.labels + b'.labels + 2)
    rw [Nat.add_assoc, Nat.add_assoc, Nat.add_comm 2]

theorem outlined_while {test body : Tree} (htest : IsExpression test)
    (hbody : ∀ {ctx : Context} {s s' : BodyState} {code : Code},
      statement table ctx body s = .ok code s' → Outlined table ctx (.statement body) s code s')
    (h : statement table ctx (.marked .whileStmt token [test, body]) s = .ok code s') :
    Outlined table ctx (.statement (.marked .whileStmt token [test, body])) s code s' := by
  obtain ⟨condition, c₁, inner, hcondition, hinner, rfl⟩ := statement_while.1 h
  obtain ⟨b, hb, rfl, hnext⟩ := hbody hinner
  refine ⟨.whileDo condition b, .whileDo (emits_of_ok htest hcondition) hb, rfl, ?_⟩
  rw [hnext]
  change s.nextLabel + _ + _ = s.nextLabel + (_ + _)
  rw [Nat.add_assoc, Nat.add_comm b.labels]

/-- A lowered `for` statement: its counter, its range, and its body in a loop of its own. -/
theorem forStatement_ok {bounds : List Tree} {body : Tree} (hbounds : IsRange bounds)
    (h : statement table ctx (.marked .forStmt token [.inner .iterRange bounds, body]) s = .ok code s') :
    ∃ symbol r c₁ inner, s.scopes.resolve? token.lexeme = some symbol ∧ symbol.ty = .int ∧
      Counts table symbol.place bounds s.scopes r c₁ ∧
      statement table { ctx with loopExit := some (s.nextLabel + 2) } body
        { s with scopes := c₁, nextLabel := s.nextLabel + 3 } = .ok inner s' ∧
      code = r.range.code ++ loopCode s.nextLabel inner r.range.advance r.range.test := by
  obtain ⟨symbol, r, c₁, inner, hfound, hint, hrange, hinner, rfl⟩ := statement_for.1 h
  obtain ⟨counting, hcounts, rfl⟩ := counts_of_ok hbounds hrange
  exact ⟨symbol, counting, c₁, inner, hfound, hint, hcounts, hinner, rfl⟩

theorem outlined_for {bounds : List Tree} {body : Tree} (hbounds : IsRange bounds)
    (hbody : ∀ {ctx : Context} {s s' : BodyState} {code : Code},
      statement table ctx body s = .ok code s' → Outlined table ctx (.statement body) s code s')
    (h : statement table ctx (.marked .forStmt token [.inner .iterRange bounds, body]) s = .ok code s') :
    Outlined table ctx (.statement (.marked .forStmt token [.inner .iterRange bounds, body])) s code s' := by
  obtain ⟨symbol, r, c₁, inner, hfound, hint, hcounts, hinner, rfl⟩ := forStatement_ok hbounds h
  obtain ⟨b, hb, rfl, hnext⟩ := hbody hinner
  refine ⟨.forTo r b, .forTo hfound hint hcounts hb, rfl, ?_⟩
  rw [hnext]
  change s.nextLabel + _ + _ = s.nextLabel + (_ + _)
  rw [Nat.add_assoc, Nat.add_comm b.labels]

theorem outlined_return {t : Tree} (ht : IsExpression t)
    (h : statement table ctx (.marked .returnStmt token [t]) s = .ok code s') :
    Outlined table ctx (.statement (.marked .returnStmt token [t])) s code s' := by
  obtain ⟨value, c', hvalue, rfl, rfl⟩ := statement_return.1 h
  exact ⟨.return value, .returnValue (emits_of_ok ht hvalue), rfl, rfl⟩

theorem outlined_returnPlain (h : statement table ctx (.marked .returnStmt token []) s = .ok code s') :
    Outlined table ctx (.statement (.marked .returnStmt token [])) s code s' := by
  obtain ⟨hvoid, rfl, rfl⟩ := statement_returnPlain.1 h
  exact ⟨.return [], .returnPlain hvoid, rfl, rfl⟩

theorem outlined_break (h : statement table ctx (.marked .breakStmt token []) s = .ok code s') :
    Outlined table ctx (.statement (.marked .breakStmt token [])) s code s' := by
  obtain ⟨exit, hexit, rfl, rfl⟩ := statement_break.1 h
  rw [Outlined, hexit]
  exact ⟨.breakLoop, .breakLoop, rfl, rfl⟩

end Statements

theorem IsExpression.of_chain {ts : List Token} {t : Tree} (h : Derives (.chain .or) ts [t]) :
    IsExpression t :=
  ⟨ts, .simple h⟩

def IsFunction (table : FunctionTable) (decl : Tree) : Prop :=
  decl.tag = .funDecl ∧ ∀ body, decl.find? .compoundStmt = some body →
    ∀ item ∈ body.children, Outlinable table item

def IsTopLevel (table : FunctionTable) (decl : Tree) : Prop :=
  (decl.tag = .varDecl ∧ IsDeclaration decl) ∨ IsFunction table decl

def OutlinedAs (table : FunctionTable) : Phrase → List Tree → Prop
  | .declarator, trees | .declarators, trees => ∀ t ∈ trees, IsDeclarator t
  | .varDeclaration, trees | .localDeclaration, trees | .localDeclarations, trees =>
    ∀ t ∈ trees, t.tag = .varDecl ∧ IsDeclaration t
  | .range, trees => ∀ t ∈ trees, ∃ parts, t = .inner .iterRange parts ∧ IsRange parts
  | .statement, trees | .statements, trees => ∀ t ∈ trees, t.tag ≠ .varDecl ∧ Outlinable table t
  | .block, trees => ∀ t ∈ trees, ∃ token items, t = .marked .compoundStmt token items ∧
    ∀ item ∈ items, Outlinable table item
  | .parameters, trees => ∀ t ∈ trees, t.tag = .parms
  | .function, trees => ∀ t ∈ trees, IsFunction table t
  | .declaration, trees | .declarations, trees => ∀ t ∈ trees, IsTopLevel table t
  | .program, trees => ∀ t ∈ trees, ∀ decl ∈ t.children, IsTopLevel table decl
  | _, _ => True

theorem outlinable_statement {t : Tree} (htag : t.tag ≠ .varDecl)
    (h : ∀ {ctx : Context} {s s' : BodyState} {code : Code},
      statement table ctx t s = .ok code s' → Outlined table ctx (.statement t) s code s') :
    ∀ u ∈ [t], u.tag ≠ .varDecl ∧ Outlinable table u := by
  intro u hu
  rw [List.mem_singleton.1 hu]
  exact ⟨htag, fun hdecl => absurd hdecl htag, fun _ => h⟩

theorem forall_mem_cons_of {α : Type} {p : α → Prop} {a : α} {rest : List α} (first : ∀ x ∈ [a], p x)
    (more : ∀ x ∈ rest, p x) : ∀ x ∈ a :: rest, p x := by
  intro x hx
  rcases List.mem_cons.1 hx with rfl | hx
  · exact first x (by simp)
  · exact more x hx

theorem isDeclaration_of_declarators (specs : List Tree) {inits : List Tree}
    (hspecs : ∀ t ∈ specs, t.tag ≠ .varDeclInit) (hinits : ∀ t ∈ inits, IsDeclarator t) :
    ∀ t ∈ [Tree.inner .varDecl (specs ++ inits)], t.tag = .varDecl ∧ IsDeclaration t := by
  intro t ht
  rw [List.mem_singleton.1 ht]
  refine ⟨rfl, ?_⟩
  intro child hchild
  obtain ⟨hmem, htag⟩ := List.mem_filter.1 hchild
  rcases List.mem_append.1 hmem with hmem | hmem
  · exact absurd (beq_iff_eq.1 htag) (hspecs child hmem)
  · exact hinits child hmem

theorem isFunction_of_block {name : Token} (specs : List Tree) {body : Tree}
    (hspecs : ∀ t ∈ specs, t.tag ≠ .compoundStmt)
    (hbody : ∃ token items, body = .marked .compoundStmt token items ∧
      ∀ item ∈ items, Outlinable table item) :
    ∀ t ∈ [Tree.marked .funDecl name (specs ++ [body])], IsFunction table t := by
  intro t ht
  rw [List.mem_singleton.1 ht]
  obtain ⟨token, items, rfl, hitems⟩ := hbody
  refine ⟨rfl, ?_⟩
  intro found hfound
  change List.find? (fun t => t.tag == .compoundStmt) (specs ++ [_]) = some found at hfound
  rw [List.find?_append, List.find?_eq_none.2 (fun t ht => by simp [hspecs t ht])] at hfound
  cases hfound
  exact hitems

theorem outlinedAs {p : Phrase} {ts : List Token} {trees : List Tree} (h : Derives p ts trees) :
    OutlinedAs table p trees := by
  induction h with
  | uninitialized _ =>
    intro t ht
    rw [List.mem_singleton.1 ht]
    exact ⟨rfl, _, [], rfl, .inl rfl⟩
  | initialized _ _ init =>
    intro t ht
    rw [List.mem_singleton.1 ht]
    exact ⟨rfl, _, _, rfl, .inr ⟨_, rfl, .of_chain init⟩⟩
  | lastDeclarator _ last => exact last
  | declarator _ _ _ first rest => exact forall_mem_cons_of first rest
  | @variableDeclaration type semicolon ts inits _ _ _ list =>
    exact isDeclaration_of_declarators [.marked .typeSpec type []] (by simp) list
  | plainLocal _ decl => exact decl
  | @staticLocal static type semicolon ts inits _ _ _ _ list =>
    exact isDeclaration_of_declarators [.marked .static static [], .marked .typeSpec type []] (by simp) list
  | noLocals => exact fun t ht => absurd ht (by simp)
  | locals _ _ first rest => exact forall_mem_cons_of first rest
  | noParameters | parameters =>
    intro t ht
    rw [List.mem_singleton.1 ht]
    rfl
  | emptyStmt =>
    refine outlinable_statement (by simp) ?_
    intro ctx s s' code h
    obtain ⟨c, hcode, rfl⟩ := liftScope_ok.1 h
    obtain ⟨rfl, rfl⟩ := pure_ok.1 hcode
    exact ⟨.skip, .empty, rfl, rfl⟩
  | expStmt value => exact outlinable_statement (by simp) (outlined_expression ⟨_, value⟩)
  | compound _ body =>
    obtain ⟨token, items, rfl, hitems⟩ := body _ (List.mem_singleton_self _)
    exact outlinable_statement (by simp) (outlined_compound hitems)
  | block _ _ _ _ head body =>
    intro t ht
    rw [List.mem_singleton.1 ht]
    refine ⟨_, _, rfl, ?_⟩
    intro item hitem
    rcases List.mem_append.1 hitem with hitem | hitem
    · obtain ⟨htag, hdecl⟩ := head item hitem
      exact ⟨fun _ => hdecl, fun hstmt => absurd htag hstmt⟩
    · exact (body item hitem).2
  | noStatements => exact fun t ht => absurd ht (by simp)
  | statements _ _ first rest => exact forall_mem_cons_of first rest
  | ifThen _ condition _ _ _ branch =>
    obtain ⟨hyes, hbranch⟩ := branch _ (List.mem_singleton_self _)
    exact outlinable_statement (by simp) (outlined_ifThen (.of_chain condition) (hbranch.statement hyes))
  | ifElse _ condition _ _ _ _ _ _ branch other =>
    obtain ⟨hyes, hbranch⟩ := branch _ (List.mem_singleton_self _)
    obtain ⟨hno, hother⟩ := other _ (List.mem_singleton_self _)
    exact outlinable_statement (by simp)
      (outlined_ifElse (.of_chain condition) (hbranch.statement hyes) (hother.statement hno))
  | whileDo _ condition _ _ _ loop =>
    obtain ⟨hbody, hloop⟩ := loop _ (List.mem_singleton_self _)
    exact outlinable_statement (by simp) (outlined_while (.of_chain condition) (hloop.statement hbody))
  | forDo _ _ _ _ _ _ range loop =>
    obtain ⟨parts, rfl, hparts⟩ := range _ (List.mem_singleton_self _)
    obtain ⟨hbody, hloop⟩ := loop _ (List.mem_singleton_self _)
    exact outlinable_statement (by simp) (outlined_for hparts (hloop.statement hbody))
  | returnPlain => exact outlinable_statement (by simp) outlined_returnPlain
  | returnValue _ value => exact outlinable_statement (by simp) (outlined_return ⟨_, value⟩)
  | breakLoop => exact outlinable_statement (by simp) outlined_break
  | rangeStart first =>
    intro t ht
    rw [List.mem_singleton.1 ht]
    exact ⟨_, rfl, .inl ⟨_, rfl, .of_chain first⟩⟩
  | rangeTo first _ last =>
    intro t ht
    rw [List.mem_singleton.1 ht]
    exact ⟨_, rfl, .inr (.inl ⟨_, _, rfl, .of_chain first, .of_chain last⟩)⟩
  | rangeBy first _ last _ stride =>
    intro t ht
    rw [List.mem_singleton.1 ht]
    exact ⟨_, rfl, .inr (.inr ⟨_, _, _, rfl, .of_chain first, .of_chain last, .of_chain stride⟩)⟩
  | @procedure name opening closing ts us parms body _ _ _ _ _ list code =>
    have hparms := list parms (List.mem_singleton_self _)
    exact isFunction_of_block [parms] (by simp [hparms]) (code body (List.mem_singleton_self _))
  | @function type name opening closing ts us parms body _ _ _ _ _ _ list code =>
    have hparms := list parms (List.mem_singleton_self _)
    exact isFunction_of_block [.marked .typeSpec type [], parms] (by simp [hparms])
      (code body (List.mem_singleton_self _))
  | globals _ decl => exact fun t ht => .inl (decl t ht)
  | routine _ decl => exact fun t ht => .inr (decl t ht)
  | lastDeclaration _ last => exact last
  | declaration _ _ first rest => exact forall_mem_cons_of first rest
  | program _ list =>
    intro t ht
    rw [List.mem_singleton.1 ht]
    exact list
  | _ => trivial

end Lowering

end StackCompiler
