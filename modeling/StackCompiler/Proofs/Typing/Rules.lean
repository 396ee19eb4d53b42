import StackCompiler.Proofs.Lowering.Routines
import StackCompiler.Proofs.Lowering.StaticVariables

/-!
The static rules of the language, in terms of the tree alone: no slots, no code and no order in which
anything is checked. `HasType` gives the type of an expression, `Declares` says what a declaration adds to
the variables in scope, `WellFormed` tells the legal bodies, and `WellFormedProgram` the legal programs.
-/

set_option autoImplicit false
namespace StackCompiler.Typing

open Grammar (Level)
open Lowering

/-- The variables of one scope with their types, the latest first. -/
abbrev Variables := List (String × Ty)

abbrev Environment := List Variables

/-- The functions that can be called, by name, parameter types and result type. -/
abbrev Functions := String → List Ty → Ty → Prop

/-- The type of the variable that a name denotes: the innermost scope that declares it decides. -/
def Environment.typeOf? (env : Environment) (name : String) : Option Ty :=
  env.findSome? fun scope => scope.lookup name

def IsNumeral (text : String) : Prop :=
  text.toList.all Char.isDigit = true ∧ Text.digitsValue text.toList ≤ 2147483647

inductive LiteralType (token : Token) : Ty → Prop where
  | number (isNumber : token.kind = .number) (fits : IsNumeral token.lexeme) : LiteralType token .int
  | character (isCharacter : token.kind = .character) : LiteralType token .char
  | string (isString : token.kind = .string) : LiteralType token .string
  | truth (isTruth : token.OneOf .keyword ["true", "false"]) : LiteralType token .bool

inductive Compared (op : Token) (ty : Ty) : Prop where
  | equality (isOp : op.lexeme ∈ ["==", "!="]) (scalar : ty.isScalar = true) : Compared op ty
  | order (isOp : op.lexeme ∈ ["<", "<=", ">", ">="]) (ordered : ty.isOrdered = true) : Compared op ty

def linkNodes (links : List (Token × Tree)) : List Tree :=
  links.flatMap fun link => [.marked .operator link.1 [], link.2]

/-- An expression has a type; the type of a call without result is `void`. -/
inductive HasType (functions : Functions) (env : Environment) : Tree → Ty → Prop where
  | literal {token : Token} {ty : Ty} (h : LiteralType token ty) :
      HasType functions env (.marked .constant token []) ty
  | variable {name : Token} {ty : Ty} (declared : env.typeOf? name.lexeme = some ty) :
      HasType functions env (.marked .mutable name []) ty
  | element {name : Token} {index : Tree} {ty : Ty}
      (declared : env.typeOf? name.lexeme = some (.array ty))
      (position : HasType functions env index .int) :
      HasType functions env (.marked .mutable name [index]) ty
  | paren {token : Token} {t : Tree} {ty : Ty} (inner : HasType functions env t ty) :
      HasType functions env (.marked .paren token [t]) ty
  | chain {level : Level} {first : Tree} {links : List (Token × Tree)}
      (operators : ∀ link ∈ links, level.Connective link.1)
      (operand : HasType functions env first level.ty)
      (operands : ∀ link ∈ links, HasType functions env link.2 level.ty) :
      HasType functions env (.inner level.tag (first :: linkNodes links)) level.ty
  | compare {op : Token} {left right : Tree} {ty : Ty} (defined : Compared op ty)
      (first : HasType functions env left ty) (second : HasType functions env right ty) :
      HasType functions env (.inner .relExp [left, .marked .operator op [], right]) .bool
  | negate {op : Token} {t : Tree} (operand : HasType functions env t .bool) :
      HasType functions env (.marked .notExp op [t]) .bool
  | sign {op : Token} {t : Tree} (isOp : op.lexeme ∈ ["-", "?"])
      (operand : HasType functions env t .int) :
      HasType functions env (.marked .unaryExp op [t]) .int
  | length {op : Token} {t : Tree} {ty : Ty} (isOp : op.lexeme = "*")
      (operand : HasType functions env t (.array ty)) :
      HasType functions env (.marked .unaryExp op [t]) .int
  | call {name : Token} {args : List Tree} {types : List Ty} {result : Ty}
      (plain : isIntrinsic name.lexeme = false) (declared : functions name.lexeme types result)
      (count : args.length = types.length)
      (each : ∀ arg ∈ args.zip types, HasType functions env arg.1 arg.2) :
      HasType functions env (.marked .call name args) result
  | print {name : Token} {t : Tree} {ty : Ty} (isPrint : name.lexeme = "print")
      (scalar : ty.isScalar = true) (value : HasType functions env t ty) :
      HasType functions env (.marked .call name [t]) .void
  | printFormatted {name : Token} {first : Tree} {values : List Tree} {types : List Ty}
      (isPrint : name.lexeme = "print") (nonempty : values ≠ [])
      (count : values.length = types.length) (scalar : ∀ ty ∈ types, ty.isScalar = true)
      (format : HasType functions env first .string)
      (each : ∀ arg ∈ values.zip types, HasType functions env arg.1 arg.2) :
      HasType functions env (.marked .call name (first :: values)) .void
  | put {name : Token} {targets : List Tree} {types : List Ty} (isPut : name.lexeme = "put")
      (nonempty : targets ≠ []) (mutable : ∀ t ∈ targets, t.tag = .mutable)
      (count : targets.length = types.length) (scalar : ∀ ty ∈ types, ty.isScalar = true)
      (each : ∀ arg ∈ targets.zip types, HasType functions env arg.1 arg.2) :
      HasType functions env (.marked .call name targets) .void
  | assign {op : Token} {target value : Tree} {ty : Ty} (isOp : op.lexeme = "=")
      (mutable : target.tag = .mutable) (left : HasType functions env target ty)
      (right : HasType functions env value ty) :
      HasType functions env (.marked .assign op [target, value]) ty
  | update {op : Token} {target value : Tree} (isOp : op.lexeme ∈ ["+=", "-=", "*=", "/="])
      (mutable : target.tag = .mutable) (left : HasType functions env target .int)
      (right : HasType functions env value .int) :
      HasType functions env (.marked .assign op [target, value]) .int
  | step {op : Token} {target : Tree} (isOp : op.lexeme ∈ ["++", "--"])
      (mutable : target.tag = .mutable) (left : HasType functions env target .int) :
      HasType functions env (.marked .incDec op [target]) .int

def declaredType (base : Ty) (length : Option Token) : Ty :=
  if length.isSome then .array base else base

def declaratorNode (name : Token) (length : Option Token) (init : Option Tree) : Tree :=
  .inner .varDeclInit
    (.marked .varDeclId name (length.map fun n => Tree.marked .constant n []).toList :: init.toList)

/-- Declarators of one base type lead from the variables before them to those behind them. A name is new in
its scope, and not yet there in its own initializer. -/
inductive Declares (functions : Functions) (base : Ty) : Environment → List Tree → Environment → Prop where
  | done {env : Environment} : Declares functions base env [] env
  | declarator {name : Token} {length : Option Token} {init : Option Tree} {rest : List Tree}
      {scope : Variables} {outer env : Environment} (sized : ∀ n ∈ length, IsNumeral n.lexeme)
      (initial : ∀ e ∈ init, HasType functions (scope :: outer) e base)
      (new : scope.lookup name.lexeme = none)
      (more : Declares functions base (((name.lexeme, declaredType base length) :: scope) :: outer) rest env) :
      Declares functions base (scope :: outer) (declaratorNode name length init :: rest) env

inductive Clause where
  | statement (t : Tree)
  | items (ts : List Tree)

/-- Legal statements, and legal declarations and statements of one scope, in a function with the given
result type. The first index says whether they stand in a loop. -/
inductive WellFormed (functions : Functions) (result : Ty) : Bool → Environment → Clause → Prop where
  | empty {inLoop : Bool} {env : Environment} {token : Token} :
      WellFormed functions result inLoop env (.statement (.marked .expStmt token []))
  | expression {inLoop : Bool} {env : Environment} {token : Token} {t : Tree} {ty : Ty}
      (value : HasType functions env t ty) :
      WellFormed functions result inLoop env (.statement (.marked .expStmt token [t]))
  | compound {inLoop : Bool} {env : Environment} {token : Token} {items : List Tree}
      (inner : WellFormed functions result inLoop ([] :: env) (.items items)) :
      WellFormed functions result inLoop env (.statement (.marked .compoundStmt token items))
  | ifThen {inLoop : Bool} {env : Environment} {token : Token} {test yes : Tree}
      (condition : HasType functions env test .bool)
      (branch : WellFormed functions result inLoop env (.statement yes)) :
      WellFormed functions result inLoop env (.statement (.marked .ifStmt token [test, yes]))
  | ifElse {inLoop : Bool} {env : Environment} {token : Token} {test yes no : Tree}
      (condition : HasType functions env test .bool)
      (branch : WellFormed functions result inLoop env (.statement yes))
      (other : WellFormed functions result inLoop env (.statement no)) :
      WellFormed functions result inLoop env (.statement (.marked .ifStmt token [test, yes, no]))
  | whileDo {inLoop : Bool} {env : Environment} {token : Token} {test body : Tree}
      (condition : HasType functions env test .bool)
      (loop : WellFormed functions result true env (.statement body)) :
      WellFormed functions result inLoop env (.statement (.marked .whileStmt token [test, body]))
  | forTo {inLoop : Bool} {env : Environment} {name : Token} {bounds : List Tree} {body : Tree}
      (counter : env.typeOf? name.lexeme = some .int) (nonempty : bounds ≠ [])
      (range : ∀ t ∈ bounds, HasType functions env t .int)
      (loop : WellFormed functions result true env (.statement body)) :
      WellFormed functions result inLoop env
        (.statement (.marked .forStmt name [.inner .iterRange bounds, body]))
  | returnPlain {inLoop : Bool} {env : Environment} {token : Token} (isVoid : result = .void) :
      WellFormed functions result inLoop env (.statement (.marked .returnStmt token []))
  | returnValue {inLoop : Bool} {env : Environment} {token : Token} {t : Tree}
      (value : HasType functions env t result) :
      WellFormed functions result inLoop env (.statement (.marked .returnStmt token [t]))
  | breakLoop {env : Environment} {token : Token} :
      WellFormed functions result true env (.statement (.marked .breakStmt token []))
  | noItems {inLoop : Bool} {env : Environment} : WellFormed functions result inLoop env (.items [])
  | declaration {inLoop : Bool} {env env' : Environment} {node : Tree} {rest : List Tree} {base : Ty}
      (isDecl : node.tag = .varDecl) (type : baseType node = .ok base)
      (declares : Declares functions base env node.declarators env')
      (more : WellFormed functions result inLoop env' (.items rest)) :
      WellFormed functions result inLoop env (.items (node :: rest))
  | item {inLoop : Bool} {env : Environment} {t : Tree} {rest : List Tree} (isStmt : t.tag ≠ .varDecl)
      (first : WellFormed functions result inLoop env (.statement t))
      (more : WellFormed functions result inLoop env (.items rest)) :
      WellFormed functions result inLoop env (.items (t :: rest))

def word (t : Tree) : String :=
  (t.token.map Token.lexeme).getD ""

/-- The scope that a function opens: its parameters, the latest first. -/
def parameterScope (parms : List (Tree × Ty)) : Variables :=
  (parms.map fun parm => (word parm.1, parm.2)).reverse

/-- Legal declarations at file scope. The parameters of a function and the declarations at the head of its
body share one scope. -/
inductive WellFormedFile (functions : Functions) : Environment → List Tree → Prop where
  | done {env : Environment} : WellFormedFile functions env []
  | declaration {env env' : Environment} {node : Tree} {rest : List Tree} {base : Ty}
      (isDecl : node.tag = .varDecl) (type : baseType node = .ok base)
      (declares : Declares functions base env node.declarators env')
      (more : WellFormedFile functions env' rest) : WellFormedFile functions env (node :: rest)
  | function {env : Environment} {decl block : Tree} {rest : List Tree} {parms : List (Tree × Ty)}
      {result : Ty} (isFunction : decl.tag = .funDecl) (takes : parameters decl = .ok parms)
      (returns : Session.resultType decl = .ok result)
      (distinct : (parms.map fun parm => word parm.1).Nodup)
      (body : decl.find? .compoundStmt = some block)
      (items : WellFormed functions result false (parameterScope parms :: env) (.items block.children))
      (more : WellFormedFile functions env rest) : WellFormedFile functions env (decl :: rest)

def functionDeclarations (decls : List Tree) : List Tree :=
  decls.filter fun decl => decl.tag == .funDecl

def Heads (decl : Tree) (name : String) (types : List Ty) (result : Ty) : Prop :=
  word decl = name ∧ (∃ parms, parameters decl = .ok parms ∧ types = parms.map Prod.snd) ∧
    Session.resultType decl = .ok result

def functionsOf (decls : List Tree) : Functions := fun name types result =>
  ∃ decl ∈ functionDeclarations decls, Heads decl name types result

/-- A `static` declaration that gives a variable an initial value. -/
def initializesStatic (t : Tree) : Bool :=
  t.tag == .varDecl && (t.find? .static).isSome && t.declarators.any fun d => d.children[1]?.isSome

structure WellFormedProgram (program : Tree) : Prop where
  distinct : ((functionDeclarations program.children).map word).Nodup
  plain : ∀ decl ∈ functionDeclarations program.children, isIntrinsic (word decl) = false
  file : WellFormedFile (functionsOf program.children) [[]] program.children

end StackCompiler.Typing
