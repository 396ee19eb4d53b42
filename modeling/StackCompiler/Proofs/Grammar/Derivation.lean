import StackCompiler.Grammar.Program

/-!
The grammar as a relation: `Derives p ts trees` says that the tokens `ts` form the phrase `p` and that
`trees` are the nodes this phrase contributes. Every phrase but the lists contributes one node.

The terminals of a rule are given by kind and spelling, so that the relation stands on its own beside
the functions that read tokens.
-/

set_option autoImplicit false
namespace StackCompiler

def Token.OneOf (t : Token) (kind : Kind) (texts : List String) : Prop :=
  t.kind = kind ∧ t.lexeme ∈ texts

def Token.IsType (t : Token) : Prop :=
  t.OneOf .keyword ["int", "bool", "char", "string"]

def Token.IsLiteral (t : Token) : Prop :=
  t.kind = .number ∨ t.kind = .character ∨ t.kind = .string ∨ t.OneOf .keyword ["true", "false"]

namespace Grammar

def Level.Connective : Level → Token → Prop
  | or, t => t.OneOf .keyword ["or"] ∨ t.OneOf .operator ["||"]
  | and, t => t.OneOf .keyword ["and"] ∨ t.OneOf .operator ["&&"]
  | minMax, t => t.OneOf .operator [":>:", ":<:"]
  | sum, t => t.OneOf .operator ["+", "-"]
  | mul, t => t.OneOf .operator ["*", "/", "%"]

inductive Phrase where
  | expression
  | chain (level : Level)
  /-- What follows the first operand of a chain: one or more operators with their operands. -/
  | links (level : Level)
  | negation
  | comparison
  | unary
  | factor
  | location
  | arguments
  | declaredName
  | declarator
  | declarators
  | varDeclaration
  | localDeclaration
  | localDeclarations
  | parameter
  | parameterList
  | parameterGroup
  | parameterGroups
  | parameters
  | range
  | statement
  | statements
  | block
  | function
  | declaration
  | declarations
  | program
  deriving DecidableEq

def Level.operandPhrase : Level → Phrase
  | or => .chain .and
  | and => .negation
  | minMax => .chain .sum
  | sum => .chain .mul
  | mul => .unary

/-- A statement whose last part is an `if` without `else`: an `else` behind it would belong to that. -/
def endsOpen : Tree → Bool
  | ⟨.ifStmt, _, [_, _]⟩ => true
  | ⟨.ifStmt, _, [_, _, no]⟩ => endsOpen no
  | ⟨.whileStmt, _, [_, body]⟩ => endsOpen body
  | ⟨.forStmt, _, [_, body]⟩ => endsOpen body
  | _ => false
termination_by structural t => t

inductive Derives : Phrase → List Token → List Tree → Prop where
  -- expressions
  | assign {op : Token} {ts us : List Token} {target value : Tree}
      (left : Derives .location ts [target])
      (isOp : op.OneOf .operator ["=", "+=", "-=", "*=", "/="])
      (right : Derives .expression us [value]) :
      Derives .expression (ts ++ op :: us) [.marked .assign op [target, value]]
  | step {op : Token} {ts : List Token} {target : Tree}
      (left : Derives .location ts [target]) (isOp : op.OneOf .operator ["++", "--"]) :
      Derives .expression (ts ++ [op]) [.marked .incDec op [target]]
  | simple {ts : List Token} {t : Tree} (value : Derives (.chain .or) ts [t]) :
      Derives .expression ts [t]
  | single {level : Level} {ts : List Token} {t : Tree} (operand : Derives level.operandPhrase ts [t]) :
      Derives (.chain level) ts [t]
  | several {level : Level} {ts us : List Token} {first : Tree} {links : List Tree}
      (operand : Derives level.operandPhrase ts [first]) (rest : Derives (.links level) us links) :
      Derives (.chain level) (ts ++ us) [.inner level.tag (first :: links)]
  | lastLink {level : Level} {op : Token} {ts : List Token} {t : Tree} (isOp : level.Connective op)
      (operand : Derives level.operandPhrase ts [t]) :
      Derives (.links level) (op :: ts) [.marked .operator op [], t]
  | link {level : Level} {op : Token} {ts us : List Token} {t : Tree} {links : List Tree}
      (isOp : level.Connective op) (operand : Derives level.operandPhrase ts [t])
      (rest : Derives (.links level) us links) :
      Derives (.links level) (op :: ts ++ us) (.marked .operator op [] :: t :: links)
  | negate {op : Token} {ts : List Token} {t : Tree}
      (isOp : op.OneOf .keyword ["not"] ∨ op.OneOf .operator ["!"])
      (operand : Derives .negation ts [t]) :
      Derives .negation (op :: ts) [.marked .notExp op [t]]
  | positive {ts : List Token} {t : Tree} (operand : Derives .comparison ts [t]) :
      Derives .negation ts [t]
  | uncompared {ts : List Token} {t : Tree} (operand : Derives (.chain .minMax) ts [t]) :
      Derives .comparison ts [t]
  | compare {op : Token} {ts us : List Token} {left right : Tree}
      (first : Derives (.chain .minMax) ts [left])
      (isOp : op.OneOf .operator ["<=", "<", ">", ">=", "==", "!="])
      (second : Derives (.chain .minMax) us [right]) :
      Derives .comparison (ts ++ op :: us) [.inner .relExp [left, .marked .operator op [], right]]
  | unary {op : Token} {ts : List Token} {t : Tree} (isOp : op.OneOf .operator ["-", "*", "?"])
      (operand : Derives .unary ts [t]) :
      Derives .unary (op :: ts) [.marked .unaryExp op [t]]
  | plain {ts : List Token} {t : Tree} (operand : Derives .factor ts [t]) : Derives .unary ts [t]
  | paren {opening closing : Token} {ts : List Token} {t : Tree} (isOpen : opening.OneOf .symbol ["("])
      (inner : Derives .expression ts [t]) (isClose : closing.OneOf .symbol [")"]) :
      Derives .factor (opening :: ts ++ [closing]) [.marked .paren opening [t]]
  | callPlain {name opening closing : Token} (isName : name.kind = .identifier)
      (isOpen : opening.OneOf .symbol ["("]) (isClose : closing.OneOf .symbol [")"]) :
      Derives .factor [name, opening, closing] [.marked .call name []]
  | call {name opening closing : Token} {ts : List Token} {args : List Tree}
      (isName : name.kind = .identifier) (isOpen : opening.OneOf .symbol ["("])
      (inner : Derives .arguments ts args) (isClose : closing.OneOf .symbol [")"]) :
      Derives .factor (name :: opening :: ts ++ [closing]) [.marked .call name args]
  | literal {token : Token} (isConst : token.IsLiteral) :
      Derives .factor [token] [.marked .constant token []]
  | location {ts : List Token} {t : Tree} (place : Derives .location ts [t]) : Derives .factor ts [t]
  | named {name : Token} (isName : name.kind = .identifier) :
      Derives .location [name] [.marked .mutable name []]
  | indexed {name opening closing : Token} {ts : List Token} {index : Tree}
      (isName : name.kind = .identifier) (isOpen : opening.OneOf .symbol ["["])
      (inner : Derives .expression ts [index]) (isClose : closing.OneOf .symbol ["]"]) :
      Derives .location (name :: opening :: ts ++ [closing]) [.marked .mutable name [index]]
  | lastArgument {ts : List Token} {t : Tree} (value : Derives .expression ts [t]) :
      Derives .arguments ts [t]
  | argument {comma : Token} {ts us : List Token} {t : Tree} {args : List Tree}
      (value : Derives .expression ts [t]) (isComma : comma.OneOf .symbol [","])
      (rest : Derives .arguments us args) :
      Derives .arguments (ts ++ comma :: us) (t :: args)
  -- declarations of variables
  | scalarName {name : Token} (isName : name.kind = .identifier) :
      Derives .declaredName [name] [.marked .varDeclId name []]
  | arrayName {name opening length closing : Token} (isName : name.kind = .identifier)
      (isOpen : opening.OneOf .symbol ["["]) (isLength : length.kind = .number)
      (isClose : closing.OneOf .symbol ["]"]) :
      Derives .declaredName [name, opening, length, closing]
        [.marked .varDeclId name [.marked .constant length []]]
  | uninitialized {ts : List Token} {id : Tree} (name : Derives .declaredName ts [id]) :
      Derives .declarator ts [.inner .varDeclInit [id]]
  | initialized {colon : Token} {ts us : List Token} {id value : Tree}
      (name : Derives .declaredName ts [id]) (isColon : colon.OneOf .symbol [":"])
      (init : Derives (.chain .or) us [value]) :
      Derives .declarator (ts ++ colon :: us) [.inner .varDeclInit [id, value]]
  | lastDeclarator {ts : List Token} {init : Tree} (last : Derives .declarator ts [init]) :
      Derives .declarators ts [init]
  | declarator {comma : Token} {ts us : List Token} {init : Tree} {inits : List Tree}
      (first : Derives .declarator ts [init]) (isComma : comma.OneOf .symbol [","])
      (rest : Derives .declarators us inits) :
      Derives .declarators (ts ++ comma :: us) (init :: inits)
  | variableDeclaration {type semicolon : Token} {ts : List Token} {inits : List Tree} (isType : type.IsType)
      (list : Derives .declarators ts inits) (isEnd : semicolon.OneOf .symbol [";"]) :
      Derives .varDeclaration (type :: ts ++ [semicolon])
        [.inner .varDecl (.marked .typeSpec type [] :: inits)]
  | plainLocal {ts : List Token} {t : Tree} (decl : Derives .varDeclaration ts [t]) :
      Derives .localDeclaration ts [t]
  | staticLocal {static type semicolon : Token} {ts : List Token} {inits : List Tree}
      (isStatic : static.OneOf .keyword ["static"]) (isType : type.IsType)
      (list : Derives .declarators ts inits) (isEnd : semicolon.OneOf .symbol [";"]) :
      Derives .localDeclaration (static :: type :: ts ++ [semicolon])
        [.inner .varDecl (.marked .static static [] :: .marked .typeSpec type [] :: inits)]
  | noLocals : Derives .localDeclarations [] []
  | locals {ts us : List Token} {t : Tree} {decls : List Tree} (first : Derives .localDeclaration ts [t])
      (rest : Derives .localDeclarations us decls) :
      Derives .localDeclarations (ts ++ us) (t :: decls)
  -- parameters
  | scalarParameter {name : Token} (isName : name.kind = .identifier) :
      Derives .parameter [name] [.marked .parmId name []]
  | arrayParameter {name opening closing : Token} (isName : name.kind = .identifier)
      (isOpen : opening.OneOf .symbol ["["]) (isClose : closing.OneOf .symbol ["]"]) :
      Derives .parameter [name, opening, closing]
        [.marked .parmId name [.marked .arrayMarker opening []]]
  | lastParameter {ts : List Token} {id : Tree} (last : Derives .parameter ts [id]) :
      Derives .parameterList ts [id]
  | parameter {comma : Token} {ts us : List Token} {id : Tree} {ids : List Tree}
      (first : Derives .parameter ts [id]) (isComma : comma.OneOf .symbol [","])
      (rest : Derives .parameterList us ids) :
      Derives .parameterList (ts ++ comma :: us) (id :: ids)
  | parameterGroup {type : Token} {ts : List Token} {ids : List Tree} (isType : type.IsType)
      (list : Derives .parameterList ts ids) :
      Derives .parameterGroup (type :: ts) [.inner .parmTypeList (.marked .typeSpec type [] :: ids)]
  | lastGroup {ts : List Token} {group : Tree} (last : Derives .parameterGroup ts [group]) :
      Derives .parameterGroups ts [group]
  | group {semicolon : Token} {ts us : List Token} {group : Tree} {groups : List Tree}
      (first : Derives .parameterGroup ts [group]) (isEnd : semicolon.OneOf .symbol [";"])
      (rest : Derives .parameterGroups us groups) :
      Derives .parameterGroups (ts ++ semicolon :: us) (group :: groups)
  | noParameters : Derives .parameters [] [.inner .parms []]
  | parameters {ts : List Token} {groups : List Tree} (list : Derives .parameterGroups ts groups) :
      Derives .parameters ts [.inner .parms groups]
  -- statements
  | emptyStmt {semicolon : Token} (isEnd : semicolon.OneOf .symbol [";"]) :
      Derives .statement [semicolon] [.marked .expStmt semicolon []]
  | expStmt {semicolon : Token} {ts : List Token} {t : Tree} (value : Derives .expression ts [t])
      (isEnd : semicolon.OneOf .symbol [";"]) :
      Derives .statement (ts ++ [semicolon]) [.marked .expStmt semicolon [t]]
  | compound {ts : List Token} {t : Tree} (body : Derives .block ts [t]) : Derives .statement ts [t]
  | block {opening closing : Token} {ts us : List Token} {decls stmts : List Tree}
      (isOpen : opening.OneOf .symbol ["\x7b"]) (head : Derives .localDeclarations ts decls)
      (body : Derives .statements us stmts) (isClose : closing.OneOf .symbol ["\x7d"]) :
      Derives .block (opening :: ts ++ us ++ [closing])
        [.marked .compoundStmt opening (decls ++ stmts)]
  | noStatements : Derives .statements [] []
  | statements {ts us : List Token} {t : Tree} {stmts : List Tree} (first : Derives .statement ts [t])
      (rest : Derives .statements us stmts) :
      Derives .statements (ts ++ us) (t :: stmts)
  | ifThen {word thenWord : Token} {ts us : List Token} {test yes : Tree}
      (isIf : word.OneOf .keyword ["if"]) (condition : Derives (.chain .or) ts [test])
      (isThen : thenWord.OneOf .keyword ["then"]) (branch : Derives .statement us [yes]) :
      Derives .statement (word :: ts ++ thenWord :: us) [.marked .ifStmt word [test, yes]]
  | ifElse {word thenWord elseWord : Token} {ts us vs : List Token} {test yes no : Tree}
      (isIf : word.OneOf .keyword ["if"]) (condition : Derives (.chain .or) ts [test])
      (isThen : thenWord.OneOf .keyword ["then"]) (branch : Derives .statement us [yes])
      (nearest : endsOpen yes = false) (isElse : elseWord.OneOf .keyword ["else"])
      (other : Derives .statement vs [no]) :
      Derives .statement (word :: ts ++ thenWord :: us ++ elseWord :: vs)
        [.marked .ifStmt word [test, yes, no]]
  | whileDo {word doWord : Token} {ts us : List Token} {test body : Tree}
      (isWhile : word.OneOf .keyword ["while"]) (condition : Derives (.chain .or) ts [test])
      (isDo : doWord.OneOf .keyword ["do"]) (loop : Derives .statement us [body]) :
      Derives .statement (word :: ts ++ doWord :: us) [.marked .whileStmt word [test, body]]
  | forDo {word name equals doWord : Token} {ts us : List Token} {bounds body : Tree}
      (isFor : word.OneOf .keyword ["for"]) (isName : name.kind = .identifier)
      (isEquals : equals.OneOf .operator ["="]) (range : Derives .range ts [bounds])
      (isDo : doWord.OneOf .keyword ["do"]) (loop : Derives .statement us [body]) :
      Derives .statement (word :: name :: equals :: ts ++ doWord :: us)
        [.marked .forStmt name [bounds, body]]
  | returnPlain {word semicolon : Token} (isReturn : word.OneOf .keyword ["return"])
      (isEnd : semicolon.OneOf .symbol [";"]) :
      Derives .statement [word, semicolon] [.marked .returnStmt word []]
  | returnValue {word semicolon : Token} {ts : List Token} {t : Tree}
      (isReturn : word.OneOf .keyword ["return"]) (value : Derives .expression ts [t])
      (isEnd : semicolon.OneOf .symbol [";"]) :
      Derives .statement (word :: ts ++ [semicolon]) [.marked .returnStmt word [t]]
  | breakLoop {word semicolon : Token} (isBreak : word.OneOf .keyword ["break"])
      (isEnd : semicolon.OneOf .symbol [";"]) :
      Derives .statement [word, semicolon] [.marked .breakStmt word []]
  | rangeStart {ts : List Token} {start : Tree} (first : Derives (.chain .or) ts [start]) :
      Derives .range ts [.inner .iterRange [start]]
  | rangeTo {toWord : Token} {ts us : List Token} {start stop : Tree}
      (first : Derives (.chain .or) ts [start]) (isTo : toWord.OneOf .keyword ["to"])
      (last : Derives (.chain .or) us [stop]) :
      Derives .range (ts ++ toWord :: us) [.inner .iterRange [start, stop]]
  | rangeBy {toWord byWord : Token} {ts us vs : List Token} {start stop step : Tree}
      (first : Derives (.chain .or) ts [start]) (isTo : toWord.OneOf .keyword ["to"])
      (last : Derives (.chain .or) us [stop]) (isBy : byWord.OneOf .keyword ["by"])
      (stride : Derives (.chain .or) vs [step]) :
      Derives .range (ts ++ toWord :: us ++ byWord :: vs) [.inner .iterRange [start, stop, step]]
  -- functions and programs
  | procedure {name opening closing : Token} {ts us : List Token} {parms body : Tree}
      (isName : name.kind = .identifier) (isOpen : opening.OneOf .symbol ["("])
      (list : Derives .parameters ts [parms]) (isClose : closing.OneOf .symbol [")"])
      (code : Derives .block us [body]) :
      Derives .function (name :: opening :: ts ++ closing :: us) [.marked .funDecl name [parms, body]]
  | function {type name opening closing : Token} {ts us : List Token} {parms body : Tree}
      (isType : type.IsType) (isName : name.kind = .identifier)
      (isOpen : opening.OneOf .symbol ["("]) (list : Derives .parameters ts [parms])
      (isClose : closing.OneOf .symbol [")"]) (code : Derives .block us [body]) :
      Derives .function (type :: name :: opening :: ts ++ closing :: us)
        [.marked .funDecl name [.marked .typeSpec type [], parms, body]]
  | globals {ts : List Token} {t : Tree} (decl : Derives .varDeclaration ts [t]) :
      Derives .declaration ts [t]
  | routine {ts : List Token} {t : Tree} (decl : Derives .function ts [t]) : Derives .declaration ts [t]
  | lastDeclaration {ts : List Token} {t : Tree} (last : Derives .declaration ts [t]) :
      Derives .declarations ts [t]
  | declaration {ts us : List Token} {t : Tree} {decls : List Tree}
      (first : Derives .declaration ts [t]) (rest : Derives .declarations us decls) :
      Derives .declarations (ts ++ us) (t :: decls)
  | program {ts : List Token} {decls : List Tree} (list : Derives .declarations ts decls) :
      Derives .program ts [.inner .program decls]

end Grammar

end StackCompiler
