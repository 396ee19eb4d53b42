import StackCompiler.Proofs.Grammar.ProgramCompleteness

/-!
A tree spells the tokens it was read from. Separators, parentheses and the words of a statement have no
nodes of their own, but the tag of a node says where they stand, so that only line numbers are lost.
-/

set_option autoImplicit false
namespace StackCompiler

/-- What a token says, without where it stands. -/
structure Word where
  kind : Kind
  lexeme : String
  deriving DecidableEq, Inhabited

def Token.word (t : Token) : Word :=
  ⟨t.kind, t.lexeme⟩

namespace Word

def symbol (text : String) : List Word :=
  [⟨.symbol, text⟩]

def keyword (text : String) : List Word :=
  [⟨.keyword, text⟩]

def separated (separator : List Word) : List (List Word) → List Word
  | [] => []
  | [words] => words
  | words :: more => words ++ separator ++ separated separator more

@[simp] theorem separated_nil (separator : List Word) : separated separator [] = [] := rfl

@[simp] theorem separated_singleton (separator words : List Word) :
    separated separator [words] = words := rfl

theorem separated_cons (separator words : List Word) {more : List (List Word)} (h : more ≠ []) :
    separated separator (words :: more) = words ++ separator ++ separated separator more := by
  cases more with
  | nil => exact absurd rfl h
  | cons => rfl

@[simp] theorem separated_flatten (parts : List (List Word)) : separated [] parts = parts.flatten := by
  induction parts with
  | nil => rfl
  | cons words more ih =>
    cases more with
    | nil => simp
    | cons => rw [separated_cons _ _ (by simp), ih, List.append_nil]; rfl

end Word

open Word

def Tag.spell (own : List Word) : Tag → List (List Word) → List Word
  | varDecl, [⟨.keyword, "static"⟩] :: type :: inits =>
    keyword "static" ++ type ++ separated (symbol ",") inits ++ symbol ";"
  | varDecl, type :: inits => type ++ separated (symbol ",") inits ++ symbol ";"
  | varDeclInit, [id, init] => id ++ symbol ":" ++ init
  | varDeclId, [length] => own ++ symbol "[" ++ length ++ symbol "]"
  | funDecl, [params, body] => own ++ symbol "(" ++ params ++ symbol ")" ++ body
  | funDecl, [type, params, body] => type ++ own ++ symbol "(" ++ params ++ symbol ")" ++ body
  | parms, groups => separated (symbol ";") groups
  | parmTypeList, type :: ids => type ++ separated (symbol ",") ids
  | parmId, [marker] => own ++ marker ++ symbol "]"
  | compoundStmt, items => own ++ items.flatten ++ symbol "\x7d"
  | expStmt, parts => parts.flatten ++ own
  | ifStmt, [test, yes] => own ++ test ++ keyword "then" ++ yes
  | ifStmt, [test, yes, no] => own ++ test ++ keyword "then" ++ yes ++ keyword "else" ++ no
  | whileStmt, [test, body] => own ++ test ++ keyword "do" ++ body
  | forStmt, [range, body] =>
    keyword "for" ++ own ++ [⟨.operator, "="⟩] ++ range ++ keyword "do" ++ body
  | iterRange, [start, stop] => start ++ keyword "to" ++ stop
  | iterRange, [start, stop, step] => start ++ keyword "to" ++ stop ++ keyword "by" ++ step
  | returnStmt, parts => own ++ parts.flatten ++ symbol ";"
  | breakStmt, _ => own ++ symbol ";"
  | assign, [target, value] => target ++ own ++ value
  | incDec, [target] => target ++ own
  | paren, parts => own ++ parts.flatten ++ symbol ")"
  | call, args => own ++ symbol "(" ++ separated (symbol ",") args ++ symbol ")"
  | mutable, [index] => own ++ symbol "[" ++ index ++ symbol "]"
  | _, parts => own ++ parts.flatten

mutual

def Tree.words : Tree → List Word
  | ⟨tag, token, children⟩ => tag.spell (token.toList.map Token.word) (Tree.wordsOfEach children)

def Tree.wordsOfEach : List Tree → List (List Word)
  | [] => []
  | t :: ts => t.words :: Tree.wordsOfEach ts

end

@[simp] theorem Tree.wordsOfEach_eq_map (ts : List Tree) : Tree.wordsOfEach ts = ts.map Tree.words := by
  induction ts with
  | nil => rfl
  | cons t ts ih => rw [Tree.wordsOfEach, ih, List.map_cons]

@[simp] theorem Tree.words_inner (tag : Tag) (children : List Tree) :
    (Tree.inner tag children).words = tag.spell [] (children.map Tree.words) := by
  simp [Tree.inner, Tree.words]

@[simp] theorem Tree.words_marked (tag : Tag) (token : Token) (children : List Tree) :
    (Tree.marked tag token children).words = tag.spell [token.word] (children.map Tree.words) := by
  simp [Tree.marked, Tree.words]

theorem Token.OneOf.word_eq {t : Token} {kind : Kind} {text : String} (h : t.OneOf kind [text]) :
    t.word = ⟨kind, text⟩ := by
  obtain ⟨rfl, h⟩ := h
  rw [Token.word, List.mem_singleton.1 h]

namespace Grammar

def Phrase.separator : Phrase → List Word
  | arguments | declarators | parameterList => symbol ","
  | parameterGroups => symbol ";"
  | _ => []

/-- Every list phrase that has separators has at least one node. -/
theorem Derives.ne_nil {p : Phrase} {ts : List Token} {trees : List Tree} (h : Derives p ts trees)
    (hp : p.separator ≠ []) : trees ≠ [] := by
  cases h <;> first | exact List.cons_ne_nil _ _ | exact absurd rfl hp

theorem separated_words {p : Phrase} {ts us : List Token} {t : Tree} {trees : List Tree}
    {sep : Token} {text : String} (hp : p.separator = symbol text) (isSep : sep.OneOf .symbol [text])
    (rest : Derives p us trees) (first : ts.map Token.word = t.words)
    (more : us.map Token.word = separated p.separator (trees.map Tree.words)) :
    (ts ++ sep :: us).map Token.word = separated p.separator ((t :: trees).map Tree.words) := by
  have hne : trees.map Tree.words ≠ [] := by
    simpa using rest.ne_nil (by simp [hp, symbol])
  rw [List.map_cons, separated_cons _ _ hne, ← more, ← first, hp]
  simp [isSep.word_eq, symbol]

/-- No type is taken for the word `static`. -/
theorem spell_varDecl {type : Token} (isType : type.IsType) (inits : List (List Word)) :
    Tag.spell [] .varDecl ([type.word] :: inits) =
      [type.word] ++ separated (symbol ",") inits ++ symbol ";" := by
  obtain ⟨kind, lexeme, line⟩ := type
  obtain ⟨hkind, htext⟩ := isType
  simp only [List.mem_cons, List.not_mem_nil, or_false] at hkind htext
  subst hkind
  rcases htext with rfl | rfl | rfl | rfl <;> simp [Tag.spell, Token.word]

/-- The tokens of a phrase are what its nodes spell. -/
theorem Derives.words {p : Phrase} {ts : List Token} {trees : List Tree} (h : Derives p ts trees) :
    ts.map Token.word = separated p.separator (trees.map Tree.words) := by
  induction h with
  -- expressions
  | assign _ _ _ left right => simp [left, right, Tag.spell]
  | step _ _ left => simp [left, Tag.spell]
  | @single level _ _ _ ih => cases level <;> exact ih
  | @several level _ _ _ _ _ _ operand rest =>
    cases level <;> simp_all [Tag.spell, Level.tag, Level.operandPhrase, Phrase.separator]
  | @lastLink level _ _ _ _ _ operand =>
    cases level <;> simp_all [Tag.spell, Level.operandPhrase, Phrase.separator]
  | @link level _ _ _ _ _ _ _ _ operand rest =>
    cases level <;> simp_all [Tag.spell, Level.operandPhrase, Phrase.separator]
  | negate _ _ operand => simp_all [Tag.spell, Phrase.separator]
  | compare _ _ _ first second => simp_all [Tag.spell, Phrase.separator]
  | unary _ _ operand => simp_all [Tag.spell, Phrase.separator]
  | paren isOpen _ isClose inner => simp [inner, Tag.spell, isClose.word_eq, symbol]
  | callPlain isName isOpen isClose => simp [Tag.spell, isOpen.word_eq, isClose.word_eq, symbol]
  | call isName isOpen _ isClose inner =>
    simp [inner, Tag.spell, isOpen.word_eq, isClose.word_eq, symbol, Phrase.separator]
  | literal isConst => simp [Tag.spell]
  | named isName => simp [Tag.spell]
  | indexed isName isOpen _ isClose inner =>
    simp [inner, Tag.spell, isOpen.word_eq, isClose.word_eq, symbol]
  | argument _ isComma rest value more => exact separated_words rfl isComma rest value more
  -- declarations of variables
  | scalarName isName => simp [Tag.spell]
  | arrayName isName isOpen isLength isClose =>
    simp [Tag.spell, isOpen.word_eq, isClose.word_eq, symbol]
  | uninitialized _ name => simp [name, Tag.spell]
  | initialized _ isColon _ name init => simp [name, init, Tag.spell, isColon.word_eq, symbol]
  | declarator _ isComma rest first more => exact separated_words rfl isComma rest first more
  | @variableDeclaration type _ _ inits isType _ isEnd list =>
    have htype : (Tree.marked .typeSpec type []).words = [type.word] := by simp [Tag.spell]
    rw [List.map_singleton, separated_singleton, Tree.words_inner, List.map_cons, htype, spell_varDecl isType]
    simp [list, isEnd.word_eq, symbol, Phrase.separator]
  | staticLocal isStatic isType _ isEnd list =>
    simp [list, Tag.spell, isStatic.word_eq, isEnd.word_eq, symbol, keyword, Phrase.separator]
  | noLocals => rfl
  | locals _ _ first rest => simp_all [Phrase.separator]
  -- parameters
  | scalarParameter isName => simp [Tag.spell]
  | arrayParameter isName isOpen isClose =>
    simp [Tag.spell, isClose.word_eq, symbol]
  | parameter _ isComma rest first more => exact separated_words rfl isComma rest first more
  | parameterGroup isType _ list => simp [list, Tag.spell, Phrase.separator]
  | group _ isEnd rest first more => exact separated_words rfl isEnd rest first more
  | noParameters => rfl
  | parameters _ list => simp [list, Tag.spell, Phrase.separator]
  -- statements
  | emptyStmt isEnd => simp [Tag.spell]
  | expStmt _ isEnd value => simp [value, Tag.spell]
  | block isOpen _ _ isClose head body =>
    simp_all [Tag.spell, isClose.word_eq, symbol, Phrase.separator]
  | noStatements => rfl
  | statements _ _ first rest => simp_all [Phrase.separator]
  | ifThen isIf _ isThen _ condition branch =>
    simp [condition, branch, Tag.spell, isThen.word_eq, keyword]
  | ifElse isIf _ isThen _ _ isElse _ condition branch other =>
    simp [condition, branch, other, Tag.spell, isThen.word_eq, isElse.word_eq, keyword]
  | whileDo isWhile _ isDo _ condition loop =>
    simp [condition, loop, Tag.spell, isDo.word_eq, keyword]
  | forDo isFor isName isEquals _ isDo _ range loop =>
    simp [range, loop, Tag.spell, isFor.word_eq, isEquals.word_eq, isDo.word_eq, keyword]
  | returnPlain isReturn isEnd => simp [Tag.spell, isEnd.word_eq, symbol]
  | returnValue isReturn _ isEnd value => simp [value, Tag.spell, isEnd.word_eq, symbol]
  | breakLoop isBreak isEnd => simp [Tag.spell, isEnd.word_eq, symbol]
  | rangeStart _ first => simp [first, Tag.spell]
  | rangeTo _ isTo _ first last => simp [first, last, Tag.spell, isTo.word_eq, keyword]
  | rangeBy _ isTo _ isBy _ first last stride =>
    simp [first, last, stride, Tag.spell, isTo.word_eq, isBy.word_eq, keyword]
  -- functions and programs
  | procedure isName isOpen _ isClose _ list code =>
    simp [list, code, Tag.spell, isOpen.word_eq, isClose.word_eq, symbol]
  | function isType isName isOpen _ isClose _ list code =>
    simp [list, code, Tag.spell, isOpen.word_eq, isClose.word_eq, symbol]
  | declaration _ _ first rest => simp_all [Phrase.separator]
  | program _ list => simp_all [Tag.spell, Phrase.separator]
  | _ => assumption

end Grammar

open Grammar

/-- A source is read exactly as the grammar derives it, a tree has one text, and a text one tree. -/
theorem parse_iff_derives (source : String) (t : Tree) :
    (parse source = .ok t ↔ Derives .program (tokenize source) [t]) ∧
    (∀ ts us : List Token, Derives .program ts [t] → Derives .program us [t] →
      ts.map Token.word = us.map Token.word) ∧
    (∀ (ts : List Token) (t' : Tree), Derives .program ts [t] → Derives .program ts [t'] → t = t') := by
  refine ⟨⟨?_, ?_⟩, ?_, ?_⟩
  · intro h
    exact derives_of_parse h
  · intro h
    have htree : program true (tokenize source) = .ok t := program_of_derives h
    rw [parse, parseWith, htree]
  · intro ts us hts hus
    exact hts.words.trans hus.words.symm
  · intro ts t' h h'
    have htree : program true ts = .ok t := program_of_derives h
    have htree' : program true ts = .ok t' := program_of_derives h'
    rw [htree] at htree'
    exact Except.ok.inj htree'

end StackCompiler
