import Mathlib.Data.List.Basic
import Mathlib.Data.List.Nodup
import Mathlib.Data.List.ReduceOption
import StackCompiler.Listing
import StackCompiler.Proofs.Listing.Literals
import StackCompiler.Proofs.Lowering.Calls

/-!
The line of an instruction determines the instruction. Every line but those of labels is a word and an
operand, and the words are all different; a call shows its operand by the name of the function.
-/

set_option autoImplicit false
namespace StackCompiler

namespace Ty

theorem name_chars (ty : Ty) : (ty.name.toList.all fun c => c.isLower || c == '[' || c == ']') = true := by
  induction ty with
  | array element ih =>
    rw [name, String.toList_append, List.all_append, ih]
    decide
  | _ => decide

theorem name_mem (ty : Ty) {c : Char} (h : c ∈ ty.name.toList) : (c.isLower || c == '[' || c == ']') = true :=
  List.all_eq_true.1 (name_chars ty) c h

theorem name_inLine (ty : Ty) : '\n' ∉ ty.name.toList := fun h =>
  absurd (name_mem ty h) (by decide)

/-- Only the names of arrays end in brackets. -/
theorem name_inj {ty ty' : Ty} (h : ty.name = ty'.name) : ty = ty' := by
  induction ty generalizing ty' with
  | array element ih =>
    cases ty' with
    | array element' => rw [ih ((String.append_left_inj "[]").1 h)]
    | _ => exact absurd (congrArg (fun text => text.toList.getLast?) h) (by simp [name])
  | _ =>
    cases ty' with
    | array element' => exact absurd (congrArg (fun text => text.toList.getLast?) h) (by simp [name])
    | _ => first | rfl | simp [name] at h

end Ty

/-- How the operands of an instruction are written behind its word, different ones differently. -/
structure Operand where
  Value : Type
  text : Value → String
  determined {v w : Value} (h : text v = text w) : v = w
  apart (v : Value) : ∀ c ∈ (text v).toList.head?, c = ' '
  inLine (v : Value) : '\n' ∉ (text v).toList

namespace Operand

def none : Operand where
  Value := Unit
  text _ := ""
  determined _ := rfl
  apart _ := by simp
  inLine _ := by simp

def spaced {α : Type} (text : α → String) (determined : ∀ {v w : α}, text v = text w → v = w)
    (inLine : ∀ v, '\n' ∉ (text v).toList) : Operand where
  Value := α
  text v := " " ++ text v
  determined h := determined ((String.append_right_inj " ").1 h)
  apart v := by simp
  inLine v := by simpa using inLine v

def number : Operand :=
  spaced Nat.repr Text.repr_nat_inj Text.repr_nat_inLine

def integer : Operand :=
  spaced (fun value : Int32 => value.toInt.repr) (fun h => Int32.toInt_inj.1 (Text.repr_int_inj h))
    fun value => Text.repr_int_inLine value.toInt

def truth : Operand :=
  spaced (fun value : Bool => toString value) (by decide) (by decide)

def type : Operand :=
  spaced Ty.name Ty.name_inj Ty.name_inLine

def target : Operand :=
  spaced labelName (fun h => Text.repr_nat_inj ((String.append_right_inj "L").1 h))
    fun label => by
      rw [labelName, String.toList_append]
      exact List.not_mem_append (by decide) (Text.repr_nat_inLine label)

variable (printable : Char → Bool)

def character : Operand :=
  spaced (Text.quoteChar printable) (fun h => (List.cons.inj (Text.quoteWith_inj printable (.inl rfl) h)).1)
    fun value => Text.quoteWith_inLine printable (.inl rfl) [value]

def string : Operand :=
  spaced (Text.quoteString printable)
    (fun h => String.toList_inj.1 (Text.quoteWith_inj printable (.inr rfl) h))
    fun value => Text.quoteWith_inLine printable (.inr rfl) value.toList

def callee {names : List String} (distinct : names.Nodup) (inLine : ∀ name ∈ names, '\n' ∉ name.toList) :
    Operand :=
  spaced (fun handle : Fin names.length => names[handle])
    (fun h => Fin.ext ((distinct.getElem_inj_iff).1 h)) fun handle => inLine _ (List.getElem_mem _)

end Operand

/-- The instructions that are written with one word, for each operand one. -/
structure Mnemonic where
  word : String
  operand : Operand
  instr : operand.Value → Instr
  start : word.toList.head?.any Char.isLower = true := by decide
  letters : (word.toList.all fun c => c.isLower || c == '.') = true := by decide

namespace Mnemonic

def plain (word : String) (instr : Instr) (start : word.toList.head?.any Char.isLower = true := by decide)
    (letters : (word.toList.all fun c => c.isLower || c == '.') = true := by decide) : Mnemonic :=
  ⟨word, .none, fun _ => instr, start, letters⟩

def text (m : Mnemonic) (v : m.operand.Value) : String :=
  m.word ++ m.operand.text v

/-- The word ends at the first space. -/
theorem text_inj {m m' : Mnemonic} {v : m.operand.Value} {v' : m'.operand.Value} (h : m.text v = m'.text v') :
    m.word = m'.word ∧ m.operand.text v = m'.operand.text v' := by
  have hword : ∀ m : Mnemonic, ∀ c ∈ m.word.toList, c ≠ ' ' := by
    rintro m c hc rfl
    exact absurd (List.all_eq_true.1 m.letters ' ' hc) (by decide)
  have h := congrArg String.toList h
  simp only [text, String.toList_append] at h
  obtain ⟨hwords, htexts⟩ := append_split (hword m) (hword m') (fun c hc => not_not.2 (m.operand.apart v c hc))
    (fun c hc => not_not.2 (m'.operand.apart v' c hc)) h
  exact ⟨String.toList_inj.1 hwords, String.toList_inj.1 htexts⟩

end Mnemonic

def Image.names (image : Image) : List String :=
  image.functions.map fun g => g.signature.name

section

variable (printable : Char → Bool) {names : List String} (distinct : names.Nodup)
  (inLine : ∀ name ∈ names, '\n' ∉ name.toList)

/-- What instructions are written with, for one constructor after the other. Labels have no word. -/
def wordTable : List (Option Mnemonic) :=
  [some (.mk "push.i" .integer .pushInt),
   some (.mk "push.b" .truth .pushBool),
   some (.mk "push.c" (.character printable) .pushChar),
   some (.mk "push.s" (.string printable) .pushString),
   some (.mk "load.static" .number .loadStatic),
   some (.mk "store.static" .number .storeStatic),
   some (.mk "load.local" .number .loadLocal),
   some (.mk "store.local" .number .storeLocal),
   some (.mk "load.arg" .number .loadArg),
   some (.mk "store.arg" .number .storeArg),
   some (.mk "newarr" .type .newArray),
   some (.mk "load.elem" .type .loadElem),
   some (.mk "store.elem" .type .storeElem),
   some (.plain "add" .add),
   some (.plain "sub" .sub),
   some (.plain "mul" .mul),
   some (.plain "div" .div),
   some (.plain "rem" .rem),
   some (.plain "max" .max),
   some (.plain "min" .min),
   some (.plain "neg" .neg),
   some (.plain "and" .and),
   some (.plain "or" .or),
   some (.plain "not" .not),
   some (.plain "eq" .eq),
   some (.plain "ne" .ne),
   some (.plain "gt" .gt),
   some (.plain "lt" .lt),
   some (.plain "ge" .ge),
   some (.plain "le" .le),
   some (.plain "len" .length),
   some (.plain "rand" .random),
   some (.plain "dup" .dup),
   some (.plain "pop" .pop),
   some (.mk "call" (.callee distinct inLine) (fun handle : Fin names.length => .call handle)),
   some (.plain "ret" .return),
   some (.mk "jump" .target .jump),
   some (.mk "jump.false" .target .jumpIfFalse),
   some (.mk "jump.true" .target .jumpIfTrue),
   none,
   some (.mk "box" .type .box),
   some (.plain "print" .print),
   some (.mk "print.fmt" .number .printFormatted),
   some (.mk "read" .type .read)]

def mnemonics : List Mnemonic :=
  (wordTable printable distinct inLine).reduceOption

theorem words_nodup : ((mnemonics printable distinct inLine).map Mnemonic.word).Nodup := by
  simp [mnemonics, wordTable, List.reduceOption, Mnemonic.plain]

variable {printable distinct inLine} {image image' : Image}

/-- The line of an instruction that is no label, and whose function exists if it is a call. -/
theorem exists_mnemonic (hnames : image.names = names) {instr : Instr} (hlabel : ∀ name, instr ≠ .label name)
    (hcall : ∀ handle, instr.callee? = some handle → handle < names.length) :
    ∃ m v, (wordTable printable distinct inLine)[instr.ctorIdx]? = some (some m) ∧ m.instr v = instr ∧
      image.instrLine printable instr = "    " ++ m.text v := by
  cases instr with
  | label name => exact absurd rfl (hlabel name)
  | call handle =>
    have hlt := hcall handle rfl
    obtain rfl := hnames
    rw [Image.names, List.length_map] at hlt
    refine ⟨_, (⟨handle, by simpa [Image.names] using hlt⟩ : Fin image.names.length), rfl, rfl, ?_⟩
    simp [Image.instrLine, List.getElem?_eq_getElem hlt, Mnemonic.text, Operand.callee, Operand.spaced,
      Image.names, ← String.append_assoc]
  | _ =>
    -- The second way is for instructions without operand, which fix no value of one.
    first
    | refine ⟨_, _, rfl, rfl, ?_⟩
    | refine ⟨_, (), rfl, rfl, ?_⟩
    simp [Image.instrLine, Instr.textWith, Mnemonic.text, Mnemonic.plain, Operand.none, Operand.integer,
      Operand.truth, Operand.character, Operand.string, Operand.number, Operand.type, Operand.target,
      Operand.spaced, ← String.append_assoc, ToString.toString]

theorem label_line (name : Label) :
    image.instrLine printable (.label name) = "  L" ++ (name.repr ++ ":") := by
  simp [Image.instrLine, Instr.textWith, labelName, ToString.toString, ← String.append_assoc]

/-- A line shows a label, or a word with its operand. -/
theorem instrLine_cases (hnames : image.names = names) (distinct : names.Nodup)
    (inLine : ∀ name ∈ names, '\n' ∉ name.toList) {instr : Instr}
    (hcall : ∀ handle, instr.callee? = some handle → handle < names.length) :
    (∃ name, instr = .label name ∧ image.instrLine printable instr = "  L" ++ (name.repr ++ ":")) ∨
      ∃ m ∈ mnemonics printable distinct inLine, ∃ v, instr = m.instr v ∧
        image.instrLine printable instr = "    " ++ m.text v := by
  by_cases hlabel : ∃ name, instr = .label name
  · obtain ⟨name, rfl⟩ := hlabel
    exact .inl ⟨name, rfl, label_line name⟩
  · rw [not_exists] at hlabel
    obtain ⟨m, v, hfound, hinstr, htext⟩ := @exists_mnemonic printable _ distinct inLine _ hnames _ hlabel hcall
    exact .inr ⟨m, List.reduceOption_mem_iff.2 (List.mem_of_getElem? hfound), v, hinstr.symm, htext⟩

/-- Labels stand further left. -/
theorem label_ne_word (label word : String) : "  L" ++ label ≠ "    " ++ word := fun h =>
  absurd (congrArg String.toList h) (by simp)

/-- Images whose functions have the same names show different instructions differently. -/
theorem instrLine_inj (hnames : image.names = names) (hnames' : image'.names = names) (distinct : names.Nodup)
    (inLine : ∀ name ∈ names, '\n' ∉ name.toList) {instr instr' : Instr}
    (hcall : ∀ handle, instr.callee? = some handle → handle < names.length)
    (hcall' : ∀ handle, instr'.callee? = some handle → handle < names.length)
    (h : image.instrLine printable instr = image'.instrLine printable instr') : instr = instr' := by
  rcases @instrLine_cases printable _ _ hnames distinct inLine _ hcall with
    ⟨name, rfl, htext⟩ | ⟨m, hm, v, rfl, htext⟩ <;>
  rcases @instrLine_cases printable _ _ hnames' distinct inLine _ hcall' with
    ⟨name', rfl, htext'⟩ | ⟨m', hm', v', rfl, htext'⟩ <;>
  rw [htext, htext'] at h
  · rw [String.append_right_inj, String.append_left_inj] at h
    rw [Text.repr_nat_inj h]
  · exact absurd h (label_ne_word _ _)
  · exact absurd h.symm (label_ne_word _ _)
  · obtain ⟨hword, hoperand⟩ := Mnemonic.text_inj ((String.append_right_inj _).1 h)
    obtain rfl : m = m' :=
      List.inj_on_of_nodup_map (words_nodup printable distinct inLine) hm hm' hword
    rw [m.operand.determined hoperand]

end

/-! Where lines belong. -/

/-- The line of a slot: its directive starts with a point. -/
def IsSlotLine (text : String) : Prop :=
  text.toList.take 5 = "    .".toList

structure IsCodeLine (text : String) : Prop where
  indented : text.toList.head? = some ' '
  slotless : ¬ IsSlotLine text
  inLine : '\n' ∉ text.toList

theorem Mnemonic.codeLine (m : Mnemonic) (v : m.operand.Value) : IsCodeLine ("    " ++ m.text v) := by
  obtain ⟨c, hc, hlower⟩ := (Option.any_eq_true _ _).1 m.start
  obtain ⟨rest, hword⟩ := List.head?_eq_some_iff.1 hc
  refine ⟨by simp, ?_, ?_⟩
  · intro hslot
    obtain rfl : c = '.' := by simpa [IsSlotLine, text, hword] using hslot
    exact absurd hlower (by decide)
  · have hword : '\n' ∉ m.word.toList := fun hmem =>
      absurd (List.all_eq_true.1 m.letters _ hmem) (by decide)
    simp [text, hword, m.operand.inLine v]

theorem codeLine_instrLine (printable : Char → Bool) {image : Image} (distinct : image.names.Nodup)
    (inLine : ∀ name ∈ image.names, '\n' ∉ name.toList) {instr : Instr}
    (hcall : ∀ handle, instr.callee? = some handle → handle < image.names.length) :
    IsCodeLine (image.instrLine printable instr) := by
  rcases @instrLine_cases printable _ _ rfl distinct inLine _ hcall with ⟨name, -, htext⟩ | ⟨m, -, v, -, htext⟩
  · rw [htext]
    exact ⟨by simp, by simp [IsSlotLine], by simpa using Text.repr_nat_inLine name⟩
  · rw [htext]
    exact m.codeLine v

end StackCompiler
