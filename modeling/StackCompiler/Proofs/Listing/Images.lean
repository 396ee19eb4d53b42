import StackCompiler.Proofs.Listing.Sections
import StackCompiler.Proofs.Lowering.CallLinks
import StackCompiler.Proofs.Token.Relexing

/-!
The listing of a compiled image determines the image: signatures, handles, slots and instructions. It
shows no handles and leaves out an empty setup, but in compiled images a handle is the position of its
function, names are different words, and calls lead to functions that exist.
-/

set_option autoImplicit false
namespace StackCompiler

open Lowering Typing

/-- What holds of all images that sources are compiled to. -/
structure Image.Regular (image : Image) : Prop where
  handles : ∀ (i : Nat) (g : Routine), image.functions[i]? = some g → g.signature.handle = i
  distinct : image.names.Nodup
  words : ∀ name ∈ image.names, ∀ c ∈ name.toList, Token.isWordChar c = true
  calls : ∀ g ∈ image.functions, ∀ handle ∈ callees g.code, handle < image.names.length
  setupCalls : ∀ handle ∈ callees image.staticInit, handle < image.names.length

/-- What elements at the same position have in common, if it depends on their values under `f` and `f'`. -/
theorem map_eq_map_of {α β γ : Type} {f f' : α → β} {g g' : α → γ} {xs ys : List α} (h : xs.map f = ys.map f')
    (each : ∀ (i : Nat) (x y : α), xs[i]? = some x → ys[i]? = some y → f x = f' y → g x = g' y) :
    xs.map g = ys.map g' := by
  refine List.ext_getElem? fun i => ?_
  have hi := congrArg (·[i]?) h
  simp only [List.getElem?_map] at hi ⊢
  cases hx : xs[i]? with
  | none =>
    rw [hx, Option.map_none, eq_comm, Option.map_eq_none_iff] at hi
    rw [hi]
    rfl
  | some x =>
    rw [hx, Option.map_some, eq_comm, Option.map_eq_some_iff] at hi
    obtain ⟨y, hy, hvalue⟩ := hi
    rw [hy, Option.map_some, Option.map_some, each i x y hx hy hvalue.symm]

namespace Image

variable {printable : Char → Bool} {image image' : Image}

namespace Regular

theorem excludes (h : image.Regular) {c : Char} (hc : Token.isWordChar c = false) :
    ∀ name ∈ image.names, c ∉ name.toList := by
  intro name hname hmem
  rw [h.words name hname c hmem] at hc
  cases hc

theorem codeLines (h : image.Regular) {code : Code} (hcode : ∀ handle ∈ callees code, handle < image.names.length) :
    ∀ l ∈ image.codeLines printable code, IsCodeLine l := by
  intro l hl
  obtain ⟨instr, hinstr, rfl⟩ := List.mem_map.1 hl
  refine codeLine_instrLine printable h.distinct (h.excludes (by decide)) fun handle hcall => ?_
  exact hcode handle (List.mem_filterMap.2 ⟨instr, hinstr, hcall⟩)

theorem codeLines_inj (h : image.Regular) (hnames : image'.names = image.names) {code code' : Code}
    (hcode : ∀ handle ∈ callees code, handle < image.names.length)
    (hcode' : ∀ handle ∈ callees code', handle < image.names.length)
    (same : image.codeLines printable code = image'.codeLines printable code') : code = code' := by
  have hall := @map_eq_map_of _ _ _ _ _ id id _ _ same fun i instr instr' hinstr hinstr' hline =>
    instrLine_inj rfl hnames h.distinct (h.excludes (by decide))
      (fun handle hcall => hcode handle (List.mem_filterMap.2 ⟨instr, List.mem_of_getElem? hinstr, hcall⟩))
      (fun handle hcall => hcode' handle (List.mem_filterMap.2 ⟨instr', List.mem_of_getElem? hinstr', hcall⟩))
      hline
  simpa using hall

theorem name_mem {g : Routine} (hg : g ∈ image.functions) : g.signature.name ∈ image.names :=
  List.mem_map_of_mem hg

theorem sections (h : image.Regular) : ∀ s ∈ image.sections printable, s.Regular := by
  intro s hs
  rcases List.mem_append.1 hs with hs | hs
  · obtain rfl := eq_of_mem_staticSection hs
    exact ⟨by simp, slotLines_slot (by simp) _, h.codeLines h.setupCalls⟩
  · obtain ⟨g, hg, rfl⟩ := List.mem_map.1 hs
    exact ⟨Signature.title_inLine (h.excludes (by decide) _ (name_mem hg)), slotLines_slot (by simp) _,
      h.codeLines (h.calls g hg)⟩

/-- The head of a listing ends at the first empty line. -/
theorem headLines (h : image.Regular) :
    ∃ front, image.headLines = front ++ [""] ∧ "" ∉ front ∧ ∀ l ∈ front, '\n' ∉ l.toList := by
  refine ⟨_, rfl, ?_, ?_⟩
  · simp [ToString.toString, String.append_eq_empty_iff]
  · intro l hl
    rcases List.mem_cons.1 hl with rfl | hl
    · simpa [ToString.toString] using Text.repr_nat_inLine image.functions.length
    · obtain ⟨entry, hentry, rfl⟩ := List.mem_map.1 hl
      rw [Option.mem_toList, entryPoint?, Option.map_eq_some_iff] at hentry
      obtain ⟨g, hg, rfl⟩ := hentry
      have hname := h.excludes (c := '\n') (by decide) _ (name_mem (List.mem_of_find?_eq_some hg))
      simpa using hname

theorem listingLines (h : image.Regular) : ∀ l ∈ image.listingLines printable, '\n' ∉ l.toList := by
  obtain ⟨front, hhead, -, hfront⟩ := h.headLines
  rw [listingLines_eq, hhead]
  intro l hl
  simp only [List.mem_append, List.mem_singleton, List.mem_flatMap] at hl
  obtain (hl | rfl) | ⟨s, hs, hl⟩ := hl
  · exact hfront l hl
  · decide
  · exact (h.sections s hs).inLine l hl

theorem sections_determined (h : image.Regular) (h' : image'.Regular)
    (same : image.listingWith printable = image'.listingWith printable) :
    image.sections printable = image'.sections printable := by
  have hlines := lines_inj h.listingLines h'.listingLines same
  obtain ⟨front, hhead, hfront, -⟩ := h.headLines
  obtain ⟨front', hhead', hfront', -⟩ := h'.headLines
  rw [listingLines_eq, listingLines_eq, hhead, hhead'] at hlines
  obtain ⟨-, hsections⟩ := (PrefixFree.ended "" []).unique hfront hfront' hlines
  exact Section.lines_free.flatMap_inj h.sections h'.sections hsections

/-- The section of the static variables is told from those of functions by its title. -/
theorem sections_split (same : image.sections printable = image'.sections printable) :
    image.staticSection? printable = image'.staticSection? printable ∧
      image.functions.map (image.routineSection printable) =
        image'.functions.map (image'.routineSection printable) := by
  have hstatic : ∀ image : Image, ∀ s ∈ (image.staticSection? printable).toList, s.title = ".statics \x7b" :=
    fun _ _ hs => congrArg Section.title (eq_of_mem_staticSection hs)
  have hroutine : ∀ image : Image, ∀ s ∈ (image.functions.map (image.routineSection printable)).head?,
      s.title ≠ ".statics \x7b" := by
    intro image s hs htitle
    obtain ⟨g, -, rfl⟩ := List.mem_map.1 (List.mem_of_mem_head? hs)
    have hchars := congrArg (fun title => title.toList.head?) htitle
    simp [routineSection, Signature.title] at hchars
  obtain ⟨hsetup, hfunctions⟩ :=
    append_split (hstatic image) (hstatic image') (hroutine image) (hroutine image') same
  exact ⟨by simpa using congrArg List.head? hsetup, hfunctions⟩

theorem names_determined (h : image.Regular) (h' : image'.Regular)
    (same : image.functions.map (image.routineSection printable) =
      image'.functions.map (image'.routineSection printable)) : image'.names = image.names := by
  refine (map_eq_map_of same fun i g g' hg hg' hsection => ?_).symm
  obtain ⟨hname, -, -⟩ := Signature.title_inj
    (h.excludes (by decide) _ (name_mem (List.mem_of_getElem? hg)))
    (h'.excludes (by decide) _ (name_mem (List.mem_of_getElem? hg'))) (congrArg Section.title hsection)
  exact hname

theorem functions_determined (h : image.Regular) (h' : image'.Regular)
    (same : image.functions.map (image.routineSection printable) =
      image'.functions.map (image'.routineSection printable)) : image.functions = image'.functions := by
  -- Calls are shown by name, so the code can be compared only once the names are known to be the same.
  have hnames := h.names_determined h' same
  have hall := @map_eq_map_of _ _ _ _ _ id id _ _ same fun i g g' hg hg' hsection => by
    have hmem := List.mem_of_getElem? hg
    have hmem' := List.mem_of_getElem? hg'
    obtain ⟨hname, hparameters, hresult⟩ := Signature.title_inj (h.excludes (by decide) _ (name_mem hmem))
      (h'.excludes (by decide) _ (name_mem hmem')) (congrArg Section.title hsection)
    have hlocals := slotLines_inj (congrArg Section.slots hsection)
    have hcode := h.codeLines_inj hnames (h.calls g hmem) (hnames ▸ h'.calls g' hmem')
      (congrArg Section.code hsection)
    have hhandle := (h.handles i g hg).trans (h'.handles i g' hg').symm
    obtain ⟨⟨name, result, parameters, handle⟩, locals, code⟩ := g
    obtain ⟨⟨name', result', parameters', handle'⟩, locals', code'⟩ := g'
    simp only at hname hparameters hresult hlocals hcode hhandle
    rw [hname, hparameters, hresult, hlocals, hcode, hhandle]
  simpa using hall

theorem setup_determined (h : image.Regular) (h' : image'.Regular) (hnames : image'.names = image.names)
    (same : image.staticSection? printable = image'.staticSection? printable) :
    image.statics = image'.statics ∧ image.staticInit = image'.staticInit := by
  unfold staticSection? at same
  split at same
  next hempty =>
    split at same
    next hempty' =>
      simp only [Bool.and_eq_true, List.isEmpty_iff] at hempty hempty'
      rw [hempty.1, hempty.2, hempty'.1, hempty'.2]
      exact ⟨rfl, rfl⟩
    next => cases same
  next =>
    split at same
    next => cases same
    next =>
      have hsection := Option.some.inj same
      exact ⟨slotLines_inj (congrArg Section.slots hsection),
        h.codeLines_inj hnames h.setupCalls (hnames ▸ h'.setupCalls) (congrArg Section.code hsection)⟩

/-- Regular images with the same listing are the same. -/
theorem determined (h : image.Regular) (h' : image'.Regular)
    (same : image.listingWith printable = image'.listingWith printable) : image = image' := by
  obtain ⟨hsetup, hfunctions⟩ := sections_split (h.sections_determined h' same)
  obtain ⟨hstatics, hinit⟩ := h.setup_determined h' (h.names_determined h' hfunctions) hsetup
  have hroutines := h.functions_determined h' hfunctions
  obtain ⟨functions, statics, staticInit⟩ := image
  obtain ⟨functions', statics', staticInit'⟩ := image'
  simp only at hroutines hstatics hinit
  rw [hroutines, hstatics, hinit]

end Regular

end Image

/-! Compiled images. -/

/-- The name of a declared function is an identifier of the source. -/
theorem identifier_of_function {ts : List Token} {decls : List Tree} (h : Grammar.Derives .declarations ts decls) :
    ∀ decl ∈ decls, decl.tag = .funDecl → ∃ name ∈ ts, name.kind = .identifier ∧ decl.token = some name := by
  have hdeclaration : ∀ {ts : List Token} {decl : Tree}, Grammar.Derives .declaration ts [decl] →
      decl.tag = .funDecl → ∃ name ∈ ts, name.kind = .identifier ∧ decl.token = some name := by
    intro ts decl h htag
    cases h with
    | globals list =>
      have hvariables := Shape.shapedAs list decl (List.mem_singleton_self _)
      rw [hvariables.tag] at htag
      cases htag
    | routine function =>
      cases function with
      | @procedure name _ _ _ _ _ _ isName => exact ⟨name, by simp, isName, rfl⟩
      | @function _ name _ _ _ _ _ _ _ isName => exact ⟨name, by simp, isName, rfl⟩
  generalize hp : Grammar.Phrase.declarations = p at h
  induction h with
  | lastDeclaration last => simpa using hdeclaration last
  | declaration first _ _ ih =>
    rw [List.forall_mem_cons]
    refine ⟨fun htag => ?_, fun decl hdecl htag => ?_⟩
    · obtain ⟨name, hname, hfound⟩ := hdeclaration first htag
      exact ⟨name, List.mem_append_left _ hname, hfound⟩
    · obtain ⟨name, hname, hfound⟩ := ih hp decl hdecl htag
      exact ⟨name, List.mem_append_right _ hname, hfound⟩
  | _ => cases hp

theorem identifier_chars {source : String} {name : Token} (h : name ∈ tokenize source)
    (hkind : name.kind = .identifier) : ∀ c ∈ name.lexeme.toList, Token.isWordChar c = true := by
  have hlongest := (isolated_of_mem_tokenize h).longest
  rw [hkind] at hlongest
  cases hlongest with
  | lexeme valid =>
    generalize name.lexeme.toList = text at valid
    cases valid with
    | identifier start inside free =>
      refine List.forall_mem_cons.2 ⟨?_, fun c hc => by simpa [Token.isWordChar] using inside c hc⟩
      rcases start with halpha | rfl
      · simp [Token.isWordChar, Char.isAlphanum, halpha]
      · decide

/-- Calls that are linked have handles of functions. -/
theorem Image.handle_lt_of_links {image : Image} {handles : List Nat} {nodes : List Tree}
    (h : Linked image.Links handles nodes) : ∀ handle ∈ handles, handle < image.names.length := by
  obtain ⟨order, -, hall⟩ := h
  intro handle hmem
  obtain ⟨node, -, g, hg, -⟩ := exists_related hall.flip hmem
  rw [names, List.length_map]
  exact (List.getElem?_eq_some_iff.1 hg).1

theorem Image.regular_of_compile {source : String} {image : Image} (h : compile source = .ok image) :
    image.Regular := by
  obtain ⟨program, s, hparse, hcompile⟩ := Session.compile_ok h
  have hderives := Grammar.derives_of_parse hparse
  obtain ⟨-, hshaped⟩ := Shape.of_program hderives
  obtain ⟨-, s₀, s₁, hregister, hroutines, himage, -⟩ := Session.compileProgram_iff.1 hcompile
  obtain ⟨hs₀, -⟩ := Session.registerAll_ok hregister
  obtain ⟨hcompiled, more, hmore, hsetup⟩ := Session.routines_links hshaped (by rw [hs₀]; rfl) hroutines
  obtain ⟨htable, hentries, hannounced, hnodup⟩ :=
    Session.entries_of_registerAll hregister (hcompiled.imp fun _ _ h => h.1)
  have hlinks : ∀ handle node, Refers s₀.functions handle node → image.Links handle node :=
    fun _ _ hrefers => image.links_of_refers htable hentries hrefers
  refine ⟨?_, hnodup, ?_, ?_, ?_⟩
  · intro i g hg
    refine htable.sound.handle i g.signature ?_
    rw [← hentries, List.getElem?_map, hg]
    rfl
  · intro name hname
    obtain ⟨g, hg, rfl⟩ := List.mem_map.1 hname
    obtain ⟨decl, hdecl, hannounce⟩ := exists_related hannounced hg
    obtain ⟨hdecl, htag⟩ := List.mem_filter.1 hdecl
    cases hderives with
    | program list =>
      obtain ⟨token, htoken, hkind, hfound⟩ := identifier_of_function list decl hdecl (by simpa using htag)
      have hlexeme := hannounce.name
      rw [Tree.lexeme, hfound] at hlexeme
      rw [← Except.ok.inj hlexeme]
      exact identifier_chars htoken hkind
  · intro g hg
    obtain ⟨decl, -, -, hlinked⟩ := exists_related hcompiled hg
    exact handle_lt_of_links (hlinked.imp hlinks)
  · have hinit : callees image.staticInit = more := by
      rw [himage, hmore, hs₀]
      rfl
    rw [hinit]
    exact handle_lt_of_links (hsetup.imp hlinks)

/-- Sources that compile to images with the same listing compile to the same image, whichever characters
the listing prints as themselves: those of `Text.isPrintable`, as `Image.listing` does, or others. -/
theorem listing_determines_image (printable : Char → Bool) {source source' : String} {image image' : Image}
    (h : compile source = .ok image) (h' : compile source' = .ok image')
    (same : image.listingWith printable = image'.listingWith printable) : image = image' :=
  (Image.regular_of_compile h).determined (Image.regular_of_compile h') same

/-- A comment and the layout of a source leave no trace in its listing. -/
theorem listing_determines_image_layout : ∃ image image',
    compile "string s : \"a'b\"; f() \x7b g(); \x7d g() \x7b f(); \x7d" = .ok image ∧
    compile "string s : \"a'b\"; // of f\nf() \x7b g(); \x7d\ng() \x7b f(); \x7d" = .ok image' ∧
    image.listing = image'.listing ∧ image.functions.length = 2 ∧ image = image' := by
  have hrun : ((compile "string s : \"a'b\"; f() \x7b g(); \x7d g() \x7b f(); \x7d").toOption.any fun image =>
      (compile "string s : \"a'b\"; // of f\nf() \x7b g(); \x7d\ng() \x7b f(); \x7d").toOption.any fun image' =>
        decide (image.listing = image'.listing ∧ image.functions.length = 2)) = true := by
    decide +kernel
  obtain ⟨image, hcompile, hrun⟩ := ok_of_any hrun
  obtain ⟨image', hcompile', hrun⟩ := ok_of_any hrun
  obtain ⟨hlisting, hlength⟩ := of_decide_eq_true hrun
  exact ⟨image, image', hcompile, hcompile', hlisting, hlength,
    listing_determines_image Text.isPrintable hcompile hcompile' hlisting⟩

end StackCompiler
