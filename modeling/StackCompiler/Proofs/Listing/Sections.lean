import StackCompiler.Proofs.Listing.Instructions

/-!
A listing is cut into its sections: one for the static variables, if there is anything to show, and one
for each function. The lines of a section end with the first closing brace, so that a listing determines
its sections, and a section its title, its slots and its code.
-/

set_option autoImplicit false
namespace StackCompiler

theorem lines_inj {xs ys : List String} (hxs : ∀ l ∈ xs, '\n' ∉ l.toList) (hys : ∀ l ∈ ys, '\n' ∉ l.toList)
    (h : String.join (xs.map (· ++ "\n")) = String.join (ys.map (· ++ "\n"))) : xs = ys := by
  have hchars : ∀ lines : List String, (String.join (lines.map (· ++ "\n"))).toList =
      (lines.map String.toList).flatMap (· ++ ['\n']) := by
    intro lines
    simp [String.toList_join, List.flatMap_map]
  have h := congrArg String.toList h
  rw [hchars, hchars] at h
  have hlists := (PrefixFree.ended '\n' []).flatMap_inj (by simpa using hxs) (by simpa using hys) h
  exact List.map_injective_iff.2 (fun _ _ => String.toList_inj.1) hlists

/-! Titles. -/

namespace Signature

def title (s : Signature) : String :=
  "fn " ++ s.name ++ "(" ++ ", ".intercalate (s.parameters.map Ty.name) ++ ") -> " ++ s.result.name ++ " \x7b"

theorem mem_parameters {types : List Ty} {c : Char} (h : c ∈ (", ".intercalate (types.map Ty.name)).toList) :
    c ∈ ", ".toList ∨ (c.isLower || c == '[' || c == ']') = true := by
  rw [String.toList_intercalate] at h
  refine (mem_of_mem_intercalate h).imp_right ?_
  simp only [List.map_map, List.mem_map]
  rintro ⟨_, ⟨ty, -, rfl⟩, hc⟩
  exact ty.name_mem hc

theorem parameters_inj {types types' : List Ty}
    (h : ", ".intercalate (types.map Ty.name) = ", ".intercalate (types'.map Ty.name)) : types = types' := by
  have hname : ∀ types : List Ty, ∀ text ∈ (types.map Ty.name).map String.toList, text ≠ [] ∧ ',' ∉ text := by
    simp only [List.map_map, List.mem_map]
    rintro types _ ⟨ty, -, rfl⟩
    refine ⟨?_, fun hmem => absurd (ty.name_mem hmem) (by decide)⟩
    cases ty <;> simp [Ty.name]
  have h := congrArg String.toList h
  rw [String.toList_intercalate, String.toList_intercalate] at h
  have hnames := intercalate_inj (hname types) (hname types') h
  rw [List.map_map, List.map_map] at hnames
  exact List.map_injective_iff.2 (fun _ _ h => Ty.name_inj (String.toList_inj.1 h)) hnames

/-- The name ends at the first parenthesis, the parameters at the next. -/
theorem title_inj {s s' : Signature} (hname : '(' ∉ s.name.toList) (hname' : '(' ∉ s'.name.toList)
    (h : s.title = s'.title) : s.name = s'.name ∧ s.parameters = s'.parameters ∧ s.result = s'.result := by
  have hparameters : ∀ types : List Ty, ')' ∉ (", ".intercalate (types.map Ty.name)).toList :=
    fun _ hmem => (mem_parameters hmem).elim (by decide) (by decide)
  simp only [title, String.append_assoc, String.append_right_inj] at h
  obtain ⟨hnames, h⟩ := PrefixFree.cut (by simp) hname hname' h
  obtain ⟨hlists, h⟩ := PrefixFree.cut (by simp) (hparameters _) (hparameters _) h
  exact ⟨hnames, parameters_inj hlists, Ty.name_inj ((String.append_left_inj _).1 h)⟩

theorem title_inLine {s : Signature} (hname : '\n' ∉ s.name.toList) : '\n' ∉ s.title.toList := by
  have hlist : '\n' ∉ (", ".intercalate (s.parameters.map Ty.name)).toList :=
    fun hmem => (mem_parameters hmem).elim (by decide) (by decide)
  simp only [title, String.toList_append, List.mem_append, hname, hlist, s.result.name_inLine]
  decide

end Signature

/-! Slots. -/

theorem slotLines_inj {directive : String} {types types' : List Ty}
    (h : slotLines directive types = slotLines directive types') : types = types' := by
  refine List.ext_getElem? fun i => ?_
  have hline := congrArg (·[i]?) h
  simp only [slotLines, List.getElem?_mapIdx] at hline
  refine Option.map_injective (fun _ _ hty => ?_) hline
  exact Ty.name_inj ((String.append_right_inj _).1 hty)

theorem slotLines_slot {directive : String} (hdirective : '\n' ∉ directive.toList) (types : List Ty) :
    ∀ l ∈ slotLines directive types, IsSlotLine l ∧ '\n' ∉ l.toList := by
  intro l hl
  obtain ⟨i, hi, rfl⟩ := List.mem_mapIdx.1 hl
  have hnumber := Text.repr_nat_inLine i
  have hname := (types[i]).name_inLine
  refine ⟨by simp [IsSlotLine, ToString.toString], ?_⟩
  simpa [ToString.toString, hdirective, hname] using hnumber

/-! Sections. -/

structure Section where
  title : String
  slots : List String
  code : List String

namespace Section

def lines (s : Section) : List String :=
  s.title :: (s.slots ++ (s.code ++ ["\x7d", ""]))

structure Regular (s : Section) : Prop where
  title : '\n' ∉ s.title.toList
  slots : ∀ l ∈ s.slots, IsSlotLine l ∧ '\n' ∉ l.toList
  code : ∀ l ∈ s.code, IsCodeLine l

theorem Regular.inLine {s : Section} (h : s.Regular) : ∀ l ∈ s.lines, '\n' ∉ l.toList := by
  intro l hl
  simp only [lines, List.mem_cons, List.mem_append, List.not_mem_nil, or_false] at hl
  rcases hl with rfl | hl | hl | rfl | rfl
  · exact h.title
  · exact (h.slots l hl).2
  · exact (h.code l hl).inLine
  · decide
  · decide

theorem Regular.brace_not_mem {s : Section} (h : s.Regular) : "\x7d" ∉ s.code := fun hmem =>
  absurd (h.code _ hmem).indented (by decide)

/-- Slots end where code begins. -/
theorem Regular.slots_end {s : Section} (h : s.Regular) (rest : List String) :
    ∀ l ∈ (s.code ++ "\x7d" :: rest).head?, ¬ IsSlotLine l := by
  obtain ⟨title, slots, code⟩ := s
  intro l hl
  cases code with
  | nil =>
    obtain rfl : "\x7d" = l := by simpa using hl
    unfold IsSlotLine
    decide
  | cons first code =>
    obtain rfl : first = l := by simpa using hl
    exact (h.code first (by simp)).slotless

/-- A section ends with the first closing brace. -/
theorem lines_free : PrefixFree Regular lines where
  nonempty _ := List.cons_ne_nil _ _
  unique {s s' us vs} hs hs' h := by
    obtain ⟨title, slots, code⟩ := s
    obtain ⟨title', slots', code'⟩ := s'
    simp only [lines, List.cons_append, List.append_assoc, List.nil_append, List.cons.injEq] at h
    obtain ⟨rfl, h⟩ := h
    obtain ⟨rfl, h⟩ := append_split (fun l hl => (hs.slots l hl).1) (fun l hl => (hs'.slots l hl).1)
      (hs.slots_end _) (hs'.slots_end _) h
    obtain ⟨rfl, hrest⟩ :=
      (PrefixFree.ended "\x7d" [""]).unique hs.brace_not_mem hs'.brace_not_mem (by simpa using h)
    exact ⟨rfl, hrest⟩

end Section

namespace Image

variable (printable : Char → Bool)

def routineSection (image : Image) (g : Routine) : Section :=
  ⟨g.signature.title, slotLines "local" g.locals, image.codeLines printable g.code⟩

def staticSection? (image : Image) : Option Section :=
  if image.statics.isEmpty && image.staticInit.isEmpty then
    none
  else
    some ⟨".statics \x7b", slotLines "static" image.statics, image.codeLines printable image.staticInit⟩

theorem eq_of_mem_staticSection {printable : Char → Bool} {image : Image} {s : Section}
    (h : s ∈ (image.staticSection? printable).toList) :
    s = ⟨".statics \x7b", slotLines "static" image.statics, image.codeLines printable image.staticInit⟩ := by
  unfold staticSection? at h
  split at h
  next => simp at h
  next => simpa using h

def sections (image : Image) : List Section :=
  (image.staticSection? printable).toList ++ image.functions.map (image.routineSection printable)

theorem listingLines_eq (image : Image) :
    image.listingLines printable = image.headLines ++ (image.sections printable).flatMap Section.lines := by
  have hstatics : image.staticLines printable = (image.staticSection? printable).toList.flatMap Section.lines := by
    unfold staticLines staticSection?
    split <;> simp [Section.lines]
  have hroutine : image.routineLines printable = fun g => (image.routineSection printable g).lines := by
    funext g
    simp [routineLines, routineSection, Section.lines, Signature.title]
  rw [listingLines, sections, List.flatMap_append, List.flatMap_map, hstatics, hroutine, List.append_assoc]

end Image

end StackCompiler
