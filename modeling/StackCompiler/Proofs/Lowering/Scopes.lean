import StackCompiler.Scope
import StackCompiler.Signature

/-!
The scopes that can be open. Variables are declared and slots taken in the innermost scope, functions
open at file scope and blocks inside functions. In every chain of scopes reached so, each visible
variable has a slot of its own type, and the next slot to be taken is a new one.
-/

set_option autoImplicit false
namespace StackCompiler

/-- The types of variables: scalars and arrays of scalars. -/
def Ty.isStorable : Ty → Bool
  | array element => element.isScalar
  | ty => ty.isScalar

namespace Scope

theorem resume_symbols (outer inner : Scope) : (outer.resume inner).symbols = outer.symbols := by
  unfold resume
  split <;> rfl

theorem resume_kind (outer inner : Scope) : (outer.resume inner).kind = outer.kind := by
  unfold resume
  split <;> rfl

theorem resume_nextArg (outer inner : Scope) : (outer.resume inner).nextArg = outer.nextArg := by
  unfold resume
  split <;> rfl

theorem nextLocal_le_resume (outer inner : Scope) : outer.nextLocal ≤ (outer.resume inner).nextLocal := by
  unfold resume
  split
  next hboth => exact Nat.le_of_lt hboth.2
  next => exact Nat.le_refl _

theorem resume_of_not_block {outer inner : Scope} (h : inner.kind ≠ .block) :
    outer.resume inner = outer := by
  rw [resume, if_neg fun hboth => h hboth.1]

theorem resume_of_block {outer inner : Scope} (h : inner.kind = .block)
    (hle : outer.nextLocal ≤ inner.nextLocal) :
    outer.resume inner = { outer with nextLocal := inner.nextLocal } := by
  unfold resume
  by_cases hlt : outer.nextLocal < inner.nextLocal
  · rw [if_pos ⟨h, hlt⟩]
  · have heq : inner.nextLocal = outer.nextLocal := by omega
    rw [if_neg fun hboth => hlt hboth.2, heq]

end Scope

namespace ScopeChain

/-- Storage in which a slot may be taken: a local one only inside a function. -/
def Fits (c : ScopeChain) (storage : Storage) : Prop :=
  storage = .static ∨ storage = .local ∧ c.enclosing ≠ []

/-- Chains of open scopes. The index lists the types of the parameters declared so far. -/
inductive Reachable : List Ty → ScopeChain → Prop where
  | empty : Reachable [] .empty
  | enterFunction {c : ScopeChain} (h : Reachable [] c) (atFile : c.enclosing = []) :
      Reachable [] (c.enter .function)
  | enterBlock {params : List Ty} {c : ScopeChain} (h : Reachable params c)
      (inside : c.enclosing ≠ []) : Reachable params (c.enter .block)
  | leaveBlock {params : List Ty} {c : ScopeChain} (h : Reachable params c) (inside : 2 < c.depth) :
      Reachable params (c.exit (c.depth - 1))
  | leaveFunction {params : List Ty} {c : ScopeChain} (h : Reachable params c)
      (inside : c.depth = 2) : Reachable [] (c.exit 1)
  | reserve {params : List Ty} {c : ScopeChain} (h : Reachable params c) (ty : Ty) {storage : Storage}
      (fits : c.Fits storage) :
      Reachable params (c.reserve ty storage).2
  | declare {params : List Ty} {c c' : ScopeChain} (h : Reachable params c) {name : String} {ty : Ty}
      {storage : Storage} {length : Option Nat} {line slot : Nat}
      (fits : c.Fits storage) (storable : ty.isStorable = true)
      (declared : c.declare name ty storage length line = .ok (slot, c')) : Reachable params c'
  | parameter {params : List Ty} {c c' : ScopeChain} (h : Reachable params c) {name : String} {ty : Ty}
      {length : Option Nat} {line slot : Nat} (inside : c.depth = 2) (storable : ty.isStorable = true)
      (declared : c.declare name ty .arg length line = .ok (slot, c')) :
      Reachable (params ++ [ty]) c'

theorem depth_ne_one {c : ScopeChain} (inside : c.enclosing ≠ []) : c.depth ≠ 1 := by
  have hpos := List.length_pos_iff.2 inside
  rw [depth]
  omega

def slotType (c : ScopeChain) (params : List Ty) : Place → Option Ty
  | ⟨.static, slot⟩ => c.statics[slot]?
  | ⟨.local, slot⟩ => c.locals[slot]?
  | ⟨.arg, slot⟩ => params[slot]?

def scopes (c : ScopeChain) : List Scope :=
  c.innermost :: c.enclosing

/-- How scopes stand inside one another: blocks in a function, the function at file scope. A block goes
on with the local slots of the scope around it. -/
def Nested (params : List Ty) (inner : Scope) : List Scope → Prop
  | [] => ∀ s ∈ inner.symbols, s.place.storage = .static
  | [file] => inner.kind = .function ∧ inner.nextArg = params.length ∧ Nested params file []
  | outer :: more => inner.kind = .block ∧ outer.nextLocal ≤ inner.nextLocal ∧ Nested params outer more

structure Sound (params : List Ty) (c : ScopeChain) : Prop where
  typed : ∀ scope ∈ c.scopes, ∀ s ∈ scope.symbols,
    c.slotType params s.place = some s.ty ∧ s.ty.isStorable = true
  nested : Nested params c.innermost c.enclosing
  fresh : c.enclosing ≠ [] → c.innermost.nextLocal = c.locals.length

/-- What declarations and temporaries do to the open scopes. -/
structure Grows (c c' : ScopeChain) : Prop where
  enclosing : c'.enclosing = c.enclosing
  kind : c'.innermost.kind = c.innermost.kind
  nextLocal : c.innermost.nextLocal ≤ c'.innermost.nextLocal
  symbols : c.innermost.symbols <:+ c'.innermost.symbols
  statics : c.statics <+: c'.statics
  locals : c.locals <+: c'.locals

namespace Grows

variable {c c' c'' : ScopeChain}

theorem refl (c : ScopeChain) : Grows c c :=
  ⟨rfl, rfl, Nat.le_refl _, List.suffix_refl _, List.prefix_refl _, List.prefix_refl _⟩

theorem trans (h : Grows c c') (h' : Grows c' c'') : Grows c c'' where
  enclosing := h'.enclosing.trans h.enclosing
  kind := h'.kind.trans h.kind
  nextLocal := Nat.le_trans h.nextLocal h'.nextLocal
  symbols := h.symbols.trans h'.symbols
  statics := h.statics.trans h'.statics
  locals := h.locals.trans h'.locals

theorem depth (h : Grows c c') : c'.depth = c.depth := by
  rw [ScopeChain.depth, h.enclosing, ScopeChain.depth]

end Grows

theorem getElem?_of_prefix {α : Type} {xs ys : List α} (h : xs <+: ys) {i : Nat} {a : α}
    (ha : xs[i]? = some a) : ys[i]? = some a := by
  obtain ⟨zs, rfl⟩ := h
  rw [List.getElem?_append_left (List.getElem?_eq_some_iff.1 ha).1]
  exact ha

/-- Slots keep their types as long as none is given up. -/
theorem slotType_mono {c c' : ScopeChain} {params params' : List Ty} (hstatics : c.statics <+: c'.statics)
    (hlocals : c.locals <+: c'.locals) (hparams : params <+: params') {place : Place} {ty : Ty}
    (h : c.slotType params place = some ty) : c'.slotType params' place = some ty := by
  obtain ⟨storage, slot⟩ := place
  cases storage with
  | static => exact getElem?_of_prefix hstatics h
  | «local» => exact getElem?_of_prefix hlocals h
  | arg => exact getElem?_of_prefix hparams h

theorem Grows.slotType {c c' : ScopeChain} (h : Grows c c') {params : List Ty} {place : Place} {ty : Ty}
    (hty : c.slotType params place = some ty) : c'.slotType params place = some ty :=
  slotType_mono h.statics h.locals (List.prefix_refl _) hty

def Taken (params : List Ty) (c c' : ScopeChain) (place : Place) : Prop :=
  c.slotType params place = none ∧ c'.slotType params place ≠ none

namespace Taken

variable {params : List Ty} {c c₁ c' : ScopeChain} {place : Place}

theorem first (h : Taken params c c₁ place) (hgrows : Grows c₁ c') : Taken params c c' place := by
  obtain ⟨hnone, hsome⟩ := h
  obtain ⟨ty, hty⟩ := Option.ne_none_iff_exists'.1 hsome
  exact ⟨hnone, by simp [hgrows.slotType hty]⟩

theorem rest (h : Taken params c₁ c' place) (hgrows : Grows c c₁) : Taken params c c' place := by
  refine ⟨?_, h.2⟩
  cases hplace : c.slotType params place with
  | none => rfl
  | some ty =>
    have hnone := h.1
    simp [hgrows.slotType hplace] at hnone

/-- A slot is taken once. -/
theorem once (h : Taken params c c₁ place) : ¬Taken params c₁ c' place :=
  fun h' => h.2 h'.1

end Taken

theorem Nested.mono {params : List Ty} {inner inner' : Scope} {outer : List Scope}
    (h : Nested params inner outer) (hkind : inner'.kind = inner.kind)
    (hsymbols : inner'.symbols = inner.symbols) (hargs : inner'.nextArg = inner.nextArg)
    (hlocals : inner.nextLocal ≤ inner'.nextLocal) : Nested params inner' outer := by
  match outer with
  | [] =>
    intro s hs
    rw [hsymbols] at hs
    exact h s hs
  | [file] =>
    obtain ⟨kind, args, file⟩ := h
    exact ⟨hkind.trans kind, hargs.trans args, file⟩
  | outer :: next :: more =>
    obtain ⟨kind, locals, outer⟩ := h
    exact ⟨hkind.trans kind, Nat.le_trans locals hlocals, outer⟩

theorem exit_innermost {c : ScopeChain} {outer : Scope} {more : List Scope}
    (h : c.enclosing = outer :: more) :
    c.exit (more.length + 1) =
      { c with innermost := outer.resume c.innermost, enclosing := more } := by
  have hleave : leave (more.length + 1) c.innermost c.enclosing =
      (outer.resume c.innermost, more) := by
    rw [h, leave, if_pos (by omega)]
    cases more with
    | nil => rfl
    | cons next more => rw [leave, if_neg (by simp)]
  rw [exit, hleave]

section Operations

variable {params : List Ty} {c c' : ScopeChain} {ty : Ty} {storage : Storage}

theorem reserveLocal_locals (h : Sound params c) (inside : c.enclosing ≠ []) (ty : Ty) :
    (c.reserveLocal ty).2.locals = c.locals ++ [ty] := by
  have hfresh := h.fresh inside
  rw [reserveLocal]
  simp only
  rw [if_neg (by omega)]

theorem reserve_enclosing (c : ScopeChain) (ty : Ty) (storage : Storage) :
    (c.reserve ty storage).2.enclosing = c.enclosing := by
  cases storage <;> rfl

theorem reserve_symbols (c : ScopeChain) (ty : Ty) (storage : Storage) :
    (c.reserve ty storage).2.innermost.symbols = c.innermost.symbols := by
  cases storage <;> rfl

theorem reserve_kind (c : ScopeChain) (ty : Ty) (storage : Storage) :
    (c.reserve ty storage).2.innermost.kind = c.innermost.kind := by
  cases storage <;> rfl

theorem grows_reserve (h : Sound params c) (ty : Ty) (fits : c.Fits storage) :
    Grows c (c.reserve ty storage).2 := by
  rcases fits with rfl | ⟨rfl, inside⟩
  · exact ⟨rfl, rfl, Nat.le_refl _, List.suffix_refl _, List.prefix_append _ _, List.prefix_refl _⟩
  · refine ⟨rfl, rfl, Nat.le_succ _, List.suffix_refl _, List.prefix_refl _, ?_⟩
    rw [reserve, reserveLocal_locals h inside]
    exact List.prefix_append _ _

/-- A slot that is taken is new. -/
theorem slotType_before (h : Sound params c) (ty : Ty) (fits : c.Fits storage) :
    c.slotType params ⟨storage, (c.reserve ty storage).1⟩ = none := by
  rcases fits with rfl | ⟨rfl, inside⟩
  · simp [slotType, reserve, reserveStatic]
  · simp [slotType, reserve, reserveLocal, h.fresh inside]

theorem slotType_reserve (h : Sound params c) (ty : Ty) (fits : c.Fits storage) :
    (c.reserve ty storage).2.slotType params ⟨storage, (c.reserve ty storage).1⟩ = some ty := by
  rcases fits with rfl | ⟨rfl, inside⟩
  · simp [slotType, reserve, reserveStatic]
  · rw [reserve, slotType, reserveLocal_locals h inside]
    simp [reserveLocal, h.fresh inside]

theorem declare_ok {name : String} {length : Option Nat} {line slot : Nat}
    (h : c.declare name ty storage length line = .ok (slot, c')) :
    slot = (c.reserve ty storage).1 ∧
      c' = { (c.reserve ty storage).2 with
        innermost := (c.reserve ty storage).2.innermost.bind
          ⟨name, ty, ⟨storage, slot⟩, length, line⟩ } := by
  unfold declare at h
  split at h
  next => simp at h
  next =>
    cases h
    exact ⟨rfl, rfl⟩

theorem Sound.reserve (h : Sound params c) (ty : Ty) (fits : c.Fits storage) :
    Sound params (c.reserve ty storage).2 := by
  have hgrows := grows_reserve h ty fits
  refine ⟨?_, ?_, ?_⟩
  · intro scope hscope s hs
    have hold : ∃ old ∈ c.scopes, s ∈ old.symbols := by
      rcases List.mem_cons.1 hscope with rfl | hmem
      · rw [reserve_symbols] at hs
        exact ⟨c.innermost, by simp [scopes], hs⟩
      · rw [reserve_enclosing] at hmem
        exact ⟨scope, by simp [scopes, hmem], hs⟩
    obtain ⟨old, hmem, hs⟩ := hold
    exact ⟨hgrows.slotType (h.typed old hmem s hs).1, (h.typed old hmem s hs).2⟩
  · rw [reserve_enclosing]
    refine h.nested.mono (reserve_kind _ _ _) (reserve_symbols _ _ _) ?_ hgrows.nextLocal
    rcases fits with rfl | ⟨rfl, -⟩ <;> rfl
  · intro inside
    rw [reserve_enclosing] at inside
    have hfresh := h.fresh inside
    rcases fits with rfl | ⟨rfl, -⟩
    · exact hfresh
    · rw [ScopeChain.reserve, reserveLocal_locals h inside, List.length_append, List.length_singleton,
        ← hfresh]
      rfl

/-- A parameter takes the argument slot behind those of the parameters before it. -/
theorem Sound.reserveArg (h : Sound params c) (ty : Ty) (inside : c.depth = 2) :
    Sound (params ++ [ty]) (c.reserve ty .arg).2 ∧
      (c.reserve ty .arg).2.slotType (params ++ [ty]) ⟨.arg, (c.reserve ty .arg).1⟩ = some ty := by
  have hnested := h.nested
  obtain ⟨file, hfile⟩ : ∃ file, c.enclosing = [file] := by
    apply List.length_eq_one_iff.1
    rw [depth] at inside
    omega
  rw [hfile] at hnested
  obtain ⟨hkind, hargs, hstatic⟩ := hnested
  refine ⟨⟨?_, ?_, h.fresh⟩, ?_⟩
  · intro scope hscope s hs
    have hold : ∃ old ∈ c.scopes, s ∈ old.symbols := by
      rcases List.mem_cons.1 hscope with rfl | hmem
      · exact ⟨c.innermost, by simp [scopes], hs⟩
      · exact ⟨scope, by simpa [scopes] using .inr hmem, hs⟩
    obtain ⟨old, hmem, hs⟩ := hold
    have htyped := h.typed old hmem s hs
    exact ⟨slotType_mono (List.prefix_refl _) (List.prefix_refl _) (List.prefix_append _ _) htyped.1,
      htyped.2⟩
  · rw [reserve_enclosing, hfile]
    refine ⟨hkind, ?_, hstatic⟩
    rw [List.length_append, List.length_singleton, ← hargs]
    rfl
  · simp [slotType, ScopeChain.reserve, ScopeChain.reserveArg, hargs]

theorem Sound.bind {symbol : Symbol} (h : Sound params c)
    (hslot : c.slotType params symbol.place = some symbol.ty) (hstorable : symbol.ty.isStorable = true)
    (hfile : c.enclosing = [] → symbol.place.storage = .static) :
    Sound params { c with innermost := c.innermost.bind symbol } := by
  refine ⟨?_, ?_, h.fresh⟩
  · intro scope hscope s hs
    rcases List.mem_cons.1 hscope with rfl | hmem
    · rcases List.mem_cons.1 hs with rfl | hs
      · exact ⟨hslot, hstorable⟩
      · exact h.typed c.innermost (by simp [scopes]) s hs
    · exact h.typed scope (by simpa [scopes] using .inr hmem) s hs
  · have hnested := h.nested
    change Nested params (c.innermost.bind symbol) c.enclosing
    match hc : c.enclosing with
    | [] =>
      rw [hc] at hnested
      intro s hs
      rcases List.mem_cons.1 hs with rfl | hs
      · exact hfile hc
      · exact hnested s hs
    | [file] =>
      rw [hc] at hnested
      exact hnested
    | outer :: next :: more =>
      rw [hc] at hnested
      exact hnested

theorem Sound.enterFunction (h : Sound [] c) (atFile : c.enclosing = []) :
    Sound [] (c.enter .function) := by
  have hnested := h.nested
  rw [atFile] at hnested
  refine ⟨?_, ?_, fun _ => rfl⟩
  · intro scope hscope s hs
    simp only [enter, scopes, atFile, List.mem_cons, List.not_mem_nil, or_false] at hscope
    rcases hscope with rfl | rfl
    · simp at hs
    · obtain ⟨hslot, hstorable⟩ := h.typed c.innermost (by simp [scopes]) s hs
      have hstatic := hnested s hs
      rcases hplace : s.place with ⟨storage, slot⟩
      rw [hplace] at hslot hstatic
      cases hstatic
      exact ⟨hslot, hstorable⟩
  · simp only [enter, atFile]
    exact ⟨rfl, rfl, hnested⟩

theorem Sound.enterBlock (h : Sound params c) (inside : c.enclosing ≠ []) :
    Sound params (c.enter .block) := by
  refine ⟨?_, ?_, ?_⟩
  · intro scope hscope s hs
    rcases List.mem_cons.1 hscope with rfl | hmem
    · simp [enter] at hs
    · exact h.typed scope hmem s hs
  · obtain ⟨outer, more, hc⟩ := List.exists_cons_of_ne_nil inside
    have hnested := h.nested
    simp only [enter]
    rw [hc] at hnested ⊢
    exact ⟨rfl, Nat.le_refl _, hnested⟩
  · intro _
    exact h.fresh inside

theorem Sound.leaveBlock (h : Sound params c) (inside : 2 < c.depth) :
    Sound params (c.exit (c.depth - 1)) := by
  have hnested := h.nested
  match hc : c.enclosing with
  | [] => simp [depth, hc] at inside
  | [file] => simp [depth, hc] at inside
  | outer :: next :: more =>
    rw [hc] at hnested
    obtain ⟨hkind, hlocals, hnested⟩ := hnested
    have hdepth : c.depth - 1 = (next :: more).length + 1 := by simp [depth, hc]
    have hfresh := h.fresh (by simp [hc])
    have hnext : (outer.resume c.innermost).nextLocal = c.innermost.nextLocal := by
      rw [Scope.resume_of_block hkind hlocals]
    have hsymbols := Scope.resume_symbols outer c.innermost
    rw [hdepth, exit_innermost hc]
    refine ⟨?_, ?_, ?_⟩
    · intro scope hscope s hs
      rcases List.mem_cons.1 hscope with rfl | hmem
      · rw [hsymbols] at hs
        exact h.typed outer (by simp [scopes, hc]) s hs
      · exact h.typed scope (by simp only [scopes, hc]; exact .tail _ (.tail _ hmem)) s hs
    · exact hnested.mono (Scope.resume_kind _ _) hsymbols (Scope.resume_nextArg _ _)
        (Scope.nextLocal_le_resume _ _)
    · intro _
      exact hnext.trans hfresh

theorem Sound.leaveFunction (h : Sound params c) (inside : c.depth = 2) : Sound [] (c.exit 1) := by
  have hnested := h.nested
  obtain ⟨file, hfile⟩ : ∃ file, c.enclosing = [file] := by
    apply List.length_eq_one_iff.1
    rw [depth] at inside
    omega
  rw [hfile] at hnested
  obtain ⟨hkind, -, hstatic⟩ := hnested
  have hresume : file.resume c.innermost = file := Scope.resume_of_not_block (by simp [hkind])
  have hexit := exit_innermost hfile
  rw [hresume] at hexit
  change c.exit 1 = _ at hexit
  rw [hexit]
  refine ⟨?_, hstatic, fun h => absurd rfl h⟩
  intro scope hscope s hs
  simp only [scopes, List.mem_singleton] at hscope
  subst hscope
  obtain ⟨hslot, hstorable⟩ := h.typed scope (by simp [scopes, hfile]) s hs
  have hplace := hstatic s hs
  rcases hp : s.place with ⟨storage, slot⟩
  rw [hp] at hslot hplace
  cases hplace
  exact ⟨hslot, hstorable⟩

theorem Sound.declare {name : String} {length : Option Nat} {line slot : Nat} (h : Sound params c)
    (fits : c.Fits storage) (storable : ty.isStorable = true)
    (declared : c.declare name ty storage length line = .ok (slot, c')) : Sound params c' := by
  obtain ⟨rfl, rfl⟩ := declare_ok declared
  refine (h.reserve ty fits).bind (slotType_reserve h ty fits) storable ?_
  intro hfile
  rw [reserve_enclosing] at hfile
  rcases fits with rfl | ⟨-, inside⟩
  · rfl
  · exact absurd hfile inside

theorem Sound.parameter {name : String} {length : Option Nat} {line slot : Nat} (h : Sound params c)
    (inside : c.depth = 2) (storable : ty.isStorable = true)
    (declared : c.declare name ty .arg length line = .ok (slot, c')) : Sound (params ++ [ty]) c' := by
  obtain ⟨rfl, rfl⟩ := declare_ok declared
  obtain ⟨hsound, hslot⟩ := h.reserveArg ty inside
  refine hsound.bind hslot storable ?_
  intro hfile
  rw [reserve_enclosing] at hfile
  simp [depth, hfile] at inside

theorem grows_declare {name : String} {length : Option Nat} {line slot : Nat} (h : Sound params c)
    (fits : c.Fits storage) (declared : c.declare name ty storage length line = .ok (slot, c')) :
    Grows c c' := by
  obtain ⟨rfl, rfl⟩ := declare_ok declared
  have hgrows := grows_reserve h ty fits
  exact ⟨hgrows.enclosing, hgrows.kind, hgrows.nextLocal, hgrows.symbols.trans (List.suffix_cons _ _),
    hgrows.statics, hgrows.locals⟩

theorem slotType_declare {name : String} {length : Option Nat} {line slot : Nat} (h : Sound params c)
    (fits : c.Fits storage) (declared : c.declare name ty storage length line = .ok (slot, c')) :
    c.slotType params ⟨storage, slot⟩ = none ∧ c'.slotType params ⟨storage, slot⟩ = some ty := by
  obtain ⟨rfl, rfl⟩ := declare_ok declared
  exact ⟨slotType_before h ty fits, slotType_reserve h ty fits⟩

/-- In every chain of scopes that can be open, variables have slots of their types and the next slot is
a new one. -/
theorem Reachable.sound (h : Reachable params c) : Sound params c := by
  induction h with
  | empty =>
    exact ⟨by simp [scopes, ScopeChain.empty], by simp [ScopeChain.empty, Nested],
      by simp [ScopeChain.empty]⟩
  | enterFunction _ atFile ih => exact ih.enterFunction atFile
  | enterBlock _ inside ih => exact ih.enterBlock inside
  | leaveBlock _ inside ih => exact ih.leaveBlock inside
  | leaveFunction _ inside ih => exact ih.leaveFunction inside
  | reserve _ ty fits ih => exact ih.reserve ty fits
  | declare _ fits storable declared ih => exact ih.declare fits storable declared
  | parameter _ inside storable declared ih => exact ih.parameter inside storable declared

end Operations

/-! Temporaries. -/

def tempStorage (c : ScopeChain) : Storage :=
  if c.depth = 1 then .static else .local

theorem reserveTemp_eq (c : ScopeChain) (ty : Ty) :
    c.reserveTemp ty =
      (⟨c.tempStorage, (c.reserve ty c.tempStorage).1⟩, (c.reserve ty c.tempStorage).2) := rfl

theorem fits_tempStorage (c : ScopeChain) : c.Fits c.tempStorage := by
  unfold tempStorage
  split
  next => exact .inl rfl
  next hdepth =>
    refine .inr ⟨rfl, ?_⟩
    intro hnil
    exact hdepth (by simp [depth, hnil])

theorem taken_reserveTemp {params : List Ty} {c c' : ScopeChain} {ty : Ty} {temp : Place}
    (hc : Reachable params c) (h : c.reserveTemp ty = (temp, c')) : Taken params c c' temp := by
  rw [reserveTemp_eq] at h
  obtain ⟨rfl, rfl⟩ := Prod.mk.inj h
  exact ⟨slotType_before hc.sound ty (fits_tempStorage c),
    by simp [slotType_reserve hc.sound ty (fits_tempStorage c)]⟩

inductive Temps (c : ScopeChain) : ScopeChain → Prop where
  | none : Temps c c
  | more {c' : ScopeChain} (h : Temps c c') (ty : Ty) : Temps c (c'.reserveTemp ty).2

namespace Temps

variable {params : List Ty} {c c' c'' : ScopeChain}

theorem trans (h : Temps c c') (h' : Temps c' c'') : Temps c c'' := by
  induction h' with
  | none => exact h
  | more _ ty ih => exact ih.more ty

theorem reachable (h : Temps c c') (hc : Reachable params c) : Reachable params c' := by
  induction h with
  | none => exact hc
  | more _ ty ih => exact ih.reserve ty (fits_tempStorage _)

theorem grows (h : Temps c c') (hc : Reachable params c) : Grows c c' := by
  induction h with
  | none => exact .refl c
  | more h ty ih => exact ih.trans (grows_reserve (h.reachable hc).sound ty (fits_tempStorage _))

theorem enclosing (h : Temps c c') : c'.enclosing = c.enclosing := by
  induction h with
  | none => rfl
  | more _ ty ih => exact (reserve_enclosing _ _ _).trans ih

theorem depth (h : Temps c c') : c'.depth = c.depth := by
  rw [ScopeChain.depth, h.enclosing, ScopeChain.depth]

theorem symbols (h : Temps c c') : c'.innermost.symbols = c.innermost.symbols := by
  induction h with
  | none => rfl
  | more _ ty ih => exact (reserve_symbols _ _ _).trans ih

/-- Temporaries have no names. -/
theorem resolve (h : Temps c c') (name : String) : c'.resolve? name = c.resolve? name := by
  unfold resolve?
  rw [h.enclosing, List.findSome?_cons, List.findSome?_cons, Scope.lookup?, h.symbols]
  rfl

end Temps

/-- From `c` to `c'` no scope is opened or left; where `quiet` holds, a function takes no static slot. -/
structure Within (quiet : Prop) (c c' : ScopeChain) : Prop where
  enclosing : c'.enclosing = c.enclosing
  kind : c'.innermost.kind = c.innermost.kind
  statics : quiet → c.depth ≠ 1 → c'.statics = c.statics

namespace Within

variable {quiet quiet' : Prop} {c c₁ c' : ScopeChain}

theorem refl (quiet : Prop) (c : ScopeChain) : Within quiet c c :=
  ⟨rfl, rfl, fun _ _ => rfl⟩

theorem depth (h : Within quiet c c') : c'.depth = c.depth := by
  rw [ScopeChain.depth, h.enclosing, ScopeChain.depth]

theorem trans (h : Within quiet c c₁) (h' : Within quiet c₁ c') : Within quiet c c' :=
  ⟨h'.enclosing.trans h.enclosing, h'.kind.trans h.kind,
    fun hquiet inside => (h'.statics hquiet (by rwa [h.depth])).trans (h.statics hquiet inside)⟩

theorem mono (h : Within quiet c c') (hquiet : quiet' → quiet) : Within quiet' c c' :=
  ⟨h.enclosing, h.kind, fun hq => h.statics (hquiet hq)⟩

theorem reserve {ty : Ty} {storage : Storage} {slot : Nat} (h : c.reserve ty storage = (slot, c')) :
    Within (storage ≠ .static) c c' := by
  obtain rfl : (c.reserve ty storage).2 = c' := by rw [h]
  refine ⟨reserve_enclosing .., reserve_kind .., fun hstorage _ => ?_⟩
  cases storage with
  | static => exact absurd rfl hstorage
  | «local» | arg => rfl

theorem declare {name : String} {ty : Ty} {storage : Storage} {length : Option Nat} {line slot : Nat}
    (h : c.declare name ty storage length line = .ok (slot, c')) : Within (storage ≠ .static) c c' := by
  obtain ⟨-, rfl⟩ := declare_ok h
  have hreserve := reserve (Prod.eta (c.reserve ty storage)).symm
  exact ⟨hreserve.enclosing, hreserve.kind, hreserve.statics⟩

theorem temps (h : Temps c c') : Within quiet c c' := by
  induction h with
  | none => exact refl quiet c
  | @more c₁ h ty ih =>
    rw [reserveTemp_eq]
    have hreserve := reserve (Prod.eta (c₁.reserve ty c₁.tempStorage)).symm
    refine ih.trans ⟨hreserve.enclosing, hreserve.kind, fun _ inside => hreserve.statics ?_ inside⟩
    simp [tempStorage, inside]

end Within

/-- Inside a function no static slot is taken for a temporary. -/
theorem Temps.statics {c c' : ScopeChain} (h : Temps c c') (inside : c.enclosing ≠ []) :
    c'.statics = c.statics := by
  have hwithin : Within True c c' := .temps h
  exact hwithin.statics trivial (depth_ne_one inside)

/-- A name denotes a variable of an open scope. -/
theorem mem_of_resolve {c : ScopeChain} {name : String} {symbol : Symbol}
    (h : c.resolve? name = some symbol) : ∃ scope ∈ c.scopes, symbol ∈ scope.symbols := by
  obtain ⟨scope, hscope, hlookup⟩ := List.exists_of_findSome?_eq_some h
  exact ⟨scope, hscope, List.mem_of_find?_eq_some hlookup⟩

/-- A block takes local slots behind those of the scope around it, and its names are gone after it. -/
theorem Grows.block {c c' : ScopeChain} (h : Grows (c.enter .block) c') :
    Grows c (c'.exit c.depth) ∧ (c'.exit c.depth).innermost.symbols = c.innermost.symbols := by
  have hexit : c'.exit c.depth =
      { c' with innermost := c.innermost.resume c'.innermost, enclosing := c.enclosing } :=
    exit_innermost h.enclosing
  have hsymbols := Scope.resume_symbols c.innermost c'.innermost
  rw [hexit]
  exact ⟨⟨rfl, Scope.resume_kind _ _, Scope.nextLocal_le_resume _ _, by simp [hsymbols], h.statics,
    h.locals⟩, hsymbols⟩

theorem Reachable.block {params : List Ty} {c c' : ScopeChain} (inside : c.enclosing ≠ [])
    (h : Reachable params c') (hgrows : Grows (c.enter .block) c') :
    Reachable params (c'.exit c.depth) := by
  have hdepth : c'.depth = c.depth + 1 := hgrows.depth
  have hpos : 0 < c.enclosing.length := List.length_pos_iff.2 inside
  have hleave := Reachable.leaveBlock h (by rw [hdepth, ScopeChain.depth]; omega)
  rw [hdepth] at hleave
  exact hleave

end ScopeChain

namespace FunctionTable

/-- Tables of declared functions: parameters have types of variables, results those of scalars. -/
inductive Reachable : FunctionTable → Prop where
  | empty : Reachable .empty
  | declare {table table' : FunctionTable} (h : Reachable table) {name : String} {result : Ty}
      {parameters : List Ty} {line handle : Nat}
      (hresult : result = .void ∨ result.isScalar = true)
      (hparameters : ∀ ty ∈ parameters, ty.isStorable = true)
      (declared : table.declare name result parameters line = .ok (handle, table')) : Reachable table'

structure Sound (table : FunctionTable) : Prop where
  handle : ∀ (i : Nat) (signature : Signature), table.signatures[i]? = some signature →
    signature.handle = i
  result : ∀ signature ∈ table.signatures, signature.result = .void ∨ signature.result.isScalar = true
  parameters : ∀ signature ∈ table.signatures, ∀ ty ∈ signature.parameters, ty.isStorable = true

theorem declare_ok {table table' : FunctionTable} {name : String} {result : Ty} {parameters : List Ty}
    {line handle : Nat} (h : table.declare name result parameters line = .ok (handle, table')) :
    table.lookup? name = none ∧
      table' = ⟨table.signatures ++ [⟨name, result, parameters, table.signatures.length⟩]⟩ := by
  unfold declare at h
  split at h
  next => simp at h
  next hfree =>
    cases h
    simp only [Bool.or_eq_true, not_or, Bool.not_eq_true, Option.isSome_eq_false_iff,
      Option.isNone_iff_eq_none] at hfree
    exact ⟨hfree.2, rfl⟩

theorem Reachable.sound {table : FunctionTable} (h : Reachable table) : Sound table := by
  induction h with
  | empty =>
    exact ⟨by simp [FunctionTable.empty], by simp [FunctionTable.empty],
      by simp [FunctionTable.empty]⟩
  | declare _ hresult hparameters declared ih =>
    obtain ⟨-, rfl⟩ := declare_ok declared
    refine ⟨?_, ?_, ?_⟩
    · intro i signature hsig
      rw [List.getElem?_append] at hsig
      split at hsig
      next => exact ih.handle i signature hsig
      next hlen =>
        rw [List.getElem?_singleton] at hsig
        split at hsig
        next hi =>
          cases hsig
          simp only
          omega
        next => simp at hsig
    · intro signature hsig
      rcases List.mem_append.1 hsig with hsig | hsig
      · exact ih.result signature hsig
      · rw [List.mem_singleton.1 hsig]
        exact hresult
    · intro signature hsig
      rcases List.mem_append.1 hsig with hsig | hsig
      · exact ih.parameters signature hsig
      · rw [List.mem_singleton.1 hsig]
        exact hparameters

/-- The handle of a function leads back to it. -/
theorem Sound.getElem_handle {table : FunctionTable} (h : Sound table) {name : String}
    {signature : Signature} (hlookup : table.lookup? name = some signature) :
    table.signatures[signature.handle]? = some signature := by
  obtain ⟨i, hi⟩ := List.mem_iff_getElem?.1 (List.mem_of_find?_eq_some hlookup)
  rw [h.handle i signature hi]
  exact hi

end FunctionTable

end StackCompiler
