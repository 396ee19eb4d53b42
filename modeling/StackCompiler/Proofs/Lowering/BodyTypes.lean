import StackCompiler.Proofs.Lowering.Outline
import StackCompiler.Proofs.Lowering.StackTypes

/-!
Types in function bodies. A body takes slots as it goes and gives none back, so the slots in which loops
keep their ends and steps are slots of their own. `Stmt.Typed` says that every block finds its operands,
and that only the loops themselves use these slots.
-/

set_option autoImplicit false
namespace StackCompiler

open Lowering

namespace Lowering

open ScopeChain

variable {table : FunctionTable} {params : List Ty} {c c' : ScopeChain}

/-- What lies between two chains of scopes: the later one can be open too, has what the earlier one has,
and the slots `own` have been taken, local ones inside functions. -/
structure Extends (params : List Ty) (c c' : ScopeChain) (own : List Place) : Prop where
  reachable : Reachable params c'
  grows : Grows c c'
  taken : ∀ place ∈ own, Taken params c c' place
  inFrame : c.enclosing ≠ [] → ∀ place ∈ own, place.storage = .local

theorem Extends.refl (hc : Reachable params c) : Extends params c c [] :=
  ⟨hc, .refl c, by simp, by simp⟩

theorem Extends.trans {c₁ : ScopeChain} {own own' : List Place} (h : Extends params c c₁ own)
    (h' : Extends params c₁ c' own') : Extends params c c' (own ++ own') := by
  refine ⟨h'.reachable, h.grows.trans h'.grows, ?_, ?_⟩
  · intro place hplace
    rcases List.mem_append.1 hplace with hplace | hplace
    · exact (h.taken place hplace).first h'.grows
    · exact (h'.taken place hplace).rest h.grows
  · intro inside place hplace
    rcases List.mem_append.1 hplace with hplace | hplace
    · exact h.inFrame inside place hplace
    · exact h'.inFrame (by rw [h.grows.enclosing]; exact inside) place hplace

theorem extends_temps (h : Temps c c') (hc : Reachable params c) : Extends params c c' [] :=
  ⟨h.reachable hc, h.grows hc, by simp, by simp⟩

theorem extends_reserveTemp {ty : Ty} {temp : Place} (hc : Reachable params c)
    (h : c.reserveTemp ty = (temp, c')) : Extends params c c' [temp] := by
  have htemps := temps_reserveTemp h
  refine ⟨htemps.reachable hc, htemps.grows hc, ?_, ?_⟩
  · intro place hplace
    rw [List.mem_singleton.1 hplace]
    exact taken_reserveTemp hc h
  · intro inside place hplace
    rw [List.mem_singleton.1 hplace]
    rw [reserveTemp_eq] at h
    obtain ⟨rfl, -⟩ := Prod.mk.inj h
    simp [tempStorage, depth, inside]

theorem Counts.temps {counter : Place} {bounds : List Tree} {r : Counting}
    (h : Counts table counter bounds c r c') : Temps c c' := by
  cases h with
  | start initial limit => exact initial.lowers.temps.trans (temps_reserveTemp limit)
  | upTo initial final limit =>
    exact (initial.lowers.temps.trans final.lowers.temps).trans (temps_reserveTemp limit)
  | stride initial final increment limit held =>
    exact (((initial.lowers.temps.trans final.lowers.temps).trans increment.lowers.temps).trans
      (temps_reserveTemp limit)).trans (temps_reserveTemp held)

theorem Counts.extends {counter : Place} {bounds : List Tree} {r : Counting}
    (h : Counts table counter bounds c r c') (hc : Reachable params c) :
    Extends params c c' r.temps := by
  cases h with
  | start initial limit =>
    have h₁ := extends_temps initial.lowers.temps hc
    exact h₁.trans (extends_reserveTemp h₁.reachable limit)
  | upTo initial final limit =>
    have h₂ := extends_temps (initial.lowers.temps.trans final.lowers.temps) hc
    exact h₂.trans (extends_reserveTemp h₂.reachable limit)
  | stride initial final increment limit held =>
    have h₃ := extends_temps
      ((initial.lowers.temps.trans final.lowers.temps).trans increment.lowers.temps) hc
    have h₄ := h₃.trans (extends_reserveTemp h₃.reachable limit)
    exact h₄.trans (extends_reserveTemp h₄.reachable held)

theorem EmitsEffect.temps {t : Tree} {code : Code} (h : EmitsEffect table t c code c') : Temps c c' := by
  rcases h.lowers with hvoid | ⟨ty, hstored⟩ | ⟨ty, value, -, -, hvalue⟩
  · exact hvoid.temps
  · exact hstored.temps
  · exact hvalue.temps

theorem extends_declare {name : String} {ty : Ty} {storage : Storage} {length : Option Nat}
    {line slot : Nat} (hc : Reachable params c) (fits : c.Fits storage) (storable : ty.isStorable = true)
    (declared : c.declare name ty storage length line = .ok (slot, c')) : Extends params c c' [] :=
  ⟨hc.declare fits storable declared, grows_declare hc.sound fits declared, by simp, by simp⟩

theorem extends_reserve {ty : Ty} {storage : Storage} {slot : Nat} (hc : Reachable params c)
    (fits : c.Fits storage) (h : c.reserve ty storage = (slot, c')) : Extends params c c' [] := by
  have hreachable := hc.reserve ty fits
  have hgrows := grows_reserve hc.sound ty fits
  rw [h] at hreachable hgrows
  exact ⟨hreachable, hgrows, by simp, by simp⟩

theorem fits_of_grows {storage : Storage} (hgrows : Grows c c') (fits : c.Fits storage) :
    c'.Fits storage := by
  rcases fits with hstatic | ⟨hlocal, inside⟩
  · exact .inl hstatic
  · exact .inr ⟨hlocal, by rw [hgrows.enclosing]; exact inside⟩

theorem storable_of_scalar {ty : Ty} (h : ty.isScalar = true) : ty.isStorable = true := by
  cases ty <;> simp_all [Ty.isScalar, Ty.isStorable]

theorem Prepares.extends {base : Ty} {storage : Storage} {setup : Setup}
    (h : Prepares table base storage c setup c') (hc : Reachable params c) (fits : c.Fits storage)
    (scalar : base.isScalar = true) : Extends params c c' [] := by
  have hbase := storable_of_scalar scalar
  have harray : (Ty.array base).isStorable = true := scalar
  cases h with
  | plain declared => exact extends_declare hc fits hbase declared
  | scalar initial declared =>
    have h₁ := extends_temps initial.temps hc
    exact h₁.trans (extends_declare h₁.reachable (fits_of_grows h₁.grows fits) hbase declared)
  | array declared => exact extends_declare hc fits harray declared
  | filled initial declared valueTemp indexTemp =>
    have h₁ := extends_temps initial.temps hc
    have h₂ := h₁.trans (extends_declare h₁.reachable (fits_of_grows h₁.grows fits) harray declared)
    have h₃ := h₂.trans (extends_reserve h₂.reachable (fits_of_grows h₂.grows fits) valueTemp)
    exact h₃.trans (extends_reserve h₃.reachable (fits_of_grows h₃.grows fits) indexTemp)

theorem fits_storageOf {node : Tree} (inside : c.enclosing ≠ []) : c.Fits (storageOf c.depth node) := by
  unfold storageOf
  split
  next => exact .inl rfl
  next => exact .inr ⟨rfl, inside⟩

/-- Where declarators stand: in a function, or at file scope with static storage. -/
def Part.Fits (c : ScopeChain) : Part → Prop
  | .declarators base storage _ _ => c.Fits storage ∧ base.isScalar = true
  | _ => c.enclosing ≠ []

theorem Part.fits_of_grows {part : Part} (hgrows : Grows c c') (h : part.Fits c) : part.Fits c' := by
  cases part with
  | statement | items =>
    change c'.enclosing ≠ []
    rw [hgrows.enclosing]
    exact h
  | declarators => exact ⟨Lowering.fits_of_grows hgrows h.1, h.2⟩

theorem Part.fits_enter (items : List Tree) (c : ScopeChain) : (Part.items items).Fits (c.enter .block) := by
  simp [Part.Fits, enter]

/-- Slots that a part of a body takes stay taken. -/
theorem Outlines.extends {result : Ty} {inLoop : Bool} {part : Part} {b : Stmt}
    (h : Outlines table result inLoop part c b c') (hc : Reachable params c) (fits : part.Fits c) :
    Extends params c c' b.temps := by
  induction h with
  | empty | returnPlain | breakLoop | noItems | noDeclarators => exact .refl hc
  | expression effect => exact extends_temps effect.temps hc
  | returnValue value => exact extends_temps value.lowers.temps hc
  | compound _ ih =>
    have hinner := ih (hc.enterBlock fits) (Part.fits_enter _ _)
    exact ⟨.block fits hinner.reachable hinner.grows, hinner.grows.block.1, hinner.taken,
      fun _ => hinner.inFrame (by simp [enter])⟩
  | ifThen condition _ ih | whileDo condition _ ih =>
    have h₁ := extends_temps condition.lowers.temps hc
    exact h₁.trans (ih h₁.reachable (Part.fits_of_grows h₁.grows fits))
  | ifElse condition _ _ ih₁ ih₂ =>
    have h₁ := extends_temps condition.lowers.temps hc
    have h₂ := h₁.trans (ih₁ h₁.reachable (Part.fits_of_grows h₁.grows fits))
    exact h₂.trans (ih₂ h₂.reachable (Part.fits_of_grows h₂.grows fits))
  | forTo _ _ range _ ih =>
    have h₁ := range.extends hc
    exact h₁.trans (ih h₁.reachable (Part.fits_of_grows h₁.grows fits))
  | declaration _ _ scalar _ _ ih₁ ih₂ =>
    have h₁ := ih₁ hc ⟨fits_storageOf fits, scalar⟩
    exact h₁.trans (ih₂ h₁.reachable (Part.fits_of_grows h₁.grows fits))
  | statement _ _ _ ih₁ ih₂ =>
    have h₁ := ih₁ hc fits
    exact h₁.trans (ih₂ h₁.reachable (Part.fits_of_grows h₁.grows fits))
  | declarator _ prepares _ ih =>
    have h₁ := prepares.extends hc fits.1 fits.2
    have h₂ := h₁.trans (ih h₁.reachable (Part.fits_of_grows h₁.grows fits))
    change Extends params _ _ (Stmt.temps (if _ then _ else _) ++ Stmt.temps _)
    split <;> exact h₂

end Lowering

def Frame.without (f : Frame) (hidden : List Place) : Frame :=
  { f with slots := fun place => if place ∈ hidden then none else f.slots place }

theorem Frame.slots_without {f : Frame} {hidden : List Place} {place : Place} {ty : Ty}
    (hty : f.slots place = some ty) (hplace : place ∉ hidden) :
    (f.without hidden).slots place = some ty := by
  rw [Frame.without]
  simp only [if_neg hplace, hty]

theorem Frame.slots_of_without {f : Frame} {hidden : List Place} {place : Place} {ty : Ty}
    (h : (f.without hidden).slots place = some ty) : f.slots place = some ty := by
  simp only [Frame.without] at h
  split at h
  next => cases h
  next => exact h

/-- Code that does without some slots also runs where they can be used. -/
theorem effect_of_without {f : Frame} {hidden : List Place} {instr : Instr} {stack stack' : StackType}
    (h : instr.effect (f.without hidden) stack = some stack') : instr.effect f stack = some stack' := by
  have hslot : ∀ {place : Place} {ty : Ty}, (f.without hidden).slots place = some ty →
      f.slots place = some ty := Frame.slots_of_without
  have hload : ∀ {place : Place}, StackType.load (f.without hidden) place stack = some stack' →
      StackType.load f place stack = some stack' := by
    intro place hload
    obtain ⟨ty, hty, rfl⟩ := Option.map_eq_some_iff.1 hload
    rw [StackType.load, hslot hty]
    rfl
  have hstore : ∀ {place : Place}, StackType.store (f.without hidden) place stack = some stack' →
      StackType.store f place stack = some stack' := by
    intro place hstore
    unfold StackType.store at hstore ⊢
    split at hstore
    next ty stack =>
      split at hstore
      next hty =>
        simp only [hslot hty, if_true]
        exact hstore
      next => cases hstore
    next => cases hstore
  cases instr with
  | loadStatic | loadLocal | loadArg => exact hload h
  | storeStatic | storeLocal | storeArg => exact hstore h
  | dup | pop | print => cases stack <;> exact h
  | length =>
    cases stack with
    | nil => exact h
    | cons cell stack =>
      cases cell with
      | boxed => exact h
      | value ty => cases ty <;> exact h
  | _ => exact h

theorem check_of_without {f : Frame} {hidden : List Place} {code : Code} {stack stack' : StackType}
    (h : Code.check (f.without hidden) stack code = some stack') :
    Code.check f stack code = some stack' := by
  induction code generalizing stack with
  | nil => exact h
  | cons instr code ih =>
    obtain ⟨stack₁, heffect, hcode⟩ := Option.bind_eq_some_iff.1 h
    rw [Code.check_cons, effect_of_without heffect]
    exact ih hcode

def Lowering.Setup.Typed (f : Frame) : Setup → Prop
  | .nothing => True
  | .scalar place value => ∃ ty, f.slots place = some ty ∧ Code.check f [] value = some [.value ty]
  | .array place element _ fill => f.slots place = some (.array element) ∧
    ∀ fill', fill = some fill' → Code.check f [] fill'.value = some [.value element] ∧
      f.slots fill'.valueTemp = some element ∧ f.slots fill'.indexTemp = some .int

/-- The expressions of a range are ints, and so are the slots it counts with. The expressions cannot use
the slots `hidden`, in which end and step are kept. -/
structure Counting.Typed (f : Frame) (hidden : List Place) (r : Counting) : Prop where
  counter : (f.without hidden).slots r.counter = some .int
  start : Code.check (f.without hidden) [] r.start = some [.value .int]
  stop : ∀ stop, r.stop = some stop → Code.check (f.without hidden) [] stop = some [.value .int]
  step : ∀ step temp, r.step = some (step, temp) →
    Code.check (f.without hidden) [] step = some [.value .int]
  temps : ∀ place ∈ r.temps, f.slots place = some .int ∧ place ∈ hidden
  distinct : r.temps.Nodup

/-- Every block of a statement finds its operands and leaves what belongs there. Only loops use the
slots `hidden`, each its own ones. -/
def Stmt.Typed (f : Frame) (hidden : List Place) (result : Ty) : Bool → Stmt → Prop
  | _, .skip => True
  | inLoop, .seq first second =>
    first.Typed f hidden result inLoop ∧ second.Typed f hidden result inLoop
  | _, .block code => Code.check (f.without hidden) [] code = some []
  | _, .setup prepared => prepared.Typed (f.without hidden)
  | inLoop, .ifThen test yes => Code.check (f.without hidden) [] test = some [.value .bool] ∧
    yes.Typed f hidden result inLoop
  | inLoop, .ifElse test yes no => Code.check (f.without hidden) [] test = some [.value .bool] ∧
    yes.Typed f hidden result inLoop ∧ no.Typed f hidden result inLoop
  | _, .whileDo test body => Code.check (f.without hidden) [] test = some [.value .bool] ∧
    body.Typed f hidden result true
  | _, .forTo r body => r.Typed f hidden ∧ (∀ place ∈ r.temps, place ∉ body.temps) ∧
    body.Typed f hidden result true
  | _, .return value => Code.check (f.without hidden) [] value = some (.push result [])
  | inLoop, .breakLoop => inLoop = true

namespace Lowering

open ScopeChain

variable {table : FunctionTable} {params : List Ty} {c c' : ScopeChain}

def Hidden (hidden : List Place) (c : ScopeChain) : Prop :=
  ∀ scope ∈ c.scopes, ∀ s ∈ scope.symbols, s.place ∉ hidden

theorem Hidden.of_symbols {hidden : List Place} (h : Hidden hidden c)
    (henclosing : c'.enclosing = c.enclosing) (hsymbols : c'.innermost.symbols = c.innermost.symbols) :
    Hidden hidden c' := by
  intro scope hscope s hs
  rcases List.mem_cons.1 hscope with rfl | hmem
  · rw [hsymbols] at hs
    exact h c.innermost (by simp [scopes]) s hs
  · rw [henclosing] at hmem
    exact h scope (by simp [scopes, hmem]) s hs

theorem Hidden.temps {hidden : List Place} (h : Hidden hidden c) (htemps : Temps c c') :
    Hidden hidden c' :=
  h.of_symbols htemps.enclosing htemps.symbols

theorem Hidden.declare {hidden : List Place} {name : String} {ty : Ty} {storage : Storage}
    {length : Option Nat} {line slot : Nat} (h : Hidden hidden c)
    (declared : c.declare name ty storage length line = .ok (slot, c'))
    (hslot : ⟨storage, slot⟩ ∉ hidden) : Hidden hidden c' := by
  obtain ⟨-, rfl⟩ := declare_ok declared
  intro scope hscope s hs
  rcases List.mem_cons.1 hscope with rfl | hmem
  · rcases List.mem_cons.1 hs with rfl | hs
    · exact hslot
    · rw [reserve_symbols] at hs
      exact h c.innermost (by simp [scopes]) s hs
  · change scope ∈ (c.reserve ty storage).2.enclosing at hmem
    rw [reserve_enclosing] at hmem
    exact h scope (by simp [scopes, hmem]) s hs

theorem Hidden.enterBlock {hidden : List Place} (h : Hidden hidden c) :
    Hidden hidden (c.enter .block) := by
  intro scope hscope s hs
  rcases List.mem_cons.1 hscope with rfl | hmem
  · simp [enter] at hs
  · exact h scope hmem s hs

theorem Hidden.reserve {hidden : List Place} {ty : Ty} {storage : Storage} {slot : Nat}
    (h : Hidden hidden c) (hreserve : c.reserve ty storage = (slot, c')) : Hidden hidden c' := by
  have henclosing := reserve_enclosing c ty storage
  have hsymbols := reserve_symbols c ty storage
  rw [hreserve] at henclosing hsymbols
  exact h.of_symbols henclosing hsymbols

theorem slotType_of_reserve {ty : Ty} {storage : Storage} {slot : Nat} (hc : Reachable params c)
    (fits : c.Fits storage) (h : c.reserve ty storage = (slot, c')) :
    c.slotType params ⟨storage, slot⟩ = none ∧ c'.slotType params ⟨storage, slot⟩ = some ty := by
  have hnone := slotType_before hc.sound ty fits
  have hty := slotType_reserve hc.sound ty fits
  rw [h] at hnone hty
  exact ⟨hnone, hty⟩

/-- A frame for the code between two chains of scopes. Of the slots taken in between, only the slots
`own` are hidden. -/
structure Hosts (f : Frame) (hidden own : List Place) (params : List Ty) (c c' : ScopeChain) : Prop where
  slots : ∀ place ty, c'.slotType params place = some ty → f.slots place = some ty
  names : Hidden hidden c
  taken : ∀ place, Taken params c c' place → place ∈ hidden → place ∈ own
  own : ∀ place ∈ own, place ∈ hidden

namespace Hosts

variable {f : Frame} {hidden own own' : List Place} {c₁ : ScopeChain}

theorem first (h : Hosts f hidden (own ++ own') params c c') (h₂ : Extends params c₁ c' own') :
    Hosts f hidden own params c c₁ := by
  refine ⟨fun place ty hty => h.slots place ty (h₂.grows.slotType hty), h.names, ?_,
    fun place hplace => h.own place (List.mem_append_left _ hplace)⟩
  intro place htaken hhidden
  rcases List.mem_append.1 (h.taken place (htaken.first h₂.grows) hhidden) with hown | hown
  · exact hown
  · exact absurd (h₂.taken place hown) htaken.once

theorem rest (h : Hosts f hidden (own ++ own') params c c') (h₁ : Extends params c c₁ own)
    (names : Hidden hidden c₁) : Hosts f hidden own' params c₁ c' := by
  refine ⟨h.slots, names, ?_, fun place hplace => h.own place (List.mem_append_right _ hplace)⟩
  intro place htaken hhidden
  rcases List.mem_append.1 (h.taken place (htaken.rest h₁.grows) hhidden) with hown | hown
  · exact absurd htaken (h₁.taken place hown).once
  · exact hown

/-- A block at the head of a segment, and what follows it. -/
theorem block (h : Hosts f hidden own params c c') (hc : Reachable params c) (htemps : Temps c c₁)
    (h' : Extends params c₁ c' own) :
    Hosts f hidden [] params c c₁ ∧ Hosts f hidden own params c₁ c' :=
  have hall : Hosts f hidden ([] ++ own) params c c' := h
  ⟨hall.first h', hall.rest (extends_temps htemps hc) (h.names.temps htemps)⟩

theorem covers (h : Hosts f hidden [] params c c') (hc : Reachable params c) (hgrows : Grows c c') :
    (f.without hidden).Covers params c c' := by
  refine ⟨?_, ?_⟩
  · intro scope hscope s hs
    have hslot := hgrows.slotType (hc.sound.typed scope hscope s hs).1
    exact Frame.slots_without (h.slots _ _ hslot) (h.names scope hscope s hs)
  · intro place ty hnone hty
    refine Frame.slots_without (h.slots _ _ hty) ?_
    intro hhidden
    exact absurd (h.taken place ⟨hnone, by simp [hty]⟩ hhidden) (by simp)

/-- A slot taken for something other than a loop is not hidden. -/
theorem slot (h : Hosts f hidden [] params c c') {place : Place} {ty : Ty}
    (hnone : c.slotType params place = none) (hty : c'.slotType params place = some ty) :
    place ∉ hidden ∧ (f.without hidden).slots place = some ty := by
  have hplace : place ∉ hidden := fun hhidden =>
    absurd (h.taken place ⟨hnone, by simp [hty]⟩ hhidden) (by simp)
  exact ⟨hplace, Frame.slots_without (h.slots _ _ hty) hplace⟩

end Hosts

section Typing

variable {f : Frame} {hidden own : List Place} (htable : table.Sound)
  (hf : f.functions = table.signatures)
include htable hf

theorem Lowers.checks_hidden {form : Form} {ty : Ty} {code : Code} (h : Lowers table form c ty code c')
    (hc : Reachable params c) (hosts : Hosts f hidden [] params c c') :
    Checks (f.without hidden) form ty code := by
  have hfunctions : (f.without hidden).functions = table.signatures := hf
  exact h.checks htable hfunctions hc (hosts.covers hc (h.temps.grows hc))

theorem EmitsEffect.checks {t : Tree} {code : Code} (h : EmitsEffect table t c code c')
    (hc : Reachable params c) (hosts : Hosts f hidden [] params c c') :
    Code.check (f.without hidden) [] code = some [] := by
  rcases h.lowers with hvoid | ⟨ty, hstored⟩ | ⟨ty, value, hty, rfl, hvalue⟩
  · exact hvoid.checks_hidden htable hf hc hosts []
  · exact (hstored.checks_hidden htable hf hc hosts).2 []
  · have hcode := hvalue.checks_hidden htable hf hc hosts []
    rw [StackType.push, if_neg hty] at hcode
    simp [hcode]

theorem initial_checks {t : Tree} {ty : Ty} {code : Code} {c₁ : ScopeChain}
    (h : Lowers table (.value t) c ty code c₁) (hc : Reachable params c) (scalar : ty.isScalar = true)
    (hosts : Hosts f hidden [] params c c₁) :
    Code.check (f.without hidden) [] code = some [.value ty] := by
  have hcode := h.checks_hidden htable hf hc hosts []
  rw [StackType.push_of_scalar scalar] at hcode
  exact hcode

theorem Prepares.typed {base : Ty} {storage : Storage} {setup : Setup}
    (h : Prepares table base storage c setup c') (hc : Reachable params c) (fits : c.Fits storage)
    (scalar : base.isScalar = true) (hosts : Hosts f hidden [] params c c') :
    setup.Typed (f.without hidden) ∧ Hidden hidden c' := by
  cases h with
  | plain declared =>
    obtain ⟨hnone, hty⟩ := slotType_declare hc.sound fits declared
    exact ⟨trivial, hosts.names.declare declared (hosts.slot hnone hty).1⟩
  | scalar initial declared =>
    have h₁ := extends_temps initial.temps hc
    have fits₁ := fits_of_grows h₁.grows fits
    have h₂ := extends_declare h₁.reachable fits₁ (storable_of_scalar scalar) declared
    have hnames := hosts.names.temps initial.temps
    obtain ⟨hnone, hty⟩ := slotType_declare h₁.reachable.sound fits₁ declared
    have hosts₁ : Hosts f hidden [] params _ c' := hosts.rest h₁ hnames
    have hslot := hosts₁.slot hnone hty
    exact ⟨⟨_, hslot.2, initial_checks htable hf initial hc scalar (hosts.first h₂)⟩,
      hnames.declare declared hslot.1⟩
  | array declared =>
    obtain ⟨hnone, hty⟩ := slotType_declare hc.sound fits declared
    have hslot := hosts.slot hnone hty
    exact ⟨⟨hslot.2, by simp⟩, hosts.names.declare declared hslot.1⟩
  | @filled name line slot valueSlot indexSlot length n init value _ c₁ c₂ c₃ _ initial declared
      valueTemp indexTemp =>
    have h₁ := extends_temps initial.temps hc
    have fits₁ := fits_of_grows h₁.grows fits
    have h₂ := extends_declare h₁.reachable fits₁ (show (Ty.array base).isStorable = true from scalar)
      declared
    have fits₂ := fits_of_grows h₂.grows fits₁
    have h₃ := extends_reserve h₂.reachable fits₂ valueTemp
    have fits₃ := fits_of_grows h₃.grows fits₂
    have h₄ := extends_reserve h₃.reachable fits₃ indexTemp
    have hosts₁ : Hosts f hidden [] params c₁ c' := hosts.rest h₁ (hosts.names.temps initial.temps)
    obtain ⟨hnone, hty⟩ := slotType_declare h₁.reachable.sound fits₁ declared
    have hslot := hosts₁.slot hnone (h₄.grows.slotType (h₃.grows.slotType hty))
    have hnames₂ := hosts₁.names.declare declared hslot.1
    have hosts₂ : Hosts f hidden [] params c₂ c' := hosts₁.rest h₂ hnames₂
    have hnames₃ := hnames₂.reserve valueTemp
    have hosts₃ : Hosts f hidden [] params c₃ c' := hosts₂.rest h₃ hnames₃
    obtain ⟨hvalue, hvalue'⟩ := slotType_of_reserve h₂.reachable fits₂ valueTemp
    obtain ⟨hindex, hindex'⟩ := slotType_of_reserve h₃.reachable fits₃ indexTemp
    refine ⟨⟨hslot.2, ?_⟩, hnames₃.reserve indexTemp⟩
    intro fill hfill
    cases hfill
    exact ⟨initial_checks htable hf initial hc scalar (hosts.first ((h₂.trans h₃).trans h₄)),
      (hosts₂.slot hvalue (h₄.grows.slotType hvalue')).2, (hosts₃.slot hindex hindex').2⟩

theorem Emits.checks_int {t : Tree} {code : Code} (h : Emits table .int t c code c')
    (hc : Reachable params c) (hosts : Hosts f hidden [] params c c') :
    Code.check (f.without hidden) [] code = some [.value .int] :=
  h.lowers.checks_hidden htable hf hc hosts []

theorem Emits.checks_bool {t : Tree} {code : Code} (h : Emits table .bool t c code c')
    (hc : Reachable params c) (hosts : Hosts f hidden [] params c c') :
    Code.check (f.without hidden) [] code = some [.value .bool] :=
  h.lowers.checks_hidden htable hf hc hosts []

omit htable hf in
theorem slotType_reserveTemp {ty : Ty} {temp : Place} (hc : Reachable params c)
    (h : c.reserveTemp ty = (temp, c')) : c'.slotType params temp = some ty := by
  rw [reserveTemp_eq] at h
  obtain ⟨rfl, rfl⟩ := Prod.mk.inj h
  exact slotType_reserve hc.sound ty (fits_tempStorage c)

theorem Counts.typed {counter : Place} {bounds : List Tree} {r : Counting}
    (h : Counts table counter bounds c r c') (hc : Reachable params c)
    (hosts : Hosts f hidden r.temps params c c')
    (hcounter : (f.without hidden).slots counter = some .int) : r.Typed f hidden := by
  cases h with
  | @start first start bound _ c₁ _ initial limit =>
    have h₁ := initial.lowers.temps.reachable hc
    obtain ⟨hosts₀, hosts₁⟩ := hosts.block hc initial.lowers.temps (extends_reserveTemp h₁ limit)
    have hbound := hosts₁.slots _ _ (slotType_reserveTemp h₁ limit)
    refine ⟨hcounter, initial.checks_int htable hf hc hosts₀, by simp, by simp, ?_, by simp [Counting.temps]⟩
    intro place hplace
    refine ⟨?_, hosts.own place hplace⟩
    rw [List.mem_singleton.1 hplace]
    exact hbound
  | @upTo first last start stop bound _ c₁ c₂ _ initial final limit =>
    have h₁ := initial.lowers.temps.reachable hc
    have h₂ := final.lowers.temps.reachable h₁
    have hlimit := extends_reserveTemp h₂ limit
    obtain ⟨hosts₀, hosts₁⟩ := hosts.block hc initial.lowers.temps
      ((extends_temps final.lowers.temps h₁).trans hlimit)
    obtain ⟨hosts₁, hosts₂⟩ := hosts₁.block h₁ final.lowers.temps hlimit
    have hbound := hosts₂.slots _ _ (slotType_reserveTemp h₂ limit)
    refine ⟨hcounter, initial.checks_int htable hf hc hosts₀, ?_, by simp, ?_, by simp [Counting.temps]⟩
    · intro code hcode
      cases hcode
      exact final.checks_int htable hf h₁ hosts₁
    · intro place hplace
      refine ⟨?_, hosts.own place hplace⟩
      rw [List.mem_singleton.1 hplace]
      exact hbound
  | @stride first last third start stop step bound temp _ c₁ c₂ c₃ c₄ _ initial final increment limit held =>
    have h₁ := initial.lowers.temps.reachable hc
    have h₂ := final.lowers.temps.reachable h₁
    have h₃ := increment.lowers.temps.reachable h₂
    have hlimit := extends_reserveTemp h₃ limit
    have hheld := extends_reserveTemp hlimit.reachable held
    have hlast := hlimit.trans hheld
    have hsteps := (extends_temps increment.lowers.temps h₂).trans hlast
    obtain ⟨hosts₀, hosts₁⟩ := hosts.block hc initial.lowers.temps
      ((extends_temps final.lowers.temps h₁).trans hsteps)
    obtain ⟨hosts₁, hosts₂⟩ := hosts₁.block h₁ final.lowers.temps hsteps
    obtain ⟨hosts₂, hosts₃⟩ := hosts₂.block h₂ increment.lowers.temps hlast
    have hbound := hosts₃.slots _ _ (hheld.grows.slotType (slotType_reserveTemp h₃ limit))
    have htemp := hosts₃.slots _ _ (slotType_reserveTemp hlimit.reachable held)
    have hdistinct : bound ≠ temp := by
      rintro rfl
      exact (taken_reserveTemp h₃ limit).once (taken_reserveTemp hlimit.reachable held)
    refine ⟨hcounter, initial.checks_int htable hf hc hosts₀, ?_, ?_, ?_, by simp [Counting.temps, hdistinct]⟩
    · intro code hcode
      cases hcode
      exact final.checks_int htable hf h₁ hosts₁
    · intro code place hcode
      cases hcode
      exact increment.checks_int htable hf h₂ hosts₂
    · intro place hplace
      refine ⟨?_, hosts.own place hplace⟩
      rcases List.mem_cons.1 hplace with rfl | hplace
      · exact hbound
      · rw [List.mem_singleton.1 hplace]
        exact htemp

/-- The outline of a part of a body is typed in every frame that has the slots of the part. -/
theorem Outlines.typed {result : Ty} {inLoop : Bool} {part : Part} {b : Stmt}
    (h : Outlines table result inLoop part c b c') (hc : Reachable params c) (fits : part.Fits c)
    (hosts : Hosts f hidden b.temps params c c') :
    b.Typed f hidden result inLoop ∧ Hidden hidden c' := by
  induction h with
  | empty | noItems | noDeclarators => exact ⟨trivial, hosts.names⟩
  | returnPlain isVoid =>
    subst isVoid
    exact ⟨rfl, hosts.names⟩
  | breakLoop => exact ⟨rfl, hosts.names⟩
  | expression effect =>
    exact ⟨effect.checks htable hf hc hosts, hosts.names.temps effect.temps⟩
  | returnValue value =>
    exact ⟨value.lowers.checks_hidden htable hf hc hosts [], hosts.names.temps value.lowers.temps⟩
  | @compound inLoop token items body c₀ c₁ inner ih =>
    have hinside := Part.fits_enter items c₀
    have hgrows := (inner.extends (hc.enterBlock fits) hinside).grows
    have hslots : ∀ place, (c₁.exit c₀.depth).slotType params place = c₁.slotType params place := by
      rintro ⟨_ | _ | _, slot⟩ <;> rfl
    have hinner := ih (hc.enterBlock fits) hinside ⟨fun place ty hty => hosts.slots place ty
      ((hslots place).trans hty), hosts.names.enterBlock, fun place htaken => hosts.taken place htaken,
      hosts.own⟩
    exact ⟨hinner.1, hosts.names.of_symbols hgrows.block.1.enclosing hgrows.block.2⟩
  | ifThen condition branch ih | whileDo condition branch ih =>
    have htest := condition.lowers.temps
    have h₁ := htest.reachable hc
    have fits₁ := Part.fits_of_grows (htest.grows hc) fits
    obtain ⟨hosts₀, hosts₁⟩ := hosts.block hc htest (branch.extends h₁ fits₁)
    obtain ⟨hbranch, hnames⟩ := ih h₁ fits₁ hosts₁
    exact ⟨⟨condition.checks_bool htable hf hc hosts₀, hbranch⟩, hnames⟩
  | ifElse condition branch other ih₁ ih₂ =>
    have htest := condition.lowers.temps
    have h₁ := htest.reachable hc
    have fits₁ := Part.fits_of_grows (htest.grows hc) fits
    have hfirst := branch.extends h₁ fits₁
    have fits₂ := Part.fits_of_grows hfirst.grows fits₁
    have hsecond := other.extends hfirst.reachable fits₂
    obtain ⟨hosts₀, hosts₁⟩ := hosts.block hc htest (hfirst.trans hsecond)
    obtain ⟨hbranch, hnames₂⟩ := ih₁ h₁ fits₁ (hosts₁.first hsecond)
    obtain ⟨hother, hnames⟩ := ih₂ hfirst.reachable fits₂ (hosts₁.rest hfirst hnames₂)
    exact ⟨⟨condition.checks_bool htable hf hc hosts₀, hbranch, hother⟩, hnames⟩
  | forTo counter isInt range loop ih =>
    have hrange := range.extends hc
    have fits₁ := Part.fits_of_grows hrange.grows fits
    have hloop := loop.extends hrange.reachable fits₁
    obtain ⟨scope, hscope, hs⟩ := mem_of_resolve counter
    have hcounter := Frame.slots_without
      (hosts.slots _ _ ((hrange.grows.trans hloop.grows).slotType (hc.sound.typed scope hscope _ hs).1))
      (hosts.names scope hscope _ hs)
    rw [isInt] at hcounter
    have hbody := ih hrange.reachable fits₁ (hosts.rest hrange (hosts.names.temps range.temps))
    refine ⟨⟨range.typed htable hf hc (hosts.first hloop) hcounter, ?_, hbody.1⟩, hbody.2⟩
    intro place hplace hinner
    exact (hrange.taken place hplace).once (hloop.taken place hinner)
  | declaration _ _ scalar setups more ih₁ ih₂ =>
    have hfirst := setups.extends hc ⟨fits_storageOf fits, scalar⟩
    have fits₁ := Part.fits_of_grows hfirst.grows fits
    have hsecond := more.extends hfirst.reachable fits₁
    obtain ⟨hsetups, hnames₁⟩ := ih₁ hc ⟨fits_storageOf fits, scalar⟩ (hosts.first hsecond)
    obtain ⟨hmore, hnames⟩ := ih₂ hfirst.reachable fits₁ (hosts.rest hfirst hnames₁)
    exact ⟨⟨hsetups, hmore⟩, hnames⟩
  | statement _ step more ih₁ ih₂ =>
    have hfirst := step.extends hc fits
    have fits₁ := Part.fits_of_grows hfirst.grows fits
    have hsecond := more.extends hfirst.reachable fits₁
    obtain ⟨hstep, hnames₁⟩ := ih₁ hc fits (hosts.first hsecond)
    obtain ⟨hmore, hnames⟩ := ih₂ hfirst.reachable fits₁ (hosts.rest hfirst hnames₁)
    exact ⟨⟨hstep, hmore⟩, hnames⟩
  | @declarator inLoop hoisted base storage node rest setup second c₀ c₁ c₂ emitted prepares more ih =>
    have hfirst := prepares.extends hc fits.1 fits.2
    have fits₁ := Part.fits_of_grows hfirst.grows fits
    have hsecond := more.extends hfirst.reachable fits₁
    have htemps : Stmt.temps (if storage = .static then .skip else .setup setup) = [] := by
      split <;> rfl
    have hall : Hosts f hidden ([] ++ second.temps) params c₀ c₂ := by
      rw [← htemps]
      exact hosts
    obtain ⟨hsetup, hnames₁⟩ := prepares.typed htable hf hc fits.1 fits.2 (hall.first hsecond)
    obtain ⟨hmore, hnames⟩ := ih hfirst.reachable fits₁ (hall.rest hfirst hnames₁)
    refine ⟨⟨?_, hmore⟩, hnames⟩
    split
    next => trivial
    next => exact hsetup

end Typing

end Lowering

end StackCompiler
