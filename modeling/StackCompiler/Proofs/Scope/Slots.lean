import Mathlib.Data.List.Induction
import StackCompiler.Proofs.Lowering.Scopes

/-!
The slots that a chain of scopes hands out, over any sequence of operations on it.

A frame is a function or file scope with the blocks on top of it. A ledger goes along with a chain: it
numbers the frames, knows the frame of every open scope and records what was handed out in which frame.
The main statements are read off the ledger: slots of one kind come in order and without gaps, and no two
variables of a frame that are alive at once share one.
-/

set_option autoImplicit false
namespace StackCompiler

namespace ScopeChain

/-- What can be done to a chain of scopes. A handle is the depth at which its scope was opened; `exit`
takes any number, among them all handles ever given out. -/
inductive Operation where
  | enter (kind : ScopeKind)
  | exit (handle : Nat)
  | declare (name : String) (ty : Ty) (storage : Storage) (length : Option Nat) (line : Nat)
  | temp (ty : Ty)
  | static (ty : Ty)
  deriving DecidableEq

/-- The chain after an operation and the place handed out by it, with its type. A declaration that fails
leaves the chain as it is. -/
def perform (c : ScopeChain) : Operation → Option (Place × Ty) × ScopeChain
  | .enter kind => (none, c.enter kind)
  | .exit handle => (none, c.exit handle)
  | .declare name ty storage length line =>
    match c.declare name ty storage length line with
    | .ok (slot, c') => (some (⟨storage, slot⟩, ty), c')
    | .error _ => (none, c)
  | .temp ty => (some ((c.reserveTemp ty).1, ty), (c.reserveTemp ty).2)
  | .static ty => (some (⟨.static, (c.reserveStatic ty).1⟩, ty), (c.reserveStatic ty).2)

/-- All that an operation inside a scope can do: nothing, or take a slot and perhaps bind a name to it. -/
inductive Takes (c : ScopeChain) : Option (Place × Ty) × ScopeChain → Prop where
  | nothing : Takes c (none, c)
  | slot (ty : Ty) (storage : Storage) :
      Takes c (some (⟨storage, (c.reserve ty storage).1⟩, ty), (c.reserve ty storage).2)
  | bound (ty : Ty) (storage : Storage) (symbol : Symbol)
      (place : symbol.place = ⟨storage, (c.reserve ty storage).1⟩) :
      Takes c (some (⟨storage, (c.reserve ty storage).1⟩, ty),
        { (c.reserve ty storage).2 with innermost := (c.reserve ty storage).2.innermost.bind symbol })

theorem takes_declare (c : ScopeChain) (name : String) (ty : Ty) (storage : Storage)
    (length : Option Nat) (line : Nat) : c.Takes (c.perform (.declare name ty storage length line)) := by
  cases h : c.declare name ty storage length line with
  | error d =>
    simp only [perform, h]
    exact .nothing
  | ok result =>
    obtain ⟨slot, c'⟩ := result
    obtain ⟨rfl, rfl⟩ := declare_ok h
    simp only [perform, h]
    exact .bound ty storage ⟨name, ty, ⟨storage, (c.reserve ty storage).1⟩, length, line⟩ rfl

theorem takes_temp (c : ScopeChain) (ty : Ty) : c.Takes (c.perform (.temp ty)) := by
  rw [perform, reserveTemp_eq]
  exact .slot ty c.tempStorage

theorem takes_static (c : ScopeChain) (ty : Ty) : c.Takes (c.perform (.static ty)) :=
  .slot ty .static

end ScopeChain

open ScopeChain (Operation)

structure Grant where
  frame : Nat
  place : Place
  ty : Ty
  deriving DecidableEq

/-- A chain of scopes with its history. `frames` holds the frame of every open scope, the innermost
first, `opened` counts the frames so far, and `grants` are in the order in which they were made. -/
structure Ledger where
  chain : ScopeChain
  frames : List Nat
  opened : Nat
  grants : List Grant
  deriving DecidableEq

namespace Ledger

def start : Ledger :=
  ⟨.empty, [0], 1, []⟩

def frame (l : Ledger) : Nat :=
  l.frames.headD 0

def record (l : Ledger) (outcome : Option (Place × Ty) × ScopeChain) : Ledger :=
  { l with
    chain := outcome.2
    grants := l.grants ++ (outcome.1.map fun given => ⟨l.frame, given.1, given.2⟩).toList }

/-- A block belongs to the frame around it, any other scope opens a frame. -/
def perform (l : Ledger) (op : Operation) : Ledger :=
  let next := l.record (l.chain.perform op)
  match op with
  | .enter .block => { next with frames := l.frame :: l.frames }
  | .enter _ => { next with frames := l.opened :: l.frames, opened := l.opened + 1 }
  | .exit _ => { next with frames := l.frames.drop (l.chain.depth - next.chain.depth) }
  | _ => next

def run (ops : List Operation) : Ledger :=
  ops.foldl perform start

def locals (l : Ledger) (f : Nat) : List Grant :=
  l.grants.filter fun g => g.frame == f && g.place.storage == .local

def statics (l : Ledger) : List Grant :=
  l.grants.filter fun g => g.place.storage == .static

end Ledger

def liveIn (f : Nat) : List Scope → List Nat → List Symbol
  | s :: scopes, g :: frames => (if g = f then s.symbols else []) ++ liveIn f scopes frames
  | _, _ => []

def Ledger.live (l : Ledger) (f : Nat) : List Symbol :=
  liveIn f l.chain.scopes l.frames

theorem ScopeChain.leave_length (depth : Nat) (inner : Scope) (scopes : List Scope) :
    (leave depth inner scopes).2.length ≤ scopes.length := by
  induction scopes generalizing inner with
  | nil => simp [leave]
  | cons outer more ih =>
    rw [leave]
    by_cases hdepth : depth < more.length + 2
    · rw [if_pos hdepth]
      exact Nat.le_succ_of_le (ih (outer.resume inner))
    · exact Nat.le_of_eq (by rw [if_neg hdepth])

/-! How scopes and their frames stand inside one another. -/

namespace Scope

def next (s : Scope) (statics : Nat) : Storage → Nat
  | .static => statics
  | .local => s.nextLocal
  | .arg => s.nextArg

structure Below (outer inner : Scope) : Prop where
  locals : outer.nextLocal ≤ inner.nextLocal
  args : outer.nextArg ≤ inner.nextArg

theorem Below.next {outer inner : Scope} (h : outer.Below inner) {n m : Nat} (hnm : n ≤ m)
    (storage : Storage) : outer.next n storage ≤ inner.next m storage := by
  cases storage with
  | static => exact hnm
  | «local» => exact h.locals
  | arg => exact h.args

theorem below_resume (outer inner : Scope) : outer.Below (outer.resume inner) :=
  ⟨nextLocal_le_resume outer inner, Nat.le_of_eq (resume_nextArg outer inner).symm⟩

end Scope

/-- A frame with another frame on top of it has taken as many local slots as its own counter says;
`count` gives these numbers. -/
inductive Layered (count : Nat → Nat) : List Scope → List Nat → Prop where
  | base {s : Scope} {f : Nat} (kind : s.kind ≠ .block) : Layered count [s] [f]
  | block {s outer : Scope} {scopes : List Scope} {f : Nat} {frames : List Nat}
      (rest : Layered count (outer :: scopes) (f :: frames)) (kind : s.kind = .block)
      (above : outer.Below s) : Layered count (s :: outer :: scopes) (f :: f :: frames)
  | frame {s outer : Scope} {scopes : List Scope} {f g : Nat} {frames : List Nat}
      (rest : Layered count (outer :: scopes) (g :: frames)) (kind : s.kind ≠ .block)
      (settled : outer.nextLocal = count g) (fresh : f ∉ g :: frames) :
      Layered count (s :: outer :: scopes) (f :: g :: frames)

namespace Layered

variable {count count' : Nat → Nat} {s s' : Scope} {scopes : List Scope} {f : Nat} {frames : List Nat}

theorem raise (h : Layered count (s :: scopes) frames) (hkind : s'.kind = s.kind) (hle : s.Below s') :
    Layered count (s' :: scopes) frames := by
  cases h with
  | base kind => exact .base (hkind ▸ kind)
  | block rest kind above =>
    exact .block rest (hkind.trans kind)
      ⟨Nat.le_trans above.locals hle.locals, Nat.le_trans above.args hle.args⟩
  | frame rest kind settled fresh => exact .frame rest (hkind ▸ kind) settled fresh

theorem congr (h : Layered count scopes frames) (hcount : ∀ g ∈ frames, count' g = count g) :
    Layered count' scopes frames := by
  induction h with
  | base kind => exact .base kind
  | block rest kind above ih => exact .block (ih fun g hg => hcount g (by simp_all)) kind above
  | frame rest kind settled fresh ih =>
    exact .frame (ih fun g hg => hcount g (List.mem_cons_of_mem _ hg)) kind
      (settled.trans (hcount _ (by simp)).symm) fresh

/-- The count of the current frame is not yet looked at. -/
theorem recount (h : Layered count scopes (f :: frames)) (hcount : ∀ g, g ≠ f → count' g = count g) :
    Layered count' scopes (f :: frames) := by
  generalize hall : f :: frames = all at h ⊢
  induction h generalizing frames with
  | base kind => exact .base kind
  | block rest kind above ih =>
    obtain ⟨rfl, rfl⟩ := List.cons.inj hall
    exact .block (ih rfl) kind above
  | frame rest kind settled fresh _ =>
    obtain ⟨rfl, rfl⟩ := List.cons.inj hall
    have hother : ∀ g ∈ _ :: _, count' g = count g := fun g hg => hcount g fun heq => fresh (heq ▸ hg)
    exact .frame (rest.congr hother) kind (settled.trans (hother _ (by simp)).symm) fresh

end Layered

theorem liveIn_of_not_mem {f : Nat} {frames : List Nat} (h : f ∉ frames) (scopes : List Scope) :
    liveIn f scopes frames = [] := by
  induction frames generalizing scopes with
  | nil => cases scopes <;> rfl
  | cons g frames ih =>
    rw [List.mem_cons, not_or] at h
    cases scopes with
    | nil => rfl
    | cons s scopes => rw [liveIn, if_neg (Ne.symm h.1), List.nil_append, ih h.2]

def Bounded (statics : Nat) (scopes : List Scope) : Prop :=
  ∀ s ∈ scopes, ∀ symbol ∈ s.symbols, symbol.place.slot < s.next statics symbol.place.storage

/-- No variable of the current frame has a slot that the innermost scope would hand out next. -/
theorem Layered.bounded_live {count : Nat → Nat} {statics : Nat} {scopes : List Scope}
    {frames : List Nat} (h : Layered count scopes frames) (hbounded : Bounded statics scopes) :
    ∀ s ∈ scopes.head?, ∀ f ∈ frames.head?, ∀ symbol ∈ liveIn f scopes frames,
      symbol.place.slot < s.next statics symbol.place.storage := by
  induction h with
  | @base s f kind =>
    rintro _ ⟨⟩ _ ⟨⟩ symbol hsymbol
    exact hbounded s (by simp) symbol (by simpa [liveIn] using hsymbol)
  | @block s outer scopes f frames rest kind above ih =>
    rintro _ ⟨⟩ _ ⟨⟩ symbol hsymbol
    rw [liveIn, if_pos rfl, List.mem_append] at hsymbol
    rcases hsymbol with hown | hbelow
    · exact hbounded s (by simp) symbol hown
    · have hlt := ih (fun t ht => hbounded t (List.mem_cons_of_mem _ ht)) outer rfl f rfl symbol hbelow
      exact Nat.lt_of_lt_of_le hlt (above.next (Nat.le_refl _) _)
  | @frame s outer scopes f g frames rest kind settled fresh ih =>
    rintro _ ⟨⟩ _ ⟨⟩ symbol hsymbol
    rw [liveIn, if_pos rfl, liveIn_of_not_mem fresh, List.append_nil] at hsymbol
    exact hbounded s (by simp) symbol hsymbol

structure Tidy (count : Nat → Nat) (statics : Nat) (scopes : List Scope) (frames : List Nat) : Prop where
  layered : Layered count scopes frames
  settled : ∀ s ∈ scopes.head?, ∀ f ∈ frames.head?, s.nextLocal = count f
  bounded : Bounded statics scopes
  distinct : ∀ f, ((liveIn f scopes frames).map Symbol.place).Nodup

namespace Tidy

variable {count count' : Nat → Nat} {statics statics' : Nat} {s s' inner outer : Scope}
  {scopes : List Scope} {f g : Nat} {frames : List Nat}

theorem enterBlock (h : Tidy count statics (s :: scopes) (f :: frames)) :
    Tidy count statics (⟨.block, [], s.nextLocal, s.nextArg⟩ :: s :: scopes) (f :: f :: frames) where
  layered := .block h.layered rfl ⟨Nat.le_refl _, Nat.le_refl _⟩
  settled := by
    rintro _ ⟨⟩ _ ⟨⟩
    exact h.settled s rfl f rfl
  bounded := List.forall_mem_cons.2 ⟨by simp, h.bounded⟩
  distinct := by
    intro d
    rw [liveIn, ite_self, List.nil_append]
    exact h.distinct d

theorem enterFrame (h : Tidy count statics (s :: scopes) (g :: frames)) {kind : ScopeKind}
    (hkind : kind ≠ .block) (hfresh : f ∉ g :: frames) (hcount : count f = 0) :
    Tidy count statics (⟨kind, [], 0, 0⟩ :: s :: scopes) (f :: g :: frames) where
  layered := .frame h.layered hkind (h.settled s rfl g rfl) hfresh
  settled := by
    rintro _ ⟨⟩ _ ⟨⟩
    exact hcount.symm
  bounded := List.forall_mem_cons.2 ⟨by simp, h.bounded⟩
  distinct := by
    intro d
    rw [liveIn, ite_self, List.nil_append]
    exact h.distinct d

/-- Leaving a scope ends the life of its variables. A block hands its counter of local slots back. -/
theorem pop (h : Tidy count statics (inner :: outer :: scopes) (f :: g :: frames)) :
    Tidy count statics (outer.resume inner :: scopes) (g :: frames) := by
  have hbounded : Bounded statics (outer.resume inner :: scopes) := by
    refine List.forall_mem_cons.2 ⟨?_, fun t ht => h.bounded t (by simp [ht])⟩
    intro symbol hsymbol
    rw [Scope.resume_symbols] at hsymbol
    exact Nat.lt_of_lt_of_le (h.bounded outer (by simp) symbol hsymbol)
      ((outer.below_resume inner).next (Nat.le_refl _) _)
  have hdistinct : ∀ d, ((liveIn d (outer.resume inner :: scopes) (g :: frames)).map Symbol.place).Nodup := by
    intro d
    have hall := h.distinct d
    rw [liveIn, List.map_append] at hall
    rw [liveIn, Scope.resume_symbols]
    exact (List.nodup_append.1 hall).2.1
  have hsettled := h.settled inner rfl f rfl
  cases h.layered with
  | block rest kind above =>
    refine ⟨rest.raise (Scope.resume_kind _ _) (Scope.below_resume _ _), ?_, hbounded, hdistinct⟩
    rintro _ ⟨⟩ _ ⟨⟩
    rw [Scope.resume_of_block kind above.locals]
    exact hsettled
  | frame rest kind settled fresh =>
    refine ⟨rest.raise (Scope.resume_kind _ _) (Scope.below_resume _ _), ?_, hbounded, hdistinct⟩
    rintro _ ⟨⟩ _ ⟨⟩
    rw [Scope.resume_of_not_block kind]
    exact settled

theorem length_eq (h : Tidy count statics scopes frames) : frames.length = scopes.length := by
  obtain ⟨hlayered, -, -, -⟩ := h
  induction hlayered with
  | base kind => rfl
  | block rest kind above ih => simp_all
  | frame rest kind settled fresh ih => simp_all

/-- Leaving several scopes at once is leaving them one by one. -/
theorem leave (depth : Nat) (h : Tidy count statics (inner :: scopes) frames) :
    Tidy count statics ((ScopeChain.leave depth inner scopes).1 :: (ScopeChain.leave depth inner scopes).2)
      (frames.drop (scopes.length - (ScopeChain.leave depth inner scopes).2.length)) := by
  induction scopes generalizing inner frames with
  | nil => simpa [ScopeChain.leave] using h
  | cons outer more ih =>
    rw [ScopeChain.leave]
    by_cases hdepth : depth < more.length + 2
    · rw [if_pos hdepth]
      have hlength := h.length_eq
      obtain ⟨f, g, rest, rfl⟩ : ∃ f g rest, frames = f :: g :: rest := by
        rcases frames with _ | ⟨f, _ | ⟨g, rest⟩⟩
        · simp at hlength
        · simp at hlength
        · exact ⟨f, g, rest, rfl⟩
      have hleft := ih h.pop
      have hle := ScopeChain.leave_length depth (outer.resume inner) more
      rw [List.length_cons, Nat.succ_sub hle]
      exact hleft
    · rw [if_neg hdepth]
      simpa using h

/-- A slot taken in the innermost scope is beyond those of all variables of its frame. -/
theorem take (h : Tidy count statics (s :: scopes) (f :: frames)) (hkind : s'.kind = s.kind)
    (hsymbols : s'.symbols = s.symbols) (hbelow : s.Below s') (hstatics : statics ≤ statics')
    (hcount : ∀ g, g ≠ f → count' g = count g) (hsettled : s'.nextLocal = count' f) :
    Tidy count' statics' (s' :: scopes) (f :: frames) where
  layered := (h.layered.raise hkind hbelow).recount hcount
  settled := by
    rintro _ ⟨⟩ _ ⟨⟩
    exact hsettled
  bounded := by
    refine List.forall_mem_cons.2 ⟨?_, ?_⟩
    · intro symbol hsymbol
      rw [hsymbols] at hsymbol
      exact Nat.lt_of_lt_of_le (h.bounded s (by simp) symbol hsymbol) (hbelow.next hstatics _)
    · intro t ht symbol hsymbol
      exact Nat.lt_of_lt_of_le (h.bounded t (by simp [ht]) symbol hsymbol)
        (Scope.Below.next ⟨Nat.le_refl _, Nat.le_refl _⟩ hstatics _)
  distinct := by
    intro d
    have hall := h.distinct d
    rw [liveIn] at hall ⊢
    rwa [hsymbols]

theorem bind (h : Tidy count statics (s :: scopes) (f :: frames)) {symbol : Symbol}
    (hpassed : symbol.place.slot < s.next statics symbol.place.storage)
    (hnew : symbol.place ∉ (liveIn f (s :: scopes) (f :: frames)).map Symbol.place) :
    Tidy count statics (s.bind symbol :: scopes) (f :: frames) where
  layered := h.layered.raise rfl ⟨Nat.le_refl _, Nat.le_refl _⟩
  settled := by
    rintro _ ⟨⟩ _ ⟨⟩
    exact h.settled s rfl f rfl
  bounded := by
    refine List.forall_mem_cons.2 ⟨?_, fun t ht => h.bounded t (by simp [ht])⟩
    intro other hother
    rcases List.mem_cons.1 hother with rfl | hother
    · exact hpassed
    · exact h.bounded s (by simp) other hother
  distinct := by
    intro d
    have hall := h.distinct d
    by_cases hd : f = d
    · subst hd
      rw [liveIn, if_pos rfl] at hall hnew ⊢
      exact List.nodup_cons.2 ⟨hnew, hall⟩
    · rw [liveIn, if_neg hd] at hall ⊢
      exact hall

end Tidy

namespace Ledger

structure Kept (l : Ledger) : Prop where
  tidy : Tidy (fun f => (l.locals f).length) l.chain.statics.length l.chain.scopes l.frames
  opened : ∀ f ∈ l.frames, f < l.opened
  granted : ∀ g ∈ l.grants, g.frame < l.opened
  localSlots : ∀ f, (l.locals f).map (·.place.slot) = List.range (l.locals f).length
  staticSlots : l.statics.map (·.place.slot) = List.range l.statics.length
  staticTypes : l.statics.map Grant.ty = l.chain.statics

theorem kept_start : Kept start where
  tidy := by
    refine ⟨.base (by decide), ?_, ?_, ?_⟩
    · rintro _ ⟨⟩ _ ⟨⟩
      rfl
    · intro s hs symbol hsymbol
      cases List.mem_singleton.1 hs
      cases hsymbol
    · intro f
      simp [liveIn, start, ScopeChain.empty, ScopeChain.scopes]
  opened := by simp [start]
  granted := by simp [start]
  localSlots := fun f => rfl
  staticSlots := rfl
  staticTypes := rfl

variable {l : Ledger}

theorem Kept.frames_eq (h : Kept l) : ∃ frames, l.frames = l.frame :: frames := by
  have hlength := h.tidy.length_eq
  match hframes : l.frames with
  | [] => simp [hframes, ScopeChain.scopes] at hlength
  | f :: frames => exact ⟨frames, by simp [frame, hframes]⟩

/-- A frame not opened yet has no slots. -/
theorem Kept.locals_fresh (h : Kept l) {f : Nat} (hf : l.opened ≤ f) : l.locals f = [] := by
  rw [locals, List.filter_eq_nil_iff]
  intro g hg
  have hlt := h.granted g hg
  have hne : g.frame ≠ f := by omega
  simp [hne]

theorem locals_of_grants {l' : Ledger} (h : l'.grants = l.grants) : l'.locals = l.locals := by
  funext f
  rw [locals, locals, h]

/-- Nothing is handed out, and the open scopes stay tidy. -/
theorem Kept.ungranted (h : Kept l) {l' : Ledger} (hgrants : l'.grants = l.grants)
    (hstatics : l'.chain.statics = l.chain.statics)
    (htidy : Tidy (fun f => (l.locals f).length) l.chain.statics.length l'.chain.scopes l'.frames)
    (hframes : ∀ f ∈ l'.frames, f < l'.opened) (hopened : l.opened ≤ l'.opened) : Kept l' := by
  have hlocals := locals_of_grants hgrants
  have hstatic : l'.statics = l.statics := by rw [statics, statics, hgrants]
  refine ⟨?_, hframes, ?_, ?_, ?_, ?_⟩
  · rw [hlocals, hstatics]
    exact htidy
  · rw [hgrants]
    exact fun g hg => Nat.lt_of_lt_of_le (h.granted g hg) hopened
  · rw [hlocals]
    exact h.localSlots
  · rw [hstatic]
    exact h.staticSlots
  · rw [hstatic, hstatics]
    exact h.staticTypes

theorem Kept.enterBlock (h : Kept l) : Kept (l.perform (.enter .block)) := by
  obtain ⟨frames, hframes⟩ := h.frames_eq
  have htidy := h.tidy
  rw [hframes] at htidy
  refine h.ungranted (List.append_nil _) rfl ?_ ?_ (Nat.le_refl _)
  · change Tidy _ _ _ (l.frame :: l.frames)
    rw [hframes]
    exact htidy.enterBlock
  · exact List.forall_mem_cons.2 ⟨h.opened _ (by rw [hframes]; simp), h.opened⟩

theorem Kept.enterFrame (h : Kept l) {kind : ScopeKind} (hkind : kind ≠ .block) :
    Kept (l.perform (.enter kind)) := by
  obtain ⟨frames, hframes⟩ := h.frames_eq
  have hfresh : l.opened ∉ l.frames := fun hmem => Nat.lt_irrefl _ (h.opened _ hmem)
  have hcount : (l.locals l.opened).length = 0 := by rw [h.locals_fresh (Nat.le_refl _), List.length_nil]
  have htidy := h.tidy
  rw [hframes] at htidy hfresh
  have hopened : ∀ f ∈ l.opened :: l.frames, f < l.opened + 1 :=
    List.forall_mem_cons.2 ⟨Nat.lt_succ_self _, fun f hf => Nat.lt_succ_of_lt (h.opened f hf)⟩
  have hnext := htidy.enterFrame hkind hfresh hcount
  rw [← hframes] at hnext
  cases kind with
  | block => exact absurd rfl hkind
  | file => exact h.ungranted (List.append_nil _) rfl hnext hopened (Nat.le_succ _)
  | function => exact h.ungranted (List.append_nil _) rfl hnext hopened (Nat.le_succ _)

theorem Kept.exit (h : Kept l) (handle : Nat) : Kept (l.perform (.exit handle)) := by
  have hleave := Tidy.leave handle h.tidy
  refine h.ungranted (List.append_nil _) rfl ?_ ?_ (Nat.le_refl _)
  · have hdepth : l.chain.depth - (l.chain.exit handle).depth = l.chain.enclosing.length -
        (ScopeChain.leave handle l.chain.innermost l.chain.enclosing).2.length :=
      Nat.add_sub_add_right _ 1 _
    change Tidy _ _ _ (l.frames.drop (l.chain.depth - (l.chain.exit handle).depth))
    rw [hdepth]
    exact hleave
  · exact fun f hf => h.opened f (List.mem_of_mem_drop hf)

def grant (l : Ledger) (ty : Ty) (storage : Storage) : Ledger :=
  l.record (some (⟨storage, (l.chain.reserve ty storage).1⟩, ty), (l.chain.reserve ty storage).2)

theorem locals_grant (ty : Ty) (storage : Storage) (f : Nat) :
    (l.grant ty storage).locals f = l.locals f ++
      if l.frame = f ∧ storage = .local then [⟨f, ⟨.local, l.chain.innermost.nextLocal⟩, ty⟩] else [] := by
  simp only [grant, record, locals, Option.map_some, Option.toList_some, List.filter_append,
    List.filter_cons, List.filter_nil, Bool.and_eq_true, beq_iff_eq]
  congr 1
  by_cases hgiven : l.frame = f ∧ storage = .local
  · obtain ⟨rfl, rfl⟩ := hgiven
    rfl
  · rw [if_neg hgiven, if_neg hgiven]

theorem statics_grant (ty : Ty) (storage : Storage) :
    (l.grant ty storage).statics = l.statics ++
      if storage = .static then [⟨l.frame, ⟨.static, l.chain.statics.length⟩, ty⟩] else [] := by
  simp only [grant, record, statics, Option.map_some, Option.toList_some, List.filter_append,
    List.filter_cons, List.filter_nil, beq_iff_eq]
  congr 1
  by_cases hgiven : storage = .static
  · subst hgiven
    rfl
  · rw [if_neg hgiven, if_neg hgiven]

/-- Slots that are numbered from zero on stay so when the next number is added. -/
theorem slots_append {grants : List Grant} (h : grants.map (·.place.slot) = List.range grants.length)
    {given : Grant} (hgiven : given.place.slot = grants.length) :
    (grants ++ [given]).map (·.place.slot) = List.range (grants ++ [given]).length := by
  rw [List.map_append, h, List.length_append, List.length_singleton, List.range_succ,
    List.map_singleton, hgiven]

theorem Kept.settled (h : Kept l) : l.chain.innermost.nextLocal = (l.locals l.frame).length := by
  obtain ⟨frames, hframes⟩ := h.frames_eq
  exact h.tidy.settled _ rfl _ (by rw [hframes]; rfl)

theorem Kept.tidy_grant (h : Kept l) (ty : Ty) (storage : Storage) :
    Tidy (fun f => ((l.grant ty storage).locals f).length) (l.grant ty storage).chain.statics.length
      (l.grant ty storage).chain.scopes l.frames := by
  obtain ⟨frames, hframes⟩ := h.frames_eq
  have htidy := h.tidy
  have hsettled := h.settled
  rw [hframes] at htidy ⊢
  have hother : ∀ g, g ≠ l.frame → ((l.grant ty storage).locals g).length = (l.locals g).length := by
    intro g hg
    rw [locals_grant, if_neg fun hboth => hg hboth.1.symm, List.append_nil]
  cases storage with
  | static =>
    refine htidy.take rfl rfl ⟨Nat.le_refl _, Nat.le_refl _⟩ ?_ hother ?_
    · simp [grant, record, ScopeChain.reserve, ScopeChain.reserveStatic]
    · change l.chain.innermost.nextLocal = _
      simp [locals_grant, hsettled]
  | «local» =>
    refine htidy.take rfl rfl ⟨Nat.le_succ _, Nat.le_refl _⟩ (Nat.le_refl _) hother ?_
    change l.chain.innermost.nextLocal + 1 = _
    simp [locals_grant, hsettled]
  | arg =>
    refine htidy.take rfl rfl ⟨Nat.le_refl _, Nat.le_succ _⟩ (Nat.le_refl _) hother ?_
    change l.chain.innermost.nextLocal = _
    simp [locals_grant, hsettled]

theorem Kept.grant (h : Kept l) (ty : Ty) (storage : Storage) : Kept (l.grant ty storage) := by
  have hstatics : l.statics.length = l.chain.statics.length := by rw [← h.staticTypes, List.length_map]
  refine ⟨h.tidy_grant ty storage, h.opened, ?_, ?_, ?_, ?_⟩
  · intro g hg
    rcases List.mem_append.1 hg with hg | hg
    · exact h.granted g hg
    · cases List.mem_singleton.1 hg
      obtain ⟨frames, hframes⟩ := h.frames_eq
      exact h.opened _ (by rw [hframes]; simp)
  · intro f
    rw [locals_grant]
    by_cases hgiven : l.frame = f ∧ storage = .local
    · rw [if_pos hgiven]
      exact slots_append (h.localSlots f) (hgiven.1 ▸ h.settled)
    · rw [if_neg hgiven, List.append_nil]
      exact h.localSlots f
  · rw [statics_grant]
    by_cases hgiven : storage = .static
    · rw [if_pos hgiven]
      exact slots_append h.staticSlots hstatics.symm
    · rw [if_neg hgiven, List.append_nil]
      exact h.staticSlots
  · rw [statics_grant, List.map_append, h.staticTypes]
    cases storage <;> simp [Ledger.grant, record, ScopeChain.reserve, ScopeChain.reserveStatic,
      ScopeChain.reserveLocal, ScopeChain.reserveArg]

/-- A name is bound to a slot that was just taken, so no variable of the frame has it yet. -/
theorem Kept.bind (h : Kept l) {ty : Ty} {storage : Storage} {symbol : Symbol}
    (hplace : symbol.place = ⟨storage, (l.chain.reserve ty storage).1⟩) :
    Kept { l.grant ty storage with
      chain := { (l.grant ty storage).chain with
        innermost := (l.grant ty storage).chain.innermost.bind symbol } } := by
  obtain ⟨frames, hframes⟩ := h.frames_eq
  have htidy := h.tidy_grant ty storage
  have hlive := h.tidy.layered.bounded_live h.tidy.bounded l.chain.innermost rfl l.frame
    (by rw [hframes]; rfl)
  refine (h.grant ty storage).ungranted rfl rfl ?_ h.opened (Nat.le_refl _)
  change Tidy _ _ _ l.frames
  rw [hframes] at htidy hlive ⊢
  refine Tidy.bind htidy ?_ ?_
  · rw [hplace]
    cases storage with
    | static =>
      change l.chain.statics.length < (l.chain.statics ++ [ty]).length
      simp
    | «local» | arg => exact Nat.lt_succ_self _
  · rw [hplace]
    intro hmem
    obtain ⟨other, hother, heq⟩ := List.mem_map.1 hmem
    have hsame : liveIn l.frame (l.grant ty storage).chain.scopes (l.frame :: frames) =
        liveIn l.frame l.chain.scopes (l.frame :: frames) := by
      cases storage <;> rfl
    have hlt := hlive other (hsame ▸ hother)
    rw [heq] at hlt
    cases storage <;> exact Nat.lt_irrefl _ hlt

theorem Kept.record (h : Kept l) {outcome : Option (Place × Ty) × ScopeChain}
    (htakes : l.chain.Takes outcome) : Kept (l.record outcome) := by
  cases htakes with
  | nothing => exact h.ungranted (List.append_nil _) rfl h.tidy h.opened (Nat.le_refl _)
  | slot ty storage => exact h.grant ty storage
  | bound ty storage symbol place => exact h.bind place

theorem Kept.perform (h : Kept l) (op : Operation) : Kept (l.perform op) := by
  cases op with
  | enter kind =>
    by_cases hkind : kind = .block
    · exact hkind ▸ h.enterBlock
    · exact h.enterFrame hkind
  | exit handle => exact h.exit handle
  | declare name ty storage length line => exact h.record (l.chain.takes_declare ..)
  | temp ty => exact h.record (l.chain.takes_temp ty)
  | static ty => exact h.record (l.chain.takes_static ty)

theorem kept_run (ops : List Operation) : Kept (run ops) := by
  induction ops using List.reverseRecOn with
  | nil => exact kept_start
  | append_singleton ops op ih =>
    rw [run, List.foldl_append]
    exact ih.perform op

/-- What was handed out stays recorded. -/
theorem grants_perform (l : Ledger) (op : Operation) : l.grants <+: (l.perform op).grants := by
  have hrecord : l.grants <+: (l.record (l.chain.perform op)).grants := List.prefix_append _ _
  cases op with
  | enter kind => cases kind <;> exact hrecord
  | exit handle => exact hrecord
  | declare name ty storage length line => exact hrecord
  | temp ty => exact hrecord
  | static ty => exact hrecord

theorem grants_run (ops more : List Operation) : (run ops).grants <+: (run (ops ++ more)).grants := by
  induction more using List.reverseRecOn with
  | nil => simp
  | append_singleton more op ih =>
    have hlast : run (ops ++ (more ++ [op])) = (run (ops ++ more)).perform op := by
      rw [← List.append_assoc, run, List.foldl_append]
      rfl
    rw [hlast]
    exact ih.trans (grants_perform _ op)

/-- Static slots keep their types. -/
theorem statics_run (ops more : List Operation) :
    (run ops).chain.statics <+: (run (ops ++ more)).chain.statics := by
  rw [← (kept_run ops).staticTypes, ← (kept_run (ops ++ more)).staticTypes]
  exact ((grants_run ops more).filter _).map _

end Ledger

/-! The types of the local slots, which the chain keeps for one function at a time. -/

namespace ScopeChain

/-- Function scopes open at file scope, blocks inside them, and file scope has no local variables. -/
def Permitted (c : ScopeChain) : Operation → Prop
  | .enter kind => kind = if c.depth = 1 then .function else .block
  | .declare _ _ storage _ _ => storage = .local → c.depth ≠ 1
  | _ => True

instance (c : ScopeChain) (op : Operation) : Decidable (c.Permitted op) :=
  match op with
  | .enter kind => inferInstanceAs (Decidable (kind = _))
  | .declare _ _ storage _ _ => inferInstanceAs (Decidable (storage = .local → c.depth ≠ 1))
  | .exit _ | .temp _ | .static _ => inferInstanceAs (Decidable True)

def Disciplined : ScopeChain → List Operation → Prop
  | _, [] => True
  | c, op :: ops => c.Permitted op ∧ (c.perform op).2.Disciplined ops

instance decidableDisciplined : (c : ScopeChain) → (ops : List Operation) → Decidable (c.Disciplined ops)
  | _, [] => inferInstanceAs (Decidable True)
  | c, op :: ops =>
    have := decidableDisciplined (c.perform op).2 ops
    inferInstanceAs (Decidable (c.Permitted op ∧ (c.perform op).2.Disciplined ops))

end ScopeChain

namespace Ledger

variable {l : Ledger}

/-- Every open scope but the outermost belongs to the latest function, and the chain has its types. -/
structure Followed (l : Ledger) : Prop where
  current : ∀ f ∈ l.frames.dropLast, f = l.opened - 1
  types : l.chain.locals = (l.locals (l.opened - 1)).map Grant.ty

theorem followed_start : Followed start where
  current := by simp [start]
  types := rfl

theorem Kept.frames_length (h : Kept l) : l.frames.length = l.chain.depth := by
  rw [h.tidy.length_eq]
  rfl

/-- Inside a function the current frame is that of the function. -/
theorem Followed.frame_eq (h : Followed l) (hkept : Kept l) (hdepth : l.chain.depth ≠ 1) :
    l.frame = l.opened - 1 := by
  obtain ⟨frames, hframes⟩ := hkept.frames_eq
  have hlength := hkept.frames_length
  refine h.current _ ?_
  match frames with
  | [] => exact absurd (by simpa [hframes] using hlength.symm) hdepth
  | f :: frames => simp [hframes]

theorem Followed.enter (h : Followed l) (hkept : Kept l) {kind : ScopeKind}
    (hpermitted : l.chain.Permitted (.enter kind)) : Followed (l.perform (.enter kind)) := by
  have hlength := hkept.frames_length
  by_cases hdepth : l.chain.depth = 1
  · obtain rfl : kind = .function := by simpa [ScopeChain.Permitted, hdepth] using hpermitted
    obtain ⟨base, hbase⟩ := List.length_eq_one_iff.1 (hlength.trans hdepth)
    refine ⟨?_, ?_⟩
    · change ∀ f ∈ (l.opened :: l.frames).dropLast, f = l.opened
      simp [hbase]
    · change [] = ((l.perform (.enter .function)).locals l.opened).map Grant.ty
      rw [locals_of_grants (List.append_nil l.grants), hkept.locals_fresh (Nat.le_refl _), List.map_nil]
  · obtain rfl : kind = .block := by simpa [ScopeChain.Permitted, hdepth] using hpermitted
    refine ⟨?_, ?_⟩
    · change ∀ f ∈ (l.frame :: l.frames).dropLast, f = l.opened - 1
      obtain ⟨frames, hframes⟩ := hkept.frames_eq
      rw [List.dropLast_cons_of_ne_nil (by simp [hframes])]
      exact List.forall_mem_cons.2 ⟨h.frame_eq hkept hdepth, h.current⟩
    · rw [locals_of_grants (List.append_nil l.grants)]
      exact h.types

theorem Followed.exit (h : Followed l) (handle : Nat) : Followed (l.perform (.exit handle)) where
  current := by
    intro f hf
    refine h.current f ?_
    change f ∈ (l.frames.drop _).dropLast at hf
    rw [List.dropLast_eq_take, List.length_drop, Nat.sub_right_comm, ← List.drop_take,
      ← List.dropLast_eq_take] at hf
    exact List.mem_of_mem_drop hf
  types := by
    rw [locals_of_grants (List.append_nil l.grants)]
    exact h.types

/-- A local slot is new to the function, so its type is added at the end. -/
theorem Followed.grant (h : Followed l) (hkept : Kept l) (ty : Ty) {storage : Storage}
    (hdepth : storage = .local → l.chain.depth ≠ 1) :
    (l.grant ty storage).chain.locals = ((l.grant ty storage).locals (l.opened - 1)).map Grant.ty := by
  rw [locals_grant]
  by_cases hlocal : storage = .local
  · subst hlocal
    have hframe := h.frame_eq hkept (hdepth rfl)
    have hnext : ¬l.chain.innermost.nextLocal < l.chain.locals.length := by
      rw [h.types, List.length_map, ← hframe, hkept.settled]
      exact Nat.lt_irrefl _
    rw [if_pos ⟨hframe, rfl⟩, List.map_append, ← h.types]
    exact if_neg hnext
  · rw [if_neg fun hboth => hlocal hboth.2, List.append_nil, ← h.types]
    cases storage with
    | static | arg => rfl
    | «local» => exact absurd rfl hlocal

theorem Followed.record (h : Followed l) (hkept : Kept l) {outcome : Option (Place × Ty) × ScopeChain}
    (htakes : l.chain.Takes outcome)
    (hdepth : ∀ given ∈ outcome.1, given.1.storage = .local → l.chain.depth ≠ 1) :
    Followed (l.record outcome) := by
  refine ⟨h.current, ?_⟩
  cases htakes with
  | nothing =>
    rw [locals_of_grants (List.append_nil l.grants)]
    exact h.types
  | slot ty storage => exact h.grant hkept ty (hdepth _ rfl)
  | bound ty storage symbol place => exact h.grant hkept ty (hdepth _ rfl)

theorem Followed.perform (h : Followed l) (hkept : Kept l) {op : Operation}
    (hpermitted : l.chain.Permitted op) : Followed (l.perform op) := by
  cases op with
  | enter kind => exact h.enter hkept hpermitted
  | exit handle => exact h.exit handle
  | declare name ty storage length line =>
    refine h.record hkept (l.chain.takes_declare ..) ?_
    intro given hgiven
    obtain rfl : storage = given.1.storage := by
      simp only [ScopeChain.perform] at hgiven
      split at hgiven <;> cases hgiven
      rfl
    exact hpermitted
  | temp ty =>
    refine h.record hkept (l.chain.takes_temp ty) ?_
    rintro _ ⟨⟩ hlocal hdepth
    change l.chain.tempStorage = .local at hlocal
    rw [ScopeChain.tempStorage, if_pos hdepth] at hlocal
    cases hlocal
  | static ty =>
    refine h.record hkept (l.chain.takes_static ty) ?_
    rintro _ ⟨⟩ ⟨⟩

theorem perform_chain (l : Ledger) (op : Operation) : (l.perform op).chain = (l.chain.perform op).2 := by
  cases op with
  | enter kind => cases kind <;> rfl
  | exit handle => rfl
  | declare name ty storage length line => rfl
  | temp ty => rfl
  | static ty => rfl

theorem followed_foldl (ops : List Operation) (h : Followed l) (hkept : Kept l)
    (hops : l.chain.Disciplined ops) : Followed (ops.foldl perform l) := by
  induction ops generalizing l with
  | nil => exact h
  | cons op ops ih =>
    refine ih (h.perform hkept hops.1) (hkept.perform op) ?_
    rw [perform_chain]
    exact hops.2

end Ledger

/-- Static slots are numbered over the whole run and keep their types. The local slots of a frame are
numbered in the order in which they are handed out, and no two variables of a frame that are alive share
a place. Where functions are opened at file scope and blocks in functions only, the chain has the types of
the local slots of the latest function, in the order of the slots. -/
theorem slots_dense_and_distinct (ops : List Operation) :
    ((Ledger.run ops).statics.map (·.place.slot) = List.range (Ledger.run ops).statics.length ∧
      (Ledger.run ops).statics.map Grant.ty = (Ledger.run ops).chain.statics ∧
      ∀ more, (Ledger.run ops).chain.statics <+: (Ledger.run (ops ++ more)).chain.statics) ∧
    (∀ f, ((Ledger.run ops).locals f).map (·.place.slot) =
      List.range ((Ledger.run ops).locals f).length) ∧
    (∀ f, (((Ledger.run ops).live f).map Symbol.place).Nodup) ∧
    (ScopeChain.empty.Disciplined ops →
      (Ledger.run ops).chain.locals = ((Ledger.run ops).locals ((Ledger.run ops).opened - 1)).map Grant.ty) := by
  have hkept := Ledger.kept_run ops
  refine ⟨⟨hkept.staticSlots, hkept.staticTypes, Ledger.statics_run ops⟩, hkept.localSlots,
    hkept.tidy.distinct, ?_⟩
  intro hops
  exact (Ledger.followed_foldl ops Ledger.followed_start Ledger.kept_start hops).types

/-- Two sibling blocks of a function, left by the handle of the function: the second goes on after the
slot of the first. -/
theorem slots_of_sibling_blocks :
    ScopeChain.empty.Disciplined [.enter .function, .declare "n" .int .arg none 1, .enter .block,
      .declare "x" .bool .local none 2, .exit 2, .enter .block, .temp .int, .exit 1] ∧
    (Ledger.run [.enter .function, .declare "n" .int .arg none 1, .enter .block,
      .declare "x" .bool .local none 2, .exit 2, .enter .block, .temp .int, .exit 1]).chain.locals =
      [.bool, .int] := by
  refine ⟨by decide, ?_⟩
  have hslots := slots_dense_and_distinct [.enter .function, .declare "n" .int .arg none 1, .enter .block,
    .declare "x" .bool .local none 2, .exit 2, .enter .block, .temp .int, .exit 1]
  exact (hslots.2.2.2 (by decide)).trans (by decide)

end StackCompiler
