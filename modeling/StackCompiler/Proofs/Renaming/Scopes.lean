import StackCompiler.Proofs.Lowering.Scopes
import StackCompiler.Proofs.Renaming.Trees
import StackCompiler.Proofs.Scope.Slots

/-!
Renaming the variables in a chain of scopes. As long as the bindings of a tree follow the chain, the
renamed chain answers to the new names as the chain does to the old ones, and every operation on one has
its counterpart on the other.
-/

set_option autoImplicit false
namespace StackCompiler

namespace Renaming

variable (r : Renaming)

def symbol (entry : String × Nat) (symbol : Symbol) : Symbol :=
  { symbol with name := r.rename entry.2 entry.1 }

def scope (names : List (String × Nat)) (s : Scope) : Scope :=
  { s with symbols := List.zipWith r.symbol names s.symbols }

def chain (b : Bindings) (c : ScopeChain) : ScopeChain :=
  { c with
    innermost := r.scope b.innermost c.innermost
    enclosing := List.zipWith r.scope b.enclosing c.enclosing }

/-- The bindings are those of the variables in the chain, and distinguish what they have to. -/
structure Follows (b : Bindings) (c : ScopeChain) : Prop where
  names : b.scopes.map (List.map Prod.fst) = c.scopes.map fun s => s.symbols.map Symbol.name
  allowed : ∀ entry ∈ b.scopes.flatten, r.allowed entry.1 = true
  numbered : ∀ entry ∈ b.scopes.flatten, entry.2 < b.next
  distinct : ∀ entry ∈ b.scopes.flatten, ∀ other ∈ b.scopes.flatten, entry.2 = other.2 → entry.1 = other.1

variable {r} {b b' : Bindings} {c c' : ScopeChain}

theorem follows_start : r.Follows .start .empty :=
  ⟨rfl, by simp [Bindings.scopes, Bindings.start], by simp [Bindings.scopes, Bindings.start],
    by simp [Bindings.scopes, Bindings.start]⟩

/-- Variables with different names keep different names. -/
theorem Follows.apart (h : r.Follows b c) {entry other : String × Nat} (hentry : entry ∈ b.scopes.flatten)
    (hother : other ∈ b.scopes.flatten) (hname : r.rename entry.2 entry.1 = r.rename other.2 other.1) :
    entry.1 = other.1 :=
  (r.apart (h.allowed entry hentry) (h.allowed other hother) hname).elim id
    (h.distinct entry hentry other hother)

theorem Follows.innermost (h : r.Follows b c) :
    b.innermost.map Prod.fst = c.innermost.symbols.map Symbol.name :=
  (List.cons.inj h.names).1

theorem Follows.enclosing (h : r.Follows b c) :
    b.enclosing.map (List.map Prod.fst) = c.enclosing.map fun s => s.symbols.map Symbol.name :=
  (List.cons.inj h.names).2

theorem Follows.length (h : r.Follows b c) : b.enclosing.length = c.enclosing.length := by
  simpa using congrArg List.length h.enclosing

theorem Follows.depth (h : r.Follows b c) : b.scopes.length = c.depth := by
  simp [ScopeChain.depth, Bindings.scopes, h.length]

theorem depth_chain (h : r.Follows b c) : (r.chain b c).depth = c.depth := by
  simp [ScopeChain.depth, chain, h.length]

/-! Lookup. -/

theorem resolve_flat (c : ScopeChain) (name : String) :
    c.resolve? name = (c.scopes.flatMap Scope.symbols).find? fun symbol => symbol.name == name :=
  (List.find?_flatMap ..).symm

theorem symbols_chain (h : b.scopes.map (List.map Prod.fst) = c.scopes.map fun s => s.symbols.map Symbol.name) :
    (r.chain b c).scopes.flatMap Scope.symbols =
      List.zipWith r.symbol b.scopes.flatten (c.scopes.flatMap Scope.symbols) := by
  change (List.zipWith r.scope b.scopes c.scopes).flatMap Scope.symbols = _
  generalize b.scopes = names at h ⊢
  generalize c.scopes = scopes at h ⊢
  induction names generalizing scopes with
  | nil => rfl
  | cons first names ih =>
    cases scopes with
    | nil => cases h
    | cons s scopes =>
      obtain ⟨hfirst, hrest⟩ := List.cons.inj h
      have hlength : first.length = s.symbols.length := by simpa using congrArg List.length hfirst
      rw [List.zipWith_cons_cons, List.flatMap_cons, List.flatMap_cons, List.flatten_cons,
        List.zipWith_append hlength, ih scopes hrest]
      rfl

/-- In a list of variables, the first one with the old name is the first one with the new name. -/
theorem find_renamed {entries : List (String × Nat)} {symbols : List Symbol} {name : String} {found : Symbol}
    (hnames : entries.map Prod.fst = symbols.map Symbol.name)
    (apart : ∀ entry ∈ entries, ∀ other ∈ entries, r.rename entry.2 entry.1 = r.rename other.2 other.1 →
      entry.1 = other.1)
    (h : (symbols.find? fun symbol => symbol.name == name) = some found) :
    ∃ k, (entries.find? fun entry => entry.1 == name) = some (name, k) ∧
      ((List.zipWith r.symbol entries symbols).find? fun symbol => symbol.name == r.rename k name) =
        some (r.symbol (name, k) found) := by
  induction entries generalizing symbols with
  | nil =>
    obtain rfl : symbols = [] := by simpa using hnames.symm
    cases h
  | cons entry entries ih =>
    obtain ⟨x, k₀⟩ := entry
    cases symbols with
    | nil => cases hnames
    | cons symbol symbols =>
      obtain ⟨rfl, hrest⟩ := List.cons.inj hnames
      by_cases hname : symbol.name = name
      · rw [List.find?_cons_of_pos (by simpa using hname)] at h
        cases h
        subst hname
        exact ⟨k₀, by simp, by simp [Renaming.symbol]⟩
      · rw [List.find?_cons_of_neg (by simpa using hname)] at h
        obtain ⟨k, hk, hfound⟩ := ih hrest
          (fun entry hentry other hother => apart entry (by simp [hentry]) other (by simp [hother])) h
        refine ⟨k, by rw [List.find?_cons_of_neg (by simpa using hname), hk], ?_⟩
        rw [List.zipWith_cons_cons, List.find?_cons_of_neg ?_, hfound]
        -- An earlier variable with the new name would have had the old name.
        intro hnew
        exact hname (apart _ (List.mem_cons_self ..) _ (List.mem_cons_of_mem _ (List.mem_of_find?_eq_some hk))
          (by simpa [Renaming.symbol] using hnew))

/-- A renamed use denotes the renamed variable. -/
theorem Follows.resolve (h : r.Follows b c) {name : String} {found : Symbol}
    (hfound : c.resolve? name = some found) :
    ∃ found', (r.chain b c).resolve? (r.use b name) = some found' ∧ found'.ty = found.ty ∧
      found'.place = found.place := by
  have hnames : b.scopes.flatten.map Prod.fst = (c.scopes.flatMap Scope.symbols).map Symbol.name := by
    rw [List.map_flatMap, List.flatMap_def, ← h.names, List.map_flatten]
  rw [resolve_flat] at hfound
  obtain ⟨k, hk, hfound'⟩ := find_renamed hnames (fun _ hentry _ hother => h.apart hentry hother) hfound
  refine ⟨r.symbol (name, k) found, ?_, rfl, rfl⟩
  rw [resolve_flat, symbols_chain h.names, use, Bindings.find?, hk]
  exact hfound'

/-! Operations. -/

theorem chain_reserve (b : Bindings) (c : ScopeChain) (ty : Ty) (storage : Storage) :
    (r.chain b c).reserve ty storage = ((c.reserve ty storage).1, r.chain b (c.reserve ty storage).2) := by
  cases storage <;> rfl

theorem Follows.reserve (h : r.Follows b c) (ty : Ty) (storage : Storage) :
    r.Follows b (c.reserve ty storage).2 := by
  refine ⟨?_, h.allowed, h.numbered, h.distinct⟩
  rw [h.names]
  simp only [ScopeChain.scopes, List.map_cons, ScopeChain.reserve_symbols, ScopeChain.reserve_enclosing]

theorem chain_reserveTemp (h : r.Follows b c) (ty : Ty) :
    (r.chain b c).reserveTemp ty = ((c.reserveTemp ty).1, r.chain b (c.reserveTemp ty).2) := by
  have hstorage : (r.chain b c).tempStorage = c.tempStorage := by
    rw [ScopeChain.tempStorage, depth_chain h, ScopeChain.tempStorage]
  rw [ScopeChain.reserveTemp_eq, ScopeChain.reserveTemp_eq, hstorage, chain_reserve]

theorem Follows.reserveTemp (h : r.Follows b c) (ty : Ty) : r.Follows b (c.reserveTemp ty).2 :=
  h.reserve ty c.tempStorage

theorem Follows.temps (h : r.Follows b c) (htemps : ScopeChain.Temps c c') : r.Follows b c' := by
  induction htemps with
  | none => exact h
  | more _ ty ih => exact ih.reserveTemp ty

theorem chain_enter (b : Bindings) (c : ScopeChain) (kind : ScopeKind) :
    r.chain b.enter (c.enter kind) = (r.chain b c).enter kind := by
  cases kind <;> rfl

theorem Follows.enter (h : r.Follows b c) (kind : ScopeKind) : r.Follows b.enter (c.enter kind) := by
  refine ⟨?_, h.allowed, h.numbered, h.distinct⟩
  have hscopes : (c.enter kind).scopes.map (fun s => s.symbols.map Symbol.name) =
      [] :: c.scopes.map fun s => s.symbols.map Symbol.name := by
    cases kind <;> rfl
  rw [hscopes, ← h.names]
  rfl

theorem resume_scope (names inner : List (String × Nat)) (s s' : Scope) :
    (r.scope names s).resume (r.scope inner s') = r.scope names (s.resume s') := by
  unfold Scope.resume
  change (if s'.kind = .block ∧ s.nextLocal < s'.nextLocal then _ else _) = _
  by_cases hblock : s'.kind = .block ∧ s.nextLocal < s'.nextLocal
  · rw [if_pos hblock, if_pos hblock]
    rfl
  · rw [if_neg hblock, if_neg hblock]

/-- A scope is left by the depth there was before it. -/
theorem Follows.exit (h : r.Follows b' c') (outer : b'.enclosing = b.scopes) :
    r.chain (b.leave b') (c'.exit b.scopes.length) = (r.chain b' c').exit b.scopes.length ∧
      r.Follows (b.leave b') (c'.exit b.scopes.length) := by
  have hlength := h.length
  rw [outer] at hlength
  obtain ⟨around, more, hc'⟩ := List.exists_cons_of_length_eq_add_one hlength.symm
  have hmore : more.length = b.enclosing.length := by simpa [hc', Bindings.scopes] using hlength.symm
  have hdepth : b.scopes.length = more.length + 1 := by simp [Bindings.scopes, hmore]
  have henclosing := h.enclosing
  rw [outer, hc'] at henclosing
  have houter : (r.chain b' c').enclosing =
      r.scope b.innermost around :: List.zipWith r.scope b.enclosing more := by
    simp only [chain, outer, hc', Bindings.scopes, List.zipWith_cons_cons]
  have hzip : (List.zipWith r.scope b.enclosing more).length = more.length := by simp [hmore]
  have hexit : (r.chain b' c').exit b.scopes.length =
      { r.chain b' c' with
        innermost := (r.scope b.innermost around).resume (r.chain b' c').innermost
        enclosing := List.zipWith r.scope b.enclosing more } := by
    rw [hdepth, ← hzip]
    exact ScopeChain.exit_innermost houter
  have hexit' : c'.exit b.scopes.length =
      { c' with innermost := around.resume c'.innermost, enclosing := more } := by
    rw [hdepth]
    exact ScopeChain.exit_innermost hc'
  have hsub : ∀ entry ∈ b.scopes.flatten, entry ∈ b'.scopes.flatten := by
    intro entry hentry
    change entry ∈ (b'.innermost :: b'.enclosing).flatten
    rw [outer, List.flatten_cons]
    exact List.mem_append_right _ hentry
  refine ⟨?_, ?_, ?_, ?_, ?_⟩
  · rw [hexit, hexit']
    simp only [chain, resume_scope]
    rfl
  · rw [hexit']
    simp only [ScopeChain.scopes, List.map_cons, Scope.resume_symbols]
    rw [← List.map_cons (f := fun s : Scope => s.symbols.map Symbol.name), ← henclosing]
    rfl
  · exact fun entry hentry => h.allowed entry (hsub entry hentry)
  · exact fun entry hentry => h.numbered entry (hsub entry hentry)
  · exact fun entry hentry other hother => h.distinct entry (hsub entry hentry) other (hsub other hother)

theorem Follows.bind (h : r.Follows b c) {found : Symbol} (hallowed : r.allowed found.name = true) :
    r.Follows (b.bind found.name) { c with innermost := c.innermost.bind found } := by
  have hmem : ∀ entry, entry ∈ (b.bind found.name).scopes.flatten ↔
      entry = (found.name, b.next) ∨ entry ∈ b.scopes.flatten := by
    intro entry
    simp [Bindings.bind, Bindings.scopes]
  refine ⟨?_, ?_, ?_, ?_⟩
  · change (found.name :: b.innermost.map Prod.fst) :: b.enclosing.map _ =
      (found.name :: c.innermost.symbols.map _) :: c.enclosing.map _
    rw [h.innermost, h.enclosing]
  · intro entry hentry
    rcases (hmem entry).1 hentry with rfl | hentry
    · exact hallowed
    · exact h.allowed entry hentry
  · intro entry hentry
    rcases (hmem entry).1 hentry with rfl | hentry
    · exact Nat.lt_succ_self _
    · exact Nat.lt_succ_of_lt (h.numbered entry hentry)
  · intro entry hentry other hother hnumber
    rcases (hmem entry).1 hentry with rfl | hentry <;> rcases (hmem other).1 hother with rfl | hother
    · rfl
    · exact absurd hnumber.symm (Nat.ne_of_lt (h.numbered other hother))
    · exact absurd hnumber (Nat.ne_of_lt (h.numbered entry hentry))
    · exact h.distinct entry hentry other hother hnumber

theorem exists_entry {entries : List (String × Nat)} {symbols : List Symbol} {found : Symbol}
    (h : found ∈ List.zipWith r.symbol entries symbols) :
    ∃ entry ∈ entries, found.name = r.rename entry.2 entry.1 := by
  induction entries generalizing symbols with
  | nil => cases h
  | cons entry entries ih =>
    cases symbols with
    | nil => cases h
    | cons symbol symbols =>
      rcases List.mem_cons.1 h with rfl | h
      · exact ⟨entry, by simp, rfl⟩
      · obtain ⟨other, hother, hname⟩ := ih h
        exact ⟨other, by simp [hother], hname⟩

/-- A name that is free in its scope has a free new name. -/
theorem Follows.declare (h : r.Follows b c) {name : String} {ty : Ty} {storage : Storage}
    {length : Option Nat} {line slot : Nat} (hallowed : r.allowed name = true)
    (hdeclare : c.declare name ty storage length line = .ok (slot, c')) :
    (r.chain b c).declare (r.rename b.next name) ty storage length line =
        .ok (slot, r.chain (b.bind name) c') ∧ r.Follows (b.bind name) c' := by
  have hfree : c.innermost.lookup? name = none := by
    unfold ScopeChain.declare at hdeclare
    split at hdeclare
    next => cases hdeclare
    next hnone => simpa using hnone
  obtain ⟨rfl, rfl⟩ := ScopeChain.declare_ok hdeclare
  have hfree' : (r.chain b c).innermost.lookup? (r.rename b.next name) = none := by
    refine List.find?_eq_none.2 fun found hfound hname => ?_
    obtain ⟨entry, hentry, hsymbol⟩ := exists_entry hfound
    have hmem : entry ∈ b.scopes.flatten := List.mem_append_left _ hentry
    rw [beq_iff_eq, hsymbol] at hname
    rcases r.apart (h.allowed entry hmem) hallowed hname with hold | hnumber
    · have hdeclared : name ∈ c.innermost.symbols.map Symbol.name := by
        rw [← h.innermost, ← hold]
        exact List.mem_map_of_mem hentry
      obtain ⟨old, hold, hname⟩ := List.mem_map.1 hdeclared
      exact List.find?_eq_none.1 hfree old hold (beq_iff_eq.2 hname)
    · exact Nat.ne_of_lt (h.numbered entry hmem) hnumber
  refine ⟨?_, @Follows.bind r b (c.reserve ty storage).2 (h.reserve ty storage)
    ⟨name, ty, ⟨storage, (c.reserve ty storage).1⟩, length, line⟩ hallowed⟩
  rw [ScopeChain.declare, if_neg (by simp [hfree']), chain_reserve]
  rfl

end Renaming

end StackCompiler
