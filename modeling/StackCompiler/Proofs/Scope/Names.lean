import Mathlib.Data.Finmap
import StackCompiler.Proofs.Lowering.Outcome
import StackCompiler.Proofs.Scope.Slots

/-!
Names in a chain of scopes, as a client sees them who opens and leaves scopes, declares and asks.

The specification is a stack of finite maps from names to symbols. It leaves open which slots are handed
out and is exact about everything else. The chain refines it step by step; what a scope hides while it is
open, and that a declaration that fails leaves no trace, follow for whole runs.
-/

set_option autoImplicit false
namespace StackCompiler

/-- What a client does with a chain. Scopes are left by a handle: `exit i` takes the one that opening the
`i`-th scope of the run returned. -/
inductive ScopeChain.Action where
  | enter (kind : ScopeKind)
  | exit (ticket : Nat)
  | declare (name : String) (ty : Ty) (storage : Storage) (length : Option Nat) (line : Nat)
  | temp (ty : Ty)
  | static (ty : Ty)
  | resolve (name : String)
  | depth
  | localTypes
  | staticTypes
  deriving DecidableEq

inductive ScopeChain.Reply where
  | done
  | placed (place : Place)
  | failed (problem : Diagnostic)
  | symbol (found : Option Symbol)
  | number (n : Nat)
  | types (types : List Ty)
  deriving DecidableEq

open ScopeChain (Action Reply)

/-! The specification. -/

abbrev Names := Finmap fun _ : String => Symbol

/-- Maps from names, the innermost first, and the depth there was before each scope was opened, in the
order of opening. -/
structure NameStack where
  maps : List Names
  nonempty : maps ≠ []
  handles : List Nat

namespace NameStack

def start : NameStack :=
  ⟨[∅], by simp, []⟩

def depth (σ : NameStack) : Nat :=
  σ.maps.length

def top (σ : NameStack) : Names :=
  σ.maps.head σ.nonempty

def resolve? (σ : NameStack) (name : String) : Option Symbol :=
  σ.maps.findSome? fun names => names.lookup name

def push (σ : NameStack) : NameStack :=
  ⟨∅ :: σ.maps, by simp, σ.handles ++ [σ.depth]⟩

def bind (σ : NameStack) (symbol : Symbol) : NameStack :=
  ⟨σ.top.insert symbol.name symbol :: σ.maps.tail, by simp, σ.handles⟩

theorem drop_ne_nil {α : Type} {xs : List α} (h : xs ≠ []) (depth : Nat) :
    xs.drop (xs.length - max depth 1) ≠ [] := by
  have hpos := List.length_pos_iff.2 h
  rw [ne_eq, List.drop_eq_nil_iff]
  omega

/-- Pops down to a depth, but never the last map, and nothing where the stack is not deeper. -/
def popTo (σ : NameStack) (depth : Nat) : NameStack :=
  ⟨σ.maps.drop (σ.maps.length - max depth 1), drop_ne_nil σ.nonempty depth, σ.handles⟩

inductive Step (σ : NameStack) : Action → Reply → NameStack → Prop where
  | enter (kind : ScopeKind) : Step σ (.enter kind) .done σ.push
  | exit {ticket handle : Nat} (returned : σ.handles[ticket]? = some handle) :
      Step σ (.exit ticket) .done (σ.popTo handle)
  | noHandle {ticket : Nat} (none : σ.handles[ticket]? = none) : Step σ (.exit ticket) .done σ
  | duplicate {name : String} {old : Symbol} (ty : Ty) (storage : Storage) (length : Option Nat)
      (line : Nat) (taken : σ.top.lookup name = some old) :
      Step σ (.declare name ty storage length line) (.failed (.duplicateDeclaration name line)) σ
  | declare {name : String} (ty : Ty) (storage : Storage) (length : Option Nat) (line slot : Nat)
      (free : σ.top.lookup name = none) :
      Step σ (.declare name ty storage length line) (.placed ⟨storage, slot⟩)
        (σ.bind ⟨name, ty, ⟨storage, slot⟩, length, line⟩)
  | temp (ty : Ty) (place : Place) : Step σ (.temp ty) (.placed place) σ
  | static (ty : Ty) (slot : Nat) : Step σ (.static ty) (.placed ⟨.static, slot⟩) σ
  | resolve (name : String) : Step σ (.resolve name) (.symbol (σ.resolve? name)) σ
  | depth : Step σ .depth (.number σ.depth) σ
  | localTypes (types : List Ty) : Step σ .localTypes (.types types) σ
  | staticTypes (types : List Ty) : Step σ .staticTypes (.types types) σ

inductive Runs : NameStack → List Action → List Reply → NameStack → Prop where
  | nil {σ : NameStack} : Runs σ [] [] σ
  | cons {σ σ₁ σ' : NameStack} {action : Action} {actions : List Action} {reply : Reply}
      {replies : List Reply} (first : Step σ action reply σ₁) (rest : Runs σ₁ actions replies σ') :
      Runs σ (action :: actions) (reply :: replies) σ'

end NameStack

/-! The chain in the hands of its client. -/

structure Client where
  chain : ScopeChain
  handles : List Nat
  deriving DecidableEq

namespace Client

def start : Client :=
  ⟨.empty, []⟩

/-- Asks the chain for a place. After a failure the chain is what the computation left. -/
def ask (u : Client) (m : Lowering.ScopeM Place) : Reply × Client :=
  match m u.chain with
  | .ok place chain => (.placed place, { u with chain })
  | .error problem chain => (.failed problem, { u with chain })

def act (u : Client) : Action → Reply × Client
  | .enter kind => (.done, ⟨u.chain.enter kind, u.handles ++ [u.chain.depth]⟩)
  | .exit ticket =>
    match u.handles[ticket]? with
    | some handle => (.done, { u with chain := u.chain.exit handle })
    | none => (.done, u)
  | .declare name ty storage length line => u.ask (Lowering.declare name ty storage length line)
  | .temp ty => u.ask (Lowering.reserveTemp ty)
  | .static ty => u.ask (Lowering.reserve ty .static)
  | .resolve name => (.symbol (u.chain.resolve? name), u)
  | .depth => (.number u.chain.depth, u)
  | .localTypes => (.types u.chain.locals, u)
  | .staticTypes => (.types u.chain.statics, u)

def run (u : Client) : List Action → List Reply × Client
  | [] => ([], u)
  | action :: actions =>
    let (reply, next) := u.act action
    let (replies, last) := next.run actions
    (reply :: replies, last)

def StaysAbove (u : Client) (depth : Nat) : List Action → Prop
  | [] => depth < u.chain.depth
  | action :: actions => depth < u.chain.depth ∧ (u.act action).2.StaysAbove depth actions

instance decidableStaysAbove (depth : Nat) :
    (u : Client) → (actions : List Action) → Decidable (u.StaysAbove depth actions)
  | u, [] => inferInstanceAs (Decidable (depth < u.chain.depth))
  | u, action :: actions =>
    have := decidableStaysAbove depth (u.act action).2 actions
    inferInstanceAs (Decidable (depth < u.chain.depth ∧ (u.act action).2.StaysAbove depth actions))

theorem run_append (u : Client) (actions more : List Action) :
    u.run (actions ++ more) =
      ((u.run actions).1 ++ ((u.run actions).2.run more).1, ((u.run actions).2.run more).2) := by
  induction actions generalizing u with
  | nil => rfl
  | cons action actions ih =>
    change ((u.act action).1 :: ((u.act action).2.run (actions ++ more)).1,
      ((u.act action).2.run (actions ++ more)).2) = _
    rw [ih]
    rfl

end Client

/-! Refinement: the maps that a chain stands for. -/

/-- The names of a scope as a map; of two symbols with one name the later counts. -/
def Scope.names (s : Scope) : Names :=
  s.symbols.foldr (fun symbol names => names.insert symbol.name symbol) ∅

theorem Scope.lookup_names (s : Scope) (name : String) : s.names.lookup name = s.lookup? name := by
  obtain ⟨kind, symbols, nextLocal, nextArg⟩ := s
  induction symbols with
  | nil => rfl
  | cons symbol symbols ih =>
    change ((Scope.names ⟨kind, symbols, nextLocal, nextArg⟩).insert symbol.name symbol).lookup name =
      (symbol :: symbols).find? fun symbol => symbol.name == name
    by_cases hname : symbol.name = name
    · rw [List.find?_cons_of_pos (by simpa using hname), ← hname, Finmap.lookup_insert]
    · rw [List.find?_cons_of_neg (by simpa using hname), Finmap.lookup_insert_of_ne _ (Ne.symm hname)]
      exact ih

theorem Scope.names_of_symbols {s s' : Scope} (h : s'.symbols = s.symbols) : s'.names = s.names := by
  rw [names, names, h]

namespace Client

def stack (u : Client) : NameStack :=
  ⟨u.chain.scopes.map Scope.names, by simp [ScopeChain.scopes], u.handles⟩

theorem depth_stack (u : Client) : u.stack.depth = u.chain.depth := by
  simp [stack, NameStack.depth, ScopeChain.scopes, ScopeChain.depth]

theorem resolve_stack (u : Client) (name : String) : u.stack.resolve? name = u.chain.resolve? name := by
  simp only [stack, NameStack.resolve?, ScopeChain.resolve?, ScopeChain.scopes, List.findSome?_map]
  congr 1
  funext scope
  exact scope.lookup_names name

theorem top_stack (u : Client) (name : String) :
    u.stack.top.lookup name = u.chain.innermost.lookup? name :=
  u.chain.innermost.lookup_names name

/-- Clients with the same names in the same scopes and the same handles. -/
theorem stack_congr {u u' : Client} (hinner : u'.chain.innermost.symbols = u.chain.innermost.symbols)
    (houter : u'.chain.enclosing = u.chain.enclosing) (hhandles : u'.handles = u.handles) :
    u'.stack = u.stack := by
  simp only [stack, ScopeChain.scopes, List.map_cons, houter, Scope.names_of_symbols hinner, hhandles]

/-- Leaving scopes drops their names; what they hand back to the scope around them are no names. -/
theorem leave_names (depth : Nat) (inner : Scope) (outer : List Scope) :
    ((ScopeChain.leave depth inner outer).1 :: (ScopeChain.leave depth inner outer).2).map Scope.names =
      ((inner :: outer).map Scope.names).drop (outer.length + 1 - max depth 1) := by
  induction outer generalizing inner with
  | nil =>
    have hnone : ([] : List Scope).length + 1 - max depth 1 = 0 := by simp
    rw [hnone]
    rfl
  | cons next more ih =>
    rw [ScopeChain.leave]
    by_cases hdeep : depth < more.length + 2
    · have hcount : (next :: more).length + 1 - max depth 1 = (more.length + 1 - max depth 1) + 1 := by
        rw [List.length_cons]
        omega
      rw [if_pos hdeep, ih, hcount, List.map_cons, List.map_cons, List.map_cons, List.drop_succ_cons,
        Scope.names_of_symbols (Scope.resume_symbols next inner)]
    · have hnone : (next :: more).length + 1 - max depth 1 = 0 := by
        rw [List.length_cons]
        omega
      rw [if_neg hdeep, hnone]
      rfl

theorem stack_exit (u : Client) (handle : Nat) :
    ({ u with chain := u.chain.exit handle } : Client).stack = u.stack.popTo handle := by
  simp only [stack, NameStack.popTo, NameStack.mk.injEq, and_true]
  rw [List.length_map]
  exact leave_names handle u.chain.innermost u.chain.enclosing

theorem stack_enter (u : Client) (kind : ScopeKind) :
    (u.act (.enter kind)).2.stack = u.stack.push := by
  have hmaps : (u.chain.enter kind).scopes.map Scope.names = ∅ :: u.chain.scopes.map Scope.names := by
    cases kind <;> rfl
  simp only [act, stack, NameStack.push, NameStack.mk.injEq]
  refine ⟨hmaps, ?_⟩
  rw [← depth_stack]
  rfl

theorem stack_reserve (u : Client) (ty : Ty) (storage : Storage) :
    ({ u with chain := (u.chain.reserve ty storage).2 } : Client).stack = u.stack :=
  stack_congr (ScopeChain.reserve_symbols ..) (ScopeChain.reserve_enclosing ..) rfl

theorem stack_bind (u : Client) {symbol : Symbol} :
    ({ u with chain := { u.chain with innermost := u.chain.innermost.bind symbol } } : Client).stack =
      u.stack.bind symbol :=
  rfl

/-- A declaration that fails leaves the chain as it is. -/
theorem act_declare (u : Client) (name : String) (ty : Ty) (storage : Storage) (length : Option Nat)
    (line : Nat) :
    u.act (.declare name ty storage length line) =
      match u.chain.declare name ty storage length line with
      | .ok (slot, chain) => (.placed ⟨storage, slot⟩, { u with chain })
      | .error problem => (.failed problem, u) := by
  have hrun : Lowering.declare name ty storage length line u.chain =
      match u.chain.declare name ty storage length line with
      | .ok (slot, chain) => .ok ⟨storage, slot⟩ chain
      | .error problem => .error problem u.chain := by
    change ((liftM (u.chain.declare name ty storage length line) >>= _ : Lowering.ScopeM Place) u.chain) = _
    generalize u.chain.declare name ty storage length line = declared
    cases declared <;> rfl
  rw [act, ask, hrun]
  cases u.chain.declare name ty storage length line <;> rfl

theorem step_declare (u : Client) (name : String) (ty : Ty) (storage : Storage) (length : Option Nat)
    (line : Nat) :
    u.stack.Step (.declare name ty storage length line) (u.act (.declare name ty storage length line)).1
      (u.act (.declare name ty storage length line)).2.stack := by
  rw [act_declare, ScopeChain.declare]
  cases hold : u.chain.innermost.lookup? name with
  | some old => exact .duplicate ty storage length line ((u.top_stack name).trans hold)
  | none =>
    have hstep := NameStack.Step.declare ty storage length line (u.chain.reserve ty storage).1
      ((u.top_stack name).trans hold)
    rw [← u.stack_reserve ty storage, ← stack_bind, u.stack_reserve ty storage] at hstep
    exact hstep

theorem step_act (u : Client) (action : Action) :
    u.stack.Step action (u.act action).1 (u.act action).2.stack := by
  cases action with
  | enter kind => exact u.stack_enter kind ▸ .enter kind
  | exit ticket =>
    cases hticket : u.handles[ticket]? with
    | none =>
      simp only [act, hticket]
      exact .noHandle hticket
    | some handle =>
      simp only [act, hticket, stack_exit]
      exact .exit hticket
  | declare name ty storage length line => exact u.step_declare name ty storage length line
  | temp ty =>
    have hstack := u.stack_reserve ty u.chain.tempStorage
    exact hstack ▸ .temp ty ⟨_, (u.chain.reserve ty u.chain.tempStorage).1⟩
  | static ty =>
    have hstack := u.stack_reserve ty .static
    exact hstack ▸ .static ty _
  | resolve name =>
    rw [act, ← resolve_stack]
    exact .resolve name
  | depth =>
    rw [act, ← depth_stack]
    exact .depth
  | localTypes => exact .localTypes u.chain.locals
  | staticTypes => exact .staticTypes u.chain.statics

theorem runs_stack (u : Client) (actions : List Action) :
    u.stack.Runs actions (u.run actions).1 (u.run actions).2.stack := by
  induction actions generalizing u with
  | nil => exact .nil
  | cons action actions ih => exact .cons (u.step_act action) (ih _)

end Client

/-! What a scope hides while it is open. -/

namespace NameStack

variable {σ σ' : NameStack} {action : Action} {reply : Reply} {below : List Names}

theorem Step.handles_grow (h : Step σ action reply σ') : σ.handles <+: σ'.handles := by
  cases h with
  | enter => exact List.prefix_append ..
  | exit | noHandle | duplicate | declare | temp | static | resolve | depth | localTypes | staticTypes =>
    exact List.prefix_refl _

/-- While the stack stays higher than some of its maps, these remain at the bottom of it. -/
theorem Step.keeps_below (h : Step σ action reply σ') (hbelow : below <:+ σ.maps)
    (before : below.length < σ.depth) (after : below.length < σ'.depth) : below <:+ σ'.maps := by
  cases h with
  | enter => exact hbelow.trans (List.suffix_cons ..)
  | exit returned =>
    exact List.suffix_of_suffix_length_le hbelow (List.drop_suffix ..) (Nat.le_of_lt after)
  | declare =>
    have htail : below <:+ σ.maps.tail := by
      refine List.suffix_of_suffix_length_le hbelow (List.tail_suffix _) ?_
      rw [List.length_tail]
      exact Nat.le_sub_one_of_lt before
    exact htail.trans (List.suffix_cons ..)
  | noHandle | duplicate | temp | static | resolve | depth | localTypes | staticTypes => exact hbelow

theorem popTo_maps (hbelow : below <:+ σ.maps) (hne : below ≠ []) :
    (σ.popTo below.length).maps = below := by
  have hpos := List.length_pos_iff.2 hne
  change σ.maps.drop (σ.maps.length - max below.length 1) = below
  rw [Nat.max_eq_left hpos]
  exact (List.suffix_iff_eq_drop.1 hbelow).symm

end NameStack

namespace Client

/-- What a run inside some open scopes leaves alone: their maps and the handles returned before. -/
theorem run_keeps {u : Client} {below : List Names} {actions : List Action}
    (hbelow : below <:+ u.stack.maps) (habove : u.StaysAbove below.length actions) :
    below <:+ (u.run actions).2.stack.maps ∧ u.handles <+: (u.run actions).2.handles := by
  induction actions generalizing u with
  | nil => exact ⟨hbelow, List.prefix_refl _⟩
  | cons action actions ih =>
    have hstep := u.step_act action
    have hafter : below.length < (u.act action).2.chain.depth := by
      cases actions with
      | nil => exact habove.2
      | cons => exact habove.2.1
    have hkept := hstep.keeps_below hbelow (by rw [depth_stack]; exact habove.1)
      (by rw [depth_stack]; exact hafter)
    obtain ⟨hmaps, hhandles⟩ := ih hkept habove.2
    exact ⟨hmaps, hstep.handles_grow.trans hhandles⟩

/-- After a scope is left by its own handle, the names are those from before it was opened. -/
theorem bracket {u : Client} {kind : ScopeKind} {inside : List Action}
    (habove : (u.act (.enter kind)).2.StaysAbove u.chain.depth inside) :
    (u.run (.enter kind :: inside ++ [.exit u.handles.length])).2.stack.maps = u.stack.maps := by
  have henter := u.stack_enter kind
  have hbelow : u.stack.maps <:+ (u.act (.enter kind)).2.stack.maps := by
    rw [henter]
    exact List.suffix_cons ..
  rw [← depth_stack] at habove
  obtain ⟨hmaps, hhandles⟩ := run_keeps hbelow habove
  have hlast : (u.run (.enter kind :: inside)).2.handles[u.handles.length]? = some u.stack.depth := by
    obtain ⟨later, hlater⟩ := hhandles
    change ((u.act (.enter kind)).2.run inside).2.handles[_]? = _
    rw [← hlater, depth_stack]
    simp [act]
  rw [run_append]
  change ((u.run (.enter kind :: inside)).2.act (.exit u.handles.length)).2.stack.maps = _
  rw [act, hlast, stack_exit]
  exact NameStack.popTo_maps hmaps u.stack.nonempty

theorem resolve_congr {u u' : Client} (h : u'.stack.maps = u.stack.maps) (name : String) :
    u'.chain.resolve? name = u.chain.resolve? name := by
  rw [← resolve_stack, ← resolve_stack, NameStack.resolve?, h, NameStack.resolve?]

theorem depth_congr {u u' : Client} (h : u'.stack.maps = u.stack.maps) :
    u'.chain.depth = u.chain.depth := by
  rw [← depth_stack, ← depth_stack, NameStack.depth, h, NameStack.depth]

/-- A declaration that fails is as good as none. -/
theorem act_failed {u : Client} {name : String} {ty : Ty} {storage : Storage} {length : Option Nat}
    {line : Nat} {problem : Diagnostic}
    (h : (u.act (.declare name ty storage length line)).1 = .failed problem) :
    u.act (.declare name ty storage length line) = (.failed problem, u) := by
  rw [act_declare] at h ⊢
  split at h
  next => cases h
  next => cases h; rfl

end Client

/-- Every run of a chain is a run of the stack of maps with the same replies. After a scope is left by its
own handle, while more scopes than before it were open all along, depth and names are those from before it
was opened. A declaration that fails changes nothing that comes after it. -/
theorem names_lexical :
    (∀ actions, NameStack.start.Runs actions (Client.start.run actions).1
      (Client.start.run actions).2.stack) ∧
    (∀ (u : Client) (kind : ScopeKind) (inside : List Action),
      (u.act (.enter kind)).2.StaysAbove u.chain.depth inside →
      let u' := (u.run (.enter kind :: inside ++ [.exit u.handles.length])).2
      u'.chain.depth = u.chain.depth ∧ ∀ name, u'.chain.resolve? name = u.chain.resolve? name) ∧
    ∀ (u : Client) name ty storage length line problem,
      (u.act (.declare name ty storage length line)).1 = .failed problem →
      ∀ after, u.run (.declare name ty storage length line :: after) =
        (.failed problem :: (u.run after).1, (u.run after).2) := by
  refine ⟨Client.start.runs_stack, ?_, ?_⟩
  · intro u kind inside habove
    have hmaps := Client.bracket habove
    exact ⟨Client.depth_congr hmaps, Client.resolve_congr hmaps⟩
  · intro u name ty storage length line problem hfailed after
    rw [Client.run, Client.act_failed hfailed]

/-- Inside a function a name is declared anew, twice in a block, which is left by the handle of the
function: outside it the first variable is seen again, and the third declaration might as well be missing. -/
theorem names_of_shadowing :
    ((Client.start.run [.declare "x" .int .static none 1, .enter .function, .enter .block,
        .declare "x" .bool .local none 2, .declare "x" .char .local none 3, .exit 0]).2.chain.resolve? "x" =
      some ⟨"x", .int, ⟨.static, 0⟩, none, 1⟩) ∧
    ((Client.start.act (.declare "x" .int .static none 1)).2.run
        [.declare "x" .char .static none 3, .declare "y" .int .static none 4]).1 =
      [.failed (.duplicateDeclaration "x" 3), .placed ⟨.static, 1⟩] := by
  refine ⟨?_, ?_⟩
  · have hnames := (names_lexical.2.1 (Client.start.act (.declare "x" .int .static none 1)).2 .function
      [.enter .block, .declare "x" .bool .local none 2, .declare "x" .char .local none 3] (by decide)).2 "x"
    exact hnames.trans (by decide)
  · have hfailed := names_lexical.2.2 (Client.start.act (.declare "x" .int .static none 1)).2 "x" .char
      .static none 3 (.duplicateDeclaration "x" 3) (by decide) [.declare "y" .int .static none 4]
    rw [hfailed]
    decide

end StackCompiler
