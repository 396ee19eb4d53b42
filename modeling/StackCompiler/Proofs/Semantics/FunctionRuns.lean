import StackCompiler.Proofs.Semantics.Simulation

/-!
Whole functions. The code of a function is that of its body with a return at the end. It comes to a return
exactly when the structured execution of the body does, with the same value and with a memory that differs
at most in the slots that counted loops use.
-/

set_option autoImplicit false
namespace StackCompiler

open Code Lowering

variable {V W : Type} {I : Interpretation V W}

namespace Memory.Agree

variable {T : Place → Prop} {m m₁ m₂ : Memory V W}

theorem symm (h : m.Agree T m₁) : m₁.Agree T m :=
  ⟨h.world.symm, fun place hplace => (h.cell place hplace).symm⟩

theorem trans (h : m.Agree T m₁) (h' : m₁.Agree T m₂) : m.Agree T m₂ :=
  ⟨h.world.trans h'.world, fun place hplace => (h.cell place hplace).trans (h'.cell place hplace)⟩

end Memory.Agree

/-- Two runs to a return from one state end in one state. -/
theorem Interpretation.Halts.unique {functions : List Signature} {code : Code} {n k : Nat}
    {c r r' : Nat × State V W} (h : I.Halts functions code n c r) (h' : I.Halts functions code k c r') :
    r = r' := by
  obtain ⟨j, rfl, hrest, hreturn⟩ := h.after h'.1
  cases j with
  | zero => exact (Option.some.inj hrest).symm
  | succ j =>
    change (I.step functions code r').bind _ = some r at hrest
    rw [step_return h'.2] at hrest
    cases hrest

/-- Control does not pass a return at the end of code. -/
theorem steps_before_return {functions : List Signature} {code : Code}
    (hlast : code.getLast? = some .return) {n : Nat} {c c' : Nat × State V W} (hc : c.1 < code.length)
    (h : I.steps functions code n c = some c') : c'.1 < code.length := by
  induction n generalizing c with
  | zero =>
    cases h
    exact hc
  | succ n ih =>
    obtain ⟨c₁, hstep, hrest⟩ := Option.bind_eq_some_iff.1 h
    refine ih ?_ hrest
    rcases step_next hstep with ⟨hnext, instr, hinstr, hne⟩ | ⟨l, hl⟩
    · rw [List.getLast?_eq_getElem?] at hlast
      have hinside : c.1 ≠ code.length - 1 := by
        intro heq
        rw [heq, hlast] at hinstr
        exact hne (Option.some.inj hinstr).symm
      omega
    · exact position_lt hl

theorem run_defaultValue (I : Interpretation V W) (functions : List Signature) (result : Ty)
    (m : Memory V W) :
    I.run functions (Session.defaultValue result) ⟨[], m⟩ = some ⟨(I.default result).toList, m⟩ := by
  cases result <;> rfl

theorem straight_defaultValue (result : Ty) : Straight (Session.defaultValue result) := by
  cases result <;> simp [Session.defaultValue] <;> rfl

theorem toList_injective {α : Type} {v w : Option α} (h : v.toList = w.toList) : v = w := by
  cases v <;> cases w <;> simp_all

def Stmt.functionCode (result : Ty) (body : Stmt) : Code :=
  Session.closeBody result (body.code none 0)

theorem functionCode_at (result : Ty) (body : Stmt) :
    At (body.functionCode result) 0 (body.code none 0) := by
  unfold Stmt.functionCode Session.closeBody
  split
  next => exact ⟨[], [], by simp, rfl⟩
  next => exact ⟨[], Session.defaultValue result ++ [.return], by simp, rfl⟩

theorem not_exits (code : Code) : Exits code false none := by
  intro h
  cases h

section Body

variable {f : Frame} {hidden : List Place} {result : Ty} {body : Stmt}
  (htyped : body.Typed f hidden result false)
include htyped

theorem functionCode_placed : (body.functionCode result).placed.Nodup := by
  rw [Stmt.functionCode, (closeBody_labels _ _).2]
  exact (htyped.labelled none 0).once

omit htyped in
/-- From the end of the body the code goes on to return the default value. -/
theorem halts_at_end {n : Nat} {m m' : Memory V W}
    (h : I.steps f.functions (body.functionCode result) n (0, ⟨[], m⟩) =
      some ((body.code none 0).length, ⟨[], m'⟩)) :
    ∃ k pc, I.Halts f.functions (body.functionCode result) k (0, ⟨[], m⟩)
      (pc, ⟨(I.default result).toList, m'⟩) := by
  by_cases hlast : (body.code none 0).getLast? = some .return
  · -- the end of the body is a return, and no run gets past it
    have hcode : body.functionCode result = body.code none 0 := if_pos hlast
    have hpos : 0 < (body.code none 0).length := by
      rw [List.length_pos_iff]
      rintro hnil
      simp [hnil] at hlast
    rw [hcode] at h
    exact absurd (steps_before_return hlast hpos h) (Nat.lt_irrefl _)
  · have hcode : body.functionCode result =
        body.code none 0 ++ (Session.defaultValue result ++ [.return]) := by
      rw [Stmt.functionCode, Session.closeBody, if_neg hlast, List.append_assoc]
    have hat : At (body.functionCode result) (body.code none 0).length
        (Session.defaultValue result ++ [.return]) :=
      ⟨body.code none 0, [], by simp [hcode], rfl⟩
    have hdefault := Interpretation.steps_straight hat.left (straight_defaultValue result)
      (run_defaultValue I f.functions result m')
    exact ⟨_, _, Interpretation.steps_trans h hdefault, hat.right.head⟩

variable (hlocal : ∀ place ∈ hidden, place.storage = .local)
include hlocal

/-- The code returns what the structured execution of the body does. -/
theorem halts_of_returns {m m₂ : Memory V W} {v : Option V}
    (h : body.Returns I f.functions result m v m₂) :
    ∃ n pc m₁, I.Halts f.functions (body.functionCode result) n (0, ⟨[], m⟩) (pc, ⟨v.toList, m₁⟩) ∧
      m₁.AgreeOff hidden m₂ := by
  have hplaced := functionCode_placed htyped
  have hat := functionCode_at result body
  rcases h with hreturned | ⟨hnormal, rfl⟩
  · obtain ⟨n, pc, _, m₁, hsteps, ⟨hpc, rfl⟩, hagree, -⟩ :=
      hreturned.followed hlocal hplaced hat htyped (not_exits _) (.refl m)
    exact ⟨n, pc, m₁, ⟨hsteps, hpc⟩, hagree⟩
  · obtain ⟨n, _, _, m₁, hsteps, ⟨rfl, rfl⟩, hagree, -⟩ :=
      hnormal.followed hlocal hplaced hat htyped (not_exits _) (.refl m)
    rw [Nat.zero_add] at hsteps
    obtain ⟨k, pc, hhalts⟩ := halts_at_end hsteps
    exact ⟨k, pc, m₁, hhalts, hagree⟩

/-- Where the code returns, so does the structured execution of the body. -/
theorem returns_of_halts {m : Memory V W} {n : Nat} {r : Nat × State V W}
    (h : I.Halts f.functions (body.functionCode result) n (0, ⟨[], m⟩) r) :
    ∃ v m₂, body.Returns I f.functions result m v m₂ := by
  have hplaced := functionCode_placed htyped
  have hat := functionCode_at result body
  obtain ⟨o, hexec⟩ := completes hlocal hplaced body hat htyped (not_exits _) (.refl m) h
  cases o with
  | normal m₂ => exact ⟨_, m₂, .inr ⟨hexec, rfl⟩⟩
  | returned v m₂ => exact ⟨v, m₂, .inl hexec⟩
  | broke m₂ =>
    obtain ⟨_, _, _, _, _, ⟨⟨l, hl, -⟩, -⟩, -⟩ :=
      hexec.followed hlocal hplaced hat htyped (not_exits _) (.refl m)
    cases hl

theorem returns_iff (m m' : Memory V W) (v : Option V) :
    (∃ m₁, I.Returns f.functions (body.functionCode result) m v m₁ ∧ m₁.AgreeOff hidden m') ↔
      ∃ m₂, body.Returns I f.functions result m v m₂ ∧ m₂.AgreeOff hidden m' := by
  constructor
  · rintro ⟨m₁, ⟨n, pc, hsteps, hpc⟩, hagree⟩
    have hhalts : I.Halts f.functions (body.functionCode result) n (0, ⟨[], m⟩) (pc, ⟨v.toList, m₁⟩) :=
      ⟨hsteps, hpc⟩
    obtain ⟨w, m₂, hreturns⟩ := returns_of_halts htyped hlocal hhalts
    obtain ⟨k, pc', m₃, hhalts', hagree'⟩ := halts_of_returns htyped hlocal hreturns
    obtain ⟨-, hstate⟩ := Prod.mk.inj (hhalts.unique hhalts')
    obtain ⟨hv, rfl⟩ := State.mk.inj hstate
    rw [toList_injective hv]
    exact ⟨m₂, hreturns, hagree'.symm.trans hagree⟩
  · rintro ⟨m₂, hreturns, hagree⟩
    obtain ⟨n, pc, m₁, hhalts, hagree'⟩ := halts_of_returns htyped hlocal hreturns
    exact ⟨m₁, ⟨n, pc, hhalts⟩, hagree'.trans hagree⟩

end Body

/-- Compiled functions run as their statements do. Every function of a compiled program has an outline, and
under every interpretation of the instructions its code returns a value and a memory exactly when the
structured execution of the outline does, up to the slots that counted loops keep end and step in. -/
theorem compiled_code_returns_iff {source : String} {image : Image} (h : compile source = .ok image)
    {i : Nat} {g : Routine} (hg : image.functions[i]? = some g) :
    ∃ program body, parse source = .ok program ∧ image.Outlined program i g body ∧
      ∀ {V W : Type} (I : Interpretation V W) (m m' : Memory V W) (v : Option V),
        (∃ m₁, I.Returns (image.functions.map Routine.signature) g.code m v m₁ ∧
            m₁.AgreeOff body.temps m') ↔
          ∃ m₂, body.Returns I (image.functions.map Routine.signature) g.signature.result m v m₂ ∧
            m₂.AgreeOff body.temps m' := by
  obtain ⟨program, s, hparse, hcompile⟩ := Session.compile_ok h
  obtain ⟨body, houtlined⟩ := image_outlined (Grammar.derives_of_parse hparse) hcompile hg
  refine ⟨program, body, hparse, houtlined, ?_⟩
  intro V W I m m' v
  rw [houtlined.code]
  exact returns_iff houtlined.typed houtlined.inFrame m m' v

/-- A counted loop with a `break`, whose end is kept in the second local slot. -/
theorem compiled_code_returns_iff_break :
    ∃ image g, compile "int f(int n) \x7b int i; for i = 1 to n do if i > 3 then break; return i; \x7d" =
        .ok image ∧ image.functions[0]? = some g ∧
      ∃ program body, image.Outlined program 0 g body ∧
        ∀ {V W : Type} (I : Interpretation V W) (m m' : Memory V W) (v : Option V),
          (∃ m₁, I.Returns [g.signature] g.code m v m₁ ∧ m₁.AgreeOff body.temps m') ↔
            ∃ m₂, body.Returns I [g.signature] .int m v m₂ ∧ m₂.AgreeOff body.temps m' := by
  have hcompile :
      compile "int f(int n) \x7b int i; for i = 1 to n do if i > 3 then break; return i; \x7d" =
      .ok ⟨[⟨⟨"f", .int, [.int], 0⟩, [.int, .int], [.pushInt 1, .storeLocal 0, .loadArg 0, .storeLocal 1,
        .jump 1, .label 0, .loadLocal 0, .pushInt 3, .gt, .jumpIfFalse 3, .jump 2, .label 3, .loadLocal 0,
        .pushInt 1, .add, .storeLocal 0, .label 1, .loadLocal 0, .loadLocal 1, .le, .jumpIfTrue 0,
        .label 2, .loadLocal 0, .return]⟩], [], []⟩ :=
    ok_of_toOption (by decide +kernel)
  obtain ⟨program, body, -, houtlined, hiff⟩ := compiled_code_returns_iff hcompile (i := 0) rfl
  exact ⟨_, _, hcompile, rfl, program, body, houtlined, hiff⟩

end StackCompiler
