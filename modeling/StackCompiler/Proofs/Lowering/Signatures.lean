import StackCompiler.Proofs.Lowering.Histories
import StackCompiler.Proofs.Lowering.StackSafety

/-!
The signature that a single function is compiled with. The arguments of its code are those the
declaration writes. Its result type and the types of calls to it come from the table, which has the
types of an earlier declaration of the name where there is one; the two need not agree.
-/

set_option autoImplicit false
namespace StackCompiler

open Lowering ScopeChain

namespace Session

def Agrees (decl : Tree) (signature : Signature) : Prop :=
  Registers decl signature ∧ resultType decl = .ok signature.result

theorem agrees_of_register {decl : Tree} {s s' : Session} {u : Unit} (h : register decl s = .ok u s')
    {name : String} (hname : decl.lexeme = .ok name) :
    ∃ signature, s'.functions.lookup? name = some signature ∧ Agrees decl signature := by
  obtain ⟨found, result, parms, handle, functions, hfound, hresult, hparms, hdeclare, rfl⟩ := register_iff.1 h
  rw [hname] at hfound
  cases hfound
  obtain ⟨hfree, rfl⟩ := FunctionTable.declare_ok hdeclare
  refine ⟨⟨name, result, parms.map Prod.snd, s.functions.signatures.length⟩, ?_,
    ⟨hname, parms, hparms, rfl⟩, hresult⟩
  rw [FunctionTable.lookup?] at hfree
  simp [FunctionTable.lookup?, hfree]

/-- A name in the table keeps its signature; a new one is entered with the types of the declaration. -/
theorem ensureRegistered_ok {decl : Tree} {s s' : Session} {u : Unit} {name : String}
    (h : ensureRegistered name decl s = .ok u s') :
    (s' = s ∧ ∃ earlier, s.functions.lookup? name = some earlier) ∨
      s.functions.lookup? name = none ∧ register decl s = .ok () s' := by
  simp only [ensureRegistered, bind_ok, get_ok] at h
  obtain ⟨_, _, ⟨rfl, rfl⟩, h⟩ := h
  cases hlookup : s.functions.lookup? name with
  | some earlier =>
    simp only [hlookup, pure_ok] at h
    exact .inl ⟨h.2.symm, earlier, rfl⟩
  | none =>
    simp only [hlookup] at h
    exact .inr ⟨rfl, h⟩

end Session

open Grammar in
/-- The code of a function has the arguments that its declaration writes, and returns what the table says
of the name. The table says what the declaration writes if and only if it did so before or did not know
the name. -/
theorem function_compiled_with_table {source : String} {program decl : Tree}
    (hparse : parse source = .ok program) (hmem : decl ∈ program.children) (htag : decl.tag = .funDecl)
    {s s' : Session} (hs : s.Reached) {code : Code} {ty : Ty}
    (h : Session.compileFunction decl s = .ok (code, ty) s') :
    ∃ name parms signature, decl.lexeme = .ok name ∧ parameters decl = .ok parms ∧
      s'.functions.lookup? name = some signature ∧ ty = signature.result ∧
      (∃ f types, f.functions = s'.functions.signatures ∧
        (∀ slot, f.slots ⟨.arg, slot⟩ = (parms.map Prod.snd)[slot]?) ∧ Code.StackTyping f ty code types) ∧
      (Session.Agrees decl signature ↔
        ∀ earlier, s.functions.lookup? name = some earlier → Session.Agrees decl earlier) := by
  simp only [Session.compileFunction, bind_ok, lift_ok, pure_ok] at h
  obtain ⟨name, _, ⟨hname, rfl⟩, _, s₁, hensure, g, s₂, hg, hpair, rfl⟩ := h
  cases hpair
  have hs₁ : s₁.WellFormed := by
    rcases Session.ensureRegistered_ok hensure with ⟨rfl, -⟩ | ⟨-, hregister⟩
    · exact hs.wellFormed
    · exact (Session.wellFormed_register decl).of_ok hregister hs.wellFormed
  have hdecl : IsFunction s₁.functions decl := by
    rcases outlinedAs (derives_of_parse hparse) program (List.mem_singleton_self _) decl hmem with
      ⟨hvariables, -⟩ | hfunction
    · rw [htag] at hvariables
      cases hvariables
    · exact hfunction
  obtain ⟨found, parms, entry, body, c', hfound, hlookup, houtlines, hcode, hlocals, hfunctions, -⟩ :=
    Session.routine_ok hg hdecl
  rw [hname] at hfound
  cases hfound
  refine ⟨name, parms, g.signature, hname, houtlines.parameters, by rw [hfunctions]; exact hlookup, rfl, ?_, ?_⟩
  · let f : Frame := ⟨c'.slotType (parms.map Prod.snd), s₁.functions.signatures⟩
    have htyped := houtlines.typed hs₁.atFile.reachable hs₁.atFile.enclosing hs₁.table
      (f := f) rfl fun _ _ hty => hty
    have hresult := hs₁.table.sound.result g.signature (List.mem_of_find?_eq_some hlookup)
    obtain ⟨types, htypes⟩ := htyped.stackTyping hresult
    rw [← hcode] at htypes
    exact ⟨f, types, by rw [hfunctions], fun _ => rfl, htypes⟩
  · rcases Session.ensureRegistered_ok hensure with ⟨rfl, earlier, hearlier⟩ | ⟨hnone, hregister⟩
    · rw [hlookup]
      simp
    · obtain ⟨signature, hnew, hagrees⟩ := Session.agrees_of_register hregister hname
      rw [hlookup] at hnew
      cases hnew
      simp [hnone, hagrees]

/-- A declaration that is compiled once more finds its own signature. -/
theorem function_compiled_with_table_again : ∃ program decl s s' signature,
    parse "int f(int a) \x7b return a; \x7d" = .ok program ∧ program.children = [decl] ∧
    Session.compileFunction decl .empty = .ok ([.loadArg 0, .return], .int) s ∧
    Session.compileFunction decl s = .ok ([.loadArg 0, .return], .int) s' ∧
    s'.functions.lookup? "f" = some signature ∧ Session.Agrees decl signature := by
  have hrun : ((parse "int f(int a) \x7b return a; \x7d").toOption.any fun program =>
      program.children[0]?.any fun decl =>
      (succeeded? (Session.compileFunction decl .empty)).any fun first =>
      (succeeded? (Session.compileFunction decl first.2)).any fun second =>
        decide (program.children.length = 1 ∧ first.1 = ([.loadArg 0, .return], .int) ∧
          second.1 = ([.loadArg 0, .return], .int) ∧ decl.tag = .funDecl ∧
          decl.lexeme.toOption = some "f" ∧ (Session.resultType decl).toOption = some .int ∧
          (parameters decl).toOption.map (List.map Prod.snd) = some [.int] ∧
          first.2.functions.lookup? "f" = some ⟨"f", .int, [.int], 0⟩)) = true := by decide +kernel
  obtain ⟨program, hparse, hrun⟩ := ok_of_any hrun
  obtain ⟨decl, hdecl, hrun⟩ := (Option.any_eq_true _ _).1 hrun
  obtain ⟨compiled, s, hfirst, hrun⟩ := ok_of_succeeded hrun
  obtain ⟨compiled', s', hsecond, hrun⟩ := ok_of_succeeded hrun
  obtain ⟨hone, rfl, rfl, htag, hname, hresult, hparms, hlookup⟩ := of_decide_eq_true hrun
  have hdecl := eq_singleton hone hdecl
  obtain ⟨parms, hparms, htypes⟩ := Option.map_eq_some_iff.1 hparms
  have hagrees : Session.Agrees decl ⟨"f", .int, [.int], 0⟩ :=
    ⟨⟨ok_of_toOption hname, parms, ok_of_toOption hparms, htypes.symm⟩, ok_of_toOption hresult⟩
  have hlast : s = lastState (Session.compileFunction decl .empty) := by rw [hfirst]; rfl
  have hreached : s.Reached := hlast ▸ .function .empty decl
  obtain ⟨name, _, signature, hname', -, hfound, -, -, hiff⟩ :=
    function_compiled_with_table hparse (by simp [hdecl]) htag hreached hsecond
  rw [ok_of_toOption hname] at hname'
  cases hname'
  refine ⟨program, decl, s, s', signature, hparse, hdecl, hfirst, hsecond, hfound, hiff.2 ?_⟩
  intro earlier hearlier
  rw [hlookup] at hearlier
  cases hearlier
  exact hagrees

/-- A declaration that conflicts with the table is compiled: its code reads a second argument, but the
table still has one parameter and another result type. -/
theorem conflicting_declaration_compiled : ∃ first second d₁ d₂ s s',
    parse "int f(int a) \x7b return a; \x7d" = .ok first ∧ first.children = [d₁] ∧
    parse "char f(int a; int b) \x7b return b; \x7d" = .ok second ∧ second.children = [d₂] ∧
    s = lastState (Session.compileFunction d₁ .empty) ∧ s.Reached ∧
    d₂.tag = .funDecl ∧ d₂.lexeme = .ok "f" ∧ Session.resultType d₂ = .ok .char ∧
    (parameters d₂).toOption.map (List.map Prod.snd) = some [.int, .int] ∧
    Session.compileFunction d₂ s = .ok ([.loadArg 1, .return], .int) s' ∧
    s'.functions.lookup? "f" = some ⟨"f", .int, [.int], 0⟩ := by
  have hrun : ((parse "int f(int a) \x7b return a; \x7d").toOption.any fun first =>
      (parse "char f(int a; int b) \x7b return b; \x7d").toOption.any fun second =>
      first.children[0]?.any fun d₁ => second.children[0]?.any fun d₂ =>
      (succeeded? (Session.compileFunction d₂ (lastState (Session.compileFunction d₁ .empty)))).any fun compiled =>
        decide (first.children.length = 1 ∧ second.children.length = 1 ∧
          compiled.1 = ([.loadArg 1, .return], .int) ∧ d₂.tag = .funDecl ∧
          d₂.lexeme.toOption = some "f" ∧ (Session.resultType d₂).toOption = some .char ∧
          (parameters d₂).toOption.map (List.map Prod.snd) = some [.int, .int] ∧
          compiled.2.functions.lookup? "f" = some ⟨"f", .int, [.int], 0⟩)) = true := by decide +kernel
  obtain ⟨first, hfirst, hrun⟩ := ok_of_any hrun
  obtain ⟨second, hsecond, hrun⟩ := ok_of_any hrun
  obtain ⟨d₁, hd₁, hrun⟩ := (Option.any_eq_true _ _).1 hrun
  obtain ⟨d₂, hd₂, hrun⟩ := (Option.any_eq_true _ _).1 hrun
  obtain ⟨compiled, s', hcompile, hrun⟩ := ok_of_succeeded hrun
  obtain ⟨hone, hone', rfl, htag, hname, hresult, hparms, hlookup⟩ := of_decide_eq_true hrun
  exact ⟨first, second, d₁, d₂, _, s', hfirst, eq_singleton hone hd₁, hsecond, eq_singleton hone' hd₂, rfl,
    .function .empty d₁, htag, ok_of_toOption hname, ok_of_toOption hresult, hparms, hcompile, hlookup⟩

end StackCompiler
