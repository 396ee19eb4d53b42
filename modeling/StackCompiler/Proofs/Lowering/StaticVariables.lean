import StackCompiler.Tree

/-!
Trees searched for a node, and the static variables of a program: `staticVariables` lists them in the order
of the source, those of functions among those of the file scope.
-/

set_option autoImplicit false
namespace StackCompiler

namespace Tree

mutual

def any (p : Tree → Bool) : Tree → Bool
  | ⟨tag, token, children⟩ => p ⟨tag, token, children⟩ || anyOf p children
termination_by structural t => t

def anyOf (p : Tree → Bool) : List Tree → Bool
  | [] => false
  | t :: rest => t.any p || anyOf p rest
termination_by structural ts => ts

end

theorem anyOf_eq (p : Tree → Bool) (ts : List Tree) : anyOf p ts = ts.any (any p) := by
  induction ts with
  | nil => rfl
  | cons t rest ih => rw [anyOf, ih, List.any_cons]

theorem anyOf_eq_false {p : Tree → Bool} {ts : List Tree} : anyOf p ts = false ↔ ∀ t ∈ ts, t.any p = false := by
  induction ts with
  | nil => simp [anyOf]
  | cons t rest ih => simp [anyOf, ih]

theorem any_eq (p : Tree → Bool) (t : Tree) : t.any p = (p t || t.children.any (any p)) := by
  obtain ⟨tag, token, children⟩ := t
  rw [any, anyOf_eq]

theorem any_root {p : Tree → Bool} {t : Tree} (h : p t = true) : t.any p = true := by
  rw [any_eq, h, Bool.true_or]

theorem any_child {p : Tree → Bool} {t u : Tree} (hu : u ∈ t.children) (h : u.any p = true) :
    t.any p = true := by
  rw [any_eq, List.any_eq_true.2 ⟨u, hu, h⟩, Bool.or_true]

theorem root_of_not_any {p : Tree → Bool} {t : Tree} (h : t.any p = false) : p t = false := by
  refine Bool.eq_false_iff.2 fun hroot => ?_
  rw [any_root hroot] at h
  cases h

theorem child_of_not_any {p : Tree → Bool} {t u : Tree} (h : t.any p = false) (hu : u ∈ t.children) :
    u.any p = false := by
  refine Bool.eq_false_iff.2 fun hchild => ?_
  rw [any_child hu hchild] at h
  cases h

def declarators (node : Tree) : List Tree :=
  node.children.filter fun c => c.tag == .varDeclInit

mutual

/-- The declarators of `static` variables in a statement or declaration of a function. Conditions and
ranges, the first children of their statements, hold none. -/
def staticDeclarators : Tree → List Tree
  | ⟨tag, token, children⟩ =>
    match tag with
    | .varDecl =>
      let t : Tree := ⟨tag, token, children⟩
      if (t.find? .static).isSome then t.declarators else []
    | .compoundStmt => allStaticDeclarators children
    | .ifStmt | .whileStmt | .forStmt => staticDeclaratorsBehind children
    | _ => []
termination_by structural t => t

def allStaticDeclarators : List Tree → List Tree
  | [] => []
  | t :: rest => t.staticDeclarators ++ allStaticDeclarators rest
termination_by structural ts => ts

def staticDeclaratorsBehind : List Tree → List Tree
  | [] => []
  | _ :: rest => allStaticDeclarators rest
termination_by structural ts => ts

end

end Tree

/-- A variable in static storage: the function it belongs to, if any, and its declarator. -/
structure StaticVariable where
  owner : Option String
  node : Tree

def StaticVariable.initializer? (v : StaticVariable) : Option Tree :=
  v.node.children[1]?

namespace Lowering

def staticsOf (decl : Tree) : List StaticVariable :=
  if decl.tag = .varDecl then
    decl.declarators.map (StaticVariable.mk none)
  else
    match decl.token, decl.find? .compoundStmt with
    | some name, some body =>
      (Tree.allStaticDeclarators body.children).map (StaticVariable.mk (some name.lexeme))
    | _, _ => []

def staticVariables (program : Tree) : List StaticVariable :=
  program.children.flatMap staticsOf

end Lowering

end StackCompiler
