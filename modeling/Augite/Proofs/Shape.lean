import Mathlib
import Augite.Tree.Basic

/-!
# Shapes of trees

The trees that the grammar has: expressions, the statement forms that stand before a
semicolon or in the head of a loop, statements, and the items of a program. Functions,
classes and inclusions are items only, and declared types are those that can be written.
-/

namespace Augite

/-- Letters and digits only. -/
def Text.IsWord (t : Text) : Prop := ∀ b ∈ t, (isLetter b || isDigit b) = true

/-- The types that can be written, `void` aside. -/
inductive Ty.IsWritten : Ty → Prop
  | scalar {k : Kind} : k.isScalar = true → IsWritten (.scalar k)
  | list {k : Kind} : k.isScalar = true → IsWritten (.listOf k)
  | graph {k : Kind} : k.isScalar = true → IsWritten (.graphOf k)
  | class_ {name : Text} : name.IsWord → IsWritten (.classOf name)

namespace Node

mutual

def IsExpr : Node → Prop
  | .int _ _ | .float _ _ | .char _ _ | .string _ _ | .bool _ _ | .var _ _ => True
  | .binary _ _ l r => IsExpr l ∧ IsExpr r
  | .unary _ _ x => IsExpr x
  | .call _ _ xs => AllExpr xs
  | .dot a xs => AllExpr xs ∧ (a.parens = false → xs = [])
  | _ => False
termination_by structural n => n

def AllExpr : List Node → Prop
  | [] => True
  | x :: xs => IsExpr x ∧ AllExpr xs
termination_by structural xs => xs

end

/-- Declarations, assignments and expressions: the forms a loop's head takes. -/
def IsSimple : Node → Prop
  | .varDecl _ _ t => t.IsWritten ∧ (t.kind.isScalar = true ∨ t.kind = .class_)
  | .varDef _ _ t x => t.IsWritten ∧ t.kind.isScalar = true ∧ IsExpr x
  | .assign _ _ x => IsExpr x
  | .fieldAssign _ a xs x => xs = [] ∧ a.parens = false ∧ IsExpr x
  | .listDecl _ _ k xs => k.isScalar = true ∧ AllExpr xs
  | .graphDecl _ _ k => k.isScalar = true
  | .exprStmt _ x => IsExpr x
  | _ => False

mutual

def IsStmt : Node → Prop
  | .ret _ none => True
  | .ret _ (some x) => IsExpr x
  | .branch _ _ test yes none => IsExpr test ∧ AllStmt yes
  | .branch _ _ test yes (some no) => IsExpr test ∧ AllStmt yes ∧ AllStmt no
  | .whileLoop _ _ test body => IsExpr test ∧ AllStmt body
  | .forLoop _ _ init test step body =>
    IsSimple init ∧ IsExpr test ∧ IsSimple step ∧ AllStmt body
  | .print _ x => IsExpr x
  | n => IsSimple n
termination_by structural n => n

def AllStmt : List Node → Prop
  | [] => True
  | n :: rest => IsStmt n ∧ AllStmt rest
termination_by structural ns => ns

end

/-- What stands at the top level of a program. -/
def IsItem : Node → Prop
  | .includeLib _ _ => True
  | .classDecl _ name fields => name.IsWord ∧ ∀ f ∈ fields, f.type.IsWritten
  | .funcDef _ _ params result body =>
    (∀ p ∈ params, p.type.IsWritten) ∧ (result.IsWritten ∨ result = .void) ∧ AllStmt body
  | n => IsStmt n

/-- The node is not a function. -/
def NotFunction (n : Node) : Prop :=
  ∀ m name params result body, n ≠ .funcDef m name params result body

theorem function_or (n : Node) :
    (∃ m name params result body, n = .funcDef m name params result body) ∨ n.NotFunction := by
  cases n with
  | funcDef m name params result body => exact .inl ⟨m, name, params, result, body, rfl⟩
  | _ => exact .inr fun _ _ _ _ _ => Node.noConfusion

/-- The simple statements are statements. -/
theorem IsSimple.isStmt {n : Node} (h : n.IsSimple) : n.IsStmt := by
  cases n <;> first | exact h | exact h.elim

end Node

end Augite
