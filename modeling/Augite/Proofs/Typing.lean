import Augite.Proofs.Members
import Augite.Tree.Returns

/-!
# Typing of annotated trees

When the annotations of a tree are right. A name stands for the declaration that is found
for it in the scopes, and scopes change from statement to statement: a declaration takes
effect behind the statement that makes it, and within a counting loop the step comes before
the body. The rules know nothing of the order in which code is generated.
-/

namespace Augite

/-- Where a node stands in a program: its place among its siblings, then its parent's. -/
abbrev Path := List Nat

/-- A declaration: where it stands and the type it declares. -/
structure Declaration where
  path : Path
  type : Ty
  deriving DecidableEq, Repr

/-- The declarations visible at a point of a program. -/
abbrev Environment := Scopes Declaration

/-- The name and type that a statement declares for those behind it. -/
def Node.declared? : Node → Option (Text × Ty)
  | .varDecl _ name t => some (name, t)
  | .varDef _ name t _ => some (name, t)
  | .listDecl _ name k _ => some (name, .listOf k)
  | .graphDecl _ name k => some (name, .graphOf k)
  | _ => none

/-- The names of the functions among items, in order. -/
def Node.functionNames : List Node → List Text
  | [] => []
  | .funcDef _ name _ _ _ :: rest => name :: functionNames rest
  | _ :: rest => functionNames rest

namespace Environment

/-- The declarations visible behind a statement that stands at `π`. -/
def after (Γ : Environment) (π : Path) (n : Node) : Environment :=
  match n.declared? with
  | some (name, t) => Γ.push name ⟨π, t⟩
  | none => Γ

/-- The declarations visible behind statements that stand at `π` from place `i` on. -/
def afterAll (Γ : Environment) (π : Path) (i : Nat) : List Node → Environment
  | [] => Γ
  | n :: rest => afterAll (Γ.after (i :: π) n) π (i + 1) rest

/-- The declarations of parameters that stand at `π` from place `i` on. -/
def withParams (Γ : Environment) (π : Path) (i : Nat) : List Param → Environment
  | [] => Γ
  | p :: ps => withParams (Γ.push p.name ⟨i :: π, p.type⟩) π (i + 1) ps

/-- The innermost scope does not declare the name. -/
def Fresh (Γ : Environment) (name : Text) : Prop := Γ.current.lookup name = none

section

variable (Γ : Environment) (π : Path)

theorem atModule_after (n : Node) : (Γ.after π n).atModule = Γ.atModule := by
  unfold after
  split
  · exact Γ.atModule_push _ _
  · rfl

theorem leave_after {Γ : Environment} (h : Γ.atModule = false) (n : Node) :
    (Γ.after π n).leave = Γ.leave := by
  unfold after
  split
  · exact Scopes.leave_push h _ _
  · rfl

/-- What statements declare in a scope is gone once the scope is left. -/
theorem leave_afterAll {Γ : Environment} (h : Γ.atModule = false) (i : Nat) (ns : List Node) :
    (Γ.afterAll π i ns).leave = Γ.leave := by
  induction ns generalizing Γ i with
  | nil => rfl
  | cons n rest ih => rw [afterAll, ih (by rw [atModule_after, h]), leave_after _ h]

theorem atModule_withParams (i : Nat) (ps : List Param) :
    (Γ.withParams π i ps).atModule = Γ.atModule := by
  induction ps generalizing Γ i with
  | nil => rfl
  | cons p ps ih => rw [withParams, ih, Scopes.atModule_push]

theorem leave_withParams {Γ : Environment} (h : Γ.atModule = false) (i : Nat) (ps : List Param) :
    (Γ.withParams π i ps).leave = Γ.leave := by
  induction ps generalizing Γ i with
  | nil => rfl
  | cons p ps ih => rw [withParams, ih (by rw [Scopes.atModule_push, h]), Scopes.leave_push h]

end

end Environment

/-- The mark of a use of a name that stands for a declaration. -/
structure Mark.Uses (m : Mark) (Γ : Environment) (name : Text) (d : Declaration) : Prop where
  found : ∃ k, Γ.resolve? name = some (d, k) ∧ m.isGlobal = (k == 1)
  type : m.type = d.type

/-- The mark of a declaration. -/
structure Mark.Declares (m : Mark) (Γ : Environment) (t : Ty) : Prop where
  type : m.type = t
  isGlobal : m.isGlobal = Γ.atModule

/-- The access refers to a member of the variable's type. -/
structure Access.RefersTo (a : Access) (F : Context) (Γ : Environment) (d : Declaration)
    (f : Member) : Prop where
  receiver : a.receiver.Uses Γ a.name d
  aggregate : d.type.isAggregate = true
  isClass : a.mark.isClass = (d.type.kind == .class_)
  member : F.members.lookup? d.type a.member = some f
  type : a.mark.type = f.result

namespace Typing

mutual

/-- The expression is annotated rightly and has the type. -/
inductive HasType (F : Context) (Γ : Environment) : Node → Ty → Prop
  | int {m : Mark} {v : Int64} : m.type = .int → HasType F Γ (.int m v) .int
  | float {m : Mark} {v : Double} : m.type = .float → HasType F Γ (.float m v) .float
  | char {m : Mark} {v : UInt8} : m.type = .char → HasType F Γ (.char m v) .char
  | string {m : Mark} {v : Text} : m.type = .string → HasType F Γ (.string m v) .string
  | bool {m : Mark} {v : Bool} : m.type = .bool → HasType F Γ (.bool m v) .bool
  | var {m : Mark} {name : Text} {d : Declaration} :
      m.Uses Γ name d → HasType F Γ (.var m name) d.type
  | binary {m : Mark} {op : BinaryOp} {l r : Node} {lt rt t : Ty} :
      HasType F Γ l lt → HasType F Γ r rt → op.resultType? lt rt = some t → m.type = t →
      HasType F Γ (.binary m op l r) t
  | unary {m : Mark} {op : UnaryOp} {x : Node} {xt t : Ty} :
      HasType F Γ x xt → op.resultType? xt = some t → m.type = t → HasType F Γ (.unary m op x) t
  | call {m : Mark} {name : Text} {xs : List Node} {sig : Signature} :
      F.funcs.lookup? name = some sig → HasTypes F Γ sig.params xs → m.type = sig.result →
      HasType F Γ (.call m name xs) sig.result
  | dot {a : Access} {xs : List Node} {d : Declaration} {f : Member} :
      a.RefersTo F Γ d f → HasTypes F Γ f.params xs → HasType F Γ (.dot a xs) f.result

/-- The expressions may stand for values of the types, one for each. -/
inductive HasTypes (F : Context) (Γ : Environment) : List Ty → List Node → Prop
  | nil : HasTypes F Γ [] []
  | cons {p t : Ty} {ps : List Ty} {x : Node} {xs : List Node} :
      HasType F Γ x t → p.accepts t = true → HasTypes F Γ ps xs → HasTypes F Γ (p :: ps) (x :: xs)

end

/-- The expressions may each stand for a value of one type. -/
def AllAccepted (F : Context) (Γ : Environment) (t : Ty) (xs : List Node) : Prop :=
  ∀ x ∈ xs, ∃ xt, HasType F Γ x xt ∧ t.accepts xt = true

mutual

/-- The statement at `π` in a function with a given signature is annotated rightly. -/
def Checked (F : Context) (fn : Option Signature) (π : Path) (Γ : Environment) : Node → Prop
  | .varDecl m name t =>
    Γ.Fresh name ∧ t.InUse F ∧ m.Declares Γ t ∧ m.isClass = (t.kind == .class_)
  | .varDef m name t x =>
    Γ.Fresh name ∧ t.InUse F ∧ m.Declares Γ t ∧ ∃ xt, HasType F Γ x xt ∧ t.accepts xt = true
  | .assign m name x =>
    ∃ d xt, m.Uses Γ name d ∧ HasType F Γ x xt ∧ d.type.accepts xt = true
  | .fieldAssign m a _ x =>
    ∃ d f xt, a.RefersTo F Γ d f ∧ d.type.kind = .class_ ∧ f.kind = .field ∧ m.type = f.result ∧
      HasType F Γ x xt ∧ f.result.accepts xt = true
  | .ret _ none => ∃ sig, fn = some sig ∧ sig.result = .void
  | .ret _ (some x) =>
    ∃ sig xt, fn = some sig ∧ sig.result ≠ .void ∧ HasType F Γ x xt ∧
      sig.result.accepts xt = true
  | .branch _ _ test yes none =>
    HasType F Γ test .bool ∧ AllChecked F fn (1 :: π) 0 Γ.enter yes
  | .branch _ _ test yes (some no) =>
    HasType F Γ test .bool ∧ AllChecked F fn (1 :: π) 0 Γ.enter yes ∧
      AllChecked F fn (2 :: π) 0 Γ.enter no
  | .whileLoop _ _ test body =>
    HasType F Γ test .bool ∧ AllChecked F fn (1 :: π) 0 Γ.enter body
  | .forLoop _ _ init test step body =>
    let Γ₁ : Environment := Environment.after Γ.enter (0 :: π) init
    Checked F fn (0 :: π) Γ.enter init ∧ HasType F Γ₁ test .bool ∧
      Checked F fn (2 :: π) Γ₁ step ∧
      AllChecked F fn (3 :: π) 0 (Γ₁.after (2 :: π) step).enter body
  | .print _ x => ∃ t, HasType F Γ x t ∧ t.kind.isScalar = true
  | .listDecl m name k xs =>
    Γ.Fresh name ∧ (Ty.listOf k).InUse F ∧ m.Declares Γ (.listOf k) ∧
      AllAccepted F Γ (.scalar k) xs
  | .graphDecl m name k =>
    Γ.Fresh name ∧ (Ty.graphOf k).InUse F ∧ m.Declares Γ (.graphOf k)
  | .exprStmt _ x => ∃ t, HasType F Γ x t
  | .includeLib _ _ => True
  | .classDecl _ _ _ => True
  | _ => False
termination_by structural n => n

/-- The statements at `π` from place `i` on are annotated rightly. -/
def AllChecked (F : Context) (fn : Option Signature) (π : Path) (i : Nat) (Γ : Environment) :
    List Node → Prop
  | [] => True
  | n :: rest =>
    Checked F fn (i :: π) Γ n ∧ AllChecked F fn π (i + 1) (Γ.after (i :: π) n) rest
termination_by structural ns => ns

end

/-- The function at `π` is annotated rightly. -/
structure CheckedFunction (F : Context) (π : Path) (Γ : Environment) (name : Text)
    (params : List Param) (result : Ty) (body : List Node) : Prop where
  entered : F.funcs.lookup? name = some ⟨name, params.map Param.type, result⟩
  distinct : (params.map Param.name).Nodup
  checked : AllChecked F (some ⟨name, params.map Param.type, result⟩) (1 :: π) 0
    (Environment.withParams Γ.enter (0 :: π) 0 params) body
  returns : result ≠ .void → Node.alwaysReturns body = true

/-- The items of a program from place `i` on are annotated rightly. -/
def CheckedItems (F : Context) (i : Nat) (Γ : Environment) : List Node → Prop
  | [] => True
  | .funcDef _ name params result body :: rest =>
    CheckedFunction F [i] Γ name params result body ∧ CheckedItems F (i + 1) Γ rest
  | n :: rest => Checked F none [i] Γ n ∧ CheckedItems F (i + 1) (Γ.after [i] n) rest

end Typing

/-! ### Flags and marks of statements -/

/-- The receiver of an access is flagged if its type is a class, and the access is flagged as its
receiver is. Parentheses stand behind methods only, and behind each of them. -/
structure Access.Flagged (F : Context) (a : Access) : Prop where
  receiver : a.receiver.isClass = (a.receiver.type.kind == .class_)
  isClass : a.mark.isClass = a.receiver.isClass
  isGlobal : a.mark.isGlobal = a.receiver.isGlobal
  parens : ∃ f, F.members.lookup? a.receiver.type a.member = some f ∧
    (a.parens = true ↔ f.kind = .method)

namespace Node

mutual

/-- The names in an expression are flagged if their types are classes. -/
def Flagged (F : Context) : Node → Prop
  | .int _ _ | .float _ _ | .char _ _ | .string _ _ | .bool _ _ => True
  | .var m _ => m.isClass = (m.type.kind == .class_)
  | .binary _ _ l r => Flagged F l ∧ Flagged F r
  | .unary _ _ x => Flagged F x
  | .call _ _ xs => AllFlagged F xs
  | .dot a xs => a.Flagged F ∧ AllFlagged F xs
  | _ => False
termination_by structural n => n

def AllFlagged (F : Context) : List Node → Prop
  | [] => True
  | x :: xs => Flagged F x ∧ AllFlagged F xs
termination_by structural xs => xs

end

mutual

/-- The statement in a function with a given signature has a mark of its own, and so have the
statements in it; the names in it are flagged. -/
def Marked (F : Context) (fn : Option Signature) : Node → Prop
  | .varDecl _ _ _ | .graphDecl _ _ _ | .includeLib _ _ => True
  | .varDef _ _ _ x | .assign _ _ x => Flagged F x
  | .fieldAssign m a xs x => m.isClass = true ∧ a.Flagged F ∧ xs = [] ∧ Flagged F x
  | .listDecl _ _ _ xs => AllFlagged F xs
  | .ret m none => ∃ sig, fn = some sig ∧ m.type = sig.result
  | .ret m (some x) => (∃ sig, fn = some sig ∧ m.type = sig.result) ∧ Flagged F x
  | .branch m _ test yes none => m.type = .void ∧ Flagged F test ∧ AllMarked F fn yes
  | .branch m _ test yes (some no) =>
    m.type = .void ∧ Flagged F test ∧ AllMarked F fn yes ∧ AllMarked F fn no
  | .whileLoop m _ test body => m.type = .void ∧ Flagged F test ∧ AllMarked F fn body
  | .forLoop m _ init test step body =>
    m.type = .void ∧ Marked F fn init ∧ Flagged F test ∧ Marked F fn step ∧ AllMarked F fn body
  | .print m x => m.type = .void ∧ Flagged F x
  | .exprStmt m x => m.type = x.type ∧ Flagged F x
  | .classDecl m name _ => m.type = .classOf name ∧ m.isClass = true
  | .funcDef m name params result body =>
    m.type = result ∧ AllMarked F (some ⟨name, params.map Param.type, result⟩) body
  | _ => False
termination_by structural n => n

def AllMarked (F : Context) (fn : Option Signature) : List Node → Prop
  | [] => True
  | n :: rest => Marked F fn n ∧ AllMarked F fn rest
termination_by structural ns => ns

end

end Node

namespace Typing

/-- The type an expression has is the one it is annotated with. -/
theorem HasType.type_eq {F : Context} {Γ : Environment} {n : Node} {t : Ty}
    (h : HasType F Γ n t) : n.type = t := by
  cases h with
  | int h | float h | char h | string h | bool h => exact h
  | var h => exact h.type
  | binary _ _ _ h => exact h
  | unary _ _ h => exact h
  | call _ _ h => exact h
  | dot h _ => exact h.type

/-! What a typed expression is made of. -/

section

variable {F : Context} {Γ : Environment} {m : Mark} {t : Ty}

theorem HasType.of_var {name : Text} (h : HasType F Γ (.var m name) t) :
    ∃ d, m.Uses Γ name d ∧ t = d.type := by
  cases h with
  | var h => exact ⟨_, h, rfl⟩

theorem HasType.of_binary {op : BinaryOp} {l r : Node} (h : HasType F Γ (.binary m op l r) t) :
    ∃ lt rt, HasType F Γ l lt ∧ HasType F Γ r rt ∧ op.resultType? lt rt = some t ∧ m.type = t := by
  cases h with
  | binary hl hr hres hm => exact ⟨_, _, hl, hr, hres, hm⟩

theorem HasType.of_unary {op : UnaryOp} {x : Node} (h : HasType F Γ (.unary m op x) t) :
    ∃ xt, HasType F Γ x xt ∧ op.resultType? xt = some t ∧ m.type = t := by
  cases h with
  | unary hx hres hm => exact ⟨_, hx, hres, hm⟩

theorem HasType.of_call {name : Text} {xs : List Node} (h : HasType F Γ (.call m name xs) t) :
    ∃ sig, F.funcs.lookup? name = some sig ∧ HasTypes F Γ sig.params xs ∧ t = sig.result := by
  cases h with
  | call hsig hxs hm => exact ⟨_, hsig, hxs, rfl⟩

theorem HasType.of_dot {a : Access} {xs : List Node} (h : HasType F Γ (.dot a xs) t) :
    ∃ d f, a.RefersTo F Γ d f ∧ HasTypes F Γ f.params xs ∧ t = f.result := by
  cases h with
  | dot ha hxs => exact ⟨_, _, ha, hxs, rfl⟩

theorem HasTypes.of_cons {ps : List Ty} {x : Node} {xs : List Node}
    (h : HasTypes F Γ ps (x :: xs)) :
    ∃ p qs xt, ps = p :: qs ∧ HasType F Γ x xt ∧ p.accepts xt = true ∧ HasTypes F Γ qs xs := by
  cases h with
  | cons hx hacc hxs => exact ⟨_, _, _, rfl, hx, hacc, hxs⟩

end

end Typing

end Augite
