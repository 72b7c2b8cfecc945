import Augite.Proofs.Shape

/-!
# Trees without annotations

The tree as it was read: positions stay, types, flags and merge blocks go.
-/

namespace Augite

def Access.bare (a : Access) : Access := { a with mark := a.mark.bare, receiver := a.receiver.bare }

namespace Node

mutual

def bare : Node → Node
  | .missing => .missing
  | .int m v => .int m.bare v
  | .float m v => .float m.bare v
  | .char m v => .char m.bare v
  | .string m v => .string m.bare v
  | .bool m v => .bool m.bare v
  | .var m name => .var m.bare name
  | .binary m op l r => .binary m.bare op (bare l) (bare r)
  | .unary m op x => .unary m.bare op (bare x)
  | .call m name xs => .call m.bare name (bareAll xs)
  | .dot a xs => .dot a.bare (bareAll xs)
  | .varDecl m name t => .varDecl m.bare name t
  | .varDef m name t x => .varDef m.bare name t (bare x)
  | .assign m name x => .assign m.bare name (bare x)
  | .fieldAssign m a xs x => .fieldAssign m.bare a.bare (bareAll xs) (bare x)
  | .ret m none => .ret m.bare none
  | .ret m (some x) => .ret m.bare (some (bare x))
  | .branch m _ test yes none => .branch m.bare none (bare test) (bareAll yes) none
  | .branch m _ test yes (some no) =>
    .branch m.bare none (bare test) (bareAll yes) (some (bareAll no))
  | .whileLoop m _ test body => .whileLoop m.bare none (bare test) (bareAll body)
  | .forLoop m _ init test step body =>
    .forLoop m.bare none (bare init) (bare test) (bare step) (bareAll body)
  | .print m x => .print m.bare (bare x)
  | .listDecl m name k xs => .listDecl m.bare name k (bareAll xs)
  | .graphDecl m name k => .graphDecl m.bare name k
  | .exprStmt m x => .exprStmt m.bare (bare x)
  | .funcDef m name params result body => .funcDef m.bare name params result (bareAll body)
  | .classDecl m name fields => .classDecl m.bare name fields
  | .includeLib m library => .includeLib m.bare library
  | .program m body => .program m.bare (bareAll body)
termination_by structural n => n

def bareAll : List Node → List Node
  | [] => []
  | n :: rest => bare n :: bareAll rest
termination_by structural ns => ns

end

theorem bareAll_eq_map (ns : List Node) : bareAll ns = ns.map bare := by
  induction ns with
  | nil => rfl
  | cons n rest ih => rw [bareAll, ih, List.map_cons]

/-! Shapes are a matter of the tree that was read. -/

mutual

theorem isExpr_bare (n : Node) : n.bare.IsExpr ↔ n.IsExpr := by
  cases n with
  | binary m op l r => simp only [bare, IsExpr, isExpr_bare l, isExpr_bare r]
  | unary m op x => simp only [bare, IsExpr, isExpr_bare x]
  | call m name xs => simp only [bare, IsExpr, allExpr_bare xs]
  | dot a xs =>
    have hnil : bareAll xs = [] ↔ xs = [] := by cases xs <;> simp [bareAll]
    simp only [bare, IsExpr, allExpr_bare xs, Access.bare, hnil]
  | ret m value => cases value <;> rfl
  | branch m merge test yes no => cases no <;> rfl
  | _ => rfl
termination_by structural n

theorem allExpr_bare (xs : List Node) : AllExpr (bareAll xs) ↔ AllExpr xs := by
  cases xs with
  | nil => rfl
  | cons x xs => simp only [bareAll, AllExpr, isExpr_bare x, allExpr_bare xs]
termination_by structural xs

end

theorem isSimple_bare (n : Node) : n.bare.IsSimple ↔ n.IsSimple := by
  cases n with
  | fieldAssign m a xs x =>
    have hnil : bareAll xs = [] ↔ xs = [] := by cases xs <;> simp [bareAll]
    simp only [bare, IsSimple, isExpr_bare, Access.bare, hnil]
  | ret m value => cases value <;> rfl
  | branch m merge test yes no => cases no <;> rfl
  | _ => simp only [bare, IsSimple, isExpr_bare, allExpr_bare]

mutual

theorem isStmt_bare (n : Node) : n.bare.IsStmt ↔ n.IsStmt := by
  have hsimple := isSimple_bare n
  cases n with
  | ret m value => cases value <;> simp only [bare, IsStmt, isExpr_bare]
  | branch m merge test yes no =>
    cases no with
    | none => simp only [bare, IsStmt, isExpr_bare, allStmt_bare yes]
    | some no => simp only [bare, IsStmt, isExpr_bare, allStmt_bare yes, allStmt_bare no]
  | whileLoop m merge test body => simp only [bare, IsStmt, isExpr_bare, allStmt_bare body]
  | forLoop m merge init test step body =>
    simp only [bare, IsStmt, isExpr_bare, isSimple_bare, allStmt_bare body]
  | print m x => simp only [bare, IsStmt, isExpr_bare]
  | _ => exact hsimple
termination_by structural n

theorem allStmt_bare (ns : List Node) : AllStmt (bareAll ns) ↔ AllStmt ns := by
  cases ns with
  | nil => rfl
  | cons n rest => simp only [bareAll, AllStmt, isStmt_bare n, allStmt_bare rest]
termination_by structural ns

end

theorem isItem_bare (n : Node) : n.bare.IsItem ↔ n.IsItem := by
  have hstmt := isStmt_bare n
  cases n with
  | includeLib m library => rfl
  | classDecl m name fields => rfl
  | funcDef m name params result body => simp only [bare, IsItem, allStmt_bare]
  | ret m value => cases value <;> exact hstmt
  | branch m merge test yes no => cases no <;> exact hstmt
  | _ => exact hstmt

theorem isItem_of_bare {ns ms : List Node} (h : bareAll ns = bareAll ms)
    (hms : ∀ n ∈ ms, n.IsItem) : ∀ n ∈ ns, n.IsItem := by
  intro n hn
  rw [bareAll_eq_map, bareAll_eq_map] at h
  obtain ⟨k, hk, hkn⟩ := List.mem_map.mp (h ▸ List.mem_map_of_mem hn)
  rw [← isItem_bare, ← hkn, isItem_bare]
  exact hms k hk

end Node

@[simp] theorem Mark.bare_typed (m : Mark) (t : Ty) : (m.typed t).bare = m.bare := rfl

end Augite
