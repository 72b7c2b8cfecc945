import Augite.Tree.Basic

/-!
# Annotation rows

The nodes of a tree in preorder, each with its depth, position and annotations.
-/

namespace Augite

structure Row where
  depth : Nat
  className : Text
  mark : Mark
  merge : Option (Option Nat) := none

def Row.flags (r : Row) : Text :=
  (if r.mark.isGlobal then "g" else "") ++ if r.mark.isClass then "c" else ""

namespace Node

mutual

def rows (depth : Nat) : Node → List Row
  | missing => []
  | n@(int _ _) | n@(float _ _) | n@(char _ _) | n@(string _ _) | n@(bool _ _) | n@(var _ _)
  | n@(varDecl _ _ _) | n@(graphDecl _ _ _) | n@(classDecl _ _ _) | n@(includeLib _ _) =>
    [{ depth, className := n.className, mark := n.mark }]
  | n@(binary m _ l r) =>
    { depth, className := n.className, mark := m } :: rows (depth + 1) l ++ rows (depth + 1) r
  | n@(unary m _ x) | n@(varDef m _ _ x) | n@(assign m _ x) | n@(print m x) | n@(exprStmt m x) =>
    { depth, className := n.className, mark := m } :: rows (depth + 1) x
  | n@(call m _ xs) | n@(listDecl m _ _ xs) | n@(funcDef m _ _ _ xs) | n@(program m xs) =>
    { depth, className := n.className, mark := m } :: rowsOf (depth + 1) xs
  | dot a xs =>
    { depth, className := "DotCall", mark := a.mark } ::
      { depth := depth + 1, className := "Ident", mark := a.receiver } :: rowsOf (depth + 1) xs
  | n@(fieldAssign m a xs v) =>
    { depth, className := n.className, mark := m } ::
      { depth := depth + 1, className := "DotCall", mark := a.mark } ::
      { depth := depth + 2, className := "Ident", mark := a.receiver } ::
      rowsOf (depth + 2) xs ++ rows (depth + 1) v
  | n@(ret m none) => [{ depth, className := n.className, mark := m }]
  | n@(ret m (some v)) => { depth, className := n.className, mark := m } :: rows (depth + 1) v
  | n@(branch m merge test yes none) =>
    { depth, className := n.className, mark := m, merge := some merge } ::
      rows (depth + 1) test ++ rowsOf (depth + 1) yes
  | n@(branch m merge test yes (some no)) =>
    { depth, className := n.className, mark := m, merge := some merge } ::
      rows (depth + 1) test ++ rowsOf (depth + 1) yes ++ rowsOf (depth + 1) no
  | n@(whileLoop m merge test body) =>
    { depth, className := n.className, mark := m, merge := some merge } ::
      rows (depth + 1) test ++ rowsOf (depth + 1) body
  | n@(forLoop m merge init test step body) =>
    { depth, className := n.className, mark := m, merge := some merge } ::
      rows (depth + 1) init ++ rows (depth + 1) test ++ rows (depth + 1) step ++
      rowsOf (depth + 1) body

def rowsOf (depth : Nat) : List Node → List Row
  | [] => []
  | n :: ns => rows depth n ++ rowsOf depth ns

end

end Node

end Augite
