import Augite.Tree.Basic

/-!
# Statements that always return

A statement list always returns if one of its statements does: a return, or a conditional
with two arms that both always return. Loops never count.
-/

namespace Augite.Node

mutual

/-- Control never goes on behind the statement. -/
def returns : Node → Bool
  | .ret _ _ => true
  | .branch _ _ _ yes (some no) => alwaysReturns yes && alwaysReturns no
  | _ => false

/-- Control never reaches the end of the statements. -/
def alwaysReturns : List Node → Bool
  | [] => false
  | s :: rest => returns s || alwaysReturns rest

end

end Augite.Node
