import Augite.Scope.Basic
import Augite.Error.Internal
import Augite.IR.Basic

/-!
# Storage in scope

Where the variables visible at a point of a program live once code is generated for it: a
stack slot for parameters and local variables, a global variable for those of the module.
-/

namespace Augite

structure Slot where
  name : Text
  storage : IR.Value
  type : Ty
  isParam : Bool := false
  deriving DecidableEq, Repr

abbrev Slots := Scopes Slot

namespace Slots

def bind (s : Slots) (slot : Slot) : Except InternalError Slots :=
  match s.declare? slot.name slot with
  | some t => .ok t
  | none => .error { cause := .boundTwice slot.name }

def find (s : Slots) (name : Text) : Except InternalError Slot :=
  match s.resolve? name with
  | some (slot, _) => .ok slot
  | none => .error { cause := .noStorage name }

end Slots

end Augite
