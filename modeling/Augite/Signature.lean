import Augite.Error.Semantic

/-!
# Function signatures

The functions of a compilation in the order of their definition. A name has at most one
function, and the names of the entry point and of the run-time library have none.
-/

namespace Augite

structure Signature where
  name : Text
  params : List Ty
  result : Ty
  deriving DecidableEq, Repr, Inhabited

namespace Signature

def reservedNames : List Text := ["main", "printf", "strcmp"]

def reservedStart : Text := "pyrx_"

def isReserved (name : Text) : Bool := reservedNames.contains name || reservedStart.isPrefixOf name

end Signature

structure FuncTable where
  entries : List Signature := []
  deriving DecidableEq, Repr, Inhabited

namespace FuncTable

def lookup? (t : FuncTable) (name : Text) : Option Signature :=
  t.entries.find? fun sig => sig.name == name

def names (t : FuncTable) : List Text := t.entries.map Signature.name

def add (t : FuncTable) (pos : Position) (sig : Signature) : Except SemanticError FuncTable :=
  if (t.lookup? sig.name).isSome || Signature.isReserved sig.name then
    .error { kind := .duplicateFunction, pos, name := sig.name }
  else .ok { entries := t.entries ++ [sig] }

end FuncTable

end Augite
