import Augite.Scope.Basic
import Augite.Error.Semantic

/-!
# Variables in scope

What analysis knows of the variables that are visible at a point of a program. A variable
declared in the module's frame is global. Whether a variable has been given a value is
tracked in the order in which statements are met.
-/

namespace Augite

structure Variable where
  name : Text
  type : Ty
  initialized : Bool
  isGlobal : Bool
  deriving DecidableEq, Repr, Inhabited

abbrev Variables := Scopes Variable

namespace Variables

def declareAt (vs : Variables) (pos : Position) (name : Text) (type : Ty) (initialized : Bool) :
    Except SemanticError (Variable × Variables) :=
  let v : Variable := { name, type, initialized, isGlobal := vs.atModule }
  match vs.declare? name v with
  | some vs' => .ok (v, vs')
  | none => .error { kind := .redeclaration, pos, name }

def find (vs : Variables) (pos : Position) (name : Text) : Except SemanticError Variable :=
  match vs.resolve? name with
  | some (v, _) => .ok v
  | none => .error { kind := .undeclaredIdentifier, pos, name }

def read (vs : Variables) (pos : Position) (name : Text) : Except SemanticError Variable := do
  let v ← vs.find pos name
  if v.initialized then return v
  else throw { kind := .useBeforeInitialization, pos, name }

def markInitialized (vs : Variables) (pos : Position) (name : Text) :
    Except SemanticError Variables := do
  let _ ← vs.find pos name
  return vs.update name fun v => { v with initialized := true }

end Variables

end Augite
