import Augite.Error.Syntax
import Augite.Error.Semantic
import Augite.Error.Internal

/-!
# Errors of a compilation
-/

namespace Augite

inductive CompileError where
  | grammar (e : SyntaxError)
  | semantic (e : SemanticError)
  | internal (e : InternalError)
  deriving DecidableEq, Repr

def CompileError.text : CompileError → Text
  | grammar e => e.text
  | semantic e => e.text
  | internal e => e.text

end Augite
