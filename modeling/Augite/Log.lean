import Augite.Text.Basic

/-!
# Log records

What the passes and the command report while they run. A record has a level, a message
and fields, all fixed by the event it tells of.
-/

namespace Augite

inductive Level where
  | debug
  | info
  | error
  deriving DecidableEq, Repr

def Level.name : Level → Text
  | debug => "DEBUG"
  | info => "INFO"
  | error => "ERROR"

inductive Event where
  | analysisFailed (error : Text)
  | analysisComplete (functions classes : Nat)
  | analysedFunction (name : Text) (params : Nat) (result : Text)
  | generatedFunction (name : Text) (blocks : Nat)
  | generationComplete (functions globals blocks : Nat)
  | verificationFailed (error : Text)
  | compiling (file : Text) (bytes : Nat)
  deriving DecidableEq, Repr

namespace Event

def level : Event → Level
  | analysisFailed _ | analysedFunction _ _ _ | generatedFunction _ _ | compiling _ _ => .debug
  | analysisComplete _ _ | generationComplete _ _ _ => .info
  | verificationFailed _ => .error

def message : Event → Text
  | analysisFailed _ => "analysis failed"
  | analysisComplete _ _ => "analysis complete"
  | analysedFunction _ _ _ => "analyzed function"
  | generatedFunction _ _ => "generated function"
  | generationComplete _ _ _ => "code generation complete"
  | verificationFailed _ => "generated module failed verification"
  | compiling _ _ => "compiling"

def fields : Event → List (Text × Text)
  | analysisFailed e | verificationFailed e => [("err", e)]
  | analysisComplete functions classes =>
    [("functions", Text.decimal functions), ("classes", Text.decimal classes)]
  | analysedFunction name params result =>
    [("name", name), ("params", Text.decimal params), ("return", result)]
  | generatedFunction name blocks => [("name", name), ("blocks", Text.decimal blocks)]
  | generationComplete functions globals blocks =>
    [("functions", Text.decimal functions), ("globals", Text.decimal globals),
      ("blocks", Text.decimal blocks)]
  | compiling file bytes => [("file", file), ("bytes", Text.decimal bytes)]

end Event

end Augite
