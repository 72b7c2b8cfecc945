import Augite.Position
import Augite.Ty
import Augite.Text.Blank

/-!
# Semantic errors

What is wrong with a tree. An error has a kind and a position; which of its other fields
are filled depends on the kind.
-/

namespace Augite

inductive ErrorKind where
  | redeclaration
  | undeclaredIdentifier
  | useBeforeInitialization
  | typeMismatch
  | duplicateFunction
  | undeclaredFunction
  | arityMismatch
  | argumentTypeMismatch
  | returnTypeMismatch
  | invalidDotCall
  | unknownMember
  /-- A code that belongs to no kind. -/
  | other (code : Int)
  deriving DecidableEq, Repr

namespace ErrorKind

/-- The kinds in the order of their codes, which count from one. -/
def all : List ErrorKind :=
  [redeclaration, undeclaredIdentifier, useBeforeInitialization, typeMismatch, duplicateFunction,
    undeclaredFunction, arityMismatch, argumentTypeMismatch, returnTypeMismatch, invalidDotCall,
    unknownMember]

def ofCode : Int → ErrorKind
  | .ofNat (n + 1) => (all[n]?).getD (other (n + 1))
  | c => other c

def code (k : ErrorKind) : Int :=
  match k with
  | other c => c
  | _ => (all.idxOf k + 1 : Nat)

def name : ErrorKind → Text
  | redeclaration => "redeclaration"
  | undeclaredIdentifier => "undeclared-identifier"
  | useBeforeInitialization => "use-before-initialization"
  | typeMismatch => "type-mismatch"
  | duplicateFunction => "duplicate-function"
  | undeclaredFunction => "undeclared-function"
  | arityMismatch => "arity-mismatch"
  | argumentTypeMismatch => "argument-type-mismatch"
  | returnTypeMismatch => "return-type-mismatch"
  | invalidDotCall => "invalid-dot-call"
  | unknownMember => "unknown-member"
  | other c => "ErrorKind(" ++ Text.ofInt c ++ ")"

/-- The kind with a given name, white space around it aside. -/
def ofName? (t : Text) : Option ErrorKind :=
  let word := Text.trim t
  all.find? fun k => k.name == word

end ErrorKind

structure SemanticError where
  kind : ErrorKind
  pos : Position
  /-- The identifier, function, class or receiver. -/
  name : Text := []
  member : Text := []
  op : Text := []
  expected : Ty := .unresolved
  actual : Ty := .unresolved
  /-- The operand types of a binary operator; a unary one has the right one only. -/
  left : Ty := .unresolved
  right : Ty := .unresolved
  wantArgs : Int := 0
  gotArgs : Int := 0
  /-- The argument at fault, counted from one. -/
  arg : Int := 0
  detail : Text := []
  deriving DecidableEq, Repr

namespace SemanticError

def message (e : SemanticError) : Text :=
  match e.kind with
  | .redeclaration => "'" ++ e.name ++ "' already declared in this scope"
  | .undeclaredIdentifier => "'" ++ e.name ++ "' is not declared"
  | .useBeforeInitialization => "variable '" ++ e.name ++ "' used before initialization"
  | .typeMismatch =>
    if e.op ≠ [] ∧ e.left ≠ .unresolved then
      "operator '" ++ e.op ++ "' cannot be applied to " ++ e.left.name ++ " and " ++ e.right.name
    else if e.op ≠ [] then
      "operator '" ++ e.op ++ "' cannot be applied to " ++ e.right.name
    else if e.expected = .unresolved then
      "value of type " ++ e.actual.name ++ " not allowed here"
    else "expected " ++ e.expected.name ++ " but got " ++ e.actual.name
  | .duplicateFunction => "function '" ++ e.name ++ "' already defined"
  | .undeclaredFunction => "function '" ++ e.name ++ "' is not defined"
  | .arityMismatch =>
    "'" ++ e.name ++ "' expects " ++ Text.ofInt e.wantArgs ++ " arguments but got " ++
      Text.ofInt e.gotArgs
  | .argumentTypeMismatch =>
    "argument " ++ Text.ofInt e.arg ++ " of '" ++ e.name ++ "' expects " ++ e.expected.name ++
      " but got " ++ e.actual.name
  | .returnTypeMismatch =>
    "expected return of " ++ e.expected.name ++ " but got " ++ e.actual.name
  | .invalidDotCall =>
    "'" ++ e.name ++ "' of type " ++ e.actual.name ++ " does not support member access"
  | .unknownMember => e.actual.name ++ " has no member '" ++ e.member ++ "'"
  | .other _ => "semantic error"

def text (e : SemanticError) : Text :=
  let detail : Text := if e.detail = [] then [] else " (" ++ e.detail ++ ")"
  e.pos.text ++ ": " ++ e.kind.name ++ ": " ++ e.message ++ detail

end SemanticError

end Augite
