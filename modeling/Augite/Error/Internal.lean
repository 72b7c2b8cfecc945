import Augite.Position
import Augite.Ty
import Augite.IR.Flaw

/-!
# Internal errors

What is wrong with the compiler itself, or with a tree that no source text has: an
assumption of one pass that an earlier one did not establish.
-/

namespace Augite

inductive Place where
  | statement
  | expression
  deriving DecidableEq, Repr

def Place.name : Place → Text
  | statement => "statement"
  | expression => "expression"

inductive InternalCause where
  | misplaced (className : Text) (place : Place)
  | nestedFunction
  | notAnalysed
  | otherProgram
  | noType (t : Ty)
  /-- A name gets storage twice in one scope. -/
  | boundTwice (name : Text)
  /-- The same, met while storage is made for a declaration. -/
  | rebinding (name : Text)
  | noStorage (name : Text)
  | noGlobalStorage (name : Text)
  | noAddMember (t : Ty)
  | returnOutside
  | unprintable (t : Ty)
  | undeclaredCallee (name : Text)
  | noInstruction (op : BinaryOp) (left right : Ty)
  | noField (t : Ty) (member : Text)
  | noMember (t : Ty) (member : Text)
  | endReached (function : Text) (result : Ty)
  | flaw (function : Text) (flaw : IR.Flaw)
  deriving DecidableEq, Repr

structure InternalError where
  pos : Position := .none
  cause : InternalCause
  deriving DecidableEq, Repr

namespace InternalError

/-- A message of an internal error, at a position if there is one. -/
def wording (pos : Position) (message : Text) : Text :=
  if pos = .none then "internal compiler error: " ++ message
  else "internal compiler error at " ++ pos.text ++ ": " ++ message

end InternalError

def InternalCause.message : InternalCause → Text
  | misplaced className place =>
    "unexpected *compiler." ++ className ++ " in " ++ place.name ++ " position"
  | nestedFunction => "nested function definition"
  | notAnalysed => "code generation requested for a program that has not been analyzed"
  | otherProgram =>
    "code generation requested for a program other than the one analyzed in this context"
  | noType t => "no IR type for " ++ t.name
  | boundTwice name => "storage for '" ++ name ++ "' bound twice in one scope"
  | rebinding name =>
    "binding storage for '" ++ name ++ "': " ++
      InternalError.wording .none ("storage for '" ++ name ++ "' bound twice in one scope")
  | noStorage name => "no storage for '" ++ name ++ "'"
  | noGlobalStorage name => "no global storage for '" ++ name ++ "'"
  | noAddMember t => t.name ++ " has no add member"
  | returnOutside => "return outside a function"
  | unprintable t => "cannot print " ++ t.name
  | undeclaredCallee name => "call to undeclared function '" ++ name ++ "'"
  | noInstruction op l r => "no instruction for " ++ l.name ++ " " ++ op.spelling ++ " " ++ r.name
  | noField t member => t.name ++ " has no field '" ++ member ++ "'"
  | noMember t member => t.name ++ " has no member '" ++ member ++ "'"
  | endReached function result =>
    "function '" ++ function ++ "' can reach its end without returning " ++ result.name
  | flaw function f => "function " ++ function ++ ": " ++ f.message

def InternalError.text (e : InternalError) : Text := wording e.pos e.cause.message

end Augite
