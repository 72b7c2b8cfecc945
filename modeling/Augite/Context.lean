import Augite.Signature
import Augite.Member
import Augite.Log

/-!
# Contexts

What a compilation knows beyond the scopes of one pass: functions, classes, the members
of aggregate types, which program was last found correct, and the log. Tables keep what an
analysis has entered even if it failed later on.
-/

namespace Augite

structure ClassDef where
  name : Text
  fields : List Param
  deriving DecidableEq, Repr, Inhabited

structure Context where
  funcs : FuncTable := {}
  members : MemberTable := {}
  /-- The classes in the order of their declaration. -/
  classes : List ClassDef := []
  /-- The key of the program that the last analysis found correct. -/
  certified : Option Nat := none
  /-- The records so far, the latest last. -/
  log : List Event := []
  deriving Repr, Inhabited

namespace Context

def class? (c : Context) (name : Text) : Option ClassDef := c.classes.find? fun d => d.name == name

def addClass? (c : Context) (d : ClassDef) : Option Context :=
  if (c.class? d.name).isSome then none
  else some { c with classes := c.classes ++ [d], members := c.members.registerClass d.name d.fields }

def record (c : Context) (e : Event) : Context := { c with log := c.log ++ [e] }

end Context

def ClassDef.node (d : ClassDef) : Node := .classDecl (.at_ .none) d.name d.fields

end Augite
