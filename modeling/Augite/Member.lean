import Augite.Tree.Basic

/-!
# Members

The members that values of an aggregate type have. Lists and graphs have a fixed set for
each kind of element, carried out by run-time functions; a class has its fields. Tables
are looked up by the name of a type.
-/

namespace Augite

inductive MemberKind where
  | field
  | method
  deriving DecidableEq, Repr

structure Member where
  name : Text
  kind : MemberKind
  /-- The parameter types of a method. -/
  params : List Ty := []
  result : Ty
  /-- The place of a class's field among its fields. -/
  index : Nat := 0
  /-- The run-time function of a list's or graph's member. -/
  symbol : Text := []
  deriving DecidableEq, Repr

namespace Member

def runtimeMethod (family name : Text) (elem : Kind) (params : List Ty) (result : Ty) : Member :=
  { name, kind := .method, params, result,
    symbol := "pyrx_" ++ family ++ "_" ++ name ++ "_" ++ elem.name }

def size (family : Text) : Member :=
  { name := "size", kind := .field, result := .int, symbol := "pyrx_" ++ family ++ "_size" }

def ofList (elem : Kind) : List Member :=
  let e := Ty.scalar elem
  [size "list",
    runtimeMethod "list" "add" elem [e] .void,
    runtimeMethod "list" "insert" elem [e, .int] .void,
    runtimeMethod "list" "remove" elem [.int] e,
    runtimeMethod "list" "at" elem [.int] e]

def ofGraph (elem : Kind) : List Member :=
  let e := Ty.scalar elem
  [size "graph",
    runtimeMethod "graph" "add_node" elem [e] .void,
    runtimeMethod "graph" "remove_node" elem [e] .void,
    runtimeMethod "graph" "contains" elem [e] .bool,
    runtimeMethod "graph" "add_edge" elem [e, e] .void,
    runtimeMethod "graph" "remove_edge" elem [e, e] .void]

def ofFields (first : Nat) : List Param → List Member
  | [] => []
  | f :: fs =>
    { name := f.name, kind := .field, result := f.type, index := first } :: ofFields (first + 1) fs

def insert (m : Member) : List Member → List Member
  | [] => [m]
  | x :: xs => if x.name = m.name then m :: xs else x :: insert m xs

def sorted (ms : List Member) : List Member :=
  ms.mergeSort fun a b => !Text.before b.name a.name

end Member

structure MemberTable where
  entries : List (Text × List Member) := []
  deriving DecidableEq, Repr, Inhabited

namespace MemberTable

/-- Puts the members under a type name through `f`; an unknown name starts without any. -/
def alter (key : Text) (f : List Member → List Member) :
    List (Text × List Member) → List (Text × List Member)
  | [] => [(key, f [])]
  | (k, ms) :: rest => if k = key then (k, f ms) :: rest else (k, ms) :: alter key f rest

def add (t : MemberTable) (key : Text) (ms : List Member) : MemberTable :=
  { entries := alter key (fun old => ms.foldl (fun acc m => m.insert acc) old) t.entries }

def addOnce (t : MemberTable) (key : Text) (ms : List Member) : MemberTable :=
  if (t.entries.lookup key).isSome then t else t.add key ms

def registerList (t : MemberTable) (elem : Kind) : MemberTable :=
  t.addOnce (Ty.listOf elem).name (Member.ofList elem)

def registerGraph (t : MemberTable) (elem : Kind) : MemberTable :=
  t.addOnce (Ty.graphOf elem).name (Member.ofGraph elem)

/-- Makes the fields of a class known; a class without fields has no members at all. -/
def registerClass (t : MemberTable) (name : Text) (fields : List Param) : MemberTable :=
  if fields.isEmpty then { entries := alter name (fun _ => []) t.entries }
  else t.add name (Member.ofFields 0 fields)

def members (t : MemberTable) (type : Ty) : List Member := (t.entries.lookup type.name).getD []

def lookup? (t : MemberTable) (type : Ty) (name : Text) : Option Member :=
  (t.members type).find? fun m => m.name == name

end MemberTable

end Augite
