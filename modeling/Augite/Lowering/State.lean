import Augite.Pass
import Augite.Context
import Augite.Scope.Slots

/-!
# The state of lowering

Code is emitted into blocks that are all kept in one list, the arena; a block is known by
its place there. Stack slots stand together at the head of a function's entry block, in
the order of their declarations, whatever the entry block holds already.
-/

namespace Augite

namespace Lowering

/-- A block under construction and the function it belongs to. -/
structure Draft where
  func : Nat
  role : IR.Role
  insts : List IR.Inst := []
  term : Option IR.Term := none
  deriving DecidableEq, Repr

structure Body where
  func : Nat
  /-- Its signature; the entry point has none. -/
  sig : Option Signature
  entry : Nat
  /-- The block that takes the next instruction. -/
  cur : Nat
  /-- The number of stack slots at the head of the entry block. -/
  slots : Nat := 0
  /-- How often each local name has been asked for. -/
  names : List (Text × Nat) := []
  deriving DecidableEq, Repr

structure State where
  ctx : Context
  /-- The structure types of the classes. -/
  structs : List (Text × List IR.Typ) := []
  /-- The functions in order, without their blocks. -/
  heads : List IR.Func := []
  globals : List IR.Global := []
  /-- The addresses of the program's functions, the latest first. -/
  functions : List (Text × IR.Value) := []
  /-- The addresses of the external functions in use, the latest first. -/
  externals : List (Text × IR.Value) := []
  /-- The addresses of the global variables, the latest first. -/
  globalSlots : List (Text × IR.Value) := []
  /-- The addresses of the string constants, the latest first. -/
  strings : List (Text × IR.Value) := []
  arena : List Draft := []
  /-- The number of the next instruction. -/
  nextId : Nat := 0
  slots : Slots := {}
  body : Body := { func := 0, sig := none, entry := 0, cur := 0 }

namespace State

def draft? (s : State) (id : Nat) : Option Draft := s.arena[id]?

def done (s : State) : Bool := ((s.draft? s.body.cur).bind Draft.term).isSome

def targets : IR.Term → List Nat
  | .br t => [t]
  | .condBr _ yes no => [yes, no]
  | _ => []

def entering (s : State) (id : Nat) : Nat :=
  (s.arena.flatMap fun d => (d.term.map targets).getD []).count id

def blockCount (s : State) (func : Nat) : Nat := s.arena.countP fun d => d.func == func

end State

end Lowering

/-- A step of lowering that emits code and does not touch the tree. -/
abbrev Emit (α : Type) := Pass InternalError Lowering.State Unit α

namespace Emit

open Lowering (State Draft Body)

def fail {α : Type} (pos : Position) (cause : InternalCause) : Emit α :=
  Pass.stop () { pos, cause }

def amend (id : Nat) (f : Draft → Draft) : Emit Unit :=
  Pass.change fun s => { s with arena := s.arena.modify id f }

def inst (op : IR.Op) : Emit IR.Value := do
  let s ← Pass.state
  let i : IR.Inst := { id := s.nextId, op }
  Pass.put { s with nextId := s.nextId + 1 }
  amend s.body.cur fun d => { d with insts := d.insts ++ [i] }
  return i.value

def effect (op : IR.Op) : Emit Unit := do
  let _ ← inst op

def terminate (t : IR.Term) : Emit Unit := do
  let s ← Pass.state
  amend s.body.cur fun d => { d with term := some t }

def branch (target : Nat) : Emit Unit := do
  let s ← Pass.state
  if s.done then return else terminate (.br target)

def openBlock (func : Nat) (role : IR.Role) : Emit Nat := do
  let s ← Pass.state
  Pass.put { s with arena := s.arena ++ [{ func, role }] }
  return s.arena.length

def block (role : IR.Role) : Emit Nat := do
  let s ← Pass.state
  openBlock s.body.func role

def moveTo (id : Nat) : Emit Unit :=
  Pass.change fun s => { s with body := { s.body with cur := id } }

/-- A name that no other local of the function has had: the name itself at first, and with
a number behind it from then on. -/
def localName (name : Text) : Emit Text := do
  let s ← Pass.state
  let n := (s.body.names.lookup name).getD 0
  Pass.put { s with body := { s.body with names := (name, n + 1) :: s.body.names } }
  return if n = 0 then name else name ++ "." ++ Text.decimal n

def stackSlot (name : Text) (t : IR.Typ) : Emit IR.Value := do
  let name ← localName (name ++ ".addr")
  let s ← Pass.state
  let i : IR.Inst := { id := s.nextId, op := .alloca name t }
  let k := s.body.slots
  Pass.put { s with nextId := s.nextId + 1, body := { s.body with slots := k + 1 } }
  amend s.body.entry fun d => { d with insts := d.insts.take k ++ i :: d.insts.drop k }
  return i.value

def addFunction (head : IR.Func) : Emit IR.Value := do
  let s ← Pass.state
  Pass.put { s with heads := s.heads ++ [head] }
  return .func s.heads.length head.type

end Emit

end Augite
