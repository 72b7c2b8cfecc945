import Augite.Lowering.State

/-!
# Types, storage, strings and external functions

How values are represented, where variables live, and what a module needs beyond the
program's own functions: one constant per distinct string and one declaration per
external function, made when first needed.
-/

namespace Augite.Emit

open Lowering (State)

/-- The representation of a type. Lists and graphs are handles. -/
def typeOf (t : Ty) : Emit IR.Typ := do
  let s ← Pass.state
  match t.kind with
  | .int => return .i64
  | .float => return .double
  | .char => return .i8
  | .bool => return .i1
  | .void => return .void
  | .string | .list | .graph => return .i8ptr
  | .class_ =>
    if (s.structs.lookup t.className).isSome then return .named t.className
    else fail .none (.noType t)
  | _ => fail .none (.noType t)

/-- The value a variable of a type has before it is assigned one. -/
def zeroOf (t : Ty) : Emit IR.Const := do
  match t.kind with
  | .int => return .int 64 0
  | .float => return .double (.zero false)
  | .char => return .int 8 0
  | .bool => return .bool false
  | .string | .list | .graph => return .null .i8ptr
  | _ => return .zeroed (← typeOf t)

def bind (slot : Slot) : Emit Unit := do
  let s ← Pass.state
  match s.slots.bind slot with
  | .ok slots => Pass.put { s with slots }
  | .error _ => fail .none (.rebinding slot.name)

def globalVariable (name : Text) (init : IR.Const) : Emit IR.Value := do
  let s ← Pass.state
  let v := IR.Value.global s.globals.length init.type
  Pass.put
    { s with
      globals := s.globals ++ [{ name := "g." ++ name, init }]
      globalSlots := (name, v) :: s.globalSlots }
  return v

def declare (name : Text) (t : Ty) (isGlobal : Bool) : Emit IR.Value := do
  let storage ←
    if isGlobal then do globalVariable name (← zeroOf t)
    else do stackSlot name (← typeOf t)
  bind { name, storage, type := t }
  return storage

def storage (pos : Position) (name : Text) (isGlobal : Bool) : Emit IR.Value := do
  let s ← Pass.state
  if isGlobal then
    match s.globalSlots.lookup name with
    | some v => return v
    | none => fail pos (.noGlobalStorage name)
  else
    match s.slots.find name with
    | .ok slot => return slot.storage
    | .error _ => fail pos (.noStorage name)

def string (t : Text) : Emit IR.Value := do
  let s ← Pass.state
  match s.strings.lookup t with
  | some v => return v
  | none =>
    let v := IR.Value.chars s.globals.length (t.length + 1)
    let name := ".str." ++ Text.decimal s.strings.length
    Pass.put
      { s with
        globals := s.globals ++ [{ name, init := .chars (t ++ [0]), isConstant := true }]
        strings := (t, v) :: s.strings }
    return v

/-- The address of an external function, which is declared when first needed. -/
def external (name : Text) (result : IR.Typ) (params : List IR.Typ) (variadic : Bool) :
    Emit IR.Value := do
  let s ← Pass.state
  match s.externals.lookup name with
  | some v => return v
  | none =>
    let v ← addFunction { name, params := params.map fun t => ([], t), result, variadic }
    Pass.change fun s => { s with externals := (name, v) :: s.externals }
    return v

def printer : Emit IR.Value := external "printf" .i32 [.i8ptr] true

def comparer : Emit IR.Value := external "strcmp" .i32 [.i8ptr, .i8ptr] false

/-- The external function of a list's or graph's member; it takes the handle first. -/
def memberFunction (m : Member) : Emit IR.Value := do
  let params ← m.params.mapM typeOf
  external m.symbol (← typeOf m.result) (.i8ptr :: params) false

end Augite.Emit
