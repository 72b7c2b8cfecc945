import Augite.Lowering.Statement
import Augite.Analysis.Program

/-!
# Lowering of programs

The functions of a program become functions of the module. Its other statements run in a
function of their own, the entry point, which stands behind them; the external functions
in use come last. Only a program that the last analysis of the context certified is lowered.
-/

namespace Augite

namespace Emit

open Lowering (State Body)

def structType (d : ClassDef) : Emit Unit := do
  let fields ← d.fields.mapM fun f => typeOf f.type
  Pass.change fun s => { s with structs := s.structs ++ [(d.name, fields)] }

def header (name : Text) (params : List Param) (result : Ty) : Emit Unit := do
  let ps ← params.mapM fun p => do return (p.name, ← typeOf p.type)
  let v ← addFunction { name, params := ps, result := ← typeOf result }
  Pass.change fun s => { s with functions := (name, v) :: s.functions }

def headers : List Node → Emit Unit
  | [] => return
  | .funcDef _ name params result _ :: rest => do
    header name params result
    headers rest
  | _ :: rest => headers rest

def enterFunction (func : Nat) (sig : Option Signature) : Emit Unit := do
  let entry ← openBlock func .entry
  Pass.change fun s => { s with body := { func, sig, entry, cur := entry } }

def parameters (func : Nat) (i : Nat) : List Param → Emit Unit
  | [] => return
  | p :: ps => do
    let t ← typeOf p.type
    let place ← stackSlot p.name t
    effect (.store (.param func i t) place)
    bind { name := p.name, storage := place, type := p.type, isParam := true }
    parameters func (i + 1) ps

/-- Ends a function whose body does not end with a terminator. -/
def finish (pos : Position) (name : Text) (result : Ty) : Emit Unit := do
  let s ← Pass.state
  if s.done then return
  else if result = .void then terminate (.ret none)
  else if s.body.cur ≠ s.body.entry ∧ s.entering s.body.cur = 0 then terminate .unreachable
  else fail pos (.endReached name result)

def finishMain : Emit Unit := do
  let s ← Pass.state
  if s.done then return else terminate (.ret (some (.int 32 0)))

end Emit

namespace Lowering

def funcIndex : IR.Value → Nat
  | .func i _ => i
  | _ => 0

def function (m : Mark) (name : Text) (params : List Param) (result : Ty) (body : List Node) :
    Lowering Node Node := do
  let n := Node.funcDef m name params result body
  let s ← Pass.state
  let func := ((s.functions.lookup name).map funcIndex).getD 0
  emit n (Emit.enterFunction func (s.ctx.funcs.lookup? name))
  let body ←
    (inScope do
      emit body (Emit.parameters func 0 params)
      stmts body).inside fun body => .funcDef m name params result body
  let n := Node.funcDef m name params result body
  emit n (Emit.finish m.pos name result)
  Pass.change fun s => { s with ctx := s.ctx.record (.generatedFunction name (s.blockCount func)) }
  return n

def items : List Node → Lowering (List Node) (List Node)
  | [] => return []
  | .funcDef m name params result body :: rest => do
    let s ← Pass.state
    let n ← (function m name params result body).inside fun n => n :: rest
    Pass.change fun t => { t with body := s.body }
    let rest ← (items rest).inside fun rest => n :: rest
    return n :: rest
  | n :: rest => do
    let s ← Pass.state
    if s.done then
      let rest ← (items rest).inside fun rest => n :: rest
      return n :: rest
    else
      let n ← (stmt n).inside fun n => n :: rest
      let rest ← (items rest).inside fun rest => n :: rest
      return n :: rest

def program (body : List Node) : Lowering (List Node) (List Node) := do
  let s ← Pass.state
  emit body (s.ctx.classes.forM Emit.structType)
  emit body (Emit.headers body)
  let main ← emit body (Emit.addFunction { name := "main", params := [], result := .i32 })
  emit body (Emit.enterFunction (funcIndex main) none)
  let body ← items body
  emit body Emit.finishMain
  Pass.change fun s =>
    { s with
      ctx := s.ctx.record
        (.generationComplete s.heads.length s.globals.length s.arena.length) }
  return body

def blocksFrom (func id : Nat) : List Draft → List IR.Block
  | [] => []
  | d :: ds =>
    let rest := blocksFrom func (id + 1) ds
    if d.func = func then { id, role := d.role, insts := d.insts, term := d.term } :: rest else rest

def State.module (s : State) : IR.Module :=
  { structs := s.structs
    globals := s.globals
    funcs := s.heads.mapIdx fun i f => { f with blocks := blocksFrom i 0 s.arena } }

end Lowering

def Program.lower (ctx : Context) (p : Program) :
    Except InternalError IR.Module × Context × Program :=
  match ctx.certified with
  | none => (.error { cause := .notAnalysed }, ctx, p)
  | some key =>
    if key ≠ p.key then (.error { cause := .otherProgram }, ctx, p)
    else
      let (r, s) := (Lowering.program p.body).run { ctx }
      let (result, body) := Pass.outcome r
      (result.map fun _ => s.module, s.ctx, { p with body })

end Augite
