import Augite.IR.Opcode
import Augite.IR.Flaw
import Augite.IR.Flow

/-!
# Verification of modules

A function is well formed if every block is terminated, every return agrees with the
function's result type, every branch stays in the function, and every local operand of a
reachable instruction is defined earlier in its block or in a block that dominates it.
External functions have nothing to verify.
-/

namespace Augite.IR

def Op.operands? : Op → Option (List Value)
  | alloca _ _ => some []
  | load _ x => some [x]
  | store x y => some [x, y]
  | arith _ x y | icmp _ x y | fcmp _ x y => some [x, y]
  | sitofp x _ | zext x _ => some [x]
  | fieldAddress _ x indices _ => some (x :: indices)
  | call callee args => some (callee :: args)
  | fneg _ | phi _ _ => none

def Op.yieldsValue : Op → Bool
  | store _ _ => false
  | _ => true

def Term.operands : Term → List Value
  | ret v => v.toList
  | condBr test _ _ => [test]
  | br _ | unreachable | switch => []

def Term.targets? : Term → Option (List Nat)
  | ret _ | unreachable => some []
  | br target => some [target]
  | condBr _ yes no => some [yes, no]
  | switch => none

/-- Where a value is defined: parameters before the first instruction of the entry block. -/
structure Site where
  block : Nat
  /-- The number of instructions of the block up to the definition. -/
  index : Nat
  deriving DecidableEq, Repr

namespace Func

def blockIndex? (f : Func) (id : Nat) : Option Nat := f.blocks.findIdx? fun b => b.id == id

def checkReturn (f : Func) (bi : Nat) (v : Option Value) : Except Flaw Unit :=
  match v with
  | none => if f.result = .void then .ok () else .error (.returnsNothing bi f.result)
  | some v =>
    if v.type = .void then .error (.returnsVoid bi)
    else if v.type = f.result then .ok ()
    else .error (.returnsOther bi v.type f.result)

def targetIndices (f : Func) (bi : Nat) (t : Term) : Except Flaw (List Nat) :=
  match t.targets? with
  | none => .error (.unsupportedTerminator t.opcode)
  | some targets =>
    targets.mapM fun id =>
      match f.blockIndex? id with
      | some j => .ok j
      | none => .error (.branchOutside bi)

def successorsOf (f : Func) (bi : Nat) (b : Block) : Except Flaw (List Nat) :=
  match b.term with
  | none => .error (.unterminated bi)
  | some t => do
    if let .ret v := t then f.checkReturn bi v
    f.targetIndices bi t

def flowFrom (f : Func) (bi : Nat) : List Block → Except Flaw Flow
  | [] => .ok []
  | b :: bs => do
    let targets ← f.successorsOf bi b
    let rest ← f.flowFrom (bi + 1) bs
    return targets :: rest

def flow (f : Func) : Except Flaw Flow := f.flowFrom 0 f.blocks

def siteFrom (id bi : Nat) : List Block → Option Site
  | [] => none
  | b :: bs =>
    match b.insts.findIdx? fun i => i.id == id && i.op.yieldsValue with
    | some ii => some ⟨bi, ii + 1⟩
    | none => siteFrom id (bi + 1) bs

def site? (f : Func) (fi : Nat) : Value → Option Site
  | .param g i _ => if g = fi ∧ i < f.params.length then some ⟨0, 0⟩ else none
  | .result id _ => siteFrom id 0 f.blocks
  | _ => none

variable {n : Nat}

def checkOperand (f : Func) (fi : Nat) (dom : Flow.Table n) (opcode : Text) (bi ii : Nat) (v : Value) :
    Except Flaw Unit :=
  if v.isLocal then
    match f.site? fi v with
    | none => .error (.foreignValue opcode bi)
    | some s =>
      if s.block = bi then
        if s.index ≤ ii then .ok () else .error (.useBeforeDefinition opcode bi)
      else if dom.marks bi s.block then .ok ()
      else .error (.notDominated opcode bi s.block)
  else .ok ()

def checkOperands (f : Func) (fi : Nat) (dom : Flow.Table n) (opcode : Text) (bi ii : Nat)
    (vs : List Value) : Except Flaw Unit :=
  vs.forM (f.checkOperand fi dom opcode bi ii)

def checkInsts (f : Func) (fi : Nat) (dom : Flow.Table n) (bi ii : Nat) : List Inst → Except Flaw Unit
  | [] => .ok ()
  | i :: is => do
    match i.op.operands? with
    | none => throw (.unsupportedInstruction i.op.opcode)
    | some vs => f.checkOperands fi dom i.op.opcode bi ii vs
    f.checkInsts fi dom bi (ii + 1) is

def checkBlock (f : Func) (fi : Nat) (dom : Flow.Table n) (bi : Nat) (b : Block) : Except Flaw Unit := do
  f.checkInsts fi dom bi 0 b.insts
  match b.term with
  | some t => f.checkOperands fi dom t.opcode bi b.insts.length t.operands
  | none => return

def checkBlocks (f : Func) (fi : Nat) (dom : Flow.Table n) (reached : List Nat) (bi : Nat) :
    List Block → Except Flaw Unit
  | [] => .ok ()
  | b :: bs => do
    if reached.contains bi then f.checkBlock fi dom bi b
    f.checkBlocks fi dom reached (bi + 1) bs

def verify (f : Func) (fi : Nat) : Except Flaw Unit :=
  if f.blocks.isEmpty then .ok ()
  else do
    let g ← f.flow
    f.checkBlocks fi g.dominators g.reachable 0 f.blocks

end Func

def verifyFrom (fi : Nat) : List Func → Except (Text × Flaw) Unit
  | [] => .ok ()
  | f :: fs => do
    (f.verify fi).mapError fun flaw => (f.name, flaw)
    verifyFrom (fi + 1) fs

def Module.verify (m : Module) : Except (Text × Flaw) Unit := verifyFrom 0 m.funcs

end Augite.IR
