import Augite.Lowering.Storage
import Augite.Tree.Basic

/-!
# Lowering of expressions

The code of an expression evaluates its operands from left to right and yields an operand.
An int is converted to a float exactly where its type and the type asked for say so.
-/

namespace Augite

namespace BinaryOp

def intTest : BinaryOp → IR.IntTest
  | ne => .ne
  | lt => .slt
  | le => .sle
  | gt => .sgt
  | ge => .sge
  | _ => .eq

/-- The comparison of chars, which have no sign. -/
def charTest : BinaryOp → IR.IntTest
  | ne => .ne
  | lt => .ult
  | le => .ule
  | gt => .ugt
  | ge => .uge
  | _ => .eq

def floatTest : BinaryOp → IR.FloatTest
  | ne => .une
  | lt => .olt
  | le => .ole
  | gt => .ogt
  | ge => .oge
  | _ => .oeq

def floatArith? : BinaryOp → Option IR.Arith
  | add => some .fadd
  | sub => some .fsub
  | mul => some .fmul
  | div => some .fdiv
  | _ => none

def intArith? : BinaryOp → Option IR.Arith
  | add => some .add
  | sub => some .sub
  | mul => some .mul
  | div => some .sdiv
  | rem => some .srem
  | _ => none

end BinaryOp

namespace Emit

open IR (Value)

def convert (v : Value) (source target : Ty) : Emit Value :=
  if source = .int ∧ target = .float then inst (.sitofp v .double) else return v

def compare (op : BinaryOp) (t : Ty) (l r : Value) : Emit Value :=
  if t = .float then inst (.fcmp op.floatTest l r)
  else if t = .string then do
    let order ← inst (.call (← comparer) [l, r])
    inst (.icmp op.intTest order (.int 32 0))
  else if t = .char then inst (.icmp op.charTest l r)
  else inst (.icmp op.intTest l r)

def binary (pos : Position) (op : BinaryOp) (lt rt : Ty) (l r : Value) : Emit Value := do
  let t := BinaryOp.operandType lt rt
  let l ← convert l lt t
  let r ← convert r rt t
  if op = .and then inst (.arith .and l r)
  else if op = .or then inst (.arith .or l r)
  else if op.isComparison then compare op t l r
  else
    match (if t = .float then op.floatArith? else op.intArith?) with
    | some a => inst (.arith a l r)
    | none => fail pos (.noInstruction op lt rt)

def unary (op : UnaryOp) (t : Ty) (v : Value) : Emit Value :=
  if op = .not then inst (.arith .xor v (.const (.bool true)))
  else if t = .float then inst (.arith .fsub (.const (.double (.zero false))) v)
  else inst (.arith .sub (.int 64 0) v)

def fieldType (t : Ty) (index : Nat) : Emit IR.Typ := do
  let s ← Pass.state
  return (((s.structs.lookup t.className).getD [])[index]?).getD .void

def fieldAddress (a : Access) : Emit Value := do
  let s ← Pass.state
  let t := a.receiver.type
  match s.ctx.members.lookup? t a.member with
  | some m =>
    if m.kind = .field then
      let base ← storage a.receiver.pos a.name a.receiver.isGlobal
      let whole ← typeOf t
      let field ← fieldType t m.index
      inst (.fieldAddress whole base [.int 32 0, .int 32 m.index] field)
    else fail a.mark.pos (.noField t a.member)
  | none => fail a.mark.pos (.noField t a.member)

mutual

def expr : Node → Emit Value
  | .int _ v => return .int 64 v.toInt
  | .float _ v => return .const (.double v)
  | .char _ v => return .int 8 v.toNat
  | .string _ v => string v
  | .bool _ v => return .const (.bool v)
  | .var m name => do
    let t ← typeOf m.type
    let source ← storage m.pos name m.isGlobal
    inst (.load t source)
  | .binary m op l r => do
    let lv ← expr l
    let rv ← expr r
    binary m.pos op l.type r.type lv rv
  | .unary m op x => do
    let v ← expr x
    unary op m.type v
  | .call m name xs => do
    let s ← Pass.state
    match s.functions.lookup name with
    | none => fail m.pos (.undeclaredCallee name)
    | some callee => do
      let params := ((s.ctx.funcs.lookup? name).map Signature.params).getD []
      let vs ← args params xs
      inst (.call callee vs)
  | .dot a xs =>
    if a.mark.isClass then do
      let t ← typeOf a.mark.type
      let source ← fieldAddress a
      inst (.load t source)
    else do
      let s ← Pass.state
      let t := a.receiver.type
      match s.ctx.members.lookup? t a.member with
      | none => fail a.mark.pos (.noMember t a.member)
      | some m => do
        let handle ← inst (.load .i8ptr (← storage a.receiver.pos a.name a.receiver.isGlobal))
        let vs ← args m.params xs
        inst (.call (← memberFunction m) (handle :: vs))
  | n => fail n.pos (.misplaced n.className .expression)
termination_by structural n => n

def args (params : List Ty) : List Node → Emit (List Value)
  | [] => return []
  | x :: xs => do
    let v ← expr x
    let v ← convert v x.type (params.headD .unresolved)
    let vs ← args params.tail xs
    return v :: vs
termination_by structural xs => xs

end

end Emit

end Augite
