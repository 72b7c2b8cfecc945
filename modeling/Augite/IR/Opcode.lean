import Augite.IR.Text

/-!
# Opcodes

The words by which instructions and terminators are counted and named in messages.
-/

namespace Augite.IR

def Op.opcode : Op → Text
  | alloca _ _ => "alloca"
  | load _ _ => "load"
  | store _ _ => "store"
  | arith op _ _ => op.word
  | icmp _ _ _ => "icmp"
  | fcmp _ _ _ => "fcmp"
  | sitofp _ _ => "sitofp"
  | zext _ _ => "zext"
  | fieldAddress _ _ _ _ => "getelementptr"
  | call _ _ => "call"
  | fneg _ => "*ir.InstFNeg"
  | phi _ _ => "*ir.InstPhi"

/-- Both kinds of branch have one opcode. -/
def Term.opcode : Term → Text
  | ret _ => "ret"
  | br _ | condBr _ _ _ => "br"
  | unreachable => "unreachable"
  | switch => "*ir.TermSwitch"

def Block.opcodes (b : Block) : List Text :=
  b.insts.map (fun i => i.op.opcode) ++ (b.term.map Term.opcode).toList

def Func.opcodes (f : Func) : List Text := f.blocks.flatMap Block.opcodes

def Func.opcodeCounts (f : Func) : List (Text × Nat) :=
  f.opcodes.eraseDups.map fun w => (w, f.opcodes.count w)

end Augite.IR
