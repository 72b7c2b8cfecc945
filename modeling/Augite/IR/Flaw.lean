import Augite.IR.Type

/-!
# Flaws of functions

What can be wrong with a function of a module. Blocks are counted from zero in their
function.
-/

namespace Augite.IR

inductive Flaw where
  | unterminated (block : Nat)
  | returnsNothing (block : Nat) (wanted : Typ)
  | returnsVoid (block : Nat)
  | returnsOther (block : Nat) (got wanted : Typ)
  | unsupportedTerminator (name : Text)
  | branchOutside (block : Nat)
  | unsupportedInstruction (name : Text)
  | foreignValue (opcode : Text) (block : Nat)
  | useBeforeDefinition (opcode : Text) (block : Nat)
  | notDominated (opcode : Text) (block source : Nat)
  deriving DecidableEq, Repr

def Flaw.message : Flaw → Text
  | unterminated b => "block " ++ Text.decimal b ++ " has no terminator"
  | returnsNothing b wanted =>
    "ret in block " ++ Text.decimal b ++ " returns nothing from a function returning " ++ wanted.text
  | returnsVoid b => "ret in block " ++ Text.decimal b ++ " returns a void value"
  | returnsOther b got wanted =>
    "ret in block " ++ Text.decimal b ++ " returns " ++ got.text ++ " from a function returning " ++
      wanted.text
  | unsupportedTerminator name => "unsupported terminator " ++ name
  | branchOutside b => "block " ++ Text.decimal b ++ " branches outside the function"
  | unsupportedInstruction name => "unsupported instruction " ++ name
  | foreignValue opcode b =>
    opcode ++ " in block " ++ Text.decimal b ++ " uses a value defined in another function"
  | useBeforeDefinition opcode b =>
    opcode ++ " in block " ++ Text.decimal b ++ " uses a value before its definition"
  | notDominated opcode b source =>
    opcode ++ " in block " ++ Text.decimal b ++ " uses a value from block " ++ Text.decimal source ++
      ", which does not dominate it"

end Augite.IR
