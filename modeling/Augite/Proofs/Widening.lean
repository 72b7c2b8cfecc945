import Augite.Proofs.Typing
import Augite.Lowering.Expression

/-!
# Places where an int is taken for a float

How many ints of an annotated tree are taken where a float is wanted: operands of mixed
arithmetic and comparison, arguments, elements of lists, values of definitions, assignments
and returns. Statements that are never lowered do not count: those behind one that always
returns, and the step of a counting loop whose body always returns.
-/

namespace Augite

/-- An int is taken for a float. -/
def Ty.widens (source target : Ty) : Nat := if source = .int ∧ target = .float then 1 else 0

namespace Node

mutual

/-- The places in an expression. -/
def widenings (F : Context) : Node → Nat
  | .binary _ _ l r =>
    let t := BinaryOp.operandType l.type r.type
    widenings F l + widenings F r + l.type.widens t + r.type.widens t
  | .unary _ _ x => widenings F x
  | .call _ name xs =>
    argWidenings F (((F.funcs.lookup? name).map Signature.params).getD []) xs
  | .dot a xs =>
    if a.mark.isClass then 0
    else argWidenings F (((F.members.lookup? a.receiver.type a.member).map Member.params).getD []) xs
  | _ => 0
termination_by structural n => n

/-- The places in arguments for parameters of given types. -/
def argWidenings (F : Context) (params : List Ty) : List Node → Nat
  | [] => 0
  | x :: xs =>
    widenings F x + x.type.widens (params.headD .unresolved) + argWidenings F params.tail xs
termination_by structural xs => xs

end

/-- The places in the elements of a list. -/
def elemWidenings (F : Context) (elem : Ty) (xs : List Node) : Nat :=
  (xs.map fun x => widenings F x + x.type.widens elem).sum

mutual

/-- The places in a statement of a function with a given result. -/
def stmtWidenings (F : Context) (result : Ty) : Node → Nat
  | .varDef _ _ t x => widenings F x + x.type.widens t
  | .assign m _ x => widenings F x + x.type.widens m.type
  | .fieldAssign m _ _ x => widenings F x + x.type.widens m.type
  | .ret _ (some x) => widenings F x + x.type.widens result
  | .branch _ _ test yes none => widenings F test + stmtsWidenings F result yes
  | .branch _ _ test yes (some no) =>
    widenings F test + stmtsWidenings F result yes + stmtsWidenings F result no
  | .whileLoop _ _ test body => widenings F test + stmtsWidenings F result body
  | .forLoop _ _ init test step body =>
    stmtWidenings F result init + widenings F test + stmtsWidenings F result body +
      if alwaysReturns body then 0 else stmtWidenings F result step
  | .print _ x => widenings F x
  | .listDecl _ _ k xs => elemWidenings F (.scalar k) xs
  | .exprStmt _ x => widenings F x
  | _ => 0
termination_by structural n => n

def stmtsWidenings (F : Context) (result : Ty) : List Node → Nat
  | [] => 0
  | n :: rest => stmtWidenings F result n + if returns n then 0 else stmtsWidenings F result rest
termination_by structural ns => ns

end

/-- The places in the items of a program. -/
def itemsWidenings (F : Context) : List Node → Nat
  | [] => 0
  | .funcDef _ _ _ result body :: rest => stmtsWidenings F result body + itemsWidenings F rest
  | n :: rest => stmtWidenings F .void n + itemsWidenings F rest

end Node

end Augite
