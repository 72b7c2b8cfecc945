import Augite.IR.Type
import Augite.Double.Basic

/-!
# Modules of the intermediate language

A module has structure types, global variables and functions. A function has blocks, each
a sequence of instructions with a terminator behind it. Blocks and instructions carry
numbers that are unique in a module, by which branches and operands refer to them.
-/

namespace Augite.IR

inductive Const where
  | int (bits : Nat) (value : Int)
  | double (value : Double)
  | null (type : Typ)
  | zeroed (type : Typ)
  | chars (contents : Text)
  | undef (type : Typ)
  deriving DecidableEq, Repr

namespace Const

def type : Const → Typ
  | int bits _ => .int bits
  | double _ => .double
  | null t | zeroed t | undef t => t
  | chars t => .array t.length .i8

def bool (b : Bool) : Const := int 1 (if b then 1 else 0)

end Const

/-- An operand. A reference carries the type of what it refers to. -/
inductive Value where
  | const (c : Const)
  | global (index : Nat) (contents : Typ)
  /-- The address of the first byte of a string constant. -/
  | chars (index : Nat) (size : Nat)
  | func (index : Nat) (type : Typ)
  | param (func index : Nat) (type : Typ)
  | result (id : Nat) (type : Typ)
  deriving DecidableEq, Repr

namespace Value

def type : Value → Typ
  | const c => c.type
  | global _ t => .pointer t
  | chars _ _ => .i8ptr
  | func _ t => .pointer t
  | param _ _ t | result _ t => t

def int (bits : Nat) (value : Int) : Value := const (.int bits value)

def isLocal : Value → Bool
  | param _ _ _ | result _ _ => true
  | _ => false

end Value

/-- Instructions with two operands of one type, which is also the type of the result. -/
inductive Arith where
  | add
  | fadd
  | sub
  | fsub
  | mul
  | fmul
  | sdiv
  | fdiv
  | srem
  | and
  | or
  | xor
  deriving DecidableEq, Repr

inductive IntTest where
  | eq
  | ne
  | slt
  | sle
  | sgt
  | sge
  | ult
  | ule
  | ugt
  | uge
  deriving DecidableEq, Repr

inductive FloatTest where
  | oeq
  | une
  | olt
  | ole
  | ogt
  | oge
  deriving DecidableEq, Repr

inductive Op where
  | alloca (name : Text) (type : Typ)
  | load (type : Typ) (source : Value)
  | store (source target : Value)
  | arith (op : Arith) (x y : Value)
  | icmp (test : IntTest) (x y : Value)
  | fcmp (test : FloatTest) (x y : Value)
  | sitofp (x : Value) (type : Typ)
  | zext (x : Value) (type : Typ)
  | fieldAddress (base : Typ) (source : Value) (indices : List Value) (field : Typ)
  | call (callee : Value) (args : List Value)
  /-- Instructions that the language knows and no program is lowered to. -/
  | fneg (x : Value)
  | phi (incoming : List Value) (type : Typ)
  deriving DecidableEq, Repr

def Typ.callResult : Typ → Typ
  | .pointer (.function result _ _) => result
  | _ => .void

namespace Op

def resultType : Op → Typ
  | alloca _ t => .pointer t
  | load t _ => t
  | store _ _ => .void
  | arith _ x _ => x.type
  | icmp _ _ _ | fcmp _ _ _ => .i1
  | sitofp _ t | zext _ t => t
  | fieldAddress _ _ _ field => .pointer field
  | call callee _ => callee.type.callResult
  | fneg x => x.type
  | phi _ t => t

end Op

structure Inst where
  id : Nat
  op : Op
  deriving DecidableEq, Repr

def Inst.value (i : Inst) : Value := .result i.id i.op.resultType

inductive Term where
  | ret (value : Option Value)
  | br (target : Nat)
  | condBr (test : Value) (yes no : Nat)
  | unreachable
  /-- A terminator that the language knows and no program is lowered to. -/
  | switch
  deriving DecidableEq, Repr

inductive Role where
  | entry
  | ifThen
  | ifEnd
  | ifElse
  | whileCond
  | whileBody
  | whileEnd
  | forCond
  | forBody
  | forStep
  | forEnd
  deriving DecidableEq, Repr, Inhabited

def Role.word : Role → Text
  | entry => ""
  | ifThen => "if.then"
  | ifEnd => "if.end"
  | ifElse => "if.else"
  | whileCond => "while.cond"
  | whileBody => "while.body"
  | whileEnd => "while.end"
  | forCond => "for.cond"
  | forBody => "for.body"
  | forStep => "for.step"
  | forEnd => "for.end"

structure Block where
  id : Nat
  role : Role
  insts : List Inst
  term : Option Term
  deriving DecidableEq, Repr

def Block.label? (b : Block) : Option Text :=
  match b.role with
  | .entry => none
  | r => some (r.word ++ "." ++ Text.decimal b.id)

structure Func where
  name : Text
  /-- Names and types of the parameters; an empty name is no name. -/
  params : List (Text × Typ)
  result : Typ
  variadic : Bool := false
  blocks : List Block := []
  deriving DecidableEq, Repr

namespace Func

def type (f : Func) : Typ := .function f.result (f.params.map Prod.snd) f.variadic

end Func

structure Global where
  name : Text
  init : Const
  isConstant : Bool := false
  deriving DecidableEq, Repr

structure Module where
  structs : List (Text × List Typ) := []
  globals : List Global := []
  funcs : List Func := []
  deriving DecidableEq, Repr

end Augite.IR
