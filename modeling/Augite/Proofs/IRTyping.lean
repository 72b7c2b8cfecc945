import Mathlib
import Augite.IR.Verify

/-!
# Typing of the intermediate language

When a module is well typed. Operands carry their types; that these are the types of what
the operands refer to is part of the rules.
-/

namespace Augite.IR

/-- The types an instruction with two operands works on. -/
def Arith.Fits : Arith → Typ → Prop
  | .add, t | .sub, t | .mul, t | .sdiv, t | .srem, t => t = .i64
  | .fadd, t | .fsub, t | .fmul, t | .fdiv, t => t = .double
  | .and, t | .or, t | .xor, t => t = .i1

/-- The types a comparison of integers works on: those without a sign for chars, and those
with a sign for ints. Results of string comparison are tested for being equal only. -/
def IntTest.Fits : IntTest → Typ → Prop
  | .eq, t | .ne, t => t = .i64 ∨ t = .i8 ∨ t = .i1 ∨ t = .i32
  | .slt, t | .sle, t | .sgt, t | .sge, t => t = .i64
  | .ult, t | .ule, t | .ugt, t | .uge, t => t = .i8

/-- Argument types that a function takes: those of its parameters and, if it is variadic,
any more behind them. -/
def Takes (params : List Typ) (variadic : Bool) (args : List Typ) : Prop :=
  if variadic then params <+: args else args = params

/-- The instruction is well typed, given the structures of the module. -/
def Op.WellTyped (structs : List (Text × List Typ)) : Op → Prop
  | .alloca _ t => t ≠ .void
  | .load t x => x.type = .pointer t
  | .store x y => y.type = .pointer x.type
  | .arith op x y => x.type = y.type ∧ op.Fits x.type
  | .icmp test x y => x.type = y.type ∧ test.Fits x.type
  | .fcmp _ x y => x.type = .double ∧ y.type = .double
  | .sitofp x t => x.type = .i64 ∧ t = .double
  | .zext x t => (x.type = .i1 ∨ x.type = .i8) ∧ t = .i32
  | .fieldAddress base x indices field =>
    ∃ name fields, ∃ k : Nat, base = .named name ∧ x.type = .pointer base ∧
      structs.lookup name = some fields ∧ indices = [.int 32 0, .int 32 k] ∧
      fields[k]? = some field
  | .call callee args =>
    ∃ result params variadic, callee.type = .pointer (.function result params variadic) ∧
      Takes params variadic (args.map Value.type)
  | .fneg _ | .phi _ _ => False

/-- The operands of an instruction. -/
def Op.operands (op : Op) : List Value := op.operands?.getD []

/-- The terminator is well typed in a function with a given result. -/
def Term.WellTyped (result : Typ) : Term → Prop
  | .ret none => result = .void
  | .ret (some v) => v.type = result
  | .condBr test _ _ => test.type = .i1
  | .br _ | .unreachable => True
  | .switch => False

/-- In the function at place `fi` the operand refers to something that there is, and carries
its type. -/
def Value.RefersTo (m : Module) (fi : Nat) (f : Func) : Value → Prop
  | .const _ => True
  | .global i t => ∃ g, m.globals[i]? = some g ∧ g.init.type = t
  | .chars i n => ∃ g t, m.globals[i]? = some g ∧ g.init = .chars t ∧ t.length = n
  | .func i t => ∃ g, m.funcs[i]? = some g ∧ g.type = t
  | .param g i t => g = fi ∧ ∃ p, f.params[i]? = some p ∧ p.2 = t
  | .result id t =>
    ∃ b ∈ f.blocks, ∃ i ∈ b.insts, i.op.yieldsValue = true ∧ i.value = .result id t

/-- Operands refer to what there is, and none is void. -/
def Value.Sound (m : Module) (fi : Nat) (f : Func) (v : Value) : Prop :=
  v.RefersTo m fi f ∧ v.type ≠ .void

structure Block.WellTyped (m : Module) (fi : Nat) (f : Func) (b : Block) : Prop where
  insts : ∀ i ∈ b.insts, i.op.WellTyped m.structs ∧ ∀ v ∈ i.op.operands, v.Sound m fi f
  term : ∃ t, b.term = some t ∧ t.WellTyped f.result ∧ ∀ v ∈ t.operands, v.Sound m fi f

/-- Every instruction of every function is well typed, and no name is that of two functions. -/
structure Module.WellTyped (m : Module) : Prop where
  blocks : ∀ (fi : Nat) (f : Func), m.funcs[fi]? = some f → ∀ b ∈ f.blocks, b.WellTyped m fi f
  names : (m.funcs.map Func.name).Nodup

end Augite.IR
