import Augite.IR.Number

/-!
# The written form of a module

Structure types, globals and functions in this order, with a blank line between sections
and between functions. What has no name of its own (an entry block, the result of an
instruction other than a stack slot, a parameter without a name) is numbered in its
function, in the order in which it is written.
-/

namespace Augite.IR

structure Names where
  funcs : List Text
  globals : List Text
  params : List Text
  blocks : List (Nat × Text)
  results : List (Nat × Text)

namespace Names

def func (ns : Names) (i : Nat) : Text := "@" ++ funcNameText ((ns.funcs[i]?).getD [])

def global (ns : Names) (i : Nat) : Text := "@" ++ valueNameText ((ns.globals[i]?).getD [])

def param (ns : Names) (i : Nat) : Text := "%" ++ (ns.params[i]?).getD []

def block (ns : Names) (id : Nat) : Text := "%" ++ (ns.blocks.lookup id).getD []

def result (ns : Names) (id : Nat) : Text := "%" ++ (ns.results.lookup id).getD []

end Names

/-! ### Numbering -/

def paramNames (n : Nat) : List (Text × Typ) → List Text × Nat
  | [] => ([], n)
  | (name, _) :: rest =>
    if name.isEmpty then
      let (names, m) := paramNames (n + 1) rest
      (Text.decimal n :: names, m)
    else
      let (names, m) := paramNames n rest
      (valueNameText name :: names, m)

def resultNames (n : Nat) : List Inst → List (Nat × Text) × Nat
  | [] => ([], n)
  | i :: rest =>
    match i.op with
    | .alloca name _ =>
      let (names, m) := resultNames n rest
      ((i.id, valueNameText name) :: names, m)
    | op =>
      if op.resultType = .void then resultNames n rest
      else
        let (names, m) := resultNames (n + 1) rest
        ((i.id, Text.decimal n) :: names, m)

def blockNames (n : Nat) : List Block → List (Nat × Text) × List (Nat × Text)
  | [] => ([], [])
  | b :: rest =>
    let (name, n) :=
      match b.label? with
      | some label => (nameText label, n)
      | none => (Text.decimal n, n + 1)
    let (results, n) := resultNames n b.insts
    let (blocks, more) := blockNames n rest
    ((b.id, name) :: blocks, results ++ more)

def Module.namesIn (m : Module) (f : Func) : Names :=
  let (params, n) := paramNames 0 f.params
  let (blocks, results) := blockNames n f.blocks
  { funcs := m.funcs.map Func.name, globals := m.globals.map Global.name, params, blocks, results }

/-! ### Operands and instructions -/

def Const.text : Const → Text
  | int bits v => intText bits v
  | double d => doubleText d
  | null _ => "null"
  | zeroed _ => "zeroinitializer"
  | chars t => "c" ++ quoted t
  | undef _ => "undef"

def Const.typed (c : Const) : Text := c.type.text ++ " " ++ c.text

def Value.text (ns : Names) : Value → Text
  | const c => c.text
  | global i _ => ns.global i
  | chars i size =>
    let t := Typ.array size .i8
    "getelementptr (" ++ t.text ++ ", " ++ t.text ++ "* " ++ ns.global i ++ ", i64 0, i64 0)"
  | func i _ => ns.func i
  | param _ i _ => ns.param i
  | result id _ => ns.result id

def Value.typed (ns : Names) (v : Value) : Text := v.type.text ++ " " ++ v.text ns

def Arith.word : Arith → Text
  | add => "add"
  | fadd => "fadd"
  | sub => "sub"
  | fsub => "fsub"
  | mul => "mul"
  | fmul => "fmul"
  | sdiv => "sdiv"
  | fdiv => "fdiv"
  | srem => "srem"
  | and => "and"
  | or => "or"
  | xor => "xor"

def IntTest.word : IntTest → Text
  | eq => "eq"
  | ne => "ne"
  | slt => "slt"
  | sle => "sle"
  | sgt => "sgt"
  | sge => "sge"
  | ult => "ult"
  | ule => "ule"
  | ugt => "ugt"
  | uge => "uge"

def FloatTest.word : FloatTest → Text
  | oeq => "oeq"
  | une => "une"
  | olt => "olt"
  | ole => "ole"
  | ogt => "ogt"
  | oge => "oge"

/-- What a call names before its callee: the result's type, or the whole type of a callee
that takes any number of arguments. -/
def calleeType : Typ → Typ
  | .pointer (.function result params variadic) =>
    if variadic then .function result params variadic else result
  | t => t

def Op.text (ns : Names) : Op → Text
  | alloca _ t => "alloca " ++ t.text
  | load t source => "load " ++ t.text ++ ", " ++ source.typed ns
  | store source target => "store " ++ source.typed ns ++ ", " ++ target.typed ns
  | arith op x y => op.word ++ " " ++ x.typed ns ++ ", " ++ y.text ns
  | icmp test x y => "icmp " ++ test.word ++ " " ++ x.typed ns ++ ", " ++ y.text ns
  | fcmp test x y => "fcmp " ++ test.word ++ " " ++ x.typed ns ++ ", " ++ y.text ns
  | sitofp x t => "sitofp " ++ x.typed ns ++ " to " ++ t.text
  | zext x t => "zext " ++ x.typed ns ++ " to " ++ t.text
  | fieldAddress base source indices _ =>
    "getelementptr " ++ Text.join ", " (base.text :: (source :: indices).map (Value.typed ns))
  | call callee args =>
    "call " ++ (calleeType callee.type).text ++ " " ++ callee.text ns ++
      "(" ++ Text.join ", " (args.map (Value.typed ns)) ++ ")"
  | fneg x => "fneg " ++ x.typed ns
  | phi incoming t => "phi " ++ t.text ++ " " ++ Text.join ", " (incoming.map (Value.text ns))

def Inst.text (ns : Names) (i : Inst) : Text :=
  if i.op.resultType = .void then i.op.text ns else ns.result i.id ++ " = " ++ i.op.text ns

def Term.text (ns : Names) : Term → Text
  | ret none => "ret void"
  | ret (some v) => "ret " ++ v.typed ns
  | br target => "br label " ++ ns.block target
  | condBr test yes no =>
    "br " ++ test.typed ns ++ ", label " ++ ns.block yes ++ ", label " ++ ns.block no
  | unreachable => "unreachable"
  | switch => "switch"

/-! ### Functions and modules -/

def Block.text (ns : Names) (b : Block) : Text :=
  let lines := b.insts.map (Inst.text ns) ++ (b.term.map (Term.text ns)).toList
  (ns.blocks.lookup b.id).getD [] ++ ":\n" ++
    lines.flatMap fun l => byte '\t' :: l ++ [byte '\n']

def Func.headText (f : Func) (ns : Names) : Text :=
  let params := (f.params.zip ns.params).map fun ((_, t), name) => t.text ++ " %" ++ name
  let params := if f.variadic then params ++ [Text.ofString "..."] else params
  f.result.text ++ " @" ++ funcNameText f.name ++ "(" ++ Text.join ", " params ++ ")"

def Module.funcText (m : Module) (f : Func) : Text :=
  let ns := m.namesIn f
  if f.blocks.isEmpty then "declare " ++ f.headText ns ++ "\n"
  else
    "define " ++ f.headText ns ++ " \x7b\n" ++ Text.join "\n" (f.blocks.map (Block.text ns)) ++
      "\x7d\n"

def structText (name : Text) (fields : List Typ) : Text :=
  let body : Text :=
    if fields.isEmpty then "\x7b\x7d" else "\x7b " ++ Text.join ", " (fields.map Typ.text) ++ " \x7d"
  "%" ++ nameText name ++ " = type " ++ body ++ "\n"

def Global.text (g : Global) : Text :=
  let word : Text := if g.isConstant then "private constant " else "global "
  "@" ++ valueNameText g.name ++ " = " ++ word ++ g.init.typed ++ "\n"

def Module.text (m : Module) : Text :=
  let sections : List Text :=
    [(m.structs.map fun (name, fields) => structText name fields).flatten,
      (m.globals.map Global.text).flatten,
      Text.join "\n" (m.funcs.map m.funcText)]
  Text.join "\n" (sections.filter fun t => !t.isEmpty)

end Augite.IR
