import Augite.Text.Basic

/-!
# Types

A type is a kind with, for lists and graphs, the kind of their elements and, for classes,
the class's name. Two types are equal exactly if all three parts are. The operator tables
say which operands an operator takes and what it yields.
-/

namespace Augite

inductive Kind where
  | unresolved
  | int
  | float
  | char
  | string
  | bool
  | void
  | list
  | graph
  | class_
  /-- A kind code outside the language. -/
  | other (code : Nat)
  deriving DecidableEq, Repr, Inhabited

namespace Kind

def ofCode : Nat → Kind
  | 0 => unresolved
  | 1 => int
  | 2 => float
  | 3 => char
  | 4 => string
  | 5 => bool
  | 6 => void
  | 7 => list
  | 8 => graph
  | 9 => class_
  | n => other n

def name : Kind → Text
  | unresolved => "unresolved"
  | int => "int"
  | float => "float"
  | char => "char"
  | string => "string"
  | bool => "bool"
  | void => "void"
  | list => "list"
  | graph => "graph"
  | class_ => "class"
  | other _ => "unknown"

/-- Values of a scalar kind fit in one register and may be elements of lists and graphs. -/
def isScalar : Kind → Bool
  | int | float | char | string | bool => true
  | _ => false

end Kind

structure Ty where
  kind : Kind
  elem : Kind := .unresolved
  className : Text := []
  deriving DecidableEq, Repr, Inhabited

namespace Ty

def unresolved : Ty := { kind := .unresolved }

def int : Ty := { kind := .int }

def float : Ty := { kind := .float }

def char : Ty := { kind := .char }

def string : Ty := { kind := .string }

def bool : Ty := { kind := .bool }

def void : Ty := { kind := .void }

def listOf (elem : Kind) : Ty := { kind := .list, elem }

def graphOf (elem : Kind) : Ty := { kind := .graph, elem }

def classOf (className : Text) : Ty := { kind := .class_, className }

def scalar (kind : Kind) : Ty := { kind }

def name (t : Ty) : Text :=
  match t.kind with
  | .list | .graph => t.kind.name ++ "<" ++ t.elem.name ++ ">"
  | .class_ => t.className
  | k => k.name

def elemType (t : Ty) : Ty := scalar t.elem

def isAggregate (t : Ty) : Bool := t.kind == .list || t.kind == .graph || t.kind == .class_

/-- A value of type `value` may be stored where `target` is expected: every resolved type
takes itself, and float also takes int. -/
def accepts (target value : Ty) : Bool :=
  if target.kind = .unresolved ∨ value.kind = .unresolved then false
  else target == value || (target == float && value == int)

end Ty

/-- A binary operator; a spelling outside the language is kept as it is. -/
inductive BinaryOp where
  | or
  | and
  | eq
  | ne
  | lt
  | le
  | gt
  | ge
  | add
  | sub
  | mul
  | div
  | rem
  | other (spelling : Text)
  deriving DecidableEq, Repr

namespace BinaryOp

def spelling : BinaryOp → Text
  | or => "||"
  | and => "&&"
  | eq => "=="
  | ne => "!="
  | lt => "<"
  | le => "<="
  | gt => ">"
  | ge => ">="
  | add => "+"
  | sub => "-"
  | mul => "*"
  | div => "/"
  | rem => "%"
  | other s => s

def all : List BinaryOp := [or, and, eq, ne, lt, le, gt, ge, add, sub, mul, div, rem]

def ofText (t : Text) : BinaryOp := (all.find? fun op => op.spelling == t).getD (other t)

/-- Comparisons yield a bool from two operands of one type. -/
def isComparison : BinaryOp → Bool
  | eq | ne | lt | le | gt | ge => true
  | _ => false

def isNumeric : Kind → Bool
  | .int | .float => true
  | _ => false

def arithmetic? (left right : Kind) : Option Kind :=
  if isNumeric left && isNumeric right then
    some (if left = .float ∨ right = .float then .float else .int)
  else none

def comparable (same : Kind → Bool) (left right : Kind) : Bool :=
  (isNumeric left && isNumeric right) || (left == right && same left)

def resultKind? (op : BinaryOp) (left right : Kind) : Option Kind :=
  match op with
  | add | sub | mul | div => arithmetic? left right
  | rem => if left = .int ∧ right = .int then some .int else none
  | lt | le | gt | ge =>
    if comparable (fun k => k == .char) left right then some .bool else none
  | eq | ne =>
    if comparable (fun k => k == .char || k == .bool || k == .string) left right then some .bool
    else none
  | and | or => if left = .bool ∧ right = .bool then some .bool else none
  | other _ => none

def resultType? (op : BinaryOp) (left right : Ty) : Option Ty :=
  if left.kind.isScalar && right.kind.isScalar then
    (op.resultKind? left.kind right.kind).map Ty.scalar
  else none

def operandType (left right : Ty) : Ty :=
  if left = .float ∨ right = .float then .float else left

end BinaryOp

/-- A unary operator; a spelling outside the language is kept as it is. -/
inductive UnaryOp where
  | neg
  | not
  | other (spelling : Text)
  deriving DecidableEq, Repr

namespace UnaryOp

def spelling : UnaryOp → Text
  | neg => "-"
  | not => "!"
  | other s => s

def ofText (t : Text) : UnaryOp :=
  if t = "-" then neg else if t = "!" then not else other t

def resultType? (op : UnaryOp) (operand : Ty) : Option Ty :=
  match op with
  | neg => if operand = .int ∨ operand = .float then some operand else none
  | not => if operand = .bool then some .bool else none
  | other _ => none

end UnaryOp

end Augite
