import Augite.Position
import Augite.Ty
import Augite.Double.Basic

/-!
# Trees

The tree of a program. Every node carries a mark: the position it was read from and what
analysis found out about it. Loops and conditionals also carry the block in which control
resumes after them, once code has been generated for them.

Statements and expressions are nodes of one type, so that a tree put together by hand may
hold either in a place that takes only the other; the passes report such nodes.
-/

namespace Augite

structure Mark where
  pos : Position
  type : Ty := .unresolved
  /-- The variable lives at module level. -/
  isGlobal : Bool := false
  /-- The variable or receiver is a class instance. -/
  isClass : Bool := false
  deriving DecidableEq, Repr, Inhabited

namespace Mark

def at_ (pos : Position) : Mark := { pos }

def typed (m : Mark) (type : Ty) : Mark := { m with type }

def bare (m : Mark) : Mark := { pos := m.pos }

end Mark

structure Param where
  pos : Position
  name : Text
  type : Ty
  deriving DecidableEq, Repr, Inhabited

/-- The access `receiver.member`, with or without an argument list. -/
structure Access where
  mark : Mark
  receiver : Mark
  name : Text
  member : Text
  parens : Bool
  deriving DecidableEq, Repr, Inhabited

inductive Node where
  /-- A child that has been left out. -/
  | missing
  | int (mark : Mark) (value : Int64)
  | float (mark : Mark) (value : Double)
  | char (mark : Mark) (value : UInt8)
  | string (mark : Mark) (value : Text)
  | bool (mark : Mark) (value : Bool)
  | var (mark : Mark) (name : Text)
  | binary (mark : Mark) (op : BinaryOp) (left right : Node)
  | unary (mark : Mark) (op : UnaryOp) (operand : Node)
  | call (mark : Mark) (name : Text) (args : List Node)
  | dot (access : Access) (args : List Node)
  /-- The statement `name: T;`. -/
  | varDecl (mark : Mark) (name : Text) (declared : Ty)
  /-- The statement `name: T = value;`. -/
  | varDef (mark : Mark) (name : Text) (declared : Ty) (value : Node)
  | assign (mark : Mark) (name : Text) (value : Node)
  /-- The statement `receiver.member = value;`. -/
  | fieldAssign (mark : Mark) (target : Access) (args : List Node) (value : Node)
  | ret (mark : Mark) (value : Option Node)
  | branch (mark : Mark) (merge : Option Nat) (test : Node) (yes : List Node)
    (no : Option (List Node))
  | whileLoop (mark : Mark) (merge : Option Nat) (test : Node) (body : List Node)
  | forLoop (mark : Mark) (merge : Option Nat) (init test step : Node) (body : List Node)
  | print (mark : Mark) (value : Node)
  | listDecl (mark : Mark) (name : Text) (elem : Kind) (elements : List Node)
  | graphDecl (mark : Mark) (name : Text) (elem : Kind)
  | exprStmt (mark : Mark) (expr : Node)
  | funcDef (mark : Mark) (name : Text) (params : List Param) (result : Ty) (body : List Node)
  | classDecl (mark : Mark) (name : Text) (fields : List Param)
  | includeLib (mark : Mark) (library : Text)
  | program (mark : Mark) (body : List Node)
  deriving Repr, Inhabited

namespace Node

def mark : Node → Mark
  | missing => .at_ .none
  | int m _ | float m _ | char m _ | string m _ | bool m _ | var m _ => m
  | binary m _ _ _ | unary m _ _ | call m _ _ => m
  | dot a _ => a.mark
  | varDecl m _ _ | varDef m _ _ _ | assign m _ _ | fieldAssign m _ _ _ | ret m _ => m
  | branch m _ _ _ _ | whileLoop m _ _ _ | forLoop m _ _ _ _ _ | print m _ => m
  | listDecl m _ _ _ | graphDecl m _ _ | exprStmt m _ => m
  | funcDef m _ _ _ _ | classDecl m _ _ | includeLib m _ | program m _ => m

def pos (n : Node) : Position := n.mark.pos

def type (n : Node) : Ty := n.mark.type

def className : Node → Text
  | missing => "nil"
  | int _ _ => "IntLit"
  | float _ _ => "FloatLit"
  | char _ _ => "CharLit"
  | string _ _ => "StringLit"
  | bool _ _ => "BoolLit"
  | var _ _ => "Ident"
  | binary _ _ _ _ => "Binary"
  | unary _ _ _ => "Unary"
  | call _ _ _ => "Call"
  | dot _ _ => "DotCall"
  | varDecl _ _ _ => "VarDecl"
  | varDef _ _ _ _ => "VarDef"
  | assign _ _ _ => "Assign"
  | fieldAssign _ _ _ _ => "FieldAssign"
  | ret _ _ => "Return"
  | branch _ _ _ _ _ => "If"
  | whileLoop _ _ _ _ => "While"
  | forLoop _ _ _ _ _ _ => "For"
  | print _ _ => "Print"
  | listDecl _ _ _ _ => "ListDecl"
  | graphDecl _ _ _ => "GraphDecl"
  | exprStmt _ _ => "ExprStmt"
  | funcDef _ _ _ _ _ => "FuncDef"
  | classDecl _ _ _ => "ClassDecl"
  | includeLib _ _ => "Include"
  | program _ _ => "Program"

end Node

/-- A program: its items in source order. Its key tells it from other programs while its
tree is annotated or extended. -/
structure Program where
  key : Nat
  mark : Mark
  body : List Node
  deriving Repr, Inhabited

def Program.node (p : Program) : Node := .program p.mark p.body

end Augite
