import Augite.Pass
import Augite.Context
import Augite.Scope.Variables
import Augite.Error.Compile

/-!
# Analysis of expressions

The type of an expression, bottom up and from left to right. A variable that is read must
have a value; the receiver of a member access need not.
-/

namespace Augite

namespace Analysis

/-- What an analysis works on: the context, the variables in scope, and the function whose
body is being analysed. -/
structure State where
  ctx : Context
  vars : Variables := {}
  function : Option Signature := none

end Analysis

abbrev Analysis (τ α : Type) := Pass CompileError Analysis.State τ α

namespace Analysis

variable {τ α : Type}

def reject (tree : τ) (e : SemanticError) : Analysis τ α := Pass.stop tree (.semantic e)

def accept (tree : τ) : Except SemanticError α → Analysis τ α
  | .ok a => pure a
  | .error e => reject tree e

def useMark (m : Mark) (v : Variable) : Mark :=
  { m with type := v.type, isGlobal := v.isGlobal, isClass := v.type.kind == .class_ }

def receiverMarks (a : Access) (v : Variable) : Access :=
  let receiver := useMark a.receiver v
  { a with
    receiver
    mark := { a.mark with isGlobal := receiver.isGlobal, isClass := receiver.isClass } }

/-- The member an access refers to, and the access with its receiver annotated. A store
needs a field of a class. `wrap` makes a tree of an access. -/
def member (wrap : Access → τ) (a : Access) (store : Bool) : Analysis τ (Access × Member) := do
  let s ← Pass.state
  let v ← accept (wrap a) (s.vars.find a.receiver.pos a.name)
  if !v.type.isAggregate then
    reject (wrap a)
      { kind := .invalidDotCall, pos := a.mark.pos, name := a.name, actual := v.type }
  else
    let a := receiverMarks a v
    let unknown (detail : Text) : SemanticError :=
      { kind := .unknownMember, pos := a.mark.pos, name := a.name, member := a.member,
        actual := v.type, detail }
    match s.ctx.members.lookup? v.type a.member with
    | none => reject (wrap a) (unknown "")
    | some m =>
      match m.kind with
      | .field =>
        if a.parens then reject (wrap a) (unknown "field is not callable")
        else if store && !a.mark.isClass then reject (wrap a) (unknown "member is read-only")
        else return (a, m)
      | .method =>
        if !a.parens then reject (wrap a) (unknown "method must be called")
        else if store then reject (wrap a) (unknown "cannot assign to a method")
        else return (a, m)

def accessTyped (a : Access) (t : Ty) : Access := { a with mark := a.mark.typed t }

def checkCount (pos : Position) (name : Text) (params : List Ty) (xs : List Node) :
    Analysis (List Node) Unit :=
  if xs.length = params.length then return
  else
    reject xs
      { kind := .arityMismatch, pos, name, wantArgs := params.length, gotArgs := xs.length }

mutual

def expr : Node → Analysis Node (Node × Ty)
  | .int m v => return (.int (m.typed .int) v, .int)
  | .float m v => return (.float (m.typed .float) v, .float)
  | .char m v => return (.char (m.typed .char) v, .char)
  | .string m v => return (.string (m.typed .string) v, .string)
  | .bool m v => return (.bool (m.typed .bool) v, .bool)
  | .var m name => do
    let s ← Pass.state
    let v ← accept (.var m name) (s.vars.read m.pos name)
    return (.var (useMark m v) name, v.type)
  | .binary m op l r => do
    let (l, lt) ← (expr l).inside fun l => .binary m op l r
    let (r, rt) ← (expr r).inside fun r => .binary m op l r
    match op.resultType? lt rt with
    | some t => return (.binary (m.typed t) op l r, t)
    | none =>
      reject (.binary m op l r)
        { kind := .typeMismatch, pos := m.pos, op := op.spelling, left := lt, right := rt }
  | .unary m op x => do
    let (x, xt) ← (expr x).inside fun x => .unary m op x
    match op.resultType? xt with
    | some t => return (.unary (m.typed t) op x, t)
    | none =>
      reject (.unary m op x)
        { kind := .typeMismatch, pos := m.pos, op := op.spelling, right := xt }
  | .call m name xs => do
    let s ← Pass.state
    match s.ctx.funcs.lookup? name with
    | none => reject (.call m name xs) { kind := .undeclaredFunction, pos := m.pos, name }
    | some sig => do
      (checkCount m.pos name sig.params xs).inside fun xs => .call m name xs
      let xs ← (args name 1 sig.params xs).inside fun xs => .call m name xs
      return (.call (m.typed sig.result) name xs, sig.result)
  | .dot a xs => do
    let (a, m) ← member (fun a => .dot a xs) a false
    if m.kind = .method then
      let name := a.name ++ "." ++ a.member
      (checkCount a.mark.pos name m.params xs).inside fun xs => .dot a xs
      let xs ← (args name 1 m.params xs).inside fun xs => .dot a xs
      return (.dot (accessTyped a m.result) xs, m.result)
    else return (.dot (accessTyped a m.result) xs, m.result)
  | n =>
    Pass.stop n (.internal { pos := n.pos, cause := .misplaced n.className .expression })
termination_by structural n => n

def args (name : Text) (arg : Nat) : List Ty → List Node → Analysis (List Node) (List Node)
  | p :: ps, x :: xs => do
    let (x', t) ← (expr x).inside fun x => x :: xs
    if p.accepts t then
      let xs ← (args name (arg + 1) ps xs).inside fun xs => x' :: xs
      return x' :: xs
    else
      reject (x' :: xs)
        { kind := .argumentTypeMismatch, pos := x.pos, name, arg, expected := p, actual := t }
  | _, xs => return xs
termination_by structural _ xs => xs

end

end Analysis

end Augite
