import Augite.Analysis.Expression
import Augite.Tree.Returns

/-!
# Analysis of statements

Statements are analysed in source order. A definition takes effect after its initial value
has been analysed; the arms of a conditional and the body of a loop have scopes of their
own, and a counting loop has one more around its header. Functions may call those defined
before them and themselves.
-/

namespace Augite.Analysis

variable {τ α : Type}

def inScope (p : Analysis τ α) : Analysis τ α := fun s =>
  let (result, t) := p { s with vars := s.vars.enter }
  (result, { t with vars := t.vars.leave })

/-- Makes a declared type usable: a class must exist, lists and graphs get their members. -/
def resolveType (tree : τ) (pos : Position) (t : Ty) : Analysis τ Unit := do
  let s ← Pass.state
  match t.kind with
  | .class_ =>
    if (s.ctx.class? t.className).isSome then return
    else
      reject tree
        { kind := .undeclaredIdentifier, pos, name := t.className, detail := "unknown class" }
  | .list => Pass.put { s with ctx := { s.ctx with members := s.ctx.members.registerList t.elem } }
  | .graph =>
    Pass.put { s with ctx := { s.ctx with members := s.ctx.members.registerGraph t.elem } }
  | _ => return

def declare (tree : τ) (pos : Position) (name : Text) (t : Ty) (initialized : Bool) :
    Analysis τ Variable := do
  let s ← Pass.state
  let (v, vars) ← accept tree (s.vars.declareAt pos name t initialized)
  Pass.put { s with vars }
  return v

def initialized (tree : τ) (pos : Position) (name : Text) : Analysis τ Unit := do
  let s ← Pass.state
  let vars ← accept tree (s.vars.markInitialized pos name)
  Pass.put { s with vars }

def declareAggregate (tree : τ) (m : Mark) (name : Text) (t : Ty) : Analysis τ Mark := do
  resolveType tree m.pos t
  let v ← declare tree m.pos name t true
  return { m with type := t, isGlobal := v.isGlobal }

def condition (n : Node) : Analysis Node Node := do
  let (n', t) ← expr n
  if t = .bool then return n'
  else
    reject n'
      { kind := .typeMismatch, pos := n.pos, expected := .bool, actual := t,
        detail := "condition" }

def elements (name : Text) (elem : Ty) : List Node → Analysis (List Node) (List Node)
  | [] => return []
  | x :: xs => do
    let (x', t) ← (expr x).inside fun x => x :: xs
    if elem.accepts t then
      let xs ← (elements name elem xs).inside fun xs => x' :: xs
      return x' :: xs
    else
      reject (x' :: xs)
        { kind := .typeMismatch, pos := x.pos, name, expected := elem, actual := t }

def checkFields (tree : τ) (seen : List Text) : List Param → Analysis τ Unit
  | [] => return
  | f :: fs =>
    if seen.contains f.name then
      reject tree { kind := .redeclaration, pos := f.pos, name := f.name }
    else if f.type.kind.isScalar then checkFields tree (f.name :: seen) fs
    else
      reject tree
        { kind := .typeMismatch, pos := f.pos, name := f.name, actual := f.type,
          detail := "class fields must have a scalar type" }

def classDecl (m : Mark) (name : Text) (fields : List Param) : Analysis Node Node := do
  let n := Node.classDecl m name fields
  checkFields n [] fields
  let s ← Pass.state
  match s.ctx.addClass? { name, fields } with
  | none => reject n { kind := .redeclaration, pos := m.pos, name }
  | some ctx =>
    Pass.put { s with ctx }
    return .classDecl { m with type := .classOf name, isClass := true } name fields

/-- Checks the value of a return, given by its type; no value is void. -/
def checkReturn (tree : τ) (m : Mark) (hasValue : Bool) (t : Ty) : Analysis τ Ty := do
  let s ← Pass.state
  match s.function with
  | none =>
    reject tree
      { kind := .returnTypeMismatch, pos := m.pos, expected := .void, actual := t,
        detail := "return outside a function" }
  | some f =>
    if f.result = .void then
      if hasValue then
        reject tree
          { kind := .returnTypeMismatch, pos := m.pos, name := f.name, expected := f.result,
            actual := t, detail := "void function returns a value" }
      else return f.result
    else if t = .void || !f.result.accepts t then
      reject tree
        { kind := .returnTypeMismatch, pos := m.pos, name := f.name, expected := f.result,
          actual := t }
    else return f.result

def beginFunction (tree : τ) (m : Mark) (name : Text) (params : List Param) (result : Ty) :
    Analysis τ Unit := do
  let s ← Pass.state
  if s.function.isSome || !s.vars.atModule then
    Pass.stop tree (.internal { pos := m.pos, cause := .nestedFunction })
  else
    params.forM fun p => resolveType tree p.pos p.type
    resolveType tree m.pos result
    let s ← Pass.state
    let sig : Signature := { name, params := params.map Param.type, result }
    let funcs ← accept tree (s.ctx.funcs.add m.pos sig)
    Pass.put { s with ctx := { s.ctx with funcs }, function := some sig }

def endFunction (tree : τ) (m : Mark) (name : Text) (params : List Param) (result : Ty)
    (body : List Node) : Analysis τ Unit := do
  Pass.change fun s => { s with function := none }
  if result ≠ .void ∧ Node.alwaysReturns body = false then
    reject tree
      { kind := .returnTypeMismatch, pos := m.pos, name, expected := result, actual := .void,
        detail := "missing return" }
  else
    Pass.change fun s =>
      { s with ctx := s.ctx.record (.analysedFunction name params.length result.name) }

def declareParams (tree : τ) (params : List Param) : Analysis τ Unit :=
  params.forM fun p => do
    let _ ← declare tree p.pos p.name p.type true

mutual

def stmt : Node → Analysis Node Node
  | .includeLib m library => return .includeLib m library
  | .classDecl m name fields => classDecl m name fields
  | .funcDef m name params result body => do
    beginFunction (.funcDef m name params result body) m name params result
    let body ←
      (inScope do
        declareParams body params
        stmts body).inside fun body => .funcDef m name params result body
    endFunction (.funcDef m name params result body) m name params result body
    return .funcDef (m.typed result) name params result body
  | .varDecl m name t => do
    resolveType (.varDecl m name t) m.pos t
    let isClass := t.kind == .class_
    let v ← declare (.varDecl m name t) m.pos name t isClass
    return .varDecl { m with type := t, isGlobal := v.isGlobal, isClass } name t
  | .varDef m name t x => do
    let (x, xt) ← (expr x).inside fun x => .varDef m name t x
    resolveType (.varDef m name t x) m.pos t
    if !t.accepts xt then
      reject (.varDef m name t x)
        { kind := .typeMismatch, pos := x.pos, name, expected := t, actual := xt }
    else
      let v ← declare (.varDef m name t x) m.pos name t false
      initialized (.varDef m name t x) m.pos name
      return .varDef { m with type := t, isGlobal := v.isGlobal } name t x
  | .assign m name x => do
    let s ← Pass.state
    let v ← accept (.assign m name x) (s.vars.find m.pos name)
    let (x, xt) ← (expr x).inside fun x => .assign m name x
    if !v.type.accepts xt then
      reject (.assign m name x)
        { kind := .typeMismatch, pos := x.pos, name, expected := v.type, actual := xt }
    else
      initialized (.assign m name x) m.pos name
      return .assign { m with type := v.type, isGlobal := v.isGlobal } name x
  | .fieldAssign m target xs x => do
    let (a, f) ← member (fun a => .fieldAssign m a xs x) target true
    let a := accessTyped a f.result
    let (x, xt) ← (expr x).inside fun x => .fieldAssign m a xs x
    if !f.result.accepts xt then
      reject (.fieldAssign m a xs x)
        { kind := .typeMismatch, pos := x.pos, expected := f.result, actual := xt }
    else return .fieldAssign { m with type := f.result, isClass := true } a xs x
  | .ret m none => do
    let t ← checkReturn (.ret m none) m false .void
    return .ret (m.typed t) none
  | .ret m (some x) => do
    let (x, xt) ← (expr x).inside fun x => .ret m (some x)
    let t ← checkReturn (.ret m (some x)) m true xt
    return .ret (m.typed t) (some x)
  | .branch m merge test yes none => do
    let test ← (condition test).inside fun test => .branch m merge test yes none
    let yes ← (inScope (stmts yes)).inside fun yes => .branch m merge test yes none
    return .branch (m.typed .void) none test yes none
  | .branch m merge test yes (some no) => do
    let test ← (condition test).inside fun test => .branch m merge test yes (some no)
    let yes ← (inScope (stmts yes)).inside fun yes => .branch m merge test yes (some no)
    let no ← (inScope (stmts no)).inside fun no => .branch m merge test yes (some no)
    return .branch (m.typed .void) none test yes (some no)
  | .whileLoop m merge test body => do
    let test ← (condition test).inside fun test => .whileLoop m merge test body
    let body ← (inScope (stmts body)).inside fun body => .whileLoop m merge test body
    return .whileLoop (m.typed .void) none test body
  | .forLoop m merge init test step body =>
    inScope do
      let init ← (stmt init).inside fun init => .forLoop m merge init test step body
      let test ← (condition test).inside fun test => .forLoop m merge init test step body
      let step ← (stmt step).inside fun step => .forLoop m merge init test step body
      let body ← (inScope (stmts body)).inside fun body => .forLoop m merge init test step body
      return .forLoop (m.typed .void) none init test step body
  | .print m x => do
    let (x, xt) ← (expr x).inside fun x => .print m x
    if xt.kind.isScalar then return .print (m.typed .void) x
    else
      reject (.print m x)
        { kind := .typeMismatch, pos := x.pos, actual := xt,
          detail := "print takes a scalar value" }
  | .listDecl m name elem xs => do
    let xs ← (elements name (.scalar elem) xs).inside fun xs => .listDecl m name elem xs
    let m ← declareAggregate (.listDecl m name elem xs) m name (.listOf elem)
    return .listDecl m name elem xs
  | .graphDecl m name elem => do
    let m ← declareAggregate (.graphDecl m name elem) m name (.graphOf elem)
    return .graphDecl m name elem
  | .exprStmt m x => do
    let (x, t) ← (expr x).inside fun x => .exprStmt m x
    return .exprStmt (m.typed t) x
  | n => Pass.stop n (.internal { pos := n.pos, cause := .misplaced n.className .statement })
termination_by structural n => n

def stmts : List Node → Analysis (List Node) (List Node)
  | [] => return []
  | s :: rest => do
    let s ← (stmt s).inside fun s => s :: rest
    let rest ← (stmts rest).inside fun rest => s :: rest
    return s :: rest
termination_by structural ns => ns

end

end Augite.Analysis
