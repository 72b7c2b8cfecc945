import Augite.Lowering.Expression

/-!
# Lowering of statements

Each conditional and loop gets a block in which control resumes after it, and the
statement's node keeps the number of that block. Statements behind a terminated block are
not lowered. A block to which no branch leads is marked as unreachable.
-/

namespace Augite

abbrev Lowering (τ α : Type) := Pass InternalError Lowering.State τ α

namespace Lowering

variable {τ α : Type}

def emit (tree : τ) (e : Emit α) : Lowering τ α := e.inside fun _ => tree

def inScope (p : Lowering τ α) : Lowering τ α := fun s =>
  let (result, t) := p { s with slots := s.slots.enter }
  (result, { t with slots := t.slots.leave })

def format? : Kind → Option Text
  | .int => some "%lld\n"
  | .float => some "%f\n"
  | .char => some "%c\n"
  | .string => some "%s\n"
  | .bool => some "%d\n"
  | _ => none

end Lowering

namespace Emit

def print (pos : Position) (x : Node) : Emit Unit := do
  match Lowering.format? x.type.kind with
  | none => fail pos (.unprintable x.type)
  | some format =>
    let v ← expr x
    let v ←
      if x.type.kind = .bool ∨ x.type.kind = .char then inst (.zext v .i32) else pure v
    let f ← printer
    let t ← string format
    effect (.call f [t, v])

def returnFrom (pos : Position) (x : Option Node) : Emit Unit := do
  let s ← Pass.state
  match s.body.sig with
  | none => fail pos .returnOutside
  | some sig =>
    match x with
    | none => terminate (.ret none)
    | some x =>
      let v ← expr x
      let v ← convert v x.type sig.result
      terminate (.ret (some v))

def declaration (m : Mark) (name : Text) (t : Ty) : Emit Unit := do
  let place ← declare name t m.isGlobal
  if m.isClass && !m.isGlobal then effect (.store (.const (← zeroOf t)) place)

def definition (m : Mark) (name : Text) (t : Ty) (x : Node) : Emit Unit := do
  let v ← expr x
  let v ← convert v x.type t
  let place ← declare name t m.isGlobal
  effect (.store v place)

def assignment (m : Mark) (name : Text) (x : Node) : Emit Unit := do
  let v ← expr x
  let v ← convert v x.type m.type
  let place ← storage m.pos name m.isGlobal
  effect (.store v place)

def fieldAssignment (m : Mark) (a : Access) (x : Node) : Emit Unit := do
  let v ← expr x
  let v ← convert v x.type m.type
  let place ← fieldAddress a
  effect (.store v place)

def aggregate (m : Mark) (name maker : Text) : Emit IR.Value := do
  let place ← declare name m.type m.isGlobal
  let handle ← inst (.call (← external maker .i8ptr [] false) [])
  effect (.store handle place)
  return handle

def appendAll (add handle : IR.Value) (elem : Ty) : List Node → Emit Unit
  | [] => return
  | x :: xs => do
    let v ← expr x
    let v ← convert v x.type elem
    effect (.call add [handle, v])
    appendAll add handle elem xs

def list (m : Mark) (name : Text) (xs : List Node) : Emit Unit := do
  let handle ← aggregate m name "pyrx_list_new"
  if xs.isEmpty then return
  else
    let s ← Pass.state
    match s.ctx.members.lookup? m.type "add" with
    | none => fail m.pos (.noAddMember m.type)
    | some add =>
      let f ← memberFunction add
      appendAll f handle m.type.elemType xs

def sealBlock : Emit Unit := do
  let s ← Pass.state
  if s.entering s.body.cur = 0 then terminate .unreachable

end Emit

namespace Lowering

open Emit (block moveTo branch terminate)

mutual

def stmt : Node → Lowering Node Node
  | .includeLib m library => return .includeLib m library
  | .classDecl m name fields => return .classDecl m name fields
  | .varDecl m name t => do
    emit (.varDecl m name t) (Emit.declaration m name t)
    return .varDecl m name t
  | .varDef m name t x => do
    emit (.varDef m name t x) (Emit.definition m name t x)
    return .varDef m name t x
  | .assign m name x => do
    emit (.assign m name x) (Emit.assignment m name x)
    return .assign m name x
  | .fieldAssign m a xs x => do
    emit (.fieldAssign m a xs x) (Emit.fieldAssignment m a x)
    return .fieldAssign m a xs x
  | .listDecl m name elem xs => do
    emit (.listDecl m name elem xs) (Emit.list m name xs)
    return .listDecl m name elem xs
  | .graphDecl m name elem => do
    let _ ← emit (.graphDecl m name elem) (Emit.aggregate m name "pyrx_graph_new")
    return .graphDecl m name elem
  | .ret m x => do
    emit (.ret m x) (Emit.returnFrom m.pos x)
    return .ret m x
  | .branch m merge test yes none => do
    let n := Node.branch m merge test yes none
    let v ← emit n (Emit.expr test)
    let thenBlock ← emit n (block .ifThen)
    let endBlock ← emit n (block .ifEnd)
    let n := Node.branch m (some endBlock) test yes none
    emit n (terminate (.condBr v thenBlock endBlock))
    emit n (moveTo thenBlock)
    let yes ← (inScope (stmts yes)).inside fun yes => .branch m (some endBlock) test yes none
    let n := Node.branch m (some endBlock) test yes none
    emit n (branch endBlock)
    emit n (moveTo endBlock)
    emit n Emit.sealBlock
    return n
  | .branch m merge test yes (some no) => do
    let n := Node.branch m merge test yes (some no)
    let v ← emit n (Emit.expr test)
    let thenBlock ← emit n (block .ifThen)
    let endBlock ← emit n (block .ifEnd)
    let n := Node.branch m (some endBlock) test yes (some no)
    let elseBlock ← emit n (block .ifElse)
    emit n (terminate (.condBr v thenBlock elseBlock))
    emit n (moveTo thenBlock)
    let yes ←
      (inScope (stmts yes)).inside fun yes => .branch m (some endBlock) test yes (some no)
    let n := Node.branch m (some endBlock) test yes (some no)
    emit n (branch endBlock)
    emit n (moveTo elseBlock)
    let no ← (inScope (stmts no)).inside fun no => .branch m (some endBlock) test yes (some no)
    let n := Node.branch m (some endBlock) test yes (some no)
    emit n (branch endBlock)
    emit n (moveTo endBlock)
    emit n Emit.sealBlock
    return n
  | .whileLoop m merge test body => do
    let n := Node.whileLoop m merge test body
    let testBlock ← emit n (block .whileCond)
    let bodyBlock ← emit n (block .whileBody)
    let endBlock ← emit n (block .whileEnd)
    let n := Node.whileLoop m (some endBlock) test body
    emit n (branch testBlock)
    emit n (moveTo testBlock)
    let v ← emit n (Emit.expr test)
    emit n (terminate (.condBr v bodyBlock endBlock))
    emit n (moveTo bodyBlock)
    let body ← (inScope (stmts body)).inside fun body => .whileLoop m (some endBlock) test body
    let n := Node.whileLoop m (some endBlock) test body
    emit n (branch testBlock)
    emit n (moveTo endBlock)
    return n
  | .forLoop m merge init test step body =>
    inScope do
      let init ← (stmt init).inside fun init => .forLoop m merge init test step body
      let n := Node.forLoop m merge init test step body
      let testBlock ← emit n (block .forCond)
      let bodyBlock ← emit n (block .forBody)
      let stepBlock ← emit n (block .forStep)
      let endBlock ← emit n (block .forEnd)
      let n := Node.forLoop m (some endBlock) init test step body
      emit n (branch testBlock)
      emit n (moveTo testBlock)
      let v ← emit n (Emit.expr test)
      emit n (terminate (.condBr v bodyBlock endBlock))
      emit n (moveTo bodyBlock)
      let body ←
        (inScope (stmts body)).inside fun body => .forLoop m (some endBlock) init test step body
      let n := Node.forLoop m (some endBlock) init test step body
      emit n (branch stepBlock)
      emit n (moveTo stepBlock)
      let s ← Pass.state
      if s.entering stepBlock = 0 then
        emit n (terminate .unreachable)
        emit n (moveTo endBlock)
        return n
      else
        let step ← (stmt step).inside fun step => .forLoop m (some endBlock) init test step body
        let n := Node.forLoop m (some endBlock) init test step body
        emit n (branch testBlock)
        emit n (moveTo endBlock)
        return n
  | .print m x => do
    emit (.print m x) (Emit.print m.pos x)
    return .print m x
  | .exprStmt m x => do
    let _ ← emit (.exprStmt m x) (Emit.expr x)
    return .exprStmt m x
  | n => emit n (Emit.fail n.pos (.misplaced n.className .statement))
termination_by structural n => n

def stmts : List Node → Lowering (List Node) (List Node)
  | [] => return []
  | n :: rest => do
    let s ← Pass.state
    if s.done then return n :: rest
    else
      let n ← (stmt n).inside fun n => n :: rest
      let rest ← (stmts rest).inside fun rest => n :: rest
      return n :: rest
termination_by structural ns => ns

end

end Lowering

end Augite
