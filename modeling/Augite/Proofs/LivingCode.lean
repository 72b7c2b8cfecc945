import Mathlib
import Augite.Lowering.Statement
import Augite.Tree.Returns

/-!
# What living code needs

The strings that the code of a tree uses and the variables that it makes room for, in their
order. Statements behind one that always returns have no code. The strings are the literals and
the formats by which values are printed.
-/

namespace Augite

/-- The room for a variable: that of a global one, or a stack slot. -/
inductive Room where
  | global (name : Text)
  | slot (name : Text)

namespace Room

/-- The room that a declaration makes. -/
def of (isGlobal : Bool) (name : Text) : Room := if isGlobal then .global name else .slot name

def global? : Room → Option Text
  | .global name => some name
  | .slot _ => none

def slot? : Room → Option Text
  | .global _ => none
  | .slot name => some name

end Room

namespace Node

mutual

/-- The strings that the code of an expression or a statement uses, in order. -/
def texts : Node → List Text
  | .string _ v => [v]
  | .binary _ _ l r => texts l ++ texts r
  | .unary _ _ x => texts x
  | .call _ _ xs => textsAll xs
  | .dot a xs => if a.mark.isClass then [] else textsAll xs
  | .varDef _ _ _ x | .assign _ _ x | .fieldAssign _ _ _ x | .exprStmt _ x => texts x
  | .listDecl _ _ _ xs => textsAll xs
  | .print _ x => texts x ++ (Lowering.format? x.type.kind).toList
  | .ret _ (some x) => texts x
  | .branch _ _ test yes none => texts test ++ livingTexts yes
  | .branch _ _ test yes (some no) => texts test ++ (livingTexts yes ++ livingTexts no)
  | .whileLoop _ _ test body => texts test ++ livingTexts body
  | .forLoop _ _ init test step body =>
    texts init ++ (texts test ++ (livingTexts body ++ if alwaysReturns body then [] else texts step))
  | .funcDef _ _ _ _ body => livingTexts body
  | _ => []
termination_by structural n => n

/-- The strings of several expressions. -/
def textsAll : List Node → List Text
  | [] => []
  | n :: rest => texts n ++ textsAll rest
termination_by structural ns => ns

/-- The strings of statements, up to one behind which control does not go on. -/
def livingTexts : List Node → List Text
  | [] => []
  | n :: rest => texts n ++ if returns n then [] else livingTexts rest
termination_by structural ns => ns

end

mutual

/-- The room that the code of a statement or a function makes, in order. -/
def rooms : Node → List Room
  | .varDecl m name _ | .varDef m name _ _ | .listDecl m name _ _ | .graphDecl m name _ =>
    [.of m.isGlobal name]
  | .branch _ _ _ yes none => livingRooms yes
  | .branch _ _ _ yes (some no) => livingRooms yes ++ livingRooms no
  | .whileLoop _ _ _ body => livingRooms body
  | .forLoop _ _ init _ step body =>
    rooms init ++ (livingRooms body ++ if alwaysReturns body then [] else rooms step)
  | .funcDef _ _ params _ body => params.map (fun p => .slot p.name) ++ livingRooms body
  | _ => []
termination_by structural n => n

/-- The room that statements make, up to one behind which control does not go on. -/
def livingRooms : List Node → List Room
  | [] => []
  | n :: rest => rooms n ++ if returns n then [] else livingRooms rest
termination_by structural ns => ns

end

/-- The global variables that a statement makes. -/
def globals (n : Node) : List Text := n.rooms.filterMap Room.global?

/-- The variables that a statement or a function makes stack slots for. -/
def locals (n : Node) : List Text := n.rooms.filterMap Room.slot?

/-- The variables that statements make stack slots for. -/
def livingLocals (ns : List Node) : List Text := (livingRooms ns).filterMap Room.slot?

/-- The variables that the entry point of a program makes stack slots for: those of the statements
that are no functions. -/
def entryLocals (ns : List Node) : List Text :=
  ns.flatMap fun
    | .funcDef _ _ _ _ _ => []
    | n => n.locals

/-- A function makes stack slots for its parameters and then for its living code. -/
theorem locals_funcDef (m : Mark) (name : Text) (params : List Param) (result : Ty)
    (body : List Node) :
    (funcDef m name params result body).locals = params.map Param.name ++ livingLocals body := by
  rw [locals, rooms, List.filterMap_append, List.filterMap_map]
  exact congrArg (· ++ _) (congrFun List.filterMap_eq_map' params)

section

variable {n : Node} (rest : List Node)

theorem livingTexts_cons (h : n.returns = false) :
    livingTexts (n :: rest) = texts n ++ livingTexts rest := by
  rw [livingTexts, h]
  rfl

theorem livingTexts_of_returns (h : n.returns = true) : livingTexts (n :: rest) = texts n := by
  rw [livingTexts, h, if_pos rfl, List.append_nil]

theorem livingRooms_cons (h : n.returns = false) :
    livingRooms (n :: rest) = rooms n ++ livingRooms rest := by
  rw [livingRooms, h]
  rfl

theorem livingRooms_of_returns (h : n.returns = true) : livingRooms (n :: rest) = rooms n := by
  rw [livingRooms, h, if_pos rfl, List.append_nil]

end

end Node

end Augite
