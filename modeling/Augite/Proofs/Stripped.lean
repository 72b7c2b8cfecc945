import Augite.Proofs.Bare
import Augite.Context
import Augite.Error.Compile
import Augite.Tree.Returns

/-!
# Trees and tables under a change of positions

A map of positions acts on all that holds positions: marks, parameters, trees, the classes
of a context, errors. A tree is stripped by putting its positions through such a map and
dropping its annotations. Its essence keeps those annotations that an analysis makes, and
drops the ones an analysis leaves as they were.
-/

namespace Augite

/-! ### Marks -/

namespace Mark

/-- The mark at another position and without annotations. -/
def strip (place : Position → Position) (m : Mark) : Mark := { pos := place m.pos }

/-- The mark at another position with its type, and with those flags that are asked for. -/
def essence (place : Position → Position) (keepGlobal keepClass : Bool) (m : Mark) : Mark :=
  { pos := place m.pos, type := m.type, isGlobal := keepGlobal && m.isGlobal,
    isClass := keepClass && m.isClass }

end Mark

def Param.move (place : Position → Position) (p : Param) : Param := { p with pos := place p.pos }

namespace Access

def strip (place : Position → Position) (a : Access) : Access :=
  { a with mark := a.mark.strip place, receiver := a.receiver.strip place }

def essence (place : Position → Position) (a : Access) : Access :=
  { a with mark := a.mark.essence place true true, receiver := a.receiver.essence place true true }

end Access

/-! ### Trees -/

namespace Node

mutual

/-- The tree with other positions and without annotations. -/
def strip (place : Position → Position) : Node → Node
  | .missing => .missing
  | .int m v => .int (m.strip place) v
  | .float m v => .float (m.strip place) v
  | .char m v => .char (m.strip place) v
  | .string m v => .string (m.strip place) v
  | .bool m v => .bool (m.strip place) v
  | .var m name => .var (m.strip place) name
  | .binary m op l r => .binary (m.strip place) op (strip place l) (strip place r)
  | .unary m op x => .unary (m.strip place) op (strip place x)
  | .call m name xs => .call (m.strip place) name (stripAll place xs)
  | .dot a xs => .dot (a.strip place) (stripAll place xs)
  | .varDecl m name t => .varDecl (m.strip place) name t
  | .varDef m name t x => .varDef (m.strip place) name t (strip place x)
  | .assign m name x => .assign (m.strip place) name (strip place x)
  | .fieldAssign m a xs x =>
    .fieldAssign (m.strip place) (a.strip place) (stripAll place xs) (strip place x)
  | .ret m none => .ret (m.strip place) none
  | .ret m (some x) => .ret (m.strip place) (some (strip place x))
  | .branch m _ test yes none =>
    .branch (m.strip place) none (strip place test) (stripAll place yes) none
  | .branch m _ test yes (some no) =>
    .branch (m.strip place) none (strip place test) (stripAll place yes) (some (stripAll place no))
  | .whileLoop m _ test body =>
    .whileLoop (m.strip place) none (strip place test) (stripAll place body)
  | .forLoop m _ init test step body =>
    .forLoop (m.strip place) none (strip place init) (strip place test) (strip place step)
      (stripAll place body)
  | .print m x => .print (m.strip place) (strip place x)
  | .listDecl m name k xs => .listDecl (m.strip place) name k (stripAll place xs)
  | .graphDecl m name k => .graphDecl (m.strip place) name k
  | .exprStmt m x => .exprStmt (m.strip place) (strip place x)
  | .funcDef m name params result body =>
    .funcDef (m.strip place) name (params.map (Param.move place)) result (stripAll place body)
  | .classDecl m name fields => .classDecl (m.strip place) name (fields.map (Param.move place))
  | .includeLib m library => .includeLib (m.strip place) library
  | .program m body => .program (m.strip place) (stripAll place body)
termination_by structural n => n

def stripAll (place : Position → Position) : List Node → List Node
  | [] => []
  | n :: rest => strip place n :: stripAll place rest
termination_by structural ns => ns

end

/-- The node itself, but an inclusion without annotations: no analysis makes any. -/
def cleared : Node → Node
  | .includeLib m library => .includeLib m.bare library
  | n => n

mutual

/-- The tree with other positions and the annotations that an analysis makes. -/
def essence (place : Position → Position) : Node → Node
  | .missing => .missing
  | .int m v => .int (m.essence place false false) v
  | .float m v => .float (m.essence place false false) v
  | .char m v => .char (m.essence place false false) v
  | .string m v => .string (m.essence place false false) v
  | .bool m v => .bool (m.essence place false false) v
  | .var m name => .var (m.essence place true true) name
  | .binary m op l r =>
    .binary (m.essence place false false) op (essence place l) (essence place r)
  | .unary m op x => .unary (m.essence place false false) op (essence place x)
  | .call m name xs => .call (m.essence place false false) name (essenceAll place xs)
  | .dot a xs => .dot (a.essence place) (essenceAll place xs)
  | .varDecl m name t => .varDecl (m.essence place true true) name t
  | .varDef m name t x => .varDef (m.essence place true false) name t (essence place x)
  | .assign m name x => .assign (m.essence place true false) name (essence place x)
  -- the arguments of a target are not analysed
  | .fieldAssign m a xs x =>
    .fieldAssign (m.essence place false true) (a.essence place) (stripAll place xs)
      (essence place x)
  | .ret m none => .ret (m.essence place false false) none
  | .ret m (some x) => .ret (m.essence place false false) (some (essence place x))
  | .branch m _ test yes none =>
    .branch (m.essence place false false) none (essence place test) (bodyEssence place yes) none
  | .branch m _ test yes (some no) =>
    .branch (m.essence place false false) none (essence place test) (bodyEssence place yes)
      (some (bodyEssence place no))
  | .whileLoop m _ test body =>
    .whileLoop (m.essence place false false) none (essence place test) (bodyEssence place body)
  | .forLoop m _ init test step body =>
    .forLoop (m.essence place false false) none (essence place init).cleared (essence place test)
      (essence place step).cleared (bodyEssence place body)
  | .print m x => .print (m.essence place false false) (essence place x)
  | .listDecl m name k xs => .listDecl (m.essence place true false) name k (essenceAll place xs)
  | .graphDecl m name k => .graphDecl (m.essence place true false) name k
  | .exprStmt m x => .exprStmt (m.essence place false false) (essence place x)
  | .funcDef m name params result body =>
    .funcDef (m.essence place false false) name (params.map (Param.move place)) result
      (bodyEssence place body)
  | .classDecl m name fields =>
    .classDecl (m.essence place false true) name (fields.map (Param.move place))
  | .includeLib m library => .includeLib (m.essence place false false) library
  | .program m body => .program (m.essence place false false) (bodyEssence place body)
termination_by structural n => n

def essenceAll (place : Position → Position) : List Node → List Node
  | [] => []
  | n :: rest => essence place n :: essenceAll place rest
termination_by structural ns => ns

/-- The essence of statements. -/
def bodyEssence (place : Position → Position) : List Node → List Node
  | [] => []
  | n :: rest => (essence place n).cleared :: bodyEssence place rest
termination_by structural ns => ns

end

/-- The essence of a statement. -/
def stmtEssence (place : Position → Position) (n : Node) : Node := (n.essence place).cleared

mutual

/-- Every access without parentheses is one without arguments. -/
def Plain : Node → Prop
  | .binary _ _ l r => Plain l ∧ Plain r
  | .unary _ _ x => Plain x
  | .call _ _ xs => AllPlain xs
  | .dot a xs => AllPlain xs ∧ (a.parens = false → xs = [])
  | .varDef _ _ _ x | .assign _ _ x | .fieldAssign _ _ _ x | .print _ x | .exprStmt _ x => Plain x
  | .ret _ (some x) => Plain x
  | .branch _ _ test yes none => Plain test ∧ AllPlain yes
  | .branch _ _ test yes (some no) => Plain test ∧ AllPlain yes ∧ AllPlain no
  | .whileLoop _ _ test body => Plain test ∧ AllPlain body
  | .forLoop _ _ init test step body => Plain init ∧ Plain test ∧ Plain step ∧ AllPlain body
  | .listDecl _ _ _ xs => AllPlain xs
  | .funcDef _ _ _ _ body | .program _ body => AllPlain body
  | _ => True
termination_by structural n => n

def AllPlain : List Node → Prop
  | [] => True
  | n :: rest => Plain n ∧ AllPlain rest
termination_by structural ns => ns

end

mutual

theorem IsExpr.plain {n : Node} (h : n.IsExpr) : n.Plain := by
  cases n with
  | binary m op l r => exact ⟨IsExpr.plain h.1, IsExpr.plain h.2⟩
  | unary m op x => exact IsExpr.plain (n := x) h
  | call m name xs => exact AllExpr.allPlain (show AllExpr xs from h)
  | dot a xs => exact ⟨AllExpr.allPlain h.1, h.2⟩
  | int | float | char | string | bool | var => trivial
  | ret m value => cases value <;> exact h.elim
  | branch m merge test yes no => cases no <;> exact h.elim
  | _ => exact h.elim
termination_by structural n

theorem AllExpr.allPlain {xs : List Node} (h : AllExpr xs) : AllPlain xs := by
  cases xs with
  | nil => trivial
  | cons x xs => exact ⟨IsExpr.plain h.1, AllExpr.allPlain h.2⟩
termination_by structural xs

end

theorem IsSimple.plain {n : Node} (h : n.IsSimple) : n.Plain := by
  cases n with
  | varDecl | graphDecl => trivial
  | varDef m name t x => exact h.2.2.plain
  | assign m name x | exprStmt m x => exact IsExpr.plain (n := x) h
  | fieldAssign m a xs x => exact h.2.2.plain
  | listDecl m name k xs => exact h.2.allPlain
  | ret m value => cases value <;> exact h.elim
  | branch m merge test yes no => cases no <;> exact h.elim
  | _ => exact h.elim

mutual

theorem IsStmt.plain {n : Node} (h : n.IsStmt) : n.Plain := by
  cases n with
  | ret m value =>
    cases value with
    | none => trivial
    | some x => exact IsExpr.plain (n := x) h
  | branch m merge test yes no =>
    cases no with
    | none => exact ⟨h.1.plain, AllStmt.allPlain h.2⟩
    | some no => exact ⟨h.1.plain, AllStmt.allPlain h.2.1, AllStmt.allPlain h.2.2⟩
  | whileLoop m merge test body => exact ⟨h.1.plain, AllStmt.allPlain h.2⟩
  | forLoop m merge init test step body =>
    exact ⟨h.1.plain, h.2.1.plain, h.2.2.1.plain, AllStmt.allPlain h.2.2.2⟩
  | print m x => exact IsExpr.plain (n := x) h
  | _ => exact IsSimple.plain h
termination_by structural n

theorem AllStmt.allPlain {ns : List Node} (h : AllStmt ns) : AllPlain ns := by
  cases ns with
  | nil => trivial
  | cons n rest => exact ⟨IsStmt.plain h.1, AllStmt.allPlain h.2⟩
termination_by structural ns

end

theorem IsItem.plain {n : Node} (h : n.IsItem) : n.Plain := by
  cases n with
  | includeLib | classDecl => trivial
  | funcDef m name params result body => exact h.2.2.allPlain
  | ret m value => exact IsStmt.plain (n := .ret m value) h
  | branch m merge test yes no => exact IsStmt.plain (n := .branch m merge test yes no) h
  | _ => exact IsStmt.plain h

/-- The items of the grammar have no arguments without parentheses. -/
theorem allPlain_of_isItem {ns : List Node} (h : ∀ n ∈ ns, n.IsItem) : AllPlain ns := by
  induction ns with
  | nil => trivial
  | cons n rest ih =>
    obtain ⟨hn, hrest⟩ := List.forall_mem_cons.mp h
    exact ⟨hn.plain, ih hrest⟩

variable (place : Position → Position)

@[simp] theorem length_stripAll (ns : List Node) : (stripAll place ns).length = ns.length := by
  induction ns with
  | nil => rfl
  | cons n rest ih => simp [stripAll, ih]

theorem className_strip (n : Node) : (n.strip place).className = n.className := by
  cases n with
  | ret m value => cases value <;> rfl
  | branch m merge test yes no => cases no <;> rfl
  | _ => rfl

theorem type_essence (n : Node) : (n.essence place).type = n.type := by
  cases n with
  | ret m value => cases value <;> rfl
  | branch m merge test yes no => cases no <;> rfl
  | _ => rfl

section Pos

variable {place} (hplace : place .none = .none)

include hplace

theorem pos_strip (n : Node) : (n.strip place).pos = place n.pos := by
  cases n with
  | missing => exact hplace.symm
  | ret m value => cases value <;> rfl
  | branch m merge test yes no => cases no <;> rfl
  | _ => rfl

theorem pos_essence (n : Node) : (n.essence place).pos = place n.pos := by
  cases n with
  | missing => exact hplace.symm
  | ret m value => cases value <;> rfl
  | branch m merge test yes no => cases no <;> rfl
  | _ => rfl

end Pos

theorem returns_cleared (n : Node) : returns n.cleared = returns n := by
  cases n <;> rfl

mutual

theorem returns_essence (n : Node) : returns (n.essence place) = returns n := by
  cases n with
  | ret m value => cases value <;> rfl
  | branch m merge test yes no =>
    cases no with
    | none => rfl
    | some no =>
      simp only [essence, returns, alwaysReturns_essence yes, alwaysReturns_essence no]
  | _ => rfl
termination_by structural n

theorem alwaysReturns_essence (ns : List Node) :
    alwaysReturns (bodyEssence place ns) = alwaysReturns ns := by
  cases ns with
  | nil => rfl
  | cons n rest =>
    simp only [bodyEssence, alwaysReturns, returns_cleared, returns_essence n,
      alwaysReturns_essence rest]
termination_by structural ns

end

end Node

/-! ### Tables -/

def ClassDef.move (place : Position → Position) (d : ClassDef) : ClassDef :=
  { d with fields := d.fields.map (Param.move place) }

def Context.move (place : Position → Position) (c : Context) : Context :=
  { c with classes := c.classes.map (ClassDef.move place) }

namespace Context

variable (place : Position → Position)

theorem class?_move (c : Context) (name : Text) :
    (c.move place).class? name = (c.class? name).map (ClassDef.move place) :=
  List.find?_map ..

theorem ofFields_move (first : Nat) (fields : List Param) :
    Member.ofFields first (fields.map (Param.move place)) = Member.ofFields first fields := by
  induction fields generalizing first with
  | nil => rfl
  | cons f fs ih => simp only [List.map_cons, Member.ofFields, ih, Param.move]

theorem registerClass_move (t : MemberTable) (name : Text) (fields : List Param) :
    t.registerClass name (fields.map (Param.move place)) = t.registerClass name fields := by
  simp only [MemberTable.registerClass, ofFields_move, List.isEmpty_map]

theorem addClass?_move (c : Context) (d : ClassDef) :
    (c.move place).addClass? (d.move place) = (c.addClass? d).map (move place) := by
  have hname : (d.move place).name = d.name := rfl
  unfold addClass?
  simp only [hname, class?_move, Option.isSome_map]
  split
  · rfl
  · simp only [move, ClassDef.move, registerClass_move, Option.map_some, List.map_append,
      List.map_cons, List.map_nil]

end Context

/-! ### Errors -/

def SyntaxError.move (place : Position → Position) (e : SyntaxError) : SyntaxError :=
  { e with pos := place e.pos }

def SemanticError.move (place : Position → Position) (e : SemanticError) : SemanticError :=
  { e with pos := place e.pos }

def InternalError.move (place : Position → Position) (e : InternalError) : InternalError :=
  { e with pos := place e.pos }

/-- The error at another position: its type, kind and other fields stay. -/
def CompileError.move (place : Position → Position) : CompileError → CompileError
  | grammar e => grammar (e.move place)
  | semantic e => semantic (e.move place)
  | internal e => internal (e.move place)

end Augite
