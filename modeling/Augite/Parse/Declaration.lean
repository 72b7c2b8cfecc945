import Augite.Parse.Expression

/-!
# Reading types and declarations

List and graph types are taken only after their library has been included, and only with
scalar elements. A list may be initialized by a list literal, a scalar by an expression,
graphs and class instances not at all.
-/

namespace Augite.Parse

def scalarType? : Lexeme → Option Ty
  | .keyword .int_ => some .int
  | .keyword .float_ => some .float
  | .keyword .char_ => some .char
  | .keyword .string_ => some .string
  | .keyword .bool_ => some .bool
  | _ => none

def library? : Lexeme → Option Library
  | .keyword .list_ => some .list
  | .keyword .graph_ => some .graph
  | _ => none

def containerOf : Library → Kind → Ty
  | .list, elem => .listOf elem
  | .graph, elem => .graphOf elem

mutual

def typeName (s : Feed) (allowVoid : Bool) : Outcome Ty s.size :=
  match hs : s.rest with
  | [] => s.fail s.stop (.expectedType .endOfInput)
  | tok :: rest =>
    have hRest := Feed.size_withRest_lt hs
    typeAfter s.size tok (s.withRest rest) hRest allowVoid
termination_by 2 * s.size
decreasing_by all_goals omega

def typeAfter (n : Nat) (tok : Token) (t : Feed) (h : t.size < n) (allowVoid : Bool) :
    Outcome Ty n :=
  match scalarType? tok.lexeme with
  | some ty => .ok ty t h
  | none =>
    match library? tok.lexeme with
    | some l =>
      if t.included.contains l then
        ((t.symbol .lt).andThen fun _ u _ =>
          (typeName u false).andThen fun elem v _ =>
            if elem.kind.isScalar then (v.symbol .gt).map fun _ => containerOf l elem.kind
            else v.fail tok.pos (.elementType l elem)).lift (Nat.le_of_lt h)
      else .error ⟨tok.pos, .notIncluded l⟩ t (Nat.le_of_lt h)
    | none =>
      match tok.lexeme with
      | .ident name => .ok (.classOf name) t h
      | .keyword .void_ =>
        if allowVoid then .ok .void t h else .error ⟨tok.pos, .misplacedVoid⟩ t (Nat.le_of_lt h)
      | l => .error ⟨tok.pos, .expectedType l⟩ t (Nat.le_of_lt h)
termination_by 2 * t.size + 1
decreasing_by all_goals omega

end

def resultType (n : Nat) (s : Feed) (h : s.size < n) : Outcome Ty n :=
  if s.atSymbol .arrow then
    ((s.symbol .arrow).andThen fun _ t _ => typeName t true).lift (Nat.le_of_lt h)
  else .ok .void s h

def listInitializer (t : Feed) : Outcome (List Node) t.size :=
  (t.symbol .assign).andThen fun _ u _ =>
    if u.atSymbol .lbracket then
      (u.symbol .lbracket).andThen fun _ v _ => operands v .rbracket true
    else u.fail u.cur.pos .listInitializer

def scalarInitializer (t : Feed) (ty : Ty) : Outcome Node t.size :=
  (t.symbol .assign).andThen fun _ u _ =>
    if u.atSymbol .lbracket then u.fail u.cur.pos (.listLiteral ty) else expression u

def declared (n : Nat) (pos : Position) (name : Text) (typePos : Position) (ty : Ty) (t : Feed)
    (h : t.size < n) : Outcome Node n :=
  let initialized := t.atSymbol .assign
  match ty.kind with
  | .list =>
    if initialized then
      ((listInitializer t).map (.listDecl (.at_ pos) name ty.elem)).lift (Nat.le_of_lt h)
    else .ok (.listDecl (.at_ pos) name ty.elem []) t h
  | .graph =>
    if initialized then (t.fail t.cur.pos .graphInitializer).lift (Nat.le_of_lt h)
    else .ok (.graphDecl (.at_ pos) name ty.elem) t h
  | .class_ =>
    if initialized then (t.fail typePos .classInitializer).lift (Nat.le_of_lt h)
    else .ok (.varDecl (.at_ pos) name ty) t h
  | _ =>
    if initialized then
      ((scalarInitializer t ty).map (.varDef (.at_ pos) name ty)).lift (Nat.le_of_lt h)
    else .ok (.varDecl (.at_ pos) name ty) t h

def declaration (s : Feed) : Outcome Node s.size :=
  s.ident.andThen fun (name, pos) t _ =>
    (t.symbol .colon).andThen fun _ u _ =>
      (typeName u false).bind fun ty v h => declared u.size pos name u.cur.pos ty v h

/-- The statement forms that end before a semicolon: a declaration, an assignment to a
variable or to a field, or an expression. -/
def simple (s : Feed) : Outcome Node s.size :=
  match hs : s.rest with
  | ⟨.ident _, _⟩ :: ⟨.symbol .colon, _⟩ :: _ => declaration s
  | ⟨.ident name, pos⟩ :: ⟨.symbol .assign, _⟩ :: rest =>
    ((expression (s.withRest rest)).map (.assign (.at_ pos) name)).lift
      (by simp only [Feed.withRest, Feed.size, hs, List.length_cons]; omega)
  | ⟨.ident name, pos⟩ :: ⟨.symbol .dot, _⟩ :: ⟨.ident member, _⟩ :: ⟨.symbol .assign, _⟩ ::
      rest =>
    ((expression (s.withRest rest)).map
      (.fieldAssign (.at_ pos) (access pos name member false) [])).lift
      (by simp only [Feed.withRest, Feed.size, hs, List.length_cons]; omega)
  | _ => (expression s).map (.exprStmt (.at_ s.cur.pos))

end Augite.Parse
