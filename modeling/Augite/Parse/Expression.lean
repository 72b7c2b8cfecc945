import Augite.Parse.Feed
import Augite.Tree.Basic

/-!
# Reading expressions

Binary operators are read by precedence climbing: an operand, then operators of at least a
given level, each with a right operand of the next higher level. All of them associate to
the left. A unary operator takes the operand right behind it.
-/

namespace Augite.Parse

def binaryOp? : Lexeme → Option (BinaryOp × Nat)
  | .symbol .or => some (.or, 1)
  | .symbol .and => some (.and, 2)
  | .symbol .eq => some (.eq, 3)
  | .symbol .ne => some (.ne, 3)
  | .symbol .lt => some (.lt, 4)
  | .symbol .le => some (.le, 4)
  | .symbol .gt => some (.gt, 4)
  | .symbol .ge => some (.ge, 4)
  | .symbol .plus => some (.add, 5)
  | .symbol .minus => some (.sub, 5)
  | .symbol .star => some (.mul, 6)
  | .symbol .slash => some (.div, 6)
  | .symbol .percent => some (.rem, 6)
  | _ => none

def unaryOp? : Lexeme → Option UnaryOp
  | .symbol .minus => some .neg
  | .symbol .bang => some .not
  | _ => none

def literal? (pos : Position) : Lexeme → Option Node
  | .int v _ => some (.int (.at_ pos) v)
  | .float v _ => some (.float (.at_ pos) v)
  | .char b => some (.char (.at_ pos) b)
  | .string s => some (.string (.at_ pos) s)
  | .keyword .true_ => some (.bool (.at_ pos) true)
  | .keyword .false_ => some (.bool (.at_ pos) false)
  | _ => none

def access (pos : Position) (name member : Text) (parens : Bool) : Access :=
  { mark := .at_ pos, receiver := .at_ pos, name, member, parens }

mutual

/-- An expression whose operators outside parentheses bind at least as tightly as `least`. -/
def climbing (s : Feed) (least : Nat) : Outcome Node s.size :=
  (unary s).bind fun left t h => climb s.size least left t h
termination_by 6 * s.size + 3
decreasing_by all_goals omega

def climb (n least : Nat) (left : Node) (t : Feed) (h : t.size < n) : Outcome Node n :=
  match ht : t.rest with
  | [] => .ok left t h
  | tok :: rest =>
    match binaryOp? tok.lexeme with
    | none => .ok left t h
    | some (op, level) =>
      if level < least then .ok left t h
      else
        have hRest := Feed.size_withRest_lt ht
        match climbing (t.withRest rest) (level + 1) with
        | .error e u k => .error e u (by omega)
        | .ok right u k => climb n least (.binary (.at_ tok.pos) op left right) u (by omega)
termination_by 6 * t.size
decreasing_by all_goals omega

def unary (s : Feed) : Outcome Node s.size :=
  match hs : s.rest with
  | [] => s.fail s.stop (.unexpected .endOfInput)
  | tok :: rest =>
    have hRest := Feed.size_withRest_lt hs
    match unaryOp? tok.lexeme with
    | none => primary s.size tok (s.withRest rest) hRest
    | some op =>
      ((unary (s.withRest rest)).map (.unary (.at_ tok.pos) op)).lift (Nat.le_of_lt hRest)
termination_by 6 * s.size + 2
decreasing_by all_goals omega

/-- A literal, a variable, a call, a member access or an expression in parentheses, whose
first token has been taken. -/
def primary (n : Nat) (tok : Token) (t : Feed) (h : t.size < n) : Outcome Node n :=
  match literal? tok.pos tok.lexeme with
  | some node => .ok node t h
  | none =>
    match tok.lexeme with
    | .symbol .lparen =>
      ((climbing t 1).andThen fun inner u _ =>
        (u.symbol .rparen).map fun _ => inner).lift (Nat.le_of_lt h)
    | .ident name =>
      match ht : t.rest with
      | ⟨.symbol .lparen, _⟩ :: rest =>
        have hRest := Feed.size_withRest_lt ht
        ((operands (t.withRest rest) .rparen true).map (.call (.at_ tok.pos) name)).lift (by omega)
      | ⟨.symbol .dot, _⟩ :: rest =>
        have hRest := Feed.size_withRest_lt ht
        ((t.withRest rest).ident.bind fun (member, _) u hu =>
          match hMember : u.rest with
          | ⟨.symbol .lparen, _⟩ :: rest =>
            have hArgs := Feed.size_withRest_lt hMember
            ((operands (u.withRest rest) .rparen true).map
              (.dot (access tok.pos name member true))).lift (by omega)
          | _ => .ok (.dot (access tok.pos name member false) []) u hu).lift (by omega)
      | _ => .ok (.var (.at_ tok.pos) name) t h
    | l => .error ⟨tok.pos, .unexpected l⟩ t (Nat.le_of_lt h)
termination_by 6 * t.size + 5
decreasing_by all_goals omega

def operands (s : Feed) (closing : Symbol) (first : Bool) : Outcome (List Node) s.size :=
  if s.atSymbol closing then (s.symbol closing).map fun _ => []
  else if first then
    (climbing s 1).andThen fun e t _ => (operands t closing false).map (e :: ·)
  else
    (s.symbol .comma).andThen fun _ t _ =>
      (climbing t 1).andThen fun e u _ => (operands u closing false).map (e :: ·)
termination_by 6 * s.size + 4
decreasing_by all_goals omega

end

def expression (s : Feed) : Outcome Node s.size := climbing s 1

end Augite.Parse
