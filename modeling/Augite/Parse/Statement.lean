import Augite.Parse.Declaration

/-!
# Reading statements

A statement ends with a semicolon or with a block. Functions, classes and inclusions are
no statements: they stand at the top level of a program only.
-/

namespace Augite.Parse

def condition (s : Feed) : Outcome Node s.size :=
  (s.symbol .lparen).andThen fun _ t _ =>
    (expression t).andThen fun test u _ => (u.symbol .rparen).map fun _ => test

def returned (s : Feed) : Outcome (Option Node) s.size :=
  if s.atSymbol .semicolon then (s.symbol .semicolon).map fun _ => none
  else (expression s).andThen fun v t _ => (t.symbol .semicolon).map fun _ => some v

def printed (s : Feed) : Outcome Node s.size :=
  (condition s).andThen fun v t _ => (t.symbol .semicolon).map fun _ => v

def forHead (s : Feed) : Outcome (Node × Node × Node) s.size :=
  (s.symbol .lparen).andThen fun _ s _ =>
    (simple s).andThen fun init s _ =>
      (s.symbol .semicolon).andThen fun _ s _ =>
        (expression s).andThen fun test s _ =>
          (s.symbol .semicolon).andThen fun _ s _ =>
            (simple s).andThen fun step s _ => (s.symbol .rparen).map fun _ => (init, test, step)

def simpleStatement (s : Feed) : Outcome Node s.size :=
  (simple s).andThen fun n t _ => (t.symbol .semicolon).map fun _ => n

mutual

def statement (s : Feed) : Outcome Node s.size :=
  match hs : s.rest with
  | [] => simpleStatement s
  | tok :: rest =>
    have hRest := Feed.size_withRest_lt hs
    match tok.lexeme with
    | .keyword .def_ => s.fail tok.pos (.topLevelOnly .def_)
    | .keyword .class_ => s.fail tok.pos (.topLevelOnly .class_)
    | .keyword .include_ => s.fail tok.pos (.topLevelOnly .include_)
    | .keyword .return_ =>
      ((returned (s.withRest rest)).map (.ret (.at_ tok.pos))).lift (Nat.le_of_lt hRest)
    | .keyword .if_ => (branch tok.pos (s.withRest rest)).lift (Nat.le_of_lt hRest)
    | .keyword .while_ =>
      ((condition (s.withRest rest)).andThen fun test t _ =>
        (block t).map (.whileLoop (.at_ tok.pos) none test)).lift (Nat.le_of_lt hRest)
    | .keyword .for_ =>
      ((forHead (s.withRest rest)).andThen fun (init, test, step) t _ =>
        (block t).map (.forLoop (.at_ tok.pos) none init test step)).lift (Nat.le_of_lt hRest)
    | .keyword .print_ =>
      ((printed (s.withRest rest)).map (.print (.at_ tok.pos))).lift (Nat.le_of_lt hRest)
    | _ => simpleStatement s
termination_by 3 * s.size
decreasing_by all_goals omega

/-- A conditional whose keyword, at `pos`, has been taken. A conditional right after `else`
is the only statement of that arm. -/
def branch (pos : Position) (s : Feed) : Outcome Node s.size :=
  (condition s).andThen fun test t _ =>
    (block t).bind fun yes u hu =>
      match hElse : u.rest with
      | ⟨.keyword .else_, _⟩ :: rest =>
        have hRest := Feed.size_withRest_lt hElse
        match hIf : (u.withRest rest).rest with
        | ⟨.keyword .if_, at_⟩ :: rest' =>
          have hRest' := Feed.size_withRest_lt hIf
          ((branch at_ ((u.withRest rest).withRest rest')).map fun other =>
            .branch (.at_ pos) none test yes (some [other])).lift (by omega)
        | _ =>
          ((block (u.withRest rest)).map fun no =>
            .branch (.at_ pos) none test yes (some no)).lift (by omega)
      | _ => .ok (.branch (.at_ pos) none test yes none) u hu
termination_by 3 * s.size
decreasing_by all_goals omega

def block (s : Feed) : Outcome (List Node) s.size :=
  (s.symbol .lbrace).andThen fun _ t _ => statements t
termination_by 3 * s.size
decreasing_by all_goals omega

def statements (s : Feed) : Outcome (List Node) s.size :=
  match hs : s.rest with
  | [] => s.fail s.stop .unterminatedBlock
  | ⟨.symbol .rbrace, _⟩ :: rest =>
    .ok [] (s.withRest rest) (Feed.size_withRest_lt hs)
  | _ :: _ => (statement s).andThen fun n t _ => (statements t).map (n :: ·)
termination_by 3 * s.size + 1
decreasing_by all_goals omega

end

end Augite.Parse
