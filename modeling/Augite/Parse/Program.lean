import Augite.Parse.Statement

/-!
# Reading programs

A program is a sequence of items: inclusions, functions, classes and statements. One feed
may also be read piecemeal, going on after a failure from the token where it stopped.
-/

namespace Augite

def Feed.including (s : Feed) (l : Library) : Feed := { s with included := l :: s.included }

namespace Parse

def parameters (s : Feed) (first : Bool) : Outcome (List Param) s.size :=
  if s.atSymbol .rparen then (s.symbol .rparen).map fun _ => []
  else if first then
    s.ident.andThen fun (name, pos) t _ =>
      (t.symbol .colon).andThen fun _ u _ =>
        (typeName u false).andThen fun type v _ =>
          (parameters v false).map ({ pos, name, type } :: ·)
  else
    (s.symbol .comma).andThen fun _ s' _ =>
      s'.ident.andThen fun (name, pos) t _ =>
        (t.symbol .colon).andThen fun _ u _ =>
          (typeName u false).andThen fun type v _ =>
            (parameters v false).map ({ pos, name, type } :: ·)
termination_by s.size
decreasing_by all_goals omega

def fields (s : Feed) : Outcome (List Param) s.size :=
  if s.atSymbol .rbrace then (s.symbol .rbrace).map fun _ => []
  else
    s.ident.andThen fun (name, pos) t _ =>
      (t.symbol .colon).andThen fun _ u _ =>
        (typeName u false).andThen fun type v _ =>
          (v.symbol .semicolon).andThen fun _ w _ => (fields w).map ({ pos, name, type } :: ·)
termination_by s.size
decreasing_by all_goals omega

def function (s : Feed) : Outcome Node s.size :=
  (s.keyword .def_).andThen fun pos s _ =>
    s.ident.andThen fun (name, _) s _ =>
      (s.symbol .lparen).andThen fun _ s _ =>
        ((parameters s true).bind fun params t h =>
          (resultType s.size t h).map fun result => (params, result)).andThen
          fun (params, result) s _ => (block s).map (.funcDef (.at_ pos) name params result)

def classDeclaration (s : Feed) : Outcome Node s.size :=
  (s.keyword .class_).andThen fun pos s _ =>
    s.ident.andThen fun (name, _) s _ =>
      (s.symbol .lbrace).andThen fun _ s _ => (fields s).map (.classDecl (.at_ pos) name)

def libraryName (s : Feed) : Outcome Library s.size :=
  match hs : s.rest with
  | [] => s.fail s.stop (.unknownLibrary .endOfInput)
  | tok :: rest =>
    match library? tok.lexeme with
    | some l => .ok l (s.withRest rest) (Feed.size_withRest_lt hs)
    | none => s.fail tok.pos (.unknownLibrary tok.lexeme)

def inclusion (s : Feed) : Outcome Node s.size :=
  (s.keyword .include_).andThen fun pos s _ =>
    (libraryName s).andThen fun l s _ =>
      (s.symbol .semicolon).bind fun _ t h =>
        .ok (.includeLib (.at_ pos) l.name) (t.including l) h

def item (s : Feed) : Outcome Node s.size :=
  match s.cur.lexeme with
  | .keyword .include_ => inclusion s
  | .keyword .def_ => function s
  | .keyword .class_ => classDeclaration s
  | _ => statement s

def items (s : Feed) : Except SyntaxError (List Node) × Feed :=
  if s.rest.isEmpty then (.ok [], s)
  else
    match item s with
    | .error e t _ => (.error e, t)
    | .ok n t _ =>
      let (result, u) := items t
      (result.map (n :: ·), u)
termination_by s.size
decreasing_by all_goals omega

def program (s : Feed) : Except SyntaxError Node × Feed :=
  let (result, t) := items s
  (result.map (.program (.at_ s.cur.pos)), t)

inductive Piece where
  | statement
  | expression
  | program
  deriving DecidableEq, Repr

def piece : Piece → Feed → Except SyntaxError Node × Feed
  | .statement, s => (statement s).run
  | .expression, s => (expression s).run
  | .program, s => program s

end Parse

def Program.parse (key : Nat) (source : Text) : Except SyntaxError Program := do
  let s ← Feed.ofSource source
  let body ← (Parse.items s).1
  return { key, mark := .at_ s.cur.pos, body }

def Node.parseExpression (source : Text) : Except SyntaxError Node := do
  let s ← Feed.ofSource source
  let (result, t) := (Parse.expression s).run
  let n ← result
  t.expectEnd
  return n

end Augite
