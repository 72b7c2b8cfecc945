import Augite.Tree.Basic
import Augite.Datum.Basic
import Augite.Double.Layout

/-!
# Dumps

The dump of a tree is a datum that shows its shape without positions and annotations.
Statement lists are arrays, everything else is a list headed by a word for the construct.
-/

namespace Augite

def Datum.form (word : Text) (items : List Datum) : Datum := .list (.symbol word :: items)

def Datum.ofBool (b : Bool) : Datum := .symbol (if b then "true" else "false")

def Ty.datum (t : Ty) : Datum := .symbol t.name

def Param.datum (word : Text) (p : Param) : Datum := .form word [.string p.name, p.type.datum]

namespace Node

def varDatum (name : Text) : Datum := .form "var" [.string name]

def accessDatum (a : Access) (args : List Datum) : Datum :=
  .form "dot" (varDatum a.name :: .string a.member :: if a.parens then [.array args] else [])

mutual

def datum : Node → Datum
  | missing => .symbol "nil"
  | int _ v => .form "int" [.number (Text.ofInt v.toInt)]
  | float _ v => .form "float" [.number (Layout.plain.text v)]
  | char _ v => .form "char" [.string [v]]
  | string _ v => .form "string" [.string v]
  | bool _ v => .form "bool" [.ofBool v]
  | var _ name => varDatum name
  | binary _ op l r => .form "binary" [.string op.spelling, datum l, datum r]
  | unary _ op x => .form "unary" [.string op.spelling, datum x]
  | call _ name args => .form "call" [.string name, .array (data args)]
  | dot a args => accessDatum a (data args)
  | varDecl _ name t => .form "decl" [.string name, t.datum]
  | varDef _ name t v => .form "defn" [.string name, t.datum, datum v]
  | assign _ name v => .form "assign" [.string name, datum v]
  | fieldAssign _ a args v => .form "field-assign" [accessDatum a (data args), datum v]
  | ret _ none => .form "return" []
  | ret _ (some v) => .form "return" [datum v]
  | branch _ _ test yes none => .form "if" [datum test, .array (data yes)]
  | branch _ _ test yes (some no) => .form "if" [datum test, .array (data yes), .array (data no)]
  | whileLoop _ _ test body => .form "while" [datum test, .array (data body)]
  | forLoop _ _ init test step body =>
    .form "for" [datum init, datum test, datum step, .array (data body)]
  | print _ v => .form "print" [datum v]
  | listDecl _ name elem xs => .form "list" [.string name, .symbol elem.name, .array (data xs)]
  | graphDecl _ name elem => .form "graph" [.string name, .symbol elem.name]
  | exprStmt _ x => datum x
  | funcDef _ name params result body =>
    .form "func"
      [.string name, .array (params.map (Param.datum "param")), result.datum, .array (data body)]
  | classDecl _ name fields =>
    .form "class" [.string name, .array (fields.map (Param.datum "field"))]
  | includeLib _ library => .form "include" [.symbol library]
  | program _ body => .form "program" (data body)

def data : List Node → List Datum
  | [] => []
  | n :: ns => datum n :: data ns

end

def dump (n : Node) : Text := n.datum.render

end Node

end Augite
