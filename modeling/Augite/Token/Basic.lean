import Augite.Position
import Augite.Double.Basic

/-!
# Tokens

A token is a lexeme and the position of its first byte. Literals carry their value;
numbers also keep their spelling.
-/

namespace Augite

inductive Keyword where
  | def_ | return_ | if_ | else_ | while_ | for_ | print_ | true_ | false_
  | include_ | class_ | list_ | graph_
  | int_ | float_ | char_ | string_ | bool_ | void_
  deriving DecidableEq, Repr

namespace Keyword

def all : List Keyword :=
  [def_, return_, if_, else_, while_, for_, print_, true_, false_, include_, class_, list_, graph_,
    int_, float_, char_, string_, bool_, void_]

def spelling : Keyword → Text
  | def_ => "def"
  | return_ => "return"
  | if_ => "if"
  | else_ => "else"
  | while_ => "while"
  | for_ => "for"
  | print_ => "print"
  | true_ => "true"
  | false_ => "false"
  | include_ => "include"
  | class_ => "class"
  | list_ => "list"
  | graph_ => "graph"
  | int_ => "int"
  | float_ => "float"
  | char_ => "char"
  | string_ => "string"
  | bool_ => "bool"
  | void_ => "void"

def ofText? (word : Text) : Option Keyword := all.find? fun k => k.spelling == word

end Keyword

inductive Symbol where
  | assign | plus | minus | star | slash | percent | bang
  | eq | ne | lt | le | gt | ge | and | or
  | comma | semicolon | colon | dot | arrow
  | lparen | rparen | lbrace | rbrace | lbracket | rbracket
  deriving DecidableEq, Repr

namespace Symbol

def spelling : Symbol → Text
  | assign => "="
  | plus => "+"
  | minus => "-"
  | star => "*"
  | slash => "/"
  | percent => "%"
  | bang => "!"
  | eq => "=="
  | ne => "!="
  | lt => "<"
  | le => "<="
  | gt => ">"
  | ge => ">="
  | and => "&&"
  | or => "||"
  | comma => ","
  | semicolon => ";"
  | colon => ":"
  | dot => "."
  | arrow => "->"
  | lparen => "("
  | rparen => ")"
  | lbrace => "\x7b"
  | rbrace => "\x7d"
  | lbracket => "["
  | rbracket => "]"

def all : List Symbol :=
  [eq, ne, le, ge, and, or, arrow,
    assign, plus, minus, star, slash, percent, bang, lt, gt, comma, semicolon, colon, dot,
    lparen, rparen, lbrace, rbrace, lbracket, rbracket]

def ofPrefix? (t : Text) : Option Symbol := all.find? fun s => s.spelling.isPrefixOf t

end Symbol

inductive Lexeme where
  | endOfInput
  | ident (name : Text)
  | int (value : Int64) (spelling : Text)
  | float (value : Double) (spelling : Text)
  | char (value : UInt8)
  | string (value : Text)
  | symbol (s : Symbol)
  | keyword (k : Keyword)
  deriving DecidableEq, Repr

namespace Lexeme

def ofWord (word : Text) : Lexeme :=
  match Keyword.ofText? word with
  | some k => keyword k
  | none => ident word

def raised (t : Text) : Text := t.map fun b => if 97 ≤ b && b ≤ 122 then b - 32 else b

def kindName : Lexeme → Text
  | endOfInput => "EOF"
  | ident _ => "IDENT"
  | int _ _ => "INT_LIT"
  | float _ _ => "FLOAT_LIT"
  | char _ => "CHAR_LIT"
  | string _ => "STRING_LIT"
  | symbol s => s.spelling
  | keyword k => raised k.spelling

def text : Lexeme → Text
  | endOfInput => []
  | ident name => name
  | int _ spelling => spelling
  | float _ spelling => spelling
  | char b => [b]
  | string s => s
  | symbol s => s.spelling
  | keyword k => k.spelling

def intValue : Lexeme → Int
  | int v _ => v.toInt
  | char b => b.toNat
  | _ => 0

def floatValue : Lexeme → Double
  | float v _ => v
  | _ => Double.zero false

def describe : Lexeme → Text
  | endOfInput => "end of input"
  | ident name => "identifier '" ++ name ++ "'"
  | int _ spelling => "number " ++ spelling
  | float _ spelling => "number " ++ spelling
  | string _ => "string literal"
  | char _ => "character literal"
  | symbol s => "'" ++ s.spelling ++ "'"
  | keyword k => "'" ++ k.spelling ++ "'"

end Lexeme

structure Token where
  lexeme : Lexeme
  pos : Position
  deriving DecidableEq, Repr

inductive Wanted where
  | endOfInput
  | identifier
  | symbol (s : Symbol)
  | keyword (k : Keyword)
  deriving DecidableEq, Repr

namespace Wanted

def describe : Wanted → Text
  | endOfInput => "end of input"
  | identifier => "identifier"
  | symbol s => "'" ++ s.spelling ++ "'"
  | keyword k => "'" ++ k.spelling ++ "'"

def admits : Wanted → Lexeme → Bool
  | endOfInput, .endOfInput => true
  | identifier, .ident _ => true
  | symbol s, .symbol t => s == t
  | keyword k, .keyword l => k == l
  | _, _ => false

end Wanted

end Augite
