import Augite.Token.Basic
import Augite.Ty
import Augite.Text.Quoted

/-!
# Syntax errors

What is wrong with a source text before it has a tree: a malformed lexeme, or a token the
grammar does not take.
-/

namespace Augite

inductive Library where
  | list
  | graph
  deriving DecidableEq, Repr

def Library.name : Library → Text
  | .list => "list"
  | .graph => "graph"

inductive SyntaxCause where
  | strayByte (b : UInt8)
  | unterminatedLiteral
  | invalidEscape (b : UInt8)
  | characterCount
  | floatRange (spelling : Text)
  | intRange (spelling : Text)
  | expected (wanted : Wanted) (got : Lexeme)
  | unknownLibrary (got : Lexeme)
  | misplacedVoid
  | notIncluded (library : Library)
  | elementType (library : Library) (elem : Ty)
  | expectedType (got : Lexeme)
  | unterminatedBlock
  | topLevelOnly (k : Keyword)
  | listInitializer
  | graphInitializer
  | classInitializer
  | listLiteral (target : Ty)
  | unexpected (got : Lexeme)
  deriving DecidableEq, Repr

def SyntaxCause.message : SyntaxCause → Text
  | strayByte b => "unexpected character " ++ Text.quoteChar b.toNat
  | unterminatedLiteral => "unterminated literal"
  | invalidEscape b => "invalid escape sequence \\" ++ Utf8.encode b.toNat
  | characterCount => "character literal must hold exactly one character"
  | floatRange spelling => "invalid float literal " ++ spelling
  | intRange spelling => "integer literal " ++ spelling ++ " out of range"
  | expected wanted got => "expected " ++ wanted.describe ++ " but got " ++ got.describe
  | unknownLibrary got => "unknown library " ++ got.describe
  | misplacedVoid => "void is only allowed as a return type"
  | notIncluded l => l.name ++ " used without 'include " ++ l.name ++ ";'"
  | elementType l elem => l.name ++ " elements must be a scalar type, not " ++ elem.name
  | expectedType got => "expected a type but got " ++ got.describe
  | unterminatedBlock => "unterminated block"
  | topLevelOnly k => "'" ++ k.spelling ++ "' is only allowed at top level"
  | listInitializer => "list initializer must be a list literal"
  | graphInitializer => "graph declarations take no initializer"
  | classInitializer => "class instances take no initializer"
  | listLiteral target => "list literal assigned to " ++ target.name
  | unexpected got => "unexpected " ++ got.describe ++ " in expression"

structure SyntaxError where
  pos : Position
  cause : SyntaxCause
  deriving DecidableEq, Repr

namespace SyntaxError

def wording (pos : Position) (message : Text) : Text :=
  pos.text ++ ": syntax error: " ++ message

def text (e : SyntaxError) : Text := wording e.pos e.cause.message

end SyntaxError

end Augite
