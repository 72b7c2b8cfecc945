import Augite.Text.Quoted

/-!
# Data

A datum is an atom or a collection of data: a list in parentheses, an array in brackets
or a map in braces. Trees are dumped as data, and test documents state data that dumps and
summaries have to match.
-/

namespace Augite

inductive Datum where
  | symbol (name : Text)
  | string (contents : Text)
  | number (spelling : Text)
  | ellipsis
  | list (items : List Datum)
  | array (items : List Datum)
  | map (entries : List (Text × Datum))
  deriving Repr, Inhabited

namespace Datum

def isAtom : Datum → Bool
  | symbol _ | string _ | number _ | ellipsis => true
  | _ => false

def get? (d : Datum) (key : Text) : Option Datum :=
  match d with
  | map entries => (entries.find? fun e => e.1 == key).map Prod.snd
  | _ => none

mutual

def render : Datum → Text
  | symbol name => name
  | string contents => Text.quote contents
  | number spelling => spelling
  | ellipsis => "..."
  | list items => "(" ++ Text.join " " (renderItems items) ++ ")"
  | array items => "[" ++ Text.join " " (renderItems items) ++ "]"
  | map entries => "\x7b" ++ Text.join ", " (renderEntries entries) ++ "\x7d"

def renderItems : List Datum → List Text
  | [] => []
  | d :: ds => render d :: renderItems ds

def renderEntries : List (Text × Datum) → List Text
  | [] => []
  | (key, d) :: es => (key ++ ": " ++ render d) :: renderEntries es

end

end Datum

end Augite
