import Augite.Text.Basic

/-!
# File paths

Paths are names with slashes between them. A name's extension starts at its last point. A path
leads from the working folder to a location, or from the root folder if a slash comes first.
-/

namespace Augite

/-- The folder that a location is reached from without going back. -/
inductive Origin where
  /-- The folder so many levels around the working folder, which itself is at level zero. -/
  | around (levels : Nat)
  | root
  deriving DecidableEq, Repr

structure Location where
  origin : Origin
  names : List Text
  deriving DecidableEq, Repr

namespace Location

def inside (names : List Text) : Location := ⟨.around 0, names⟩

/-- The folder around a location; the root folder has none and stays. -/
def parent (l : Location) : Location :=
  if l.names.isEmpty then
    match l.origin with
    | .around levels => ⟨.around (levels + 1), []⟩
    | .root => l
  else { l with names := l.names.dropLast }

/-- Where a name leads from a folder: a point stays there, and two points lead to the folder
around it. -/
def step (l : Location) (name : Text) : Location :=
  if name = "." then l
  else if name = ".." then l.parent
  else { l with names := l.names ++ [name] }

end Location

namespace Path

/-- The extension of the last name of a path, with its point; empty if there is none. -/
def extension (path : Text) : Text :=
  let back := path.reverse
  let tail := back.takeWhile fun b => b != byte '.' && b != byte '/'
  match back.drop tail.length with
  | b :: _ => if b = byte '.' then b :: tail.reverse else []
  | [] => []

def base (path : Text) : Text :=
  if path.isEmpty then "."
  else
    let back := path.reverse.dropWhile fun b => b == byte '/'
    if back.isEmpty then "/" else (back.takeWhile fun b => b != byte '/').reverse

def split : Text → List Text
  | [] => [[]]
  | b :: rest =>
    if b = byte '/' then [] :: split rest
    else match split rest with
      | [] => [[b]]
      | name :: names => (b :: name) :: names

def names (path : Text) : List Text := (split path).filter fun name => !name.isEmpty

def start (path : Text) : Location :=
  ⟨if path.head? == some (byte '/') then .root else .around 0, []⟩

def location (path : Text) : Location := (names path).foldl Location.step (start path)

def endsWithSlash (path : Text) : Bool := path.getLast? == some (byte '/')

end Path

end Augite
