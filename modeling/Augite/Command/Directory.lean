import Augite.Command.Path

/-!
# Directories

A working folder as a value: files with their contents and folders, known by the names that
lead to them. A folder exists if it is entered as one or if something lies in it. Of the
folders around it nothing else is known than that they are there, so paths that lead out of
it find no files but those that were written there.
-/

namespace Augite

inductive FileFault where
  | notFound
  | isFolder
  | notFolder
  /-- A name or the whole path has too many bytes. -/
  | tooLong
  /-- The path has a zero byte. -/
  | malformed
  deriving DecidableEq, Repr

def FileFault.text : FileFault → Text
  | notFound => "no such file or directory"
  | isFolder => "is a directory"
  | notFolder => "not a directory"
  | tooLong => "file name too long"
  | malformed => "invalid argument"

inductive FileAction where
  | open_
  | read
  deriving DecidableEq, Repr

def FileAction.text : FileAction → Text
  | open_ => "open"
  | read => "read"

structure FileError where
  action : FileAction
  path : Text
  fault : FileFault
  deriving DecidableEq, Repr

def FileError.text (e : FileError) : Text :=
  e.action.text ++ " " ++ e.path ++ ": " ++ e.fault.text

inductive Entry where
  | file (contents : Text)
  | folder
  deriving DecidableEq, Repr

/-- What is known of the files of a machine, seen from a working folder. -/
structure Directory where
  entries : List (Location × Entry) := []
  deriving DecidableEq, Repr

namespace Directory

/-- What the root folder of every machine holds: a folder for temporary files and the null
device. -/
def machine : List (Location × Entry) :=
  [(⟨.root, ["tmp"]⟩, .folder), (⟨.root, ["dev", "null"]⟩, .file [])]

/-- A working folder with files given by their paths; a path that ends with a slash stands for
a folder. -/
def ofFiles (files : List (Text × Text)) : Directory :=
  { entries := machine ++ files.map fun (path, contents) =>
      (Path.location path, if Path.endsWithSlash path then .folder else .file contents) }

/-- The files in the working folder, with the names that lead to them and their contents. -/
def files (d : Directory) : List (List Text × Text) :=
  d.entries.filterMap fun
    | (⟨.around 0, names⟩, .file contents) => some (names, contents)
    | _ => none

/-- What is at a location. Every folder around the working folder exists, and so does a folder
in which something lies. -/
def find? (d : Directory) (l : Location) : Option Entry :=
  match d.entries.lookup l with
  | some e => some e
  | none =>
    if l.names.isEmpty ||
        d.entries.any fun e => l.origin == e.1.origin && l.names.isPrefixOf e.1.names then
      some .folder
    else none

def nameLimit : Nat := 255

def pathLimit : Nat := 4095

/-- Follows names from a folder; all but the last must lead to folders. -/
def follow (d : Directory) (l : Location) : List Text → Except FileFault Location
  | [] => .ok l
  | name :: names =>
    if nameLimit < name.length then .error .tooLong
    else if names.isEmpty then .ok (l.step name)
    else
      match d.find? (l.step name) with
      | some .folder => follow d (l.step name) names
      | some (.file _) => .error .notFolder
      | none => .error .notFound

/-- The location that a path leads to through existing folders; an empty path leads nowhere. -/
def locate (d : Directory) (path : Text) : Except FileFault Location :=
  if path.contains 0 then .error .malformed
  else if path.isEmpty then .error .notFound
  else if pathLimit < path.length then .error .tooLong
  else d.follow (Path.start path) (Path.names path)

def read (d : Directory) (path : Text) : Except FileError Text :=
  match d.locate path with
  | .error fault => .error ⟨.open_, path, fault⟩
  | .ok l =>
    match d.find? l with
    | some (.file contents) =>
      if Path.endsWithSlash path then .error ⟨.open_, path, .notFolder⟩ else .ok contents
    | some .folder => .error ⟨.read, path, .isFolder⟩
    | none => .error ⟨.open_, path, .notFound⟩

def put (d : Directory) (l : Location) (contents : Text) : Directory :=
  if (d.entries.lookup l).isSome then
    { entries := d.entries.map fun e => if e.1 = l then (l, .file contents) else e }
  else { entries := d.entries ++ [(l, .file contents)] }

def write (d : Directory) (path contents : Text) : Except FileError Directory :=
  match d.locate path with
  | .error fault => .error ⟨.open_, path, fault⟩
  | .ok l =>
    if Path.endsWithSlash path || d.find? l = some .folder then
      .error ⟨.open_, path, .isFolder⟩
    else .ok (d.put l contents)

def list (d : Directory) : List Text :=
  let here := d.entries.filter fun e => e.1.origin == .around 0
  ((here.filterMap fun e => e.1.names.head?).eraseDups).mergeSort fun a b => !Text.before b a

end Directory

end Augite
