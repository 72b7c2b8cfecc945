import Augite.Command.Directory

/-!
# Tasks

What a command does, step by step: it asks for files, and ends with a report. A task is a
value, so that it can be carried out on a directory that is a value too.
-/

namespace Augite

structure Report where
  exit : Nat := 0
  out : Text := []
  err : Text := []
  deriving DecidableEq, Repr

inductive Task where
  | done (report : Report)
  | read (path : Text) (next : Except FileError Text → Task)
  | write (path contents : Text) (next : Except FileError Unit → Task)
  /-- Asks for the names in the directory. -/
  | list (next : List Text → Task)

namespace Task

def fail (exit : Nat) (err : Text) : Task := done { exit, err }

def after (out err : Text) : Task → Task
  | done r => done { r with out := out ++ r.out, err := err ++ r.err }
  | read path next => read path fun x => after out err (next x)
  | write path contents next => write path contents fun x => after out err (next x)
  | list next => list fun x => after out err (next x)

def run (d : Directory) : Task → Report × Directory
  | done r => (r, d)
  | read path next => run d (next (d.read path))
  | write path contents next =>
    match d.write path contents with
    | .ok d' => run d' (next (.ok ()))
    | .error e => run d (next (.error e))
  | list next => run d (next d.list)

end Task

end Augite
