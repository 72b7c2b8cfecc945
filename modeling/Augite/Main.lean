import Augite.Command.Compiler
import Augite.Command.Snapshots

/-!
# The commands in the world

Carries out tasks on the files of the machine. What a command does is decided by its task;
here its requests are only passed on.
-/

namespace Augite

def Text.toPath (t : Text) : String := (String.fromUTF8? ⟨t.toArray⟩).getD ""

def FileFault.ofError : IO.Error → FileFault
  | .noFileOrDirectory .. => .notFound
  | .inappropriateType _ 20 _ => .notFolder
  | .invalidArgument _ 36 _ => .tooLong
  | _ => .isFolder

def readFile (path : Text) : IO (Except FileError Text) := do
  try
    return .ok (← IO.FS.readBinFile path.toPath).data.toList
  catch e =>
    let fault := FileFault.ofError e
    return .error ⟨if fault = .isFolder then .read else .open_, path, fault⟩

def writeFile (path contents : Text) : IO (Except FileError Unit) := do
  try
    IO.FS.writeBinFile path.toPath ⟨contents.toArray⟩
    return .ok ()
  catch e =>
    return .error ⟨.open_, path, FileFault.ofError e⟩

def listFiles : IO (List Text) := do
  let entries ← (← IO.currentDir).readDir
  let names := entries.toList.map fun e => Text.ofString e.fileName
  return names.mergeSort fun a b => !Text.before b a

def Task.perform : Task → IO Report
  | .done r => pure r
  | .read path next => do perform (next (← readFile path))
  | .write path contents next => do perform (next (← writeFile path contents))
  | .list next => do perform (next (← listFiles))

def Task.execute (t : Task) : IO UInt32 := do
  let r ← t.perform
  (← IO.getStdout).write ⟨r.out.toArray⟩
  (← IO.getStderr).write ⟨r.err.toArray⟩
  return r.exit.toUInt32

def snapshotMain (args : List String) : IO UInt32 :=
  (Command.snapshots (args.map Text.ofString)).execute

end Augite

def main (args : List String) : IO UInt32 :=
  (Augite.Command.pyrx (args.map Augite.Text.ofString)).execute
