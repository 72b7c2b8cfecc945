import Augite.Snapshot
import Augite.Command.Task

/-!
# The snapshot command

Prints the test document of the snapshots of source files: of those named, or of all in the
directory.
-/

namespace Augite.Command

def readAll : List Text → (List (Text × Text) → Task) → Task
  | [], next => next []
  | path :: paths, next =>
    .read path fun
      | .error e => .fail 1 ("Error: " ++ e.text ++ "\n")
      | .ok source => readAll paths fun files => next ((path, source) :: files)

def snapshotName (path : Text) : Text := Text.withoutEnding (Path.extension path) (Path.base path)

def snapshotsOf (paths : List Text) : Task :=
  if paths.isEmpty then .fail 1 "No .pyrx files to snapshot\n"
  else
    readAll paths fun files =>
      let snaps := files.map fun (path, source) =>
        Snapshot.ofSource (snapshotName path) path source
      .done { out := Snapshot.document (Snapshot.sorted snaps) }

def snapshots (args : List Text) : Task :=
  if args.isEmpty then
    .list fun names =>
      snapshotsOf (names.filter fun name => (Text.ofString ".pyrx").isSuffixOf name)
  else snapshotsOf args

end Augite.Command
