import Augite.Compile
import Augite.Tree.Dump
import Augite.Document.TestCase

/-!
# Snapshots

A snapshot records what a program compiles to at present: its dump and how many blocks and
opcodes its functions have, or the error. Snapshots are written as a test document that
states what they record.
-/

namespace Augite

structure Snapshot where
  name : Text
  file : Text
  input : Text
  /-- The dump; empty if the source has no tree. -/
  ast : Text := []
  /-- The summary of the module; empty if there is none. -/
  ir : Text := []
  /-- The text of the error; empty if there was none. -/
  error : Text := []
  deriving DecidableEq, Repr

def IR.Func.summary (f : IR.Func) : Datum :=
  let counts := f.opcodeCounts.mergeSort fun a b => !Text.before b.1 a.1
  let entry (e : Text × Nat) : Text × Datum := (e.1, .number (Text.decimal e.2))
  .map (("blocks", .number (Text.decimal f.blocks.length)) :: counts.map entry)

def IR.Module.summary (m : IR.Module) : Datum :=
  .map ((m.funcs.filter fun f => !f.blocks.isEmpty).map fun f => (f.name, f.summary))

namespace Snapshot

def ofSource (name file source : Text) : Snapshot :=
  let s : Snapshot := { name, file, input := Document.trimNewlines source }
  match Program.parse 0 source with
  | .error e => { s with error := e.text }
  | .ok p =>
    let s := { s with ast := p.node.dump }
    match p.compile.1 with
    | .error e => { s with error := e.text }
    | .ok m => { s with ir := m.summary.render }

def withoutNumber (message : Text) : Text :=
  match Text.cut? (byte ':') message with
  | none => message
  | some (head, rest) => if head.isEmpty || !head.all Text.isDigit then message else rest

def errorText (message : Text) : Text := Text.trim (withoutNumber (withoutNumber message))

def fence (language content : Text) : Text :=
  "```" ++ language ++ "\n" ++ content ++ "\n```\n"

def fenceOf (language content : Text) (f : Text → Text) : Text :=
  if content.isEmpty then [] else fence language (f content)

def testSection (s : Snapshot) : Text :=
  "## " ++ Document.testMark ++ s.name ++ "\n" ++
    fence Document.InputKind.program.language s.input ++
    fenceOf Document.AssertionKind.ast.language s.ast id ++
    fenceOf Document.AssertionKind.ir.language s.ir id ++
    fenceOf Document.AssertionKind.compileError.language s.error errorText ++ "\n"

def document (ss : List Snapshot) : Text :=
  "# Snapshot tests\n\nGenerated from .pyrx sources. Review before committing.\n\n" ++
    ss.flatMap testSection

def atMost (a b : Snapshot) : Bool :=
  if a.file = b.file then !Text.before b.name a.name else Text.before a.file b.file

def sorted (ss : List Snapshot) : List Snapshot := ss.mergeSort atMost

end Snapshot

end Augite
