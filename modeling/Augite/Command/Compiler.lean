import Augite.Compile
import Augite.Tree.Dump
import Augite.Command.Task
import Augite.Command.Flags
import Augite.Command.LogLine

/-!
# The compiler command

The command `pyrx` builds a file, checks it, or prints what it compiles to. Diagnostics of
a check go to the output, those of the other commands to the error output.
-/

namespace Augite.Command

def sourceExtension : Text := ".pyrx"

def usage : Text :=
  "Pyroxene - a small statically typed language that compiles to LLVM IR\n" ++
  "\n" ++
  "Usage:\n" ++
  "    pyrx <command> [arguments]\n" ++
  "\n" ++
  "Commands:\n" ++
  "    build <file>    Compile a .pyrx file to an LLVM IR (.ll) file\n" ++
  "    check <file>    Parse and analyze a .pyrx file\n" ++
  "    ir <file>       Compile a .pyrx file and print its LLVM IR\n" ++
  "    help            Show this help message\n" ++
  "\n" ++
  "Examples:\n" ++
  "    pyrx build -o fib.ll examples/fib.pyrx\n" ++
  "    pyrx check graph.pyrx\n" ++
  "    pyrx ir -v hello.pyrx\n" ++
  "\n" ++
  "Use \"pyrx <command> -h\" for more information about a command.\n"

/-- A command that takes one file: its name, what it takes, what it does and its flags. -/
structure FileCommand where
  name : Text
  takes : Text
  does : Text
  flags : List Flag

namespace FileCommand

def help (c : FileCommand) : Text :=
  "Usage: pyrx " ++ c.name ++ " " ++ c.takes ++ "\n" ++ c.does ++ "\n\nFlags:\n" ++
    c.flags.flatMap Flag.help

def run (c : FileCommand) (args : List Text) (body : FlagValues → Text → Task) : Task :=
  match Flag.parse c.flags {} args with
  | .error .helpWanted => .done { err := c.help }
  | .error e => .fail 2 (e.message ++ "\n" ++ c.help)
  | .ok v =>
    match v.rest with
    | [file] => body v file
    | _ => .fail 1 ("Error: expected exactly one file argument\n" ++ c.help)

end FileCommand

def logFlag : Flag := ⟨"v", .switch, "Log compilation details to stderr"⟩

def build : FileCommand :=
  { name := "build"
    takes := "[-o output] [-v] <file>"
    does := "Compile a .pyrx file to an LLVM IR (.ll) file"
    flags := [⟨"o", .option, "Output file path (default: <filename>.ll)"⟩, logFlag] }

def check : FileCommand :=
  { name := "check"
    takes := "[-v] <file>"
    does := "Parse and analyze a .pyrx file"
    flags := [⟨"v", .switch, "Print the AST after a successful check"⟩] }

def ir : FileCommand :=
  { name := "ir"
    takes := "[-v] <file>"
    does := "Compile a .pyrx file and print its LLVM IR"
    flags := [logFlag] }

def withSource (file : Text) (next : Text → Task) : Task :=
  if Path.extension file ≠ sourceExtension then
    .fail 1
      ("Error: " ++ file ++ ": source files must have the " ++ sourceExtension ++ " extension\n")
  else
    .read file fun
      | .error e => .fail 1 ("Error: " ++ e.text ++ "\n")
      | .ok source => next source

def logged (verbose : Bool) (es : List Event) : Text := if verbose then logText es else []

def withModule (file : Text) (verbose : Bool) (next : IR.Module → Task) : Task :=
  withSource file fun source =>
    let (result, events) := compileSource source
    let log := logged verbose (.compiling file source.length :: events)
    match result with
    | .error e => .fail 1 (log ++ file ++ ":" ++ e.text ++ "\n")
    | .ok m => (next m).after [] log

def outputFile (v : FlagValues) (file : Text) : Text :=
  let given := v.option "o"
  if given.isEmpty then Text.withoutEnding sourceExtension file ++ ".ll" else given

def buildTask (args : List Text) : Task :=
  build.run args fun v file =>
    let target := outputFile v file
    withModule file (v.isOn "v") fun m =>
      .write target m.text fun
        | .error e => .fail 1 ("Error writing " ++ target ++ ": " ++ e.text ++ "\n")
        | .ok () =>
          .done
            { out := "Generated " ++ target ++ " (" ++ Text.decimal m.funcs.length ++
                " functions, " ++ Text.decimal m.text.length ++ " bytes)\n" }

def irTask (args : List Text) : Task :=
  ir.run args fun v file => withModule file (v.isOn "v") fun m => .done { out := m.text }

def checkTask (args : List Text) : Task :=
  check.run args fun v file =>
    withSource file fun source =>
      match Program.parse 0 source with
      | .error e => .done { exit := 1, out := file ++ ":" ++ e.text ++ "\n" }
      | .ok p =>
        let (result, ctx, _) := p.analyse {}
        let err := logged (v.isOn "v") ctx.log
        match result with
        | .error e => .done { exit := 1, out := file ++ ":" ++ e.text ++ "\n", err }
        | .ok () =>
          let dump : Text := if v.isOn "v" then "AST: " ++ p.node.dump ++ "\n" else []
          .done { out := file ++ ": no errors found\n" ++ dump, err }

def pyrx : List Text → Task
  | [] => .fail 1 usage
  | command :: args =>
    if command = "build" then buildTask args
    else if command = "check" then checkTask args
    else if command = "ir" then irTask args
    else if command = "help" ∨ command = "-h" ∨ command = "--help" then .done { err := usage }
    else .fail 1 ("Unknown command: " ++ command ++ "\n\n" ++ usage)

end Augite.Command
