import Augite.Text.Quoted

/-!
# Flags

A command's flags stand before its other arguments, each with one hyphen or two. A switch
is on if it is named, and may be given a truth value behind an equals sign; an option takes
a value behind an equals sign or as the next argument. Two hyphens alone end the flags.
-/

namespace Augite

inductive FlagKind where
  | switch
  | option
  deriving DecidableEq, Repr

structure Flag where
  name : Text
  kind : FlagKind
  usage : Text
  deriving DecidableEq, Repr

/-- The line that explains a flag; the explanation of a switch stands on the same line. -/
def Flag.help (f : Flag) : Text :=
  match f.kind with
  | .switch => "  -" ++ f.name ++ "\t" ++ f.usage ++ "\n"
  | .option => "  -" ++ f.name ++ " string\n    \t" ++ f.usage ++ "\n"

inductive FlagError where
  | helpWanted
  | badSyntax (arg : Text)
  | undefined (name : Text)
  | badTruth (value name : Text)
  | noValue (name : Text)
  deriving DecidableEq, Repr

def FlagError.message : FlagError → Text
  | helpWanted => ""
  | badSyntax arg => "bad flag syntax: " ++ arg
  | undefined name => "flag provided but not defined: -" ++ name
  | badTruth value name =>
    "invalid boolean value " ++ Text.quote value ++ " for -" ++ name ++ ": parse error"
  | noValue name => "flag needs an argument: -" ++ name

/-- The values that flags have been given, and the arguments behind them. -/
structure FlagValues where
  switches : List (Text × Bool) := []
  options : List (Text × Text) := []
  rest : List Text := []
  deriving DecidableEq, Repr

namespace FlagValues

/-- A switch is off unless it has been turned on; the last setting counts. -/
def isOn (v : FlagValues) (name : Text) : Bool := (v.switches.lookup name).getD false

def option (v : FlagValues) (name : Text) : Text := (v.options.lookup name).getD []

end FlagValues

namespace Flag

def truth? (t : Text) : Option Bool :=
  if (["1", "t", "T", "TRUE", "true", "True"].map Text.ofString).contains t then some true
  else if (["0", "f", "F", "FALSE", "false", "False"].map Text.ofString).contains t then some false
  else none

/-- The name in an argument that is a flag: what stands behind one hyphen or two. Arguments
that are no flags have none. -/
def body? : Text → Option Text
  | a :: b :: rest =>
    if a ≠ byte '-' then none else if b = byte '-' then some rest else some (b :: rest)
  | _ => none

def nameAndValue (body : Text) : Text × Option Text :=
  let name := body.take 1 ++ (body.drop 1).takeWhile fun b => b != byte '='
  if name.length = body.length then (name, none) else (name, some (body.drop (name.length + 1)))

def parse (flags : List Flag) (v : FlagValues) : List Text → Except FlagError FlagValues
  | [] => .ok { v with rest := [] }
  | arg :: args =>
    match body? arg with
    | none => .ok { v with rest := arg :: args }
    | some body =>
      if arg = "--" then .ok { v with rest := args }
      else if body.isEmpty || body.head? = some (byte '-') || body.head? = some (byte '=') then
        .error (.badSyntax arg)
      else
        let (name, value) := nameAndValue body
        match flags.find? fun f => f.name == name with
        | none =>
          if name = "help" ∨ name = "h" then .error .helpWanted else .error (.undefined name)
        | some f =>
          match f.kind, value, args with
          | .switch, none, args =>
            parse flags { v with switches := (name, true) :: v.switches } args
          | .switch, some t, args =>
            match truth? t with
            | some b => parse flags { v with switches := (name, b) :: v.switches } args
            | none => .error (.badTruth t name)
          | .option, some t, args =>
            parse flags { v with options := (name, t) :: v.options } args
          | .option, none, t :: args =>
            parse flags { v with options := (name, t) :: v.options } args
          | .option, none, [] => .error (.noValue name)

end Flag

end Augite
