import Augite.Document.Block
import Augite.Datum.Reader

/-!
# Test cases

A test document has a section for each test. A section starts with a heading that names the
test, and holds one fence with a program or an expression and fences with assertions about
it. No other fence may have a language, and outside of tests no fence may have one.
-/

namespace Augite.Document

inductive InputKind where
  | expression
  | program
  deriving DecidableEq, Repr

inductive AssertionKind where
  | ast
  | types
  | compileError
  | ir
  deriving DecidableEq, Repr

def InputKind.language : InputKind → Text
  | expression => "pyrx-expr"
  | program => "pyrx-program"

def AssertionKind.language : AssertionKind → Text
  | ast => "ast"
  | types => "types"
  | compileError => "compile-error"
  | ir => "ir"

inductive Purpose where
  | input (k : InputKind)
  | assertion (k : AssertionKind)
  /-- A fence without a language. -/
  | free
  | unknown
  deriving DecidableEq, Repr

def Purpose.ofLanguage (language : Text) : Purpose :=
  match [InputKind.expression, .program].find? fun k => k.language == language with
  | some k => .input k
  | none =>
    match [AssertionKind.ast, .types, .compileError, .ir].find? fun k => k.language == language with
    | some k => .assertion k
    | none => if language.isEmpty then .free else .unknown

structure Assertion where
  kind : AssertionKind
  content : Text
  /-- The pattern that the content states; an error text states none. -/
  pattern : Option Datum
  deriving Repr

structure TestCase where
  name : Text
  /-- The line of the test's heading. -/
  line : Nat
  input : Text := []
  inputKind : Option InputKind := none
  assertions : List Assertion := []
  deriving Repr

inductive Flaw where
  | outside (line : Nat) (language : Text)
  | unknownOutside (line : Nat) (language : Text)
  | unknownLanguage (line : Nat) (language test : Text)
  | secondInput (line : Nat) (test : Text)
  | assertion (line : Nat) (test : Text) (cause : Datum.ReadCause)
  | noInput (test : Text)
  | noAssertions (test : Text)
  deriving DecidableEq, Repr

def Flaw.message : Flaw → Text
  | outside line language =>
    "line " ++ Text.decimal line ++ ": " ++ language ++ " fence found outside of test case"
  | unknownOutside line language =>
    "line " ++ Text.decimal line ++ ": unknown fence language '" ++ language ++
      "' found outside of test case"
  | unknownLanguage line language test =>
    "line " ++ Text.decimal line ++ ": unknown fence language '" ++ language ++ "' in test '" ++
      test ++ "'"
  | secondInput line test =>
    "line " ++ Text.decimal line ++ ": multiple input fences found in test '" ++ test ++ "'"
  | assertion line test cause =>
    "line " ++ Text.decimal line ++ ": failed to parse Sexy assertion in test '" ++ test ++ "': " ++
      cause.text
  | noInput test => "test '" ++ test ++ "' has no input fence"
  | noAssertions test => "test '" ++ test ++ "' has no assertion fences"

/-- A flaw met at a block of the document, or found in the last test at its end. -/
inductive ExtractError where
  | atBlock (flaw : Flaw)
  | atEnd (flaw : Flaw)
  deriving DecidableEq, Repr

def ExtractError.text : ExtractError → Text
  | atBlock flaw => "error walking markdown AST: " ++ flaw.message
  | atEnd flaw => flaw.message

def testMark : Text := "Test: "

def TestCase.check (t : TestCase) : Except Flaw TestCase :=
  if t.input.isEmpty then .error (.noInput t.name)
  else if t.assertions.isEmpty then .error (.noAssertions t.name)
  else .ok t

def trimNewlines (t : Text) : Text := Text.trimEnd (fun b => b == byte '\n') t

def assertionOf (k : AssertionKind) (content : Text) : Except Datum.ReadCause Assertion :=
  if k = .compileError then .ok { kind := k, content, pattern := none }
  else (Datum.read content).map fun d => { kind := k, content, pattern := some d }

def TestCase.addFence (t : TestCase) (line : Nat) (language content : Text) :
    Except Flaw TestCase :=
  let content := trimNewlines content
  match Purpose.ofLanguage language with
  | .unknown => .error (.unknownLanguage line language t.name)
  | .free => .ok t
  | .input k =>
    if t.input.isEmpty then .ok { t with input := content, inputKind := some k }
    else .error (.secondInput line t.name)
  | .assertion k =>
    match assertionOf k content with
    | .ok a => .ok { t with assertions := t.assertions ++ [a] }
    | .error cause => .error (.assertion line t.name cause)

def checkOutside (line : Nat) (language : Text) : Except Flaw Unit :=
  match Purpose.ofLanguage language with
  | .free => .ok ()
  | .unknown => .error (.unknownOutside line language)
  | _ => .error (.outside line language)

def extractFrom (current : Option TestCase) : List Block → Except ExtractError (List TestCase)
  | [] =>
    match current with
    | none => .ok []
    | some t => (t.check.mapError .atEnd).map fun t => [t]
  | .heading line _ text :: bs =>
    match Text.after? testMark text with
    | none => extractFrom current bs
    | some name =>
      match current with
      | none => extractFrom (some { name, line }) bs
      | some t => do
        let t ← t.check.mapError .atBlock
        let ts ← extractFrom (some { name, line }) bs
        return t :: ts
  | .fence line language content :: bs =>
    match current with
    | none => do
      (checkOutside line language).mapError .atBlock
      extractFrom none bs
    | some t => do
      let t ← (t.addFence line language content).mapError .atBlock
      extractFrom (some t) bs

def extract (document : Text) : Except ExtractError (List TestCase) :=
  extractFrom none (blocks document)

end Augite.Document
