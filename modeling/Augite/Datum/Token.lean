import Augite.Datum.Basic

/-!
# Tokens of data

White space and comments separate tokens; a comment starts with a semicolon and ends with
its line. Every byte counts as the character of its number. A zero byte ends a text. The
tokens before the first malformed one are given along with its fault.
-/

namespace Augite.Datum

inductive Bracket where
  | round
  | square
  | curly
  deriving DecidableEq, Repr

inductive Token where
  | symbol (name : Text)
  | string (contents : Text)
  | number (spelling : Text)
  | ellipsis
  | opening (b : Bracket)
  | closing (b : Bracket)
  | colon
  | comma
  deriving DecidableEq, Repr

/-- What a token is called in messages; the end of the text has a name too. -/
def describe : Option Token → Text
  | none => "EOF"
  | some (.symbol _) => "symbol"
  | some (.string _) => "string"
  | some (.number _) => "number"
  | some .ellipsis => "ellipsis"
  | some (.opening .round) => "'('"
  | some (.opening .square) => "'['"
  | some (.opening .curly) => "'\x7b'"
  | some (.closing .round) => "')'"
  | some (.closing .square) => "']'"
  | some (.closing .curly) => "'\x7d'"
  | some .colon => "':'"
  | some .comma => "','"

inductive LexError where
  | strayByte (b : UInt8)
  | unterminatedString
  | invalidEscape (b : UInt8)
  | invalidHex (a b : UInt8)
  deriving DecidableEq, Repr

def LexError.text : LexError → Text
  | strayByte b => "unexpected character '" ++ Utf8.encode b.toNat ++ "'"
  | unterminatedString => "unterminated string"
  | invalidEscape b => "invalid escape sequence: \\" ++ Utf8.encode b.toNat
  | invalidHex a b =>
    "invalid escape sequence: \\x" ++ Utf8.encode a.toNat ++ Utf8.encode b.toNat

namespace Lexer

/-! ### Byte classes -/

def isBlank (b : UInt8) : Bool := (9 ≤ b && b ≤ 13) || b == 32 || b == 0x85 || b == 0xA0

/-- Letters among the first 256 characters. -/
def isLetter (b : UInt8) : Bool :=
  (97 ≤ b && b ≤ 122) || (65 ≤ b && b ≤ 90) || b == 0xAA || b == 0xB5 || b == 0xBA ||
    (0xC0 ≤ b && b != 0xD7 && b != 0xF7)

def isSymbolStart (b : UInt8) : Bool := isLetter b || b == byte '_'

/-- Angle brackets belong to symbols, so that the name of a list type is one. -/
def isSymbolByte (b : UInt8) : Bool :=
  isLetter b || Text.isDigit b || b == byte '-' || b == byte '_' || b == byte '<' || b == byte '>'

def isSign (b : UInt8) : Bool := b == byte '+' || b == byte '-'

def endsComment (b : UInt8) : Bool := b == byte '\n' || b == byte '\r' || b == 0

def hexValue? (b : UInt8) : Option Nat :=
  if Text.isDigit b then some (b.toNat - 48)
  else if 97 ≤ b && b ≤ 102 then some (b.toNat - 87)
  else if 65 ≤ b && b ≤ 70 then some (b.toNat - 55)
  else none

def escape? (b : UInt8) : Option UInt8 :=
  if b = byte 'n' then some 10
  else if b = byte 't' then some 9
  else if b = byte '"' ∨ b = byte '\\' then some b
  else none

def hexByte? (a b : UInt8) : Option UInt8 := do
  let high ← hexValue? a
  let low ← hexValue? b
  return (16 * high + low).toUInt8

/-! ### Tokens -/

/-- The contents of a string after its opening quote, and the number of bytes up to and with
the closing one. A byte stands for the character of its number, an escaped one for itself. -/
def stringBody : Text → Except LexError (Text × Nat)
  | [] => .error .unterminatedString
  | b :: rest =>
    if b = 0 then .error .unterminatedString
    else if b = byte '"' then .ok ([], 1)
    else if b = byte '\\' then
      match rest with
      | [] => .error (.invalidEscape 0)
      | e :: rest =>
        if e = byte 'x' then
          match rest with
          | [] => .error (.invalidHex 0 0)
          | [h] => .error (.invalidHex h 0)
          | h :: l :: rest =>
            match hexByte? h l with
            | none => .error (.invalidHex h l)
            | some v => (stringBody rest).map fun (t, n) => (v :: t, n + 4)
        else
          match escape? e with
          | none => .error (.invalidEscape e)
          | some v => (stringBody rest).map fun (t, n) => (v :: t, n + 2)
    else (stringBody rest).map fun (t, n) => (Utf8.encode b.toNat ++ t, n + 1)

def numberTail (t : Text) : Text :=
  let whole := t.takeWhile Text.isDigit
  match t.dropWhile Text.isDigit with
  | point :: d :: rest =>
    if point = byte '.' ∧ Text.isDigit d then whole ++ point :: d :: rest.takeWhile Text.isDigit
    else whole
  | _ => whole

def bracket? (b : UInt8) : Option Token :=
  if b = byte '(' then some (.opening .round)
  else if b = byte ')' then some (.closing .round)
  else if b = byte '[' then some (.opening .square)
  else if b = byte ']' then some (.closing .square)
  else if b = 0x7B then some (.opening .curly)
  else if b = 0x7D then some (.closing .curly)
  else if b = byte ':' then some .colon
  else if b = byte ',' then some .comma
  else none

def token (b : UInt8) (rest : Text) : Except LexError (Token × Nat) :=
  match bracket? b with
  | some t => .ok (t, 0)
  | none =>
    if b = byte '"' then (stringBody rest).map fun (t, n) => (.string t, n)
    else if b = byte '.' then
      if rest.take 2 = [byte '.', byte '.'] then .ok (.ellipsis, 2) else .error (.strayByte b)
    else if isSymbolStart b then
      let tail := rest.takeWhile isSymbolByte
      .ok (.symbol (b :: tail), tail.length)
    else if Text.isDigit b then
      let tail := (numberTail (b :: rest)).drop 1
      .ok (.number (b :: tail), tail.length)
    else if isSign b then
      if (rest.head?.map Text.isDigit).getD false then
        let tail := numberTail rest
        .ok (.number (b :: tail), tail.length)
      else .ok (.symbol [b], 0)
    else .error (.strayByte b)

def tokens (t : Text) : List Token × Option LexError :=
  match _h : t.dropWhile isBlank with
  | [] => ([], none)
  | b :: rest =>
    if b = 0 then ([], none)
    else if b = byte ';' then tokens (rest.dropWhile fun c => !endsComment c)
    else
      match token b rest with
      | .error e => ([], some e)
      | .ok (tok, n) =>
        let (toks, e) := tokens (rest.drop n)
        (tok :: toks, e)
termination_by t.length
decreasing_by
  all_goals
    have hle : (t.dropWhile isBlank).length ≤ t.length := (List.dropWhile_suffix _).length_le
    rw [_h] at hle
    simp only [List.length_cons] at hle
  · have := (List.dropWhile_suffix (l := rest) fun c => !endsComment c).length_le
    omega
  · simp only [List.length_drop]
    omega

end Lexer

end Augite.Datum
