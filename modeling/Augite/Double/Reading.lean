import Augite.Double.Basic
import Augite.Text.Basic

/-!
# Reading doubles

A double is read from an optional sign and a number, or from a name of infinity or of
not-a-number. A number has digits with an optional point; in decimal notation an exponent of
ten may follow, in hexadecimal notation an exponent of two has to. Single underscores may
separate digits. The nearest double is the value.
-/

namespace Augite.Double

inductive ReadError where
  | malformed
  | outOfRange
  deriving DecidableEq, Repr

structure Radix where
  base : Nat
  /-- The exponent counts powers of this number. -/
  power : Nat
  /-- The base is `power ^ places`, so a digit behind the point takes this from the exponent. -/
  places : Nat
  /-- The small letter in front of the exponent. -/
  mark : UInt8
  needsExponent : Bool
  deriving DecidableEq, Repr

namespace Radix

def decimal : Radix :=
  { base := 10, power := 10, places := 1, mark := byte 'e', needsExponent := false }

def hexadecimal : Radix :=
  { base := 16, power := 2, places := 4, mark := byte 'p', needsExponent := true }

end Radix

def small (b : UInt8) : UInt8 := if 65 ≤ b && b ≤ 90 then b + 32 else b

def digitValue? (b : UInt8) : Option Nat :=
  if Text.isDigit b then some (b.toNat - 48)
  else if 97 ≤ small b && small b ≤ 102 then some ((small b).toNat - 87)
  else none

namespace Radix

def isDigit (r : Radix) (b : UInt8) : Bool := (digitValue? b).any fun v => v < r.base

def value (r : Radix) (ds : Text) : Nat :=
  ds.foldl (fun v b => r.base * v + (digitValue? b).getD 0) 0

def double? (r : Radix) (negative : Bool) (digits : Nat) (exponent : Int) : Option Double :=
  ofRatio? negative (digits * Nat.pow r.power exponent.toNat) (Nat.pow r.power (-exponent).toNat)

end Radix

def readExponent? : Text → Option Int
  | [] => none
  | b :: rest =>
    let (negative, ds) :=
      if b = byte '-' then (true, rest) else if b = byte '+' then (false, rest) else (false, b :: rest)
    if ds.isEmpty || !ds.all Text.isDigit then none
    else
      let v : Int := Text.digitsValue ds
      some (if negative then -v else v)

def readUnsigned (r : Radix) (negative : Bool) (t : Text) : Except ReadError Double :=
  let whole := t.takeWhile r.isDigit
  let rest := t.dropWhile r.isDigit
  let (part, rest) :=
    match rest with
    | b :: more =>
      if b = byte '.' then (more.takeWhile r.isDigit, more.dropWhile r.isDigit) else ([], rest)
    | [] => ([], [])
  if whole.isEmpty && part.isEmpty then .error .malformed
  else
    let exponent? : Option Int :=
      match rest with
      | [] => if r.needsExponent then none else some 0
      | b :: more => if small b = r.mark then readExponent? more else none
    match exponent? with
    | none => .error .malformed
    | some x =>
      -- A number this far from one is zero or out of range whatever its digits are.
      let limit : Int := 1100 + 4 * (whole ++ part).length
      let x := max (min x limit) (-limit)
      match r.double? negative (r.value (whole ++ part)) (x - r.places * part.length) with
      | some d => .ok d
      | none => .error .outOfRange

def radixOf : Text → Radix × Text
  | a :: b :: rest =>
    if a = byte '0' ∧ small b = byte 'x' then (.hexadecimal, rest) else (.decimal, a :: b :: rest)
  | t => (.decimal, t)

/-- Every underscore stands behind a digit and in front of one; `digit` tells whether a digit
came last. -/
def separates (r : Radix) (digit : Bool) : Text → Bool
  | [] => true
  | b :: rest =>
    if b = byte '_' then digit && rest.head?.any r.isDigit && separates r false rest
    else separates r (r.isDigit b) rest

/-- An unsigned number in either notation, with or without underscores. For the underscore behind
it, `0x` counts as a digit. -/
def readNumber (negative : Bool) (t : Text) : Except ReadError Double :=
  let (r, body) := radixOf t
  if separates r (r == .hexadecimal) body then
    readUnsigned r negative (body.filter fun b => b != byte '_')
  else .error .malformed

def ofText (t : Text) : Except ReadError Double :=
  let (negative, signed, body) :=
    match t with
    | b :: rest =>
      if b = byte '-' then (true, true, rest)
      else if b = byte '+' then (false, true, rest)
      else (false, false, t)
    | [] => (false, false, [])
  let name := body.map small
  if name = "inf" ∨ name = "infinity" then .ok (infinity negative)
  else if name = "nan" then (if signed then .error .malformed else .ok (nan false))
  else readNumber negative body

end Augite.Double
