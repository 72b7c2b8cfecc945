/-!
# Binary64 numbers

A double is its sixty-four bits. Its value is read off by exact integer arithmetic, and
a quotient of natural numbers is rounded to the nearest double, a half going to the
neighbour whose significand is even.
-/

namespace Augite

/-- A binary64 number: one sign bit, eleven bits of exponent, fifty-two of fraction. -/
structure Double where
  bits : UInt64
  deriving DecidableEq, Repr, Inhabited

namespace Double

def signBit : Nat := 0x8000000000000000

def leadingBit : Nat := 0x10000000000000

def isNegative (d : Double) : Bool := signBit ≤ d.bits.toNat

def exponentField (d : Double) : Nat := d.bits.toNat / leadingBit % 2048

def fraction (d : Double) : Nat := d.bits.toNat % leadingBit

def isFinite (d : Double) : Bool := d.exponentField < 2047

def isNaN (d : Double) : Bool := d.exponentField == 2047 && d.fraction != 0

/-- The magnitude of a finite double is `significand · 2 ^ exponent`. -/
def significand (d : Double) : Nat :=
  if d.exponentField = 0 then d.fraction else leadingBit + d.fraction

def exponent (d : Double) : Int := (max d.exponentField 1 : Nat) - 1075

def assemble (negative : Bool) (field fraction : Nat) : Double :=
  ⟨((if negative then signBit else 0) + field * leadingBit + fraction).toUInt64⟩

def zero (negative : Bool) : Double := assemble negative 0 0

def infinity (negative : Bool) : Double := assemble negative 2047 0

/-- The quiet not-a-number: of its fraction only the highest bit is set. It equals nothing,
itself included. -/
def nan (negative : Bool) : Double := assemble negative 2047 (leadingBit / 2)

/-- The integer nearest to `num / den`, a half going to the even neighbour. -/
def roundedQuotient (num den : Nat) : Nat :=
  let q := num / den
  let r := num % den
  if 2 * r < den then q else if den < 2 * r then q + 1 else q + q % 2

def scaled (num den : Nat) (e : Int) : Nat × Nat :=
  if 0 ≤ e then (num, den * Nat.pow 2 e.toNat) else (num * Nat.pow 2 (-e).toNat, den)

/-- The exponent at which `num / den` has a significand of fifty-three bits, or the least
exponent of a double where that is greater. -/
def targetExponent (num den : Nat) : Int :=
  let e : Int := (Nat.log2 num : Int) - Nat.log2 den - 52
  let (n, d) := scaled num den e
  max (if n / d < leadingBit then e - 1 else e) (-1074)

/-- The double nearest to `num / den` with the given sign; none where it would not be
finite. -/
def ofRatio? (negative : Bool) (num den : Nat) : Option Double :=
  if num = 0 then some (zero negative)
  else
    let e := targetExponent num den
    let (n, d) := scaled num den e
    let m := roundedQuotient n d
    let (m, e) := if m = 2 * leadingBit then (leadingBit, e + 1) else (m, e)
    if m < leadingBit then some (assemble negative 0 m)
    else
      let field := (e + 1075).toNat
      if field < 2047 then some (assemble negative field (m - leadingBit)) else none

/-- The finite double nearest to a quotient, or the infinity beyond all of them. -/
def ofRatio (negative : Bool) (num den : Nat) : Double :=
  (ofRatio? negative num den).getD (infinity negative)

def magnitude (d : Double) : Nat × Nat := scaled d.significand 1 (-d.exponent)

/-- Numeric equality: the two zeros are equal, a not-a-number differs from everything. -/
def equals (a b : Double) : Bool :=
  !a.isNaN && !b.isNaN && (a == b || (a.significand == 0 && b.significand == 0 &&
    a.isFinite && b.isFinite))

def plus (a b : Double) : Double :=
  let (n, d) := a.magnitude
  let (k, l) := b.magnitude
  ofRatio false (n * l + k * d) (d * l)

def atMost (a b : Double) : Bool :=
  let (n, d) := a.magnitude
  let (k, l) := b.magnitude
  n * l ≤ k * d

end Double

end Augite
