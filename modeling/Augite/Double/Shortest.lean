import Augite.Double.Basic
import Augite.Text.Basic

/-!
# The fewest digits

The decimal of a double is the one with the fewest digits among those that round to it,
and of these the nearest. The reals that round to a double form an interval around it,
which holds its ends exactly if the significand is even.
-/

namespace Augite

structure Decimal where
  digits : Nat
  exponent : Int
  deriving DecidableEq, Repr

namespace Decimal

/-- Both sides of a comparison between `digits · 10 ^ exponent` and `m · 2 ^ q`, multiplied
so that they are natural. -/
def sides (x : Decimal) (m : Nat) (q : Int) : Nat × Nat :=
  (x.digits * Nat.pow 10 x.exponent.toNat * Nat.pow 2 (-q).toNat,
    m * Nat.pow 2 q.toNat * Nat.pow 10 (-x.exponent).toNat)

def trimmed (fuel : Nat) (x : Decimal) : Decimal :=
  match fuel with
  | 0 => x
  | fuel + 1 =>
    if x.digits % 10 = 0 ∧ x.digits ≠ 0 then trimmed fuel ⟨x.digits / 10, x.exponent + 1⟩ else x

end Decimal

namespace Double

/-- The decimal exponent `x` of a magnitude `m · 2 ^ q`: it lies between `10 ^ x` and
`10 ^ (x + 1)`. -/
def decimalExponent (m : Nat) (q : Int) : Int :=
  let (n, d) := scaled m 1 (-q)
  if d ≤ n then (Text.decimal (n / d)).length - 1 else -(Text.decimal (d / n)).length

/-- The decimal rounds to `m · 2 ^ q`. Bounds are in quarters of the last place; below a
power of two the doubles stand twice as close. -/
def roundsTo (m : Nat) (q : Int) (x : Decimal) : Bool :=
  let below := if m = leadingBit ∧ -1074 < q then 1 else 2
  let (a, low) := x.sides (4 * m - below) (q - 2)
  let (_, high) := x.sides (4 * m + 2) (q - 2)
  if m % 2 = 0 then low ≤ a && a ≤ high else low < a && a < high

/-- The two decimals next to `m · 2 ^ q` among those whose last digit counts
`10 ^ exponent`, the nearer one first, the even one first at a tie. -/
def neighbours (m : Nat) (q exponent : Int) : Decimal × Decimal :=
  let (unit, value) := Decimal.sides ⟨1, exponent⟩ m q
  let f := value / unit
  let lower : Decimal := ⟨f, exponent⟩
  let upper : Decimal := ⟨f + 1, exponent⟩
  let twice := 2 * value
  let middle := (2 * f + 1) * unit
  if twice < middle ∨ (twice = middle ∧ f % 2 = 0) then (lower, upper) else (upper, lower)

/-- The shortest decimal with at least `count` digits that rounds to `m · 2 ^ q`, seventeen
digits being always enough. -/
def shortestFrom (m : Nat) (q x : Int) : (more count : Nat) → Decimal
  | 0, count => (neighbours m q (x - count + 1)).1
  | more + 1, count =>
    let (near, far) := neighbours m q (x - count + 1)
    if roundsTo m q near then near
    else if roundsTo m q far then far
    else shortestFrom m q x more (count + 1)

def shortest (d : Double) : Decimal :=
  if d.significand = 0 then ⟨0, 0⟩
  else
    let x := decimalExponent d.significand d.exponent
    (shortestFrom d.significand d.exponent x 16 1).trimmed 18

def isExact (d : Double) : Bool :=
  let (a, b) := d.shortest.sides d.significand d.exponent
  a = b

end Double

end Augite
