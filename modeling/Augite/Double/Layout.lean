import Augite.Double.Shortest

/-!
# Numbers in general notation

General notation writes a decimal positionally while its exponent is small and with an
exponent otherwise. Two formats of it are in use: the plain one, and the one in which a
number always has a point.
-/

namespace Augite

structure Layout where
  /-- Exponents below this one are written out. -/
  least : Int
  /-- Exponents from this one on are written out. -/
  limit : Int
  /-- A number without a point gets `.0` after its digits. -/
  pointed : Bool

namespace Layout

def plain : Layout := ⟨-4, 6, false⟩

def pointedPlain : Layout := ⟨-4, 6, true⟩

def exponentText (x : Int) : Text :=
  let ds := Text.decimal x.natAbs
  (if x < 0 then byte '-' else byte '+') :: (if ds.length < 2 then byte '0' :: ds else ds)

def withPoint (layout : Layout) (ds : Text) (whole : Nat) : Text :=
  if whole < ds.length then ds.take whole ++ byte '.' :: ds.drop whole
  else
    ds ++ List.replicate (whole - ds.length) (byte '0') ++ if layout.pointed then ".0" else ""

def decimalText (layout : Layout) (v : Decimal) : Text :=
  let ds := Text.decimal v.digits
  let x : Int := if v.digits = 0 then 0 else v.exponent + ds.length - 1
  if x < layout.least ∨ layout.limit ≤ x then
    layout.withPoint ds 1 ++ byte 'e' :: exponentText x
  else if x < 0 then
    "0." ++ List.replicate (x.natAbs - 1) (byte '0') ++ ds
  else layout.withPoint ds (x.toNat + 1)

def text (layout : Layout) (d : Double) : Text :=
  if d.isNaN then "NaN"
  else
    let sign : Text := if d.isNegative then "-" else ""
    if d.isFinite then sign ++ layout.decimalText d.shortest
    else (if d.isNegative then "-" else "+") ++ "Inf"

end Layout

end Augite
