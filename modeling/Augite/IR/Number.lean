import Augite.IR.Basic
import Augite.Double.Layout

/-!
# Numbers in modules

How integer and double constants are written. An integer is written in hexadecimal where
that takes markedly fewer distinct digits than decimal notation does; the comparison is
made in double arithmetic. A double is written in decimal where its shortest digits are
its exact value and as its bits otherwise; every not-a-number is written as the quiet one of
its sign.
-/

namespace Augite.IR

def variety (base : Nat) (digits : Text) : Double :=
  Double.ofRatio false digits.eraseDups.length (min digits.length base)

def varietyLimit (places : Nat) : Double :=
  Double.ofRatio false (if places ≤ 6 then 2 else if places ≤ 10 then 3 else 4) places

def prefersHex (n : Nat) : Bool :=
  4096 ≤ n &&
    let digits := Text.hex 'A' n
    let h := variety 16 digits
    let d := variety 10 (Text.decimal n)
    h.atMost ((varietyLimit digits.length).plus (Double.ofRatio false 1 100)) &&
      (h.plus (Double.ofRatio false 1 5)).atMost d

def intText (bits : Nat) (v : Int) : Text :=
  if bits = 1 then (if v = 0 then "false" else "true")
  else
    match v with
    | .ofNat n => if prefersHex n then "u0x" ++ Text.hex 'A' n else Text.decimal n
    | v => Text.ofInt v

def doubleText (d : Double) : Text :=
  if d.isFinite && d.isExact then Layout.pointedPlain.text d
  else "0x" ++ Text.hex 'A' (if d.isNaN then Double.nan d.isNegative else d).bits.toNat

end Augite.IR
