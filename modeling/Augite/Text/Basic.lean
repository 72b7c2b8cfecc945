/-!
# Text

Every text of the library is a list of bytes: source files, identifiers, messages and
emitted modules alike. No encoding is assumed, so that positions count bytes and a
malformed file is still a text. A string literal stands for its UTF-8 bytes.
-/

namespace Augite

abbrev Text := List UInt8

@[inline] def byte (c : Char) : UInt8 := c.toUInt8

namespace Text

def ofString (s : String) : Text := s.toUTF8.data.toList

end Text

instance : Coe String Text := ⟨Text.ofString⟩

namespace Text

/-! ### Byte classes -/

def isDigit (b : UInt8) : Bool := 48 ≤ b && b ≤ 57

def isLetter (b : UInt8) : Bool := (97 ≤ b && b ≤ 122) || (65 ≤ b && b ≤ 90) || b == 95

/-! ### Numbers as text -/

def digit (n : Nat) : UInt8 := (48 + n % 10).toUInt8

def decimal (n : Nat) : Text :=
  if n < 10 then [digit n] else decimal (n / 10) ++ [digit n]
termination_by n

/-- Decimal notation of an integer, with a sign only below zero. -/
def ofInt : Int → Text
  | .ofNat n => decimal n
  | .negSucc n => byte '-' :: decimal (n + 1)

def digitsValue (ds : Text) : Nat := ds.foldl (fun v b => 10 * v + (b.toNat - 48)) 0

/-- The digit of a number's last hexadecimal place, letters counted from `a`. -/
def hexDigit (a : Char) (n : Nat) : UInt8 :=
  let d := n % 16
  if d < 10 then (48 + d).toUInt8 else (a.toNat + (d - 10)).toUInt8

def hex (a : Char) (n : Nat) : Text :=
  if n < 16 then [hexDigit a n] else hex a (n / 16) ++ [hexDigit a n]
termination_by n

def hexPadded (a : Char) : Nat → Nat → Text
  | 0, _ => []
  | width + 1, n => hexPadded a width (n / 16) ++ [hexDigit a n]

/-! ### Cutting and trimming -/

def trimEnd (p : UInt8 → Bool) (t : Text) : Text := (t.reverse.dropWhile p).reverse

def cut? (b : UInt8) : Text → Option (Text × Text)
  | [] => none
  | c :: rest => if c = b then some ([], rest) else (cut? b rest).map fun (l, r) => (c :: l, r)

def after? : Text → Text → Option Text
  | [], t => some t
  | _ :: _, [] => none
  | b :: bs, c :: t => if b = c then after? bs t else none

def withoutEnding (ending t : Text) : Text :=
  match after? ending.reverse t.reverse with
  | some rest => rest.reverse
  | none => t

def lines : Text → List Text
  | [] => []
  | b :: rest =>
    if b = 10 then [b] :: lines rest
    else match lines rest with
      | [] => [[b]]
      | l :: ls => (b :: l) :: ls

def join (separator : Text) : List Text → Text
  | [] => []
  | [t] => t
  | t :: ts => t ++ separator ++ join separator ts

/-- Strict byte-wise order, a proper beginning coming first. -/
def before : Text → Text → Bool
  | _, [] => false
  | [], _ :: _ => true
  | a :: as, b :: bs => if a = b then before as bs else a < b

end Text

end Augite
