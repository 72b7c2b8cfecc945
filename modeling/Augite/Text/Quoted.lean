import Augite.Text.Utf8
import Augite.Text.Printable

/-!
# Quoted text

A quoted text shows printable characters as they are and everything else by an escape:
a letter for the usual control characters, two hexadecimal digits for the other ones and
for stray bytes, four or eight for the remaining characters.
-/

namespace Augite.Text

def controlLetter? (c : Nat) : Option UInt8 :=
  match c with
  | 0x07 => some (byte 'a')
  | 0x08 => some (byte 'b')
  | 0x0C => some (byte 'f')
  | 0x0A => some (byte 'n')
  | 0x0D => some (byte 'r')
  | 0x09 => some (byte 't')
  | 0x0B => some (byte 'v')
  | _ => none

def escapeChar (mark : UInt8) (c : Nat) : Text :=
  if c = mark.toNat ∨ c = 0x5C then byte '\\' :: Utf8.encode c
  else if isPrintable c then Utf8.encode c
  else match controlLetter? c with
    | some letter => [byte '\\', letter]
    | none =>
      if c < 0x20 ∨ c = 0x7F then byte '\\' :: byte 'x' :: hexPadded 'a' 2 c
      else if c < 0x10000 then byte '\\' :: byte 'u' :: hexPadded 'a' 4 c
      else byte '\\' :: byte 'U' :: hexPadded 'a' 8 c

def escapeGlyph (mark : UInt8) : Utf8.Glyph → Text
  | .char c => escapeChar mark c
  | .stray b => byte '\\' :: byte 'x' :: hexPadded 'a' 2 b.toNat

def quote (t : Text) : Text :=
  byte '"' :: (Utf8.glyphs t).flatMap (escapeGlyph (byte '"')) ++ [byte '"']

def quoteChar (c : Nat) : Text :=
  byte '\'' :: escapeChar (byte '\'') c ++ [byte '\'']

end Augite.Text
