import Augite.Text.Utf8

/-!
# White space

The white space characters of Unicode, and texts without white space around them.
-/

namespace Augite.Text

def isBlank (c : Nat) : Bool :=
  (0x09 ≤ c && c ≤ 0x0D) || c == 0x20 || c == 0x85 || c == 0xA0 || c == 0x1680 ||
    (0x2000 ≤ c && c ≤ 0x200A) || c == 0x2028 || c == 0x2029 || c == 0x202F || c == 0x205F ||
    c == 0x3000

def isBlankGlyph : Utf8.Glyph → Bool
  | .char c => isBlank c
  | .stray _ => false

def trim (t : Text) : Text :=
  let inner := ((Utf8.glyphs t).dropWhile isBlankGlyph).reverse.dropWhile isBlankGlyph
  inner.reverse.flatMap Utf8.Glyph.bytes

end Augite.Text
