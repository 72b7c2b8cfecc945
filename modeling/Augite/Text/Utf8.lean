import Augite.Text.Basic

/-!
# Characters in UTF-8

A text is read as a sequence of glyphs: well-formed characters, and stray bytes wherever
none starts. Writing the glyphs back gives the text.
-/

namespace Augite.Utf8

def encode (c : Nat) : Text :=
  if c < 0x80 then [c.toUInt8]
  else if c < 0x800 then [(0xC0 + c / 0x40).toUInt8, (0x80 + c % 0x40).toUInt8]
  else if c < 0x10000 then
    [(0xE0 + c / 0x1000).toUInt8, (0x80 + c / 0x40 % 0x40).toUInt8, (0x80 + c % 0x40).toUInt8]
  else
    [(0xF0 + c / 0x40000).toUInt8, (0x80 + c / 0x1000 % 0x40).toUInt8,
      (0x80 + c / 0x40 % 0x40).toUInt8, (0x80 + c % 0x40).toUInt8]

def isTail (b : UInt8) : Bool := 0x80 ≤ b && b ≤ 0xBF

def tailBits (b : UInt8) : Nat := b.toNat % 0x40

/-- The second bytes that may follow a first byte of three or four: shorter encodings,
surrogates and codes above U+10FFFF are left out. -/
def secondAllowed (first second : UInt8) : Bool :=
  if first = 0xE0 then 0xA0 ≤ second && second ≤ 0xBF
  else if first = 0xED then 0x80 ≤ second && second ≤ 0x9F
  else if first = 0xF0 then 0x90 ≤ second && second ≤ 0xBF
  else if first = 0xF4 then 0x80 ≤ second && second ≤ 0x8F
  else isTail second

/-- The character after the first byte `a` is read: its code and the text that follows. -/
def decodeAfter? (a : UInt8) (rest : Text) : Option (Nat × Text) :=
  if a < 0x80 then some (a.toNat, rest)
  else if 0xC2 ≤ a && a ≤ 0xDF then
    match rest with
    | b :: rest => if isTail b then some (a.toNat % 0x20 * 0x40 + tailBits b, rest) else none
    | _ => none
  else if 0xE0 ≤ a && a ≤ 0xEF then
    match rest with
    | b :: c :: rest =>
      if secondAllowed a b && isTail c then
        some (a.toNat % 0x10 * 0x1000 + tailBits b * 0x40 + tailBits c, rest)
      else none
    | _ => none
  else if 0xF0 ≤ a && a ≤ 0xF4 then
    match rest with
    | b :: c :: d :: rest =>
      if secondAllowed a b && isTail c && isTail d then
        some (a.toNat % 8 * 0x40000 + tailBits b * 0x1000 + tailBits c * 0x40 + tailBits d, rest)
      else none
    | _ => none
  else none

theorem length_le_of_decodeAfter? {a : UInt8} {rest after : Text} {c : Nat}
    (h : decodeAfter? a rest = some (c, after)) : after.length ≤ rest.length := by
  unfold decodeAfter? at h
  repeat' split at h
  all_goals simp_all
  all_goals (obtain ⟨_, rfl⟩ := h; omega)

/-- A well-formed character, or a byte at which none starts. -/
inductive Glyph where
  | char (code : Nat)
  | stray (byte : UInt8)
  deriving DecidableEq, Repr

def glyphs : Text → List Glyph
  | [] => []
  | a :: rest =>
    match _h : decodeAfter? a rest with
    | some (c, after) => .char c :: glyphs after
    | none => .stray a :: glyphs rest
termination_by t => t.length
decreasing_by
  · have := length_le_of_decodeAfter? _h
    simp only [List.length_cons]
    omega
  · simp

def Glyph.bytes : Glyph → Text
  | .char c => encode c
  | .stray b => [b]

def Glyph.isChar : Glyph → Bool
  | .char _ => true
  | .stray _ => false

/-- Every byte of the text belongs to a well-formed character. -/
def isValid (t : Text) : Bool := (glyphs t).all Glyph.isChar

end Augite.Utf8
