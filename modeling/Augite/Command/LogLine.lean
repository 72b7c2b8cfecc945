import Augite.Log
import Augite.Text.Quoted
import Augite.Text.Blank

/-!
# Lines of the log

A record is written as a line of keys and values. A value is quoted if it is empty or has
white space, an equals sign, a quote or something that cannot be printed.
-/

namespace Augite

def needsQuotes : Utf8.Glyph → Bool
  | .stray _ => true
  | .char c =>
    if c < 0x80 then c ≤ 32 || c == 0x22 || c == 0x3D
    else Text.isBlank c || !Text.isPrintable c

def logValue (t : Text) : Text :=
  if t.isEmpty || (Utf8.glyphs t).any needsQuotes then Text.quote t else t

def Event.line (e : Event) : Text :=
  let fields : List (Text × Text) := ("level", e.level.name) :: ("msg", e.message) :: e.fields
  Text.join " " (fields.map fun (k, v) => k ++ "=" ++ logValue v) ++ "\n"

def logText (es : List Event) : Text := es.flatMap Event.line

end Augite
