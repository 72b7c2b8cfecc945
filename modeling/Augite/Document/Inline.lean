import Augite.Text.Blank
import Augite.Text.Punctuation

/-!
# Plain text of a heading

The text of a heading without the marks of code and emphasis. Backticks around code and the
stars and underscores that form emphasis are dropped; the same marks stay where they are
escaped or have no partner. The ends of lines are dropped too, but stay inside code.
-/

namespace Augite.Document

/-- The bytes that are trimmed from lines and that separate their parts. Vertical tabs and
form feeds are none of them. -/
def isSpace (b : UInt8) : Bool :=
  b == byte '\t' || b == byte '\n' || b == byte '\r' || b == byte ' '

/-- The bytes that a backslash can escape. -/
def isEscapable (b : UInt8) : Bool := b < 0x80 && Text.isPunctuation b.toNat

/-- The character that a text starts with. The end of the text counts as the end of a line,
and a byte at which no character starts as the replacement character. -/
def firstCode : Text → Nat
  | [] => 0x0A
  | b :: rest => ((Utf8.decodeAfter? b rest).map Prod.fst).getD 0xFFFD

structure Run where
  mark : UInt8
  /-- The number of marks in the text. -/
  size : Nat
  /-- The number of marks that have no partner so far. -/
  left : Nat
  opens : Bool
  closes : Bool
  /-- Whether later runs may still close emphasis that this one opens. -/
  live : Bool
  deriving DecidableEq, Repr

namespace Run

/-- A run between two characters. Emphasis opens before what is not white space and closes
behind it; next to punctuation it does so only where the other side is no word, and inside a
word an underscore does neither. -/
def make (mark : UInt8) (size : Nat) (before after : Nat) : Run :=
  let spaceBefore := Text.isBlank before
  let spaceAfter := Text.isBlank after
  let pointBefore := Text.isPunctuation before
  let pointAfter := Text.isPunctuation after
  let left := !spaceAfter && (!pointAfter || spaceBefore || pointBefore)
  let right := !spaceBefore && (!pointBefore || spaceAfter || pointAfter)
  let opens := left && (mark != byte '_' || !right || pointBefore)
  let closes := right && (mark != byte '_' || !left || pointAfter)
  { mark, size, left := size, opens, closes, live := opens }

/-- How many marks two runs take from each other: two where both have them, and none where
the sizes forbid it. -/
def taken (opener closer : Run) : Nat :=
  if (opener.closes || closer.opens) && (opener.size + closer.size) % 3 == 0 &&
      closer.size % 3 != 0 then 0
  else if 2 ≤ opener.left ∧ 2 ≤ closer.left then 2
  else 1

end Run

inductive Piece where
  | text (t : Text)
  | run (r : Run)
  deriving DecidableEq, Repr

/-- The code before the next run of exactly `n` backticks, and the number of bytes up to the
end of that run. -/
def codeEnd? (n : Nat) (t : Text) : Option (Text × Nat) :=
  match t with
  | [] => none
  | b :: rest =>
    if b = byte '`' then
      let ticks := b :: rest.takeWhile fun c => c == byte '`'
      if ticks.length = n then some ([], n)
      else
        (codeEnd? n (rest.dropWhile fun c => c == byte '`')).map fun (code, k) =>
          (ticks ++ code, ticks.length + k)
    else (codeEnd? n rest).map fun (code, k) => (b :: code, k + 1)
termination_by t.length
decreasing_by
  · have := (List.dropWhile_suffix (l := rest) fun c => c == byte '`').length_le
    simp only [List.length_cons]
    omega
  · simp

/-- Code without one blank or end of line at each end, where both are there and it is not all
white space. -/
def trimCode (t : Text) : Text :=
  let isEdge := fun b => b == byte ' ' || b == byte '\n'
  if t.all isSpace then t
  else if t.head?.any isEdge && t.getLast?.any isEdge then t.tail.dropLast
  else t

def startsAtLineEnd (t : Text) : Bool :=
  (Text.ofString "\n").isPrefixOf t || (Text.ofString "\r\n").isPrefixOf t

/-- The pieces of a text that stands behind a character. A single backslash at the end of a
line breaks the line and is dropped, as is white space around the end of a line. A byte inside
a character leaves that character as the one before. -/
def pieces (before : Nat) (t : Text) : List Piece :=
  match t with
  | [] => []
  | b :: rest =>
    if b = byte '\\' then
      match rest with
      | [] => [.text [b]]
      | c :: after =>
        if isEscapable c then .text [b, c] :: pieces c.toNat after
        else if before != b.toNat && startsAtLineEnd (c :: after) then pieces b.toNat (c :: after)
        else .text [b] :: pieces b.toNat (c :: after)
    else if b = byte '`' then
      let ticks := b :: rest.takeWhile fun c => c == byte '`'
      let after := rest.dropWhile fun c => c == byte '`'
      match codeEnd? ticks.length after with
      | some (code, k) => .text (trimCode code) :: pieces b.toNat (after.drop k)
      | none => .text ticks :: pieces b.toNat after
    else if b = byte '*' ∨ b = byte '_' then
      let size := (rest.takeWhile fun c => c == b).length + 1
      let after := rest.dropWhile fun c => c == b
      .run (.make b size before (firstCode after)) :: pieces b.toNat after
    else if isSpace b && (b :: rest.takeWhile isSpace).contains (byte '\n') then
      pieces 0x0A (rest.dropWhile isSpace)
    else .text [b] :: pieces (if Utf8.isTail b then before else firstCode (b :: rest)) rest
termination_by t.length
decreasing_by
  · simp only [List.length_cons]
    omega
  · simp
  · simp
  · have := (List.dropWhile_suffix (l := rest) fun c => c == byte '`').length_le
    simp only [List.length_cons, List.length_drop]
    omega
  · have := (List.dropWhile_suffix (l := rest) fun c => c == byte '`').length_le
    simp only [List.length_cons]
    omega
  · have := (List.dropWhile_suffix (l := rest) fun c => c == b).length_le
    simp only [List.length_cons]
    omega
  · have := (List.dropWhile_suffix (l := rest) isSpace).length_le
    simp only [List.length_cons]
    omega
  · simp

/-- Pairs a closing run with the nearest run before it that fits. The pieces before it are
given from the last to the first, and come back without the marks that were taken; runs in
between are dead from then on. -/
def pair? (closer : Run) : List Piece → Option (Nat × List Piece)
  | [] => none
  | .text t :: ps => (pair? closer ps).map fun (n, ps) => (n, .text t :: ps)
  | .run o :: ps =>
    let n := o.taken closer
    if o.live && o.mark == closer.mark && n != 0 then
      some (n, .run { o with left := o.left - n, live := n < o.left } :: ps)
    else (pair? closer ps).map fun (n, ps) => (n, .run { o with live := false } :: ps)

/-- Puts a run behind pieces given from the last to the first, closing what it can close. -/
def settle : Nat → Run → List Piece → List Piece
  | 0, r, ps => .run { r with live := false } :: ps
  | fuel + 1, r, ps =>
    if r.closes && r.left != 0 then
      match pair? r ps with
      | some (n, ps) => settle fuel { r with left := r.left - n } ps
      | none => .run r :: ps
    else .run { r with live := r.opens && r.left != 0 } :: ps

/-- Settles the runs of pieces from the first to the last; the result is reversed. -/
def settleAll (done : List Piece) : List Piece → List Piece
  | [] => done
  | .text t :: ps => settleAll (.text t :: done) ps
  | .run r :: ps => settleAll (settle (r.size + 1) r done) ps

def Piece.plain : Piece → Text
  | .text t => t
  | .run r => List.replicate r.left r.mark

def plainText (t : Text) : Text :=
  (settleAll [] (pieces 0x0A t)).reverse.flatMap Piece.plain

end Augite.Document
