import Augite.Document.Inline

/-!
# Blocks of a document

A document is a sequence of lines. Headings and fenced code are kept; paragraphs, indented
code and rules are passed over. A heading is a line that starts with number signs, or a
paragraph with a line of equals signs or hyphens under it. Fenced code stands between two
lines of backticks or tildes, or goes on to the end of the document.
-/

namespace Augite.Document

inductive Block where
  | heading (line : Nat) (level : Nat) (text : Text)
  /-- Fenced code, with the line of its contents. -/
  | fence (line : Nat) (language : Text) (content : Text)
  deriving DecidableEq, Repr

/-! ### Lines -/

def isBlankLine (l : Text) : Bool := l.all isSpace

def trimRight (l : Text) : Text := Text.trimEnd isSpace l

def trimLine (l : Text) : Text := trimRight (l.dropWhile isSpace)

/-- The width of the blanks and tabs that a line starts with from a column on, and the
rest of the line. -/
def indentFrom (col : Nat) : Text → Nat × Text
  | [] => (col, [])
  | b :: rest =>
    if b = byte ' ' then indentFrom (col + 1) rest
    else if b = byte '\t' then indentFrom (col + 4 - col % 4) rest
    else (col, b :: rest)

def indent (l : Text) : Nat × Text := indentFrom 0 l

def isRule (l : Text) : Bool :=
  let marks := l.filter fun b => !isSpace b
  3 ≤ marks.length &&
    [byte '*', byte '-', byte '_'].any fun m => marks.all fun b => b == m

def underline? (l : Text) : Option Nat :=
  let marks := trimRight l
  if marks.isEmpty then none
  else if marks.all fun b => b == byte '=' then some 1
  else if marks.all fun b => b == byte '-' then some 2
  else none

def withoutClosing (t : Text) : Text :=
  let body := Text.trimEnd (fun b => b == byte '#') t
  if body.length = t.length then t
  else if (body.getLast?.map isSpace).getD true then trimRight body
  else t

def heading? (l : Text) : Option (Nat × Text) :=
  let level := (l.takeWhile fun b => b == byte '#').length
  let rest := l.drop level
  if level = 0 ∨ 6 < level then none
  else if (rest.head?.map isSpace).getD true then some (level, withoutClosing (trimLine rest))
  else none

structure Fence where
  mark : UInt8
  /-- The number of marks. -/
  size : Nat
  /-- The number of blanks before the marks. -/
  margin : Nat
  language : Text
  deriving DecidableEq, Repr

/-- The fence that a line opens, given its indent and the rest. Backticks cannot be followed
by more of them. The language is the first word behind the marks; a single byte behind them is
the end of the line, also where the document ends with it. -/
def fence? (margin : Nat) (l : Text) : Option Fence :=
  match l with
  | [] => none
  | mark :: _ =>
    let size := (l.takeWhile fun b => b == mark).length
    let behind := l.drop size
    let info := if behind.length ≤ 1 then [] else trimLine behind
    if (mark = byte '`' ∨ mark = byte '~') ∧ 3 ≤ size ∧
        ¬(mark = byte '`' ∧ info.contains (byte '`')) then
      some { mark, size, margin, language := info.takeWhile fun b => b != byte ' ' }
    else none

def Fence.closedBy (f : Fence) (l : Text) : Bool :=
  let (width, rest) := indent l
  let size := (rest.takeWhile fun b => b == f.mark).length
  width < 4 && f.size ≤ size && isBlankLine (rest.drop size)

/-- The line from a column on, where only blanks and tabs stand before it; the reading has
come to column `col`. A tab that reaches beyond the column leaves blanks. -/
def fromColumn? (column col : Nat) : Text → Option Text
  | [] => if column ≤ col then some (List.replicate (col - column) (byte ' ')) else none
  | b :: rest =>
    if column ≤ col then some (List.replicate (col - column) (byte ' ') ++ b :: rest)
    else if b = byte ' ' then fromColumn? column (col + 1) rest
    else if b = byte '\t' then fromColumn? column (col + 4 - col % 4) rest
    else none

/-- A line of fenced code without the indent of its fence, or without all of a smaller one. -/
def Fence.contentLine (f : Fence) (l : Text) : Text :=
  match fromColumn? f.margin 0 l with
  | some t => t
  | none =>
    let rest := (indent l).2
    if rest.isEmpty || rest.head? = some (byte '\n') then l else rest

/-! ### Blocks -/

inductive Inside where
  | nothing
  /-- A paragraph, with the number of its first line and its lines so far. -/
  | paragraph (first : Nat) (lines : List Text)
  /-- Fenced code, with the number of its first line and its lines so far. -/
  | fence (f : Fence) (first : Nat) (lines : List Text)
  deriving DecidableEq, Repr

/-- The block of fenced code; code without lines counts as standing on the first line. -/
def fenceBlock (f : Fence) (first : Nat) (lines : List Text) : Block :=
  .fence (if lines.isEmpty then 1 else first) f.language lines.flatten

def paragraphHeading (first level : Nat) (lines : List Text) : Block :=
  .heading first level (plainText (trimRight (lines.flatMap fun l => l.dropWhile isSpace)))

def Inside.withLine (s : Inside) (n : Nat) (l : Text) : Inside :=
  match s with
  | .paragraph first lines => .paragraph first (lines ++ [l])
  | _ => .paragraph n [l]

/-- The effect of a line, with a given number, that does not stand in fenced code: the block
it completes, and what the document is inside of behind it. -/
def step (s : Inside) (n : Nat) (l : Text) : Option Block × Inside :=
  let (width, rest) := indent l
  if isBlankLine l then (none, .nothing)
  else if 4 ≤ width then
    match s with
    | .paragraph _ _ => (none, s.withLine n l)
    | _ => (none, .nothing)
  else
    match s, underline? rest with
    | .paragraph first lines, some level => (some (paragraphHeading first level lines), .nothing)
    | _, _ =>
      if isRule rest then (none, .nothing)
      else
        match heading? rest with
        | some (level, t) => (some (.heading n level (plainText t)), .nothing)
        | none =>
          match fence? width rest with
          | some f => (none, .fence f (n + 1) [])
          | none => (none, s.withLine n l)

def blocksFrom (s : Inside) (n : Nat) : List Text → List Block
  | [] =>
    match s with
    | .fence f first lines => [fenceBlock f first lines]
    | _ => []
  | l :: ls =>
    match s with
    | .fence f first lines =>
      if f.closedBy l then fenceBlock f first lines :: blocksFrom .nothing (n + 1) ls
      else blocksFrom (.fence f first (lines ++ [f.contentLine l])) (n + 1) ls
    | s =>
      let (block, s) := step s n l
      block.toList ++ blocksFrom s (n + 1) ls

def blocks (document : Text) : List Block := blocksFrom .nothing 1 (Text.lines document)

end Augite.Document
