import Augite.Error.Syntax
import Augite.Double.Reading

/-!
# Reading tokens

A cursor is what remains of a source text and the position of its first byte. A step skips
white space and comments and reads one lexeme; it says how many bytes belong to it also
where the lexeme is malformed, and the cursor then stands behind those bytes.
-/

namespace Augite

/-- The rest of a source text and the position where it starts. -/
structure Cursor where
  rest : Text
  pos : Position
  deriving DecidableEq, Repr

namespace Cursor

def ofSource (source : Text) : Cursor := ⟨source, .start⟩

def drop (c : Cursor) (n : Nat) : Cursor := ⟨c.rest.drop n, c.pos.across (c.rest.take n)⟩

end Cursor

namespace Lexer

def isSpace (b : UInt8) : Bool :=
  b == byte ' ' || b == byte '\t' || b == byte '\n' || b == byte '\r'

/-- How many bytes of white space and comments a text starts with. A comment starts with
two slashes and ends before a newline; `inComment` says that the text starts inside one. -/
def triviaLength (inComment : Bool) : Text → Nat
  | [] => 0
  | b :: rest =>
    if inComment then triviaLength (b != byte '\n') rest + 1
    else if isSpace b then triviaLength false rest + 1
    else if b = byte '/' ∧ rest.head? = some (byte '/') then triviaLength true rest + 1
    else 0

def escape? (b : UInt8) : Option UInt8 :=
  if b = byte 'n' then some 10
  else if b = byte 't' then some 9
  else if b = byte '0' then some 0
  else if b = byte '\\' ∨ b = byte '\'' ∨ b = byte '"' then some b
  else none

/-- The contents of a literal after its opening mark, and the number of bytes read up to the
closing mark or to the fault. -/
def quoted (mark : UInt8) : Text → Except SyntaxCause Text × Nat
  | [] => (.error .unterminatedLiteral, 0)
  | b :: rest =>
    if b = byte '\n' then (.error .unterminatedLiteral, 0)
    else if b = mark then (.ok [], 1)
    else if b = byte '\\' then
      match rest with
      | [] => (.error .unterminatedLiteral, 1)
      | e :: rest =>
        match escape? e with
        | none => (.error (.invalidEscape e), 2)
        | some v =>
          let (contents, n) := quoted mark rest
          (contents.map (v :: ·), n + 2)
    else
      let (contents, n) := quoted mark rest
      (contents.map (b :: ·), n + 1)

/-- A character literal holds one byte. -/
def charOf : Text → Except SyntaxCause Lexeme
  | [b] => .ok (.char b)
  | _ => .error .characterCount

/-- The digits of a fraction: a point and at least one digit after it. -/
def fraction : Text → Text
  | point :: d :: rest =>
    if point = byte '.' ∧ Text.isDigit d then point :: (d :: rest).takeWhile Text.isDigit else []
  | _ => []

/-- An integer literal is less than `2 ^ 63`. -/
def intOf (spelling : Text) : Except SyntaxCause Lexeme :=
  let v := Text.digitsValue spelling
  if v < 0x8000000000000000 then .ok (.int (Int64.ofNat v) spelling) else .error (.intRange spelling)

/-- A float literal is nearest to a finite double. -/
def floatOf (spelling : Text) : Except SyntaxCause Lexeme :=
  match Double.ofText spelling with
  | .ok v => .ok (.float v spelling)
  | .error _ => .error (.floatRange spelling)

def number (t : Text) : Except SyntaxCause Lexeme × Nat :=
  let whole := t.takeWhile Text.isDigit
  let part := fraction (t.dropWhile Text.isDigit)
  if part = [] then (intOf whole, whole.length)
  else (floatOf (whole ++ part), whole.length + part.length)

def lexeme (b : UInt8) (rest : Text) : Except SyntaxCause Lexeme × Nat :=
  match Symbol.ofPrefix? (b :: rest) with
  | some s => (.ok (.symbol s), s.spelling.length)
  | none =>
    if Text.isLetter b then
      let word := (b :: rest).takeWhile fun c => Text.isLetter c || Text.isDigit c
      (.ok (.ofWord word), word.length)
    else if Text.isDigit b then number (b :: rest)
    else if b = byte '"' then
      let (contents, n) := quoted b rest
      (contents.map .string, n + 1)
    else if b = byte '\'' then
      let (contents, n) := quoted b rest
      (contents.bind charOf, n + 1)
    else (.error (.strayByte b), 0)

/-- The next token, and the cursor behind it. At the end of the text every step gives the
end again. -/
def next (c : Cursor) : Except SyntaxError Token × Cursor :=
  let c := c.drop (triviaLength false c.rest)
  match c.rest with
  | [] => (.ok ⟨.endOfInput, c.pos⟩, c)
  | b :: rest =>
    match lexeme b rest with
    | (.ok l, n) => (.ok ⟨l, c.pos⟩, c.drop n)
    | (.error cause, n) => (.error ⟨c.pos, cause⟩, c.drop n)

theorem spelling_length_pos (s : Symbol) : 0 < s.spelling.length := by
  cases s <;> decide

theorem number_length_pos {b : UInt8} (h : Text.isDigit b = true) (rest : Text) :
    0 < (number (b :: rest)).2 := by
  unfold number
  simp only [List.takeWhile_cons, h, if_true]
  split <;> simp only [List.length_cons] <;> omega

theorem lexeme_length_pos {b : UInt8} {rest : Text} {l : Lexeme} {n : Nat}
    (h : lexeme b rest = (.ok l, n)) : 0 < n := by
  unfold lexeme at h
  split at h
  · obtain ⟨_, rfl⟩ := Prod.mk.inj h
    exact spelling_length_pos _
  · split at h
    · rename_i hLetter
      obtain ⟨_, rfl⟩ := Prod.mk.inj h
      simp [hLetter]
    · split at h
      · rename_i hDigit
        have := number_length_pos hDigit rest
        rwa [h] at this
      · split at h
        · obtain ⟨_, rfl⟩ := Prod.mk.inj h
          omega
        · split at h
          · obtain ⟨_, rfl⟩ := Prod.mk.inj h
            omega
          · cases h

theorem length_rest_drop (c : Cursor) (n : Nat) : (c.drop n).rest.length = c.rest.length - n := by
  simp [Cursor.drop]

/-- A step that reads a token before the end of the text leaves less of it. -/
theorem length_rest_next {c c' : Cursor} {t : Token} (h : next c = (.ok t, c'))
    (ht : t.lexeme ≠ .endOfInput) : c'.rest.length < c.rest.length := by
  unfold next at h
  generalize hd : c.drop (triviaLength false c.rest) = d at h
  have hle : d.rest.length ≤ c.rest.length := by
    rw [← hd, length_rest_drop]
    omega
  simp only at h
  split at h
  · obtain ⟨h, _⟩ := Prod.mk.inj h
    cases h
    exact absurd rfl ht
  · rename_i b rest hRest
    split at h
    · rename_i l n hLexeme
      have hn := lexeme_length_pos hLexeme
      obtain ⟨_, rfl⟩ := Prod.mk.inj h
      rw [length_rest_drop]
      have : d.rest.length = rest.length + 1 := by rw [hRest]; rfl
      omega
    · cases h

/-- The tokens from a cursor on, and the position of the end of the text; the first
malformed lexeme is the error. -/
def tokens (c : Cursor) : Except SyntaxError (List Token × Position) :=
  match _h : next c with
  | (.error e, _) => .error e
  | (.ok t, c') =>
    if _ht : t.lexeme = .endOfInput then .ok ([], t.pos)
    else
      match tokens c' with
      | .error e => .error e
      | .ok (ts, stop) => .ok (t :: ts, stop)
termination_by c.rest.length
decreasing_by exact length_rest_next _h _ht

/-- The tokens of a source text before its end, and the position of the end. -/
def tokenize (source : Text) : Except SyntaxError (List Token × Position) :=
  tokens (.ofSource source)

def steps : Nat → Cursor → List (Except SyntaxError Token)
  | 0, _ => []
  | n + 1, c =>
    let (result, c) := next c
    result :: steps n c

end Lexer

end Augite
