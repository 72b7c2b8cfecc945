import Augite.Token.Lexer

/-!
# Token feeds

A feed is what remains of a program's tokens, with the position of the end of the source
and the libraries included so far. The end is not an element of the feed, so that nothing
can be read past it.

An outcome says how reading went on a feed of a given size: a success has taken at least
one token, a failure stopped somewhere in the feed. The bounds make recursion over feeds
well-founded.
-/

namespace Augite

structure Feed where
  rest : List Token
  /-- The position of the end of the source. -/
  stop : Position
  included : List Library
  deriving DecidableEq, Repr

namespace Feed

abbrev size (s : Feed) : Nat := s.rest.length

def peek (s : Feed) (n : Nat) : Token := (s.rest[n]?).getD ⟨.endOfInput, s.stop⟩

def cur (s : Feed) : Token := s.peek 0

def atSymbol (s : Feed) (x : Symbol) : Bool := s.cur.lexeme == .symbol x

def withRest (s : Feed) (rest : List Token) : Feed := { s with rest }

theorem size_withRest_lt {s : Feed} {tok : Token} {rest : List Token} (h : s.rest = tok :: rest) :
    (s.withRest rest).size < s.size := by
  simp [withRest, size, h]

end Feed

inductive Outcome (α : Type) (n : Nat) where
  | ok (value : α) (rest : Feed) (shorter : rest.size < n)
  | error (e : SyntaxError) (stop : Feed) (within : stop.size ≤ n)

namespace Outcome

variable {α β : Type} {m n : Nat}

def lift (h : m ≤ n) : Outcome α m → Outcome α n
  | ok a t k => ok a t (Nat.lt_of_lt_of_le k h)
  | error e t k => error e t (Nat.le_trans k h)

def bind (o : Outcome α n) (f : α → (t : Feed) → t.size < n → Outcome β n) : Outcome β n :=
  match o with
  | ok a t h => f a t h
  | error e t h => error e t h

def andThen (o : Outcome α n) (f : α → (t : Feed) → t.size < n → Outcome β t.size) :
    Outcome β n :=
  o.bind fun a t h => (f a t h).lift (Nat.le_of_lt h)

def map (f : α → β) (o : Outcome α n) : Outcome β n := o.bind fun a t h => ok (f a) t h

def run : Outcome α n → Except SyntaxError α × Feed
  | ok a t _ => (.ok a, t)
  | error e t _ => (.error e, t)

end Outcome

namespace Feed

variable {α : Type}

def fail (s : Feed) (pos : Position) (cause : SyntaxCause) : Outcome α s.size :=
  .error ⟨pos, cause⟩ s (Nat.le_refl _)

def take (s : Feed) (wanted : Wanted) (accept : Token → Option α) : Outcome α s.size :=
  match h : s.rest with
  | [] => s.fail s.stop (.expected wanted .endOfInput)
  | tok :: rest =>
    match accept tok with
    | some a => .ok a (s.withRest rest) (size_withRest_lt h)
    | none => s.fail tok.pos (.expected wanted tok.lexeme)

def symbol (s : Feed) (x : Symbol) : Outcome Position s.size :=
  s.take (.symbol x) fun tok => if tok.lexeme = .symbol x then some tok.pos else none

def keyword (s : Feed) (k : Keyword) : Outcome Position s.size :=
  s.take (.keyword k) fun tok => if tok.lexeme = .keyword k then some tok.pos else none

def ident (s : Feed) : Outcome (Text × Position) s.size :=
  s.take .identifier fun tok =>
    match tok.lexeme with
    | .ident name => some (name, tok.pos)
    | _ => none

def expectEnd (s : Feed) : Except SyntaxError Unit :=
  match s.rest with
  | [] => .ok ()
  | tok :: _ => .error ⟨tok.pos, .expected .endOfInput tok.lexeme⟩

end Feed

def Feed.ofSource (source : Text) : Except SyntaxError Feed :=
  (Lexer.tokenize source).map fun (rest, stop) => ⟨rest, stop, []⟩

end Augite
