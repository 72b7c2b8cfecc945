import Augite.Datum.Token

/-!
# Reading data

A text holds one datum. Where the tokens do not form one, the first token that does not fit
is reported. A malformed token takes precedence if it is the token where reading ended or
the one behind it.
-/

namespace Augite.Datum

inductive ReadCause where
  | unexpected (got : Option Token)
  | expectedClosing (b : Bracket) (got : Option Token)
  | expectedKey (got : Option Token)
  | expectedColon (got : Option Token)
  | expectedComma (got : Option Token)
  | expectedEnd (got : Option Token)
  | malformed (e : LexError)
  deriving DecidableEq, Repr

def ReadCause.text : ReadCause → Text
  | unexpected got => "unexpected token: " ++ describe got
  | expectedClosing b got => "expected " ++ describe (some (.closing b)) ++ " but got " ++ describe got
  | expectedKey got => "expected symbol for map key but got " ++ describe got
  | expectedColon got => "expected ':' after map key but got " ++ describe got
  | expectedComma got => "expected ',' or '\x7d' in map but got " ++ describe got
  | expectedEnd got => "expected EOF but got " ++ describe got
  | malformed e => e.text

/-- The result of reading from `n` tokens: a value and fewer tokens, or a cause and the
tokens from the one that does not fit on. -/
inductive Reading (α : Type) (n : Nat) where
  | ok (value : α) (rest : List Token) (shorter : rest.length < n)
  | error (cause : ReadCause) (stop : List Token)

namespace Reading

variable {α β : Type} {m n : Nat}

def lift (h : m ≤ n) : Reading α m → Reading α n
  | ok a rest k => ok a rest (Nat.lt_of_lt_of_le k h)
  | error c stop => error c stop

/-- Goes on after a success; the continuation may be content with what has been taken. -/
def bind (r : Reading α n) (f : α → (rest : List Token) → rest.length < n → Reading β n) :
    Reading β n :=
  match r with
  | ok a rest h => f a rest h
  | error c stop => error c stop

def andThen (r : Reading α n)
    (f : α → (rest : List Token) → rest.length < n → Reading β rest.length) : Reading β n :=
  r.bind fun a rest h => (f a rest h).lift (Nat.le_of_lt h)

def map (f : α → β) : Reading α n → Reading β n
  | ok a rest h => ok (f a) rest h
  | error c stop => error c stop

end Reading

namespace Reader

def take {α : Type} (ts : List Token) (cause : Option Token → ReadCause)
    (accept : Token → Option α) : Reading α ts.length :=
  match ts with
  | [] => .error (cause none) []
  | t :: rest =>
    match accept t with
    | some a => .ok a rest (Nat.lt_succ_self _)
    | none => .error (cause (some t)) (t :: rest)

def key? : Token → Option Text
  | .symbol t | .string t => some t
  | _ => none

/-- What stands behind an entry of a map: a comma is taken, a closing brace is not. -/
def afterEntry {n : Nat} (ts : List Token) (h : ts.length < n) : Reading Unit n :=
  match ts with
  | .comma :: rest => .ok () rest (Nat.lt_of_succ_lt h)
  | .closing .curly :: rest => .ok () (.closing .curly :: rest) h
  | _ => .error (.expectedComma ts.head?) ts

mutual

def datum (ts : List Token) : Reading Datum ts.length :=
  match ts with
  | [] => .error (.unexpected none) []
  | .symbol name :: rest => .ok (.symbol name) rest (Nat.lt_succ_self _)
  | .string contents :: rest => .ok (.string contents) rest (Nat.lt_succ_self _)
  | .number spelling :: rest => .ok (.number spelling) rest (Nat.lt_succ_self _)
  | .ellipsis :: rest => .ok .ellipsis rest (Nat.lt_succ_self _)
  | .opening .round :: rest => ((items .round rest).map Datum.list).lift (Nat.le_succ _)
  | .opening .square :: rest => ((items .square rest).map Datum.array).lift (Nat.le_succ _)
  | .opening .curly :: rest => ((entries rest).map Datum.map).lift (Nat.le_succ _)
  | .closing b :: rest => .error (.unexpected (some (.closing b))) (.closing b :: rest)
  | .colon :: rest => .error (.unexpected (some .colon)) (.colon :: rest)
  | .comma :: rest => .error (.unexpected (some .comma)) (.comma :: rest)
termination_by 2 * ts.length

def items (b : Bracket) (ts : List Token) : Reading (List Datum) ts.length :=
  match ts with
  | [] => .error (.expectedClosing b none) []
  | t :: rest =>
    if t = .closing b then .ok [] rest (Nat.lt_succ_self _)
    else
      (datum (t :: rest)).andThen fun d rest' _ => (items b rest').map fun ds => d :: ds
termination_by 2 * ts.length + 1
decreasing_by all_goals simp only [List.length_cons] at *; omega

def entries (ts : List Token) : Reading (List (Text × Datum)) ts.length :=
  match ts with
  | [] => .error (.expectedClosing .curly none) []
  | t :: rest =>
    if t = .closing .curly then .ok [] rest (Nat.lt_succ_self _)
    else
      (take (t :: rest) .expectedKey key?).andThen fun key ts₁ _ =>
        (take ts₁ .expectedColon fun t => if t = .colon then some () else none).andThen
          fun _ ts₂ _ =>
            (datum ts₂).bind fun d ts₃ h =>
              (afterEntry ts₃ h).andThen fun _ ts₄ _ =>
                (entries ts₄).map fun es => (key, d) :: es
termination_by 2 * ts.length + 1
decreasing_by all_goals simp only [List.length_cons] at *; omega

end

end Reader

/-- Whether reading that ends at these tokens has come upon the end of all tokens. -/
def nearEnd (ts : List Token) : Bool := ts.length ≤ 1

def read (t : Text) : Except ReadCause Datum :=
  let (ts, fault) := Lexer.tokens t
  let (result, stop) : Except ReadCause Datum × List Token :=
    match Reader.datum ts with
    | .ok d [] _ => (.ok d, [])
    | .ok _ (t :: rest) _ => (.error (.expectedEnd (some t)), t :: rest)
    | .error c stop => (.error c, stop)
  match fault with
  | some e => if nearEnd stop then .error (.malformed e) else result
  | none => result

/-! ### Integers -/

inductive IntError where
  | notNumber (d : Datum)
  | malformed (spelling : Text)
  | outOfRange (spelling : Text)

def IntError.text : IntError → Text
  | notNumber d => "expected number but got " ++ d.render
  | malformed t => "strconv.ParseInt: parsing " ++ Text.quote t ++ ": invalid syntax"
  | outOfRange t => "strconv.ParseInt: parsing " ++ Text.quote t ++ ": value out of range"

def int (d : Datum) : Except IntError Int :=
  match d with
  | number t =>
    let digits := if (t.head?.map Lexer.isSign).getD false then t.tail else t
    if digits.isEmpty || !digits.all Text.isDigit then .error (.malformed t)
    else
      let v : Int := Text.digitsValue digits
      let v := if t.head? = some (byte '-') then -v else v
      if -0x8000000000000000 ≤ v ∧ v < 0x8000000000000000 then .ok v else .error (.outOfRange t)
  | d => .error (.notNumber d)

end Augite.Datum
