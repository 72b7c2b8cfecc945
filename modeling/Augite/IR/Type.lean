import Augite.Text.Basic

/-!
# Types of the intermediate language

Integers of a width, doubles, pointers, arrays, the named structures of a module and
function types, with their written forms.
-/

namespace Augite.IR

inductive Typ where
  | void
  | int (bits : Nat)
  | double
  | pointer (target : Typ)
  | array (size : Nat) (elem : Typ)
  | named (name : Text)
  | function (result : Typ) (params : List Typ) (variadic : Bool)
  deriving Repr, Inhabited

namespace Typ

mutual

def decEq (a b : Typ) : Decidable (a = b) :=
  match a, b with
  | void, void => isTrue rfl
  | double, double => isTrue rfl
  | int m, int n => if h : m = n then isTrue (by rw [h]) else isFalse (by simp [h])
  | pointer s, pointer t =>
    match decEq s t with
    | isTrue h => isTrue (by rw [h])
    | isFalse h => isFalse (by simp [h])
  | array m s, array n t =>
    match decEq s t with
    | isTrue h => if k : m = n then isTrue (by rw [h, k]) else isFalse (by simp [k])
    | isFalse h => isFalse (by simp [h])
  | named s, named t => if h : s = t then isTrue (by rw [h]) else isFalse (by simp [h])
  | function r ps v, function s qs w =>
    match decEq r s, decEqList ps qs with
    | isTrue h, isTrue k =>
      if l : v = w then isTrue (by rw [h, k, l]) else isFalse (by simp [l])
    | isFalse h, _ => isFalse (by simp [h])
    | _, isFalse k => isFalse (by simp [k])
  | void, int _ | void, double | void, pointer _ | void, array _ _ | void, named _
  | void, function _ _ _ => isFalse nofun
  | int _, void | int _, double | int _, pointer _ | int _, array _ _ | int _, named _
  | int _, function _ _ _ => isFalse nofun
  | double, void | double, int _ | double, pointer _ | double, array _ _ | double, named _
  | double, function _ _ _ => isFalse nofun
  | pointer _, void | pointer _, int _ | pointer _, double | pointer _, array _ _
  | pointer _, named _ | pointer _, function _ _ _ => isFalse nofun
  | array _ _, void | array _ _, int _ | array _ _, double | array _ _, pointer _
  | array _ _, named _ | array _ _, function _ _ _ => isFalse nofun
  | named _, void | named _, int _ | named _, double | named _, pointer _ | named _, array _ _
  | named _, function _ _ _ => isFalse nofun
  | function _ _ _, void | function _ _ _, int _ | function _ _ _, double
  | function _ _ _, pointer _ | function _ _ _, array _ _ | function _ _ _, named _ =>
    isFalse nofun

def decEqList (as bs : List Typ) : Decidable (as = bs) :=
  match as, bs with
  | [], [] => isTrue rfl
  | a :: as, b :: bs =>
    match decEq a b, decEqList as bs with
    | isTrue h, isTrue k => isTrue (by rw [h, k])
    | isFalse h, _ => isFalse (by simp [h])
    | _, isFalse k => isFalse (by simp [k])
  | [], _ :: _ | _ :: _, [] => isFalse nofun

end

instance : DecidableEq Typ := decEq

def i1 : Typ := int 1

def i8 : Typ := int 8

def i32 : Typ := int 32

def i64 : Typ := int 64

/-- The type of strings and of the handles of lists and graphs. -/
def i8ptr : Typ := pointer i8

end Typ

/-! ### Names -/

def isPlain (b : UInt8) : Bool :=
  Text.isLetter b || Text.isDigit b || b == byte '$' || b == byte '-' || b == byte '.'

/-- Printable ASCII without the quote and the backslash; other bytes are written in
hexadecimal, two digits after a backslash. -/
def escape (t : Text) : Text :=
  t.flatMap fun b =>
    if 32 ≤ b && b ≤ 126 && b != byte '"' && b != byte '\\' then [b]
    else byte '\\' :: Text.hexPadded 'A' 2 b.toNat

def quoted (t : Text) : Text := "\"" ++ escape t ++ "\""

def nameText (t : Text) : Text := if t.all isPlain then t else quoted t

/-- A name of a function, parameter or variable, which must not look like a number. -/
def valueNameText (t : Text) : Text :=
  if t.all isPlain && !(t.all Text.isDigit && !t.isEmpty) then t else quoted t

/-- A name of a function. At most one function of a module has an empty name, and it is
written as number zero. -/
def funcNameText (t : Text) : Text := if t.isEmpty then "0" else valueNameText t

namespace Typ

mutual

def text : Typ → Text
  | void => "void"
  | int bits => "i" ++ Text.decimal bits
  | double => "double"
  | pointer t => text t ++ "*"
  | array size t => "[" ++ Text.decimal size ++ " x " ++ text t ++ "]"
  | named name => "%" ++ nameText name
  | function result params variadic =>
    text result ++ " (" ++
      Text.join ", " (texts params ++ if variadic then [Text.ofString "..."] else []) ++ ")"

def texts : List Typ → List Text
  | [] => []
  | t :: ts => text t :: texts ts

end

end Typ

end Augite.IR
