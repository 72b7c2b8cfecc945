import Augite.Text.Basic

/-!
# Positions

A position is a line and a column, both counted from one in a source text; columns count
bytes. The position with two zeros belongs to no source text.
-/

namespace Augite

structure Position where
  line : Int
  col : Int
  deriving DecidableEq, Repr, Inhabited

namespace Position

def none : Position := ⟨0, 0⟩

def start : Position := ⟨1, 1⟩

def after (p : Position) (b : UInt8) : Position :=
  if b = byte '\n' then ⟨p.line + 1, 1⟩ else ⟨p.line, p.col + 1⟩

def across (p : Position) (t : Text) : Position := t.foldl after p

@[simp] theorem across_nil (p : Position) : p.across [] = p := rfl

@[simp] theorem across_cons (p : Position) (b : UInt8) (t : Text) :
    p.across (b :: t) = (p.after b).across t := rfl

theorem across_append (p : Position) (s t : Text) :
    p.across (s ++ t) = (p.across s).across t := by
  simp [across]

def text (p : Position) : Text := Text.ofInt p.line ++ ":" ++ Text.ofInt p.col

end Position

end Augite
