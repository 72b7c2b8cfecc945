import Augite.Proofs.Shape
import Augite.Token.Lexer

/-!
# Names and literals of a tree

What the words of a tree can be: names that are no keywords, integers without a sign, floats
that some decimal fraction denotes, operators of the language, and types whose library has
been included. Together with
its shape this is all that a tree must have to be written down.
-/

namespace Augite

/-- A name: letters and digits with a letter first, and not a keyword. -/
structure Text.IsName (t : Text) : Prop where
  first : ∃ b r, t = b :: r ∧ isLetter b = true
  word : t.IsWord
  free : Keyword.ofText? t = none

/-- Digits on both sides of a point. -/
def Text.IsFraction (t : Text) : Prop :=
  ∃ whole part, t = whole ++ byte '.' :: part ∧ whole ≠ [] ∧ (∀ b ∈ whole, isDigit b = true) ∧
    part ≠ [] ∧ ∀ b ∈ part, isDigit b = true

/-- An integer that can be written without a sign. -/
def IsIntLiteral (v : Int64) : Prop := ∃ n : Nat, n < 2 ^ 63 ∧ v = Int64.ofNat n

/-- A float that a decimal fraction is read as. -/
def IsFloatLiteral (v : Double) : Prop := ∃ t : Text, t.IsFraction ∧ Double.ofText t = .ok v

/-- A lexeme as the source can have it. -/
def Lexeme.IsRead : Lexeme → Prop
  | .ident name => name.IsName
  | .int v _ => IsIntLiteral v
  | .float v _ => IsFloatLiteral v
  | _ => True

/-- An operator of the language. -/
abbrev BinaryOp.IsWritten (op : BinaryOp) : Prop := op ∈ all

/-- An operator of the language. -/
abbrev UnaryOp.IsWritten (op : UnaryOp) : Prop := op = neg ∨ op = not

/-- The type can be written where the libraries `libs` are included. -/
def Ty.Legible (libs : List Library) (t : Ty) : Prop :=
  match t.kind with
  | .list => .list ∈ libs
  | .graph => .graph ∈ libs
  | .class_ => t.className.IsName
  | _ => True

namespace Node

mutual

/-- The names, literals and types in the tree can be written where `libs` are included. -/
def Legible (libs : List Library) : Node → Prop
  | .int _ v => IsIntLiteral v
  | .float _ v => IsFloatLiteral v
  | .var _ name => name.IsName
  | .binary _ op l r => op.IsWritten ∧ Legible libs l ∧ Legible libs r
  | .unary _ op x => op.IsWritten ∧ Legible libs x
  | .print _ x | .exprStmt _ x => Legible libs x
  | .call _ name xs => name.IsName ∧ AllLegible libs xs
  | .dot a xs => a.name.IsName ∧ a.member.IsName ∧ AllLegible libs xs
  | .varDecl _ name t => name.IsName ∧ t.Legible libs
  | .varDef _ name t x => name.IsName ∧ t.Legible libs ∧ Legible libs x
  | .assign _ name x => name.IsName ∧ Legible libs x
  | .fieldAssign _ a _ x => a.name.IsName ∧ a.member.IsName ∧ Legible libs x
  | .ret _ (some x) => Legible libs x
  | .branch _ _ test yes none => Legible libs test ∧ AllLegible libs yes
  | .branch _ _ test yes (some no) =>
    Legible libs test ∧ AllLegible libs yes ∧ AllLegible libs no
  | .whileLoop _ _ test body => Legible libs test ∧ AllLegible libs body
  | .forLoop _ _ init test step body =>
    Legible libs init ∧ Legible libs test ∧ Legible libs step ∧ AllLegible libs body
  | .listDecl _ name _ xs => name.IsName ∧ .list ∈ libs ∧ AllLegible libs xs
  | .graphDecl _ name _ => name.IsName ∧ .graph ∈ libs
  | .funcDef _ name params result body =>
    name.IsName ∧ (∀ p ∈ params, p.name.IsName ∧ p.type.Legible libs) ∧ result.Legible libs ∧
      AllLegible libs body
  | .classDecl _ name fields =>
    name.IsName ∧ ∀ f ∈ fields, f.name.IsName ∧ f.type.Legible libs
  | .includeLib _ library => ∃ l : Library, library = l.name
  | _ => True
termination_by structural n => n

def AllLegible (libs : List Library) : List Node → Prop
  | [] => True
  | n :: rest => Legible libs n ∧ AllLegible libs rest
termination_by structural ns => ns

end

/-- The libraries included behind an item. -/
def includes (libs : List Library) : Node → List Library
  | .includeLib _ library => (if library = Library.list.name then .list else .graph) :: libs
  | _ => libs

/-- Items of the grammar, each legible where those before it have included their libraries. -/
def ItemsLegible (libs : List Library) : List Node → Prop
  | [] => True
  | n :: rest => n.IsItem ∧ n.Legible libs ∧ ItemsLegible (n.includes libs) rest

theorem ItemsLegible.isItem {libs : List Library} {ns : List Node} (h : ItemsLegible libs ns) :
    ∀ n ∈ ns, n.IsItem := by
  induction ns generalizing libs with
  | nil => exact nofun
  | cons n rest ih => exact List.forall_mem_cons.mpr ⟨h.1, ih h.2.2⟩

end Node

end Augite
