import Mathlib
import Augite.Parse.Program

/-!
# Reading by the first tokens

How each part of the grammar goes on, told by the first tokens of the feed. The matches of
the definitions become conditions on the lexemes ahead.
-/

namespace Augite

/-- Goes on after a success on a smaller feed, which the continuation may rely on. -/
def Outcome.into {α β : Type} {m n : Nat} (o : Outcome α m) (h : m ≤ n)
    (f : α → (t : Feed) → t.size < m → Outcome β n) : Outcome β n :=
  match o with
  | ok a t k => f a t k
  | error e t k => (error e t k : Outcome β m).lift h

namespace Feed

/-- The feed behind the current token. -/
def behind (s : Feed) : Feed := s.withRest s.rest.tail

theorem size_behind_le (s : Feed) : s.behind.size ≤ s.size := by
  simp [behind, withRest, size]

theorem atSymbol_of_rest {s : Feed} {x : Symbol} {pos : Position} {rest : List Token}
    (h : s.rest = ⟨.symbol x, pos⟩ :: rest) : s.atSymbol x = true := by
  simp [atSymbol, cur, peek, h]

theorem not_atSymbol {s : Feed} {x : Symbol}
    (h : ∀ pos rest, s.rest = ⟨.symbol x, pos⟩ :: rest → False) : ¬ s.atSymbol x = true := by
  obtain ⟨rest, stop, included⟩ := s
  intro hx
  rcases rest with _ | ⟨⟨l, pos⟩, rest⟩
  · simp [atSymbol, cur, peek] at hx
  · simp [atSymbol, cur, peek] at hx
    subst hx
    exact h pos rest rfl

/-- The current token is a given keyword. -/
def atKeyword (s : Feed) (k : Keyword) : Bool := s.cur.lexeme == .keyword k

variable {α : Type} (tok : Token) (rest : List Token) (stop : Position) (included : List Library)

theorem take_cons (wanted : Wanted) (accept : Token → Option α) :
    take ⟨tok :: rest, stop, included⟩ wanted accept =
      match accept tok with
      | some a => .ok a ⟨rest, stop, included⟩ (Nat.lt_succ_self _)
      | none => fail ⟨tok :: rest, stop, included⟩ tok.pos (.expected wanted tok.lexeme) := rfl

end Feed

namespace Parse

section

variable (tok : Token) (rest : List Token) (stop : Position) (included : List Library)

/-! ### Expressions -/

theorem climb_nil (n least : Nat) (left : Node) (h : Feed.size ⟨[], stop, included⟩ < n) :
    climb n least left ⟨[], stop, included⟩ h = .ok left ⟨[], stop, included⟩ h := by
  rw [climb]

theorem climb_cons (n least : Nat) (left : Node)
    (h : Feed.size ⟨tok :: rest, stop, included⟩ < n) :
    climb n least left ⟨tok :: rest, stop, included⟩ h =
      match binaryOp? tok.lexeme with
      | none => .ok left ⟨tok :: rest, stop, included⟩ h
      | some (op, level) =>
        if level < least then .ok left ⟨tok :: rest, stop, included⟩ h
        else
          (climbing ⟨rest, stop, included⟩ (level + 1)).into (Nat.le_of_lt (Nat.lt_of_succ_lt h))
            fun right u k =>
              climb n least (.binary (.at_ tok.pos) op left right) u
                (Nat.lt_trans k (Nat.lt_of_succ_lt h)) := by
  rw [climb]
  simp only
  rcases binaryOp? tok.lexeme with _ | ⟨op, level⟩
  · rfl
  · simp only
    split
    · rfl
    · rcases hc : climbing (Feed.withRest ⟨tok :: rest, stop, included⟩ rest) (level + 1) with
        ⟨right, u, k⟩ | ⟨e, u, k⟩
      · have hc' : climbing ⟨rest, stop, included⟩ (level + 1) = .ok right u k := hc
        rw [hc']
        rfl
      · have hc' : climbing ⟨rest, stop, included⟩ (level + 1) = .error e u k := hc
        rw [hc']
        rfl

theorem unary_nil :
    unary ⟨[], stop, included⟩ = Feed.fail ⟨[], stop, included⟩ stop (.unexpected .endOfInput) := by
  rw [unary]

theorem unary_cons :
    unary ⟨tok :: rest, stop, included⟩ =
      match unaryOp? tok.lexeme with
      | none => primary (rest.length + 1) tok ⟨rest, stop, included⟩ (Nat.lt_succ_self _)
      | some op =>
        ((unary ⟨rest, stop, included⟩).map (.unary (.at_ tok.pos) op)).lift (Nat.le_succ _) := by
  rw [unary]
  rfl

end

section

variable {n : Nat} {t : Feed} (h : t.size < n) {l : Lexeme} (pos : Position)

theorem primary_literal {x : Node} (hx : literal? pos l = some x) :
    primary n ⟨l, pos⟩ t h = .ok x t h := by
  rw [primary]
  simp only [hx]

theorem primary_group :
    primary n ⟨.symbol .lparen, pos⟩ t h =
      ((climbing t 1).andThen fun inner u _ =>
        (u.symbol .rparen).map fun _ => inner).lift (Nat.le_of_lt h) := by
  rw [primary]
  rfl

theorem primary_ident (name : Text) :
    primary n ⟨.ident name, pos⟩ t h =
      if t.atSymbol .lparen then
        ((operands t.behind .rparen true).map (.call (.at_ pos) name)).lift
          (Nat.le_trans t.size_behind_le (Nat.le_of_lt h))
      else if t.atSymbol .dot then
        (t.behind.ident.bind fun p u hu =>
          if u.atSymbol .lparen then
            ((operands u.behind .rparen true).map (.dot (access pos name p.1 true))).lift
              (Nat.le_trans u.size_behind_le (Nat.le_of_lt hu))
          else .ok (.dot (access pos name p.1 false) []) u hu).lift
            (Nat.le_trans t.size_behind_le (Nat.le_of_lt h))
      else .ok (.var (.at_ pos) name) t h := by
  rw [primary]
  split
  · rename_i hl
    cases hl
  · split
    · rename_i hl
      cases hl
    · rename_i hl
      cases hl
      obtain ⟨rest, stop, included⟩ := t
      split
      · rename_i ht
        simp only at ht
        subst ht
        rfl
      · rename_i at_ rest' ht
        simp only at ht
        subst ht
        have hparen : ¬ Feed.atSymbol ⟨⟨.symbol .dot, at_⟩ :: rest', stop, included⟩ .lparen = true :=
          Feed.not_atSymbol fun _ _ h => by cases h
        rw [if_neg hparen, if_pos (Feed.atSymbol_of_rest rfl)]
        refine congrArg (Outcome.lift _) (congrArg (Outcome.bind _) ?_)
        funext p u hu
        obtain ⟨_ | ⟨⟨l, at_⟩, rest⟩, stop, included⟩ := u
        · rfl
        · cases l with
          | symbol x => cases x <;> rfl
          | _ => rfl
      · rename_i hparen hdot
        rw [if_neg (Feed.not_atSymbol hparen), if_neg (Feed.not_atSymbol hdot)]
    · rename_i hne
      exact (hne name rfl).elim

theorem primary_other (hlit : literal? pos l = none) (hparen : l ≠ .symbol .lparen)
    (hident : ∀ name, l ≠ .ident name) :
    primary n ⟨l, pos⟩ t h = .error ⟨pos, .unexpected l⟩ t (Nat.le_of_lt h) := by
  rw [primary]
  simp only [hlit]

end

/-! ### Types -/

theorem typeName_nil (allowVoid : Bool) (stop : Position) (included : List Library) :
    typeName ⟨[], stop, included⟩ allowVoid =
      Feed.fail ⟨[], stop, included⟩ stop (.expectedType .endOfInput) := by
  rw [typeName]

theorem typeName_cons (allowVoid : Bool) (tok : Token) (rest : List Token) (stop : Position)
    (included : List Library) :
    typeName ⟨tok :: rest, stop, included⟩ allowVoid =
      typeAfter (rest.length + 1) tok ⟨rest, stop, included⟩ (Nat.lt_succ_self _) allowVoid := by
  rw [typeName]
  rfl

section

variable {n : Nat} {t : Feed} (h : t.size < n) {l : Lexeme} (pos : Position) (allowVoid : Bool)

theorem typeAfter_scalar {ty : Ty} (hty : scalarType? l = some ty) :
    typeAfter n ⟨l, pos⟩ t h allowVoid = .ok ty t h := by
  rw [typeAfter]
  simp only [hty]

theorem typeAfter_library {lib : Library} (hlib : library? l = some lib) :
    typeAfter n ⟨l, pos⟩ t h allowVoid =
      if t.included.contains lib then
        ((t.symbol .lt).andThen fun _ u _ =>
          (typeName u false).andThen fun elem v _ =>
            if elem.kind.isScalar then (v.symbol .gt).map fun _ => containerOf lib elem.kind
            else v.fail pos (.elementType lib elem)).lift (Nat.le_of_lt h)
      else .error ⟨pos, .notIncluded lib⟩ t (Nat.le_of_lt h) := by
  rw [typeAfter]
  cases l with
  | keyword k => cases k <;> cases hlib <;> rfl
  | _ => cases hlib

theorem typeAfter_ident (name : Text) :
    typeAfter n ⟨.ident name, pos⟩ t h allowVoid = .ok (.classOf name) t h := by
  rw [typeAfter]
  rfl

theorem typeAfter_void :
    typeAfter n ⟨.keyword .void_, pos⟩ t h allowVoid =
      if allowVoid then .ok .void t h else .error ⟨pos, .misplacedVoid⟩ t (Nat.le_of_lt h) := by
  rw [typeAfter]
  rfl

theorem typeAfter_other (hscalar : scalarType? l = none) (hlib : library? l = none)
    (hident : ∀ name, l ≠ .ident name) (hvoid : l ≠ .keyword .void_) :
    typeAfter n ⟨l, pos⟩ t h allowVoid = .error ⟨pos, .expectedType l⟩ t (Nat.le_of_lt h) := by
  rw [typeAfter]
  simp only [hscalar, hlib]

end

/-! ### Statements -/

/-- An expression statement: no other form begins like it. -/
theorem simple_expression {s : Feed}
    (hdecl : ∀ name p q rest, s.rest ≠ ⟨.ident name, p⟩ :: ⟨.symbol .colon, q⟩ :: rest)
    (hassign : ∀ name p q rest, s.rest ≠ ⟨.ident name, p⟩ :: ⟨.symbol .assign, q⟩ :: rest)
    (hfield : ∀ name p q member r t rest, s.rest ≠ ⟨.ident name, p⟩ :: ⟨.symbol .dot, q⟩ ::
      ⟨.ident member, r⟩ :: ⟨.symbol .assign, t⟩ :: rest) :
    simple s = (expression s).map (.exprStmt (.at_ s.cur.pos)) := by
  unfold simple
  split
  · exact absurd ‹_› (hdecl _ _ _ _)
  · exact absurd ‹_› (hassign _ _ _ _)
  · exact absurd ‹_› (hfield _ _ _ _ _ _ _)
  · rfl

theorem branch_eq (pos : Position) (s : Feed) :
    branch pos s =
      (condition s).andThen fun test t _ =>
        (block t).bind fun yes u hu =>
          if u.atKeyword .else_ then
            if u.behind.atKeyword .if_ then
              ((branch u.behind.cur.pos u.behind.behind).map fun other =>
                .branch (.at_ pos) none test yes (some [other])).lift
                  (Nat.le_trans u.behind.size_behind_le
                    (Nat.le_trans u.size_behind_le (Nat.le_of_lt hu)))
            else
              ((block u.behind).map fun no => .branch (.at_ pos) none test yes (some no)).lift
                (Nat.le_trans u.size_behind_le (Nat.le_of_lt hu))
          else .ok (.branch (.at_ pos) none test yes none) u hu := by
  rw [branch]
  refine congrArg (Outcome.andThen _) ?_
  funext test t _
  refine congrArg (Outcome.bind _) ?_
  funext yes u hu
  obtain ⟨_ | ⟨⟨l, p⟩, rest⟩, stop, included⟩ := u
  · rfl
  · cases l with
    | keyword k =>
      cases k with
      | else_ =>
        rcases rest with _ | ⟨⟨l, p⟩, rest⟩
        · rfl
        · cases l with
          | keyword k => cases k <;> rfl
          | _ => rfl
      | _ => rfl
    | _ => rfl

section

variable (tok : Token) (rest : List Token) (stop : Position) (included : List Library)

theorem statements_cons :
    statements ⟨tok :: rest, stop, included⟩ =
      if tok.lexeme = .symbol .rbrace then .ok [] ⟨rest, stop, included⟩ (Nat.lt_succ_self _)
      else
        (statement ⟨tok :: rest, stop, included⟩).andThen fun n t _ =>
          (statements t).map (n :: ·) := by
  rw [statements]
  split
  · rename_i h
    cases h
  · rename_i h
    simp only [List.cons.injEq] at h
    obtain ⟨rfl, rfl⟩ := h
    rfl
  · rename_i hne h
    simp only [List.cons.injEq] at h
    obtain ⟨rfl, rfl⟩ := h
    rw [if_neg fun hl => hne tok.pos (by rw [← hl])]

end

end Parse

end Augite
