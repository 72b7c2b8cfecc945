import Augite.Proofs.Stripped
import Augite.Proofs.ParseEquations

/-!
# Reading under a change of positions

The grammar asks for lexemes and never for positions: reading from a feed with other
positions gives the same tree with other positions, or the same error at another one, and
stops at the same token. The positions in the tree are those of tokens: the place where
the feed ends has no influence on it.
-/

namespace Augite

variable {place final : Position → Position}

def Token.move (place : Position → Position) (t : Token) : Token := { t with pos := place t.pos }

/-- A token among moved ones comes from one with the same lexeme. -/
theorem Token.map_move_eq_cons {ts rest : List Token} {l : Lexeme} {p : Position}
    (h : ts.map (Token.move place) = ⟨l, p⟩ :: rest) :
    ∃ q rest', ts = ⟨l, q⟩ :: rest' ∧ rest'.map (Token.move place) = rest := by
  obtain ⟨tok, rest', hts, htok, hrest⟩ := List.map_eq_cons_iff.mp h
  cases htok
  exact ⟨tok.pos, rest', hts, hrest⟩

/-- The feed with other positions of its tokens, and another one of its end. -/
def Feed.shift (place final : Position → Position) (s : Feed) : Feed :=
  { s with rest := s.rest.map (Token.move place), stop := final s.stop }

def Feed.move (place : Position → Position) (s : Feed) : Feed :=
  { s with rest := s.rest.map (Token.move place), stop := place s.stop }

/-- The error with the position of another token or of another end. -/
def SyntaxError.Shifts (place final : Position → Position) (e e' : SyntaxError) : Prop :=
  e'.cause = e.cause ∧ (e'.pos = place e.pos ∨ e'.pos = final e.pos)

namespace Outcome

variable {α β γ δ : Type} {k l m n : Nat} {V : α → β} {W : γ → δ}

/-- The second outcome is what the first one becomes under a change of positions. -/
def Follows (place final : Position → Position) (V : α → β) (o : Outcome α n)
    (o' : Outcome β m) : Prop :=
  match o with
  | .ok a t _ => ∃ h, o' = .ok (V a) (t.shift place final) h
  | .error e t _ => ∃ e' h, o' = .error e' (t.shift place final) h ∧ e.Shifts place final e'

namespace Follows

variable {o : Outcome α n} {o' : Outcome β m}

theorem bind {f : α → (t : Feed) → t.size < n → Outcome γ n}
    {f' : β → (t : Feed) → t.size < m → Outcome δ m} (ho : Follows place final V o o')
    (hf : ∀ a t h h', Follows place final W (f a t h) (f' (V a) (t.shift place final) h')) :
    Follows place final W (o.bind f) (o'.bind f') := by
  cases o with
  | ok a t h =>
    obtain ⟨h', rfl⟩ := ho
    exact hf a t h h'
  | error e t h =>
    obtain ⟨e', h', rfl, he⟩ := ho
    exact ⟨e', h', rfl, he⟩

theorem fails {t : Feed} {h : t.size ≤ n} {h' : (t.shift place final).size ≤ m}
    {pos pos' : Position} {cause : SyntaxCause} (hpos : pos' = place pos ∨ pos' = final pos) :
    Follows place final V (.error ⟨pos, cause⟩ t h)
      (.error ⟨pos', cause⟩ (t.shift place final) h') :=
  ⟨_, _, rfl, rfl, hpos⟩

theorem lift (ho : Follows place final V o o') (h : n ≤ k) (h' : m ≤ l) :
    Follows place final V (o.lift h) (o'.lift h') := by
  cases o with
  | ok a t _ =>
    obtain ⟨_, rfl⟩ := ho
    exact ⟨_, rfl⟩
  | error e t _ =>
    obtain ⟨e', _, rfl, he⟩ := ho
    exact ⟨e', _, rfl, he⟩

theorem into {f : α → (t : Feed) → t.size < n → Outcome γ k}
    {f' : β → (t : Feed) → t.size < m → Outcome δ l} (ho : Follows place final V o o') (h : n ≤ k)
    (h' : m ≤ l) (hf : ∀ a t i i', Follows place final W (f a t i) (f' (V a) (t.shift place final) i')) :
    Follows place final W (o.into h f) (o'.into h' f') := by
  cases o with
  | ok a t i =>
    obtain ⟨i', rfl⟩ := ho
    exact hf a t i i'
  | error e t i =>
    obtain ⟨e', _, rfl, he⟩ := ho
    exact ⟨e', _, rfl, he⟩

theorem andThen {f : α → (t : Feed) → t.size < n → Outcome γ t.size}
    {f' : β → (t : Feed) → t.size < m → Outcome δ t.size} (ho : Follows place final V o o')
    (hf : ∀ a t h h', Follows place final W (f a t h) (f' (V a) (t.shift place final) h')) :
    Follows place final W (o.andThen f) (o'.andThen f') :=
  ho.bind fun a t h h' => (hf a t h h').lift _ _

theorem map {f : α → γ} {f' : β → δ} (ho : Follows place final V o o')
    (hf : ∀ a, f' (V a) = W (f a)) : Follows place final W (o.map f) (o'.map f') :=
  ho.bind fun a _ _ h' => ⟨h', by rw [hf a]⟩

theorem iteIf {c c' : Bool} {p : Outcome α n} {p' : Outcome β m} (hc : c' = c)
    (ho : c = true → Follows place final V o o') (hp : Follows place final V p p') :
    Follows place final V (if c then o else p) (if c' then o' else p') := by
  subst hc
  split
  · exact ho ‹_›
  · exact hp

theorem ite {c c' : Bool} {p : Outcome α n} {p' : Outcome β m} (hc : c' = c)
    (ho : Follows place final V o o') (hp : Follows place final V p p') :
    Follows place final V (if c then o else p) (if c' then o' else p') :=
  iteIf hc (fun _ => ho) hp

end Follows

end Outcome

open Outcome (Follows)

namespace Feed

variable {α β : Type} {V : α → β}

theorem lexeme_cur_shift (s : Feed) : (s.shift place final).cur.lexeme = s.cur.lexeme := by
  obtain ⟨rest, stop, included⟩ := s
  cases rest <;> rfl

theorem pos_cur_shift (s : Feed) :
    (s.shift place final).cur.pos = place s.cur.pos ∨
      (s.shift place final).cur.pos = final s.cur.pos := by
  obtain ⟨rest, stop, included⟩ := s
  cases rest with
  | nil => exact .inr rfl
  | cons tok rest => exact .inl rfl

/-- A feed from which something was taken had a token. -/
theorem cur_shift_of_lt {s : Feed} {n : Nat} (h : n < s.size) :
    (s.shift place final).cur = s.cur.move place := by
  obtain ⟨_ | ⟨tok, rest⟩, stop, included⟩ := s
  · exact absurd h (Nat.not_lt_zero n)
  · rfl

theorem cur_shift_of_atKeyword {s : Feed} {k : Keyword} (h : s.atKeyword k = true) :
    (s.shift place final).cur = s.cur.move place := by
  obtain ⟨_ | ⟨tok, rest⟩, stop, included⟩ := s
  · simp [atKeyword, cur, peek] at h
  · rfl

theorem atSymbol_shift (s : Feed) (x : Symbol) : (s.shift place final).atSymbol x = s.atSymbol x := by
  rw [atSymbol, atSymbol, lexeme_cur_shift]

theorem fail_follows (s : Feed) {pos pos' : Position} (cause : SyntaxCause)
    (h : pos' = place pos ∨ pos' = final pos) :
    Follows place final V (s.fail pos cause) ((s.shift place final).fail pos' cause) :=
  ⟨_, _, rfl, rfl, h⟩

/-- Failing at the current token. -/
theorem fail_cur_follows (s : Feed) (cause : SyntaxCause) :
    Follows place final V (s.fail s.cur.pos cause)
      ((s.shift place final).fail (s.shift place final).cur.pos cause) :=
  fail_follows s cause s.pos_cur_shift

theorem atKeyword_shift (s : Feed) (k : Keyword) : (s.shift place final).atKeyword k = s.atKeyword k := by
  rw [atKeyword, atKeyword, lexeme_cur_shift]

theorem behind_shift (s : Feed) : (s.shift place final).behind = s.behind.shift place final := by
  simp only [behind, withRest, shift, List.map_tail]

theorem take_follows (s : Feed) (wanted : Wanted) {accept : Token → Option α}
    {accept' : Token → Option β} (h : ∀ tok, accept' (tok.move place) = (accept tok).map V) :
    Follows place final V (s.take wanted accept) ((s.shift place final).take wanted accept') := by
  obtain ⟨_ | ⟨tok, rest⟩, stop, included⟩ := s
  · exact .fails (.inr rfl)
  · change Follows place final V (take ⟨tok :: rest, stop, included⟩ wanted accept)
      (take ⟨tok.move place :: rest.map (Token.move place), final stop, included⟩ wanted accept')
    rw [take_cons, take_cons, h tok]
    rcases accept tok with _ | a
    · exact .fails (.inl rfl)
    · exact ⟨_, rfl⟩

theorem symbol_follows (s : Feed) (x : Symbol) :
    Follows place final place (s.symbol x) ((s.shift place final).symbol x) :=
  take_follows s _ fun tok => by
    by_cases h : tok.lexeme = .symbol x <;> simp [Token.move, h]

theorem keyword_follows (s : Feed) (k : Keyword) :
    Follows place final place (s.keyword k) ((s.shift place final).keyword k) :=
  take_follows s _ fun tok => by
    by_cases h : tok.lexeme = .keyword k <;> simp [Token.move, h]

theorem ident_follows (s : Feed) :
    Follows place final (fun p => (p.1, place p.2)) s.ident (s.shift place final).ident :=
  take_follows s _ fun ⟨l, _⟩ => by cases l <;> rfl

end Feed

namespace Parse

open Node (strip stripAll)

/-! ### Expressions -/

theorem literal?_move (pos : Position) (l : Lexeme) :
    literal? (place pos) l = (literal? pos l).map (strip place) := by
  cases l with
  | keyword k => cases k <;> rfl
  | _ => rfl

mutual

theorem climbing_follows (s : Feed) (least : Nat) :
    Follows place final (strip place) (climbing s least) (climbing (s.shift place final) least) := by
  rw [climbing, climbing]
  exact (unary_follows s).bind fun left t h h' => climb_follows s.size _ least left t h h'
termination_by 6 * s.size + 3
decreasing_by all_goals omega

theorem climb_follows (n n' least : Nat) (left : Node) (t : Feed) (h : t.size < n)
    (h' : (t.shift place final).size < n') :
    Follows place final (strip place) (climb n least left t h)
      (climb n' least (left.strip place) (t.shift place final) h') := by
  match t, h, h' with
  | ⟨[], stop, included⟩, h, h' =>
    rw [climb_nil]
    exact ⟨h', climb_nil ..⟩
  | ⟨tok :: rest, stop, included⟩, h, h' =>
    have hlt : Feed.size ⟨rest, stop, included⟩ < Feed.size ⟨tok :: rest, stop, included⟩ :=
      Nat.lt_succ_self _
    have h'' : Feed.size ⟨tok.move place :: rest.map (Token.move place), final stop, included⟩ < n' :=
      h'
    change Follows place final (strip place) (climb n least left ⟨tok :: rest, stop, included⟩ h)
      (climb n' least (left.strip place)
        ⟨tok.move place :: rest.map (Token.move place), final stop, included⟩ h'')
    rw [climb_cons, climb_cons]
    change Follows place final (strip place)
      (match binaryOp? tok.lexeme with | none => _ | some (op, level) => _)
      (match binaryOp? tok.lexeme with | none => _ | some (op, level) => _)
    rcases binaryOp? tok.lexeme with _ | ⟨op, level⟩
    · exact ⟨h', rfl⟩
    · simp only
      split
      · exact ⟨h', rfl⟩
      · refine .into (climbing_follows ⟨rest, stop, included⟩ (level + 1)) _ _ fun right u k k' => ?_
        exact climb_follows n n' least (.binary (.at_ tok.pos) op left right) u _ _
termination_by 6 * t.size
decreasing_by all_goals omega

theorem unary_follows (s : Feed) :
    Follows place final (strip place) (unary s) (unary (s.shift place final)) := by
  obtain ⟨_ | ⟨tok, rest⟩, stop, included⟩ := s
  · have hnil : unary (Feed.shift place final ⟨[], stop, included⟩) = _ :=
      unary_nil (final stop) included
    rw [unary_nil, hnil]
    exact .fails (.inr rfl)
  · have hlt : Feed.size ⟨rest, stop, included⟩ < Feed.size ⟨tok :: rest, stop, included⟩ :=
      Nat.lt_succ_self _
    change Follows place final (strip place) (unary ⟨tok :: rest, stop, included⟩)
      (unary ⟨tok.move place :: rest.map (Token.move place), final stop, included⟩)
    rw [unary_cons, unary_cons]
    change Follows place final (strip place)
      (match unaryOp? tok.lexeme with | none => _ | some op => _)
      (match unaryOp? tok.lexeme with | none => _ | some op => _)
    rcases unaryOp? tok.lexeme with _ | op
    · exact primary_follows _ _ tok ⟨rest, stop, included⟩ _ _
    · refine .lift ?_ _ _
      exact (unary_follows ⟨rest, stop, included⟩).map fun _ => rfl
termination_by 6 * s.size + 2
decreasing_by all_goals omega

theorem primary_follows (n n' : Nat) (tok : Token) (t : Feed) (h : t.size < n)
    (h' : (t.shift place final).size < n') :
    Follows place final (strip place) (primary n tok t h)
      (primary n' (tok.move place) (t.shift place final) h') := by
  obtain ⟨l, pos⟩ := tok
  change Follows place final (strip place) (primary n ⟨l, pos⟩ t h)
    (primary n' ⟨l, place pos⟩ (t.shift place final) h')
  have hlit : literal? (place pos) l = (literal? pos l).map (strip place) := literal?_move pos l
  rcases hl : literal? pos l with _ | x <;> rw [hl] at hlit
  · by_cases hparen : l = .symbol .lparen
    · subst hparen
      rw [primary_group, primary_group]
      refine .lift ?_ _ _
      refine (climbing_follows t 1).andThen fun inner u _ _ => ?_
      exact (Feed.symbol_follows u .rparen).map fun _ => rfl
    · by_cases hident : ∃ name, l = .ident name
      · obtain ⟨name, rfl⟩ := hident
        have hbehind := t.size_behind_le
        rw [primary_ident, primary_ident]
        refine .ite (Feed.atSymbol_shift t .lparen) ?_ (.ite (Feed.atSymbol_shift t .dot) ?_ ?_)
        · refine .lift ?_ _ _
          rw [Feed.behind_shift]
          exact (operands_follows t.behind .rparen true).map fun _ => rfl
        · refine .lift ?_ _ _
          rw [Feed.behind_shift]
          refine (Feed.ident_follows t.behind).bind fun p u hu _ => ?_
          have hbehind' := u.size_behind_le
          refine .ite (Feed.atSymbol_shift u .lparen) ?_ ⟨_, rfl⟩
          refine .lift ?_ _ _
          rw [Feed.behind_shift]
          exact (operands_follows u.behind .rparen true).map fun _ => rfl
        · exact ⟨_, rfl⟩
      · simp only [not_exists] at hident
        rw [primary_other h pos hl hparen hident, primary_other h' _ hlit hparen hident]
        exact .fails (.inl rfl)
  · rw [primary_literal h pos hl]
    exact ⟨_, primary_literal h' _ hlit⟩
termination_by 6 * t.size + 5
decreasing_by all_goals omega

theorem operands_follows (s : Feed) (closing : Symbol) (first : Bool) :
    Follows place final (stripAll place) (operands s closing first)
      (operands (s.shift place final) closing first) := by
  rw [operands, operands]
  refine .ite (Feed.atSymbol_shift s closing) ?_ (.ite rfl ?_ ?_)
  · exact (Feed.symbol_follows s closing).map fun _ => rfl
  · refine (climbing_follows s 1).andThen fun e t h _ => ?_
    exact (operands_follows t closing false).map fun _ => rfl
  · refine (Feed.symbol_follows s .comma).andThen fun _ t h _ => ?_
    refine (climbing_follows t 1).andThen fun e u h₂ _ => ?_
    exact (operands_follows u closing false).map fun _ => rfl
termination_by 6 * s.size + 4
decreasing_by all_goals omega

end

theorem expression_follows (s : Feed) :
    Follows place final (strip place) (expression s) (expression (s.shift place final)) :=
  climbing_follows s 1

/-! ### Types and declarations -/

mutual

theorem typeName_follows (s : Feed) (allowVoid : Bool) :
    Follows place final id (typeName s allowVoid) (typeName (s.shift place final) allowVoid) := by
  obtain ⟨_ | ⟨tok, rest⟩, stop, included⟩ := s
  · have hnil : typeName (Feed.shift place final ⟨[], stop, included⟩) allowVoid = _ :=
      typeName_nil allowVoid (final stop) included
    rw [typeName_nil, hnil]
    exact .fails (.inr rfl)
  · have hlt : Feed.size ⟨rest, stop, included⟩ < Feed.size ⟨tok :: rest, stop, included⟩ :=
      Nat.lt_succ_self _
    change Follows place final id (typeName ⟨tok :: rest, stop, included⟩ allowVoid)
      (typeName ⟨tok.move place :: rest.map (Token.move place), final stop, included⟩ allowVoid)
    rw [typeName_cons, typeName_cons]
    exact typeAfter_follows _ _ tok ⟨rest, stop, included⟩ _ _ allowVoid
termination_by 2 * s.size
decreasing_by all_goals omega

theorem typeAfter_follows (n n' : Nat) (tok : Token) (t : Feed) (h : t.size < n)
    (h' : (t.shift place final).size < n') (allowVoid : Bool) :
    Follows place final id (typeAfter n tok t h allowVoid)
      (typeAfter n' (tok.move place) (t.shift place final) h' allowVoid) := by
  obtain ⟨l, pos⟩ := tok
  change Follows place final id (typeAfter n ⟨l, pos⟩ t h allowVoid)
    (typeAfter n' ⟨l, place pos⟩ (t.shift place final) h' allowVoid)
  rcases hscalar : scalarType? l with _ | ty
  · rcases hlib : library? l with _ | lib
    · by_cases hident : ∃ name, l = .ident name
      · obtain ⟨name, rfl⟩ := hident
        rw [typeAfter_ident, typeAfter_ident]
        exact ⟨_, rfl⟩
      · simp only [not_exists] at hident
        by_cases hvoid : l = .keyword .void_
        · subst hvoid
          rw [typeAfter_void, typeAfter_void]
          exact .ite rfl ⟨_, rfl⟩ (.fails (.inl rfl))
        · rw [typeAfter_other h pos allowVoid hscalar hlib hident hvoid,
            typeAfter_other h' _ allowVoid hscalar hlib hident hvoid]
          exact .fails (.inl rfl)
    · rw [typeAfter_library h pos allowVoid hlib, typeAfter_library h' _ allowVoid hlib]
      refine .ite rfl ?_ (.fails (.inl rfl))
      refine .lift ?_ _ _
      refine (Feed.symbol_follows t .lt).andThen fun _ u hu _ => ?_
      refine (typeName_follows u false).andThen fun elem v _ _ => ?_
      exact .ite rfl ((Feed.symbol_follows v .gt).map fun _ => rfl) (Feed.fail_follows v _ (.inl rfl))
  · rw [typeAfter_scalar h pos allowVoid hscalar]
    exact ⟨_, typeAfter_scalar h' _ allowVoid hscalar⟩
termination_by 2 * t.size + 1
decreasing_by all_goals omega

end

theorem resultType_follows (n n' : Nat) (s : Feed) (h : s.size < n)
    (h' : (s.shift place final).size < n') :
    Follows place final id (resultType n s h) (resultType n' (s.shift place final) h') := by
  refine .ite (Feed.atSymbol_shift s .arrow) (.lift ?_ _ _) ⟨_, rfl⟩
  exact (Feed.symbol_follows s .arrow).andThen fun _ t _ _ => typeName_follows t true

theorem listInitializer_follows (t : Feed) :
    Follows place final (stripAll place) (listInitializer t) (listInitializer (t.shift place final)) := by
  refine (Feed.symbol_follows t .assign).andThen fun _ u _ _ => ?_
  refine .ite (Feed.atSymbol_shift u .lbracket) ?_ ?_
  · exact (Feed.symbol_follows u .lbracket).andThen fun _ v _ _ => operands_follows v .rbracket true
  · exact Feed.fail_cur_follows u _

theorem scalarInitializer_follows (t : Feed) (ty : Ty) :
    Follows place final (strip place) (scalarInitializer t ty) (scalarInitializer (t.shift place final) ty) := by
  refine (Feed.symbol_follows t .assign).andThen fun _ u _ _ => ?_
  refine .ite (Feed.atSymbol_shift u .lbracket) ?_ (expression_follows u)
  exact Feed.fail_cur_follows u _

theorem declared_follows (n n' : Nat) (pos : Position) (name : Text) (typePos : Position) (ty : Ty)
    (t : Feed) (h : t.size < n) (h' : (t.shift place final).size < n') :
    Follows place final (strip place) (declared n pos name typePos ty t h)
      (declared n' (place pos) name (place typePos) ty (t.shift place final) h') := by
  have hinit : (t.shift place final).atSymbol .assign = t.atSymbol .assign := Feed.atSymbol_shift t .assign
  obtain ⟨kind, elem, className⟩ := ty
  cases kind with
  | list =>
    refine .ite hinit (.lift ?_ _ _) ⟨_, rfl⟩
    exact (listInitializer_follows t).map fun _ => rfl
  | graph =>
    refine .ite hinit (.lift ?_ _ _) ⟨_, rfl⟩
    exact Feed.fail_cur_follows t _
  | class_ => exact .ite hinit (.lift (Feed.fail_follows t _ (.inl rfl)) _ _) ⟨_, rfl⟩
  | _ =>
    refine .ite hinit (.lift ?_ _ _) ⟨_, rfl⟩
    exact (scalarInitializer_follows t _).map fun _ => rfl

theorem declaration_follows (s : Feed) :
    Follows place final (strip place) (declaration s) (declaration (s.shift place final)) := by
  refine (Feed.ident_follows s).andThen fun p t _ _ => ?_
  refine (Feed.symbol_follows t .colon).andThen fun _ u _ _ => ?_
  refine (typeName_follows u false).bind fun ty v h h' => ?_
  rw [Feed.cur_shift_of_lt h]
  exact declared_follows _ _ p.2 p.1 u.cur.pos ty v h h'

theorem simple_follows (s : Feed) :
    Follows place final (strip place) (simple s) (simple (s.shift place final)) := by
  by_cases hdecl : ∃ name p q rest, s.rest = ⟨.ident name, p⟩ :: ⟨.symbol .colon, q⟩ :: rest
  · obtain ⟨rest₀, stop, included⟩ := s
    obtain ⟨name, p, q, rest, rfl⟩ := hdecl
    exact declaration_follows ⟨_, stop, included⟩
  by_cases hassign : ∃ name p q rest, s.rest = ⟨.ident name, p⟩ :: ⟨.symbol .assign, q⟩ :: rest
  · obtain ⟨rest₀, stop, included⟩ := s
    obtain ⟨name, p, q, rest, rfl⟩ := hassign
    refine .lift ?_ (Nat.le_add_right _ 2) (Nat.le_add_right _ 2)
    exact (expression_follows ⟨rest, stop, included⟩).map fun _ => rfl
  by_cases hfield : ∃ name p q member r t rest, s.rest = ⟨.ident name, p⟩ :: ⟨.symbol .dot, q⟩ ::
      ⟨.ident member, r⟩ :: ⟨.symbol .assign, t⟩ :: rest
  · obtain ⟨rest₀, stop, included⟩ := s
    obtain ⟨name, p, q, member, r, t, rest, rfl⟩ := hfield
    refine .lift ?_ (Nat.le_add_right _ 4) (Nat.le_add_right _ 4)
    exact (expression_follows ⟨rest, stop, included⟩).map fun _ => rfl
  simp only [not_exists] at hdecl hassign hfield
  rw [simple_expression hdecl hassign hfield, simple_expression]
  · exact (expression_follows s).bind fun x t h h' => ⟨h', by rw [Feed.cur_shift_of_lt h]; rfl⟩
  · intro name p q rest h
    obtain ⟨p', _, hs, hp⟩ := Token.map_move_eq_cons h
    obtain ⟨q', _, rfl, _⟩ := Token.map_move_eq_cons hp
    exact hdecl _ _ _ _ hs
  · intro name p q rest h
    obtain ⟨p', _, hs, hp⟩ := Token.map_move_eq_cons h
    obtain ⟨q', _, rfl, _⟩ := Token.map_move_eq_cons hp
    exact hassign _ _ _ _ hs
  · intro name p q member r t rest h
    obtain ⟨p', _, hs, hp⟩ := Token.map_move_eq_cons h
    obtain ⟨q', _, rfl, hq⟩ := Token.map_move_eq_cons hp
    obtain ⟨r', _, rfl, hr⟩ := Token.map_move_eq_cons hq
    obtain ⟨t', _, rfl, _⟩ := Token.map_move_eq_cons hr
    exact hfield _ _ _ _ _ _ _ hs

/-! ### Statements -/

theorem condition_follows (s : Feed) :
    Follows place final (strip place) (condition s) (condition (s.shift place final)) := by
  refine (Feed.symbol_follows s .lparen).andThen fun _ t _ _ => ?_
  refine (expression_follows t).andThen fun test u _ _ => ?_
  exact (Feed.symbol_follows u .rparen).map fun _ => rfl

theorem returned_follows (s : Feed) :
    Follows place final (Option.map (strip place)) (returned s) (returned (s.shift place final)) := by
  refine .ite (Feed.atSymbol_shift s .semicolon) ?_ ?_
  · exact (Feed.symbol_follows s .semicolon).map fun _ => rfl
  · refine (expression_follows s).andThen fun v t _ _ => ?_
    exact (Feed.symbol_follows t .semicolon).map fun _ => rfl

theorem printed_follows (s : Feed) :
    Follows place final (strip place) (printed s) (printed (s.shift place final)) := by
  refine (condition_follows s).andThen fun v t _ _ => ?_
  exact (Feed.symbol_follows t .semicolon).map fun _ => rfl

theorem forHead_follows (s : Feed) :
    Follows place final (fun h => (h.1.strip place, h.2.1.strip place, h.2.2.strip place))
      (forHead s) (forHead (s.shift place final)) := by
  refine (Feed.symbol_follows s .lparen).andThen fun _ s _ _ => ?_
  refine (simple_follows s).andThen fun init s _ _ => ?_
  refine (Feed.symbol_follows s .semicolon).andThen fun _ s _ _ => ?_
  refine (expression_follows s).andThen fun test s _ _ => ?_
  refine (Feed.symbol_follows s .semicolon).andThen fun _ s _ _ => ?_
  refine (simple_follows s).andThen fun step s _ _ => ?_
  exact (Feed.symbol_follows s .rparen).map fun _ => rfl

theorem simpleStatement_follows (s : Feed) :
    Follows place final (strip place) (simpleStatement s) (simpleStatement (s.shift place final)) := by
  refine (simple_follows s).andThen fun n t _ _ => ?_
  exact (Feed.symbol_follows t .semicolon).map fun _ => rfl

mutual

theorem statement_follows (s : Feed) :
    Follows place final (strip place) (statement s) (statement (s.shift place final)) := by
  have hsimple : Follows place final (strip place) (simpleStatement s)
      (simpleStatement (s.shift place final)) := simpleStatement_follows s
  match s, hsimple with
  | ⟨[], stop, included⟩, hsimple =>
    rw [statement, statement]
    exact hsimple
  | ⟨⟨l, pos⟩ :: rest, stop, included⟩, hsimple =>
    have hlt : Feed.size ⟨rest, stop, included⟩ < Feed.size ⟨⟨l, pos⟩ :: rest, stop, included⟩ :=
      Nat.lt_succ_self _
    rw [statement, statement]
    cases l with
    | keyword k =>
      cases k with
      | def_ | class_ | include_ => exact .fails (.inl rfl)
      | return_ =>
        refine .lift ?_ _ _
        exact (returned_follows ⟨rest, stop, included⟩).map fun x => by cases x <;> rfl
      | if_ => exact .lift (branch_follows pos ⟨rest, stop, included⟩) _ _
      | while_ =>
        refine .lift ?_ _ _
        refine (condition_follows ⟨rest, stop, included⟩).andThen fun test t _ _ => ?_
        exact (block_follows t).map fun _ => rfl
      | for_ =>
        refine .lift ?_ _ _
        refine (forHead_follows ⟨rest, stop, included⟩).andThen fun head t _ _ => ?_
        exact (block_follows t).map fun _ => rfl
      | print_ =>
        refine .lift ?_ _ _
        exact (printed_follows ⟨rest, stop, included⟩).map fun _ => rfl
      | _ => exact hsimple
    | _ => exact hsimple
termination_by 3 * s.size
decreasing_by all_goals omega

theorem branch_follows (pos : Position) (s : Feed) :
    Follows place final (strip place) (branch pos s) (branch (place pos) (s.shift place final)) := by
  rw [branch_eq, branch_eq]
  refine (condition_follows s).andThen fun test t _ _ => ?_
  refine (block_follows t).bind fun yes u _ _ => ?_
  have hbehind := u.size_behind_le
  have hbehind' := u.behind.size_behind_le
  refine .ite (Feed.atKeyword_shift u .else_) ?_ ⟨_, rfl⟩
  have hif : (u.shift place final).behind.atKeyword .if_ = u.behind.atKeyword .if_ := by
    rw [Feed.behind_shift, Feed.atKeyword_shift]
  refine .iteIf hif (fun hif => .lift ?_ _ _) (.lift ?_ _ _)
  · rw [Feed.behind_shift, Feed.behind_shift, Feed.cur_shift_of_atKeyword hif]
    exact (branch_follows u.behind.cur.pos u.behind.behind).map fun _ => rfl
  · rw [Feed.behind_shift]
    exact (block_follows u.behind).map fun _ => rfl
termination_by 3 * s.size
decreasing_by all_goals omega

theorem block_follows (s : Feed) :
    Follows place final (stripAll place) (block s) (block (s.shift place final)) := by
  rw [block, block]
  exact (Feed.symbol_follows s .lbrace).andThen fun _ t _ _ => statements_follows t
termination_by 3 * s.size
decreasing_by all_goals omega

theorem statements_follows (s : Feed) :
    Follows place final (stripAll place) (statements s) (statements (s.shift place final)) := by
  obtain ⟨_ | ⟨tok, rest⟩, stop, included⟩ := s
  · rw [statements, statements]
    exact .fails (.inr rfl)
  · change Follows place final (stripAll place) (statements ⟨tok :: rest, stop, included⟩)
      (statements ⟨tok.move place :: rest.map (Token.move place), final stop, included⟩)
    rw [statements_cons, statements_cons]
    by_cases hbrace : tok.lexeme = .symbol .rbrace
    · have hbrace' : (tok.move place).lexeme = .symbol .rbrace := hbrace
      rw [if_pos hbrace, if_pos hbrace']
      exact ⟨_, rfl⟩
    · have hbrace' : (tok.move place).lexeme ≠ .symbol .rbrace := hbrace
      rw [if_neg hbrace, if_neg hbrace']
      refine (statement_follows ⟨tok :: rest, stop, included⟩).andThen fun n t _ _ => ?_
      exact (statements_follows t).map fun _ => rfl
termination_by 3 * s.size + 1
decreasing_by all_goals omega

end

/-! ### Programs -/

theorem parameters_follows (s : Feed) (first : Bool) :
    Follows place final (List.map (Param.move place)) (parameters s first)
      (parameters (s.shift place final) first) := by
  rw [parameters, parameters]
  refine .ite (Feed.atSymbol_shift s .rparen) ?_ (.ite rfl ?_ ?_)
  · exact (Feed.symbol_follows s .rparen).map fun _ => rfl
  · refine (Feed.ident_follows s).andThen fun p t _ _ => ?_
    refine (Feed.symbol_follows t .colon).andThen fun _ u _ _ => ?_
    refine (typeName_follows u false).andThen fun ty v _ _ => ?_
    exact (parameters_follows v false).map fun _ => rfl
  · refine (Feed.symbol_follows s .comma).andThen fun _ s' _ _ => ?_
    refine (Feed.ident_follows s').andThen fun p t _ _ => ?_
    refine (Feed.symbol_follows t .colon).andThen fun _ u _ _ => ?_
    refine (typeName_follows u false).andThen fun ty v _ _ => ?_
    exact (parameters_follows v false).map fun _ => rfl
termination_by s.size
decreasing_by all_goals omega

theorem fields_follows (s : Feed) :
    Follows place final (List.map (Param.move place)) (fields s) (fields (s.shift place final)) := by
  rw [fields, fields]
  refine .ite (Feed.atSymbol_shift s .rbrace) ?_ ?_
  · exact (Feed.symbol_follows s .rbrace).map fun _ => rfl
  · refine (Feed.ident_follows s).andThen fun p t _ _ => ?_
    refine (Feed.symbol_follows t .colon).andThen fun _ u _ _ => ?_
    refine (typeName_follows u false).andThen fun ty v _ _ => ?_
    refine (Feed.symbol_follows v .semicolon).andThen fun _ w _ _ => ?_
    exact (fields_follows w).map fun _ => rfl
termination_by s.size
decreasing_by all_goals omega

theorem function_follows (s : Feed) :
    Follows place final (strip place) (function s) (function (s.shift place final)) := by
  refine (Feed.keyword_follows s .def_).andThen fun pos s _ _ => ?_
  refine (Feed.ident_follows s).andThen fun p s _ _ => ?_
  refine (Feed.symbol_follows s .lparen).andThen fun _ s _ _ => ?_
  refine .andThen (V := fun h : List Param × Ty => (h.1.map (Param.move place), h.2)) ?_
    fun head s _ _ => (block_follows s).map fun _ => rfl
  refine (parameters_follows s true).bind fun params t h h' => ?_
  exact (resultType_follows _ _ t h h').map fun _ => rfl

theorem classDeclaration_follows (s : Feed) :
    Follows place final (strip place) (classDeclaration s) (classDeclaration (s.shift place final)) := by
  refine (Feed.keyword_follows s .class_).andThen fun pos s _ _ => ?_
  refine (Feed.ident_follows s).andThen fun p s _ _ => ?_
  refine (Feed.symbol_follows s .lbrace).andThen fun _ s _ _ => ?_
  exact (fields_follows s).map fun _ => rfl

theorem libraryName_of_library? {s : Feed} {tok : Token} {rest : List Token} {l : Library}
    (hs : s.rest = tok :: rest) (hl : library? tok.lexeme = some l) :
    libraryName s = .ok l (s.withRest rest) (Feed.size_withRest_lt hs) := by
  obtain ⟨_, stop, included⟩ := s
  cases hs
  simp only [libraryName, hl]

theorem libraryName_of_none {s : Feed} {tok : Token} {rest : List Token}
    (hs : s.rest = tok :: rest) (hl : library? tok.lexeme = none) :
    libraryName s = s.fail tok.pos (.unknownLibrary tok.lexeme) := by
  obtain ⟨_, stop, included⟩ := s
  cases hs
  simp only [libraryName, hl]

theorem libraryName_follows (s : Feed) :
    Follows place final id (libraryName s) (libraryName (s.shift place final)) := by
  rcases hs : s.rest with _ | ⟨tok, rest⟩
  · obtain ⟨_, stop, included⟩ := s
    cases hs
    exact .fails (.inr rfl)
  · have hs' : (s.shift place final).rest = tok.move place :: rest.map (Token.move place) := by
      rw [Feed.shift, hs, List.map_cons]
    rcases hl : library? tok.lexeme with _ | l
    · rw [libraryName_of_none hs hl, libraryName_of_none hs' hl]
      exact Feed.fail_follows s _ (.inl rfl)
    · rw [libraryName_of_library? hs hl, libraryName_of_library? hs' hl]
      exact ⟨_, rfl⟩

theorem inclusion_follows (s : Feed) :
    Follows place final (strip place) (inclusion s) (inclusion (s.shift place final)) := by
  refine (Feed.keyword_follows s .include_).andThen fun pos s _ _ => ?_
  refine (libraryName_follows s).andThen fun l s _ _ => ?_
  exact (Feed.symbol_follows s .semicolon).bind fun _ t _ _ => ⟨_, rfl⟩

theorem item_follows (s : Feed) : Follows place final (strip place) (item s) (item (s.shift place final)) := by
  unfold item
  rw [Feed.lexeme_cur_shift]
  cases s.cur.lexeme with
  | keyword k =>
    cases k with
    | include_ => exact inclusion_follows s
    | def_ => exact function_follows s
    | class_ => exact classDeclaration_follows s
    | _ => exact statement_follows s
  | _ => exact statement_follows s

variable (place final) in
/-- Reading the items of a feed whose positions were changed. -/
theorem items_shift (s : Feed) :
    match (items s).1 with
    | .ok ns => (items (s.shift place final)).1 = .ok (stripAll place ns)
    | .error e => ∃ e', (items (s.shift place final)).1 = .error e' ∧ e.Shifts place final e' := by
  have hitem : Follows place final (strip place) (item s) (item (s.shift place final)) :=
    item_follows s
  have hempty : (s.shift place final).rest.isEmpty = s.rest.isEmpty := List.isEmpty_map ..
  rw [items, items, hempty]
  by_cases hs : s.rest.isEmpty = true
  · rw [if_pos hs, if_pos hs]
    rfl
  rw [if_neg hs, if_neg hs]
  rcases hr : item s with ⟨n, t, h⟩ | ⟨e, t, h⟩ <;> rw [hr] at hitem
  · obtain ⟨_, hitem⟩ := hitem
    rw [hitem]
    have hrest := items_shift t
    rcases hr' : (items t).1 with e | ns <;> rw [hr'] at hrest
    · obtain ⟨e', he', hshift⟩ := hrest
      simp only [he', hr', Except.map]
      exact ⟨e', rfl, hshift⟩
    · simp only [hr', Except.map]
      rw [hrest]
      rfl
  · obtain ⟨e', _, hitem, hshift⟩ := hitem
    rw [hitem]
    exact ⟨e', rfl, hshift⟩
termination_by s.size
decreasing_by all_goals omega

variable (place) in
theorem items_move (s : Feed) :
    (items (s.move place)).1 =
      ((items s).1.map (stripAll place)).mapError (SyntaxError.move place) := by
  have h := items_shift place place s
  change (items (s.shift place place)).1 = _
  rcases hr : (items s).1 with e | ns <;> rw [hr] at h
  · obtain ⟨⟨pos, cause⟩, he, rfl, hpos⟩ := h
    rw [he, show pos = place e.pos from hpos.elim id id]
    rfl
  · exact h

end Parse

end Augite
