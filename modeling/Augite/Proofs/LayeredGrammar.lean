import Augite.Proofs.ParseEquations

/-!
# Precedence climbing reads the layered grammar

The plain way to read expressions has one nonterminal for each level of operators: operands
of the next tighter level with operators of this level between them, which associate to the
left. Below all levels stand the unary operators and the primaries. Precedence climbing does
the work of all levels in one loop; on every feed both give the same outcome.
-/

namespace Augite.Parse

namespace Layered

/-- The binary operators by levels, the loosest first. -/
def tower : List (List (Symbol × BinaryOp)) :=
  [[(.or, .or)],
    [(.and, .and)],
    [(.eq, .eq), (.ne, .ne)],
    [(.lt, .lt), (.le, .le), (.gt, .gt), (.ge, .ge)],
    [(.plus, .add), (.minus, .sub)],
    [(.star, .mul), (.slash, .div), (.percent, .rem)]]

/-- The operator of one level that a lexeme stands for. -/
def operator? (ops : List (Symbol × BinaryOp)) : Lexeme → Option BinaryOp
  | .symbol x => ops.lookup x
  | _ => none

mutual

/-- An expression of the loosest of some levels. -/
def layer (levels : List (List (Symbol × BinaryOp))) (s : Feed) : Outcome Node s.size :=
  match levels with
  | [] => factor s
  | ops :: tighter => (layer tighter s).bind fun left t h => chain ops tighter s.size left t h
termination_by (s.size, levels.length + 1)
decreasing_by
  · exact .right _ (Nat.zero_lt_succ _)
  · exact .right _ (Nat.lt_succ_self _)
  · exact .left _ _ h

/-- The operators of one level that follow `left`, each with an operand of the tighter levels. -/
def chain (ops : List (Symbol × BinaryOp)) (tighter : List (List (Symbol × BinaryOp))) (n : Nat)
    (left : Node) (t : Feed) (h : t.size < n) : Outcome Node n :=
  match ht : t.rest with
  | [] => .ok left t h
  | tok :: rest =>
    match operator? ops tok.lexeme with
    | none => .ok left t h
    | some op =>
      have hRest := Feed.size_withRest_lt ht
      match layer tighter (t.withRest rest) with
      | .error e u k => .error e u (by omega)
      | .ok right u k => chain ops tighter n (.binary (.at_ tok.pos) op left right) u (by omega)
termination_by (t.size, 0)
decreasing_by
  · exact .left _ _ hRest
  · exact .left _ _ (Nat.lt_trans k hRest)

/-- A primary with the unary operators in front of it. -/
def factor (s : Feed) : Outcome Node s.size :=
  match hs : s.rest with
  | [] => s.fail s.stop (.unexpected .endOfInput)
  | tok :: rest =>
    have hRest := Feed.size_withRest_lt hs
    match unaryOp? tok.lexeme with
    | none => atom s.size tok (s.withRest rest) hRest
    | some op =>
      ((factor (s.withRest rest)).map (.unary (.at_ tok.pos) op)).lift (Nat.le_of_lt hRest)
termination_by (s.size, 0)
decreasing_by
  · exact .left _ _ hRest
  · exact .left _ _ hRest

/-- A literal, a variable, a call, a member access or an expression in parentheses, whose
first token has been taken. -/
def atom (n : Nat) (tok : Token) (t : Feed) (h : t.size < n) : Outcome Node n :=
  match literal? tok.pos tok.lexeme with
  | some node => .ok node t h
  | none =>
    match tok.lexeme with
    | .symbol .lparen =>
      ((layer tower t).andThen fun inner u _ =>
        (u.symbol .rparen).map fun _ => inner).lift (Nat.le_of_lt h)
    | .ident name =>
      if t.atSymbol .lparen then
        ((arguments t.behind .rparen true).map (.call (.at_ tok.pos) name)).lift
          (Nat.le_trans t.size_behind_le (Nat.le_of_lt h))
      else if t.atSymbol .dot then
        (t.behind.ident.bind fun p u hu =>
          if u.atSymbol .lparen then
            ((arguments u.behind .rparen true).map (.dot (access tok.pos name p.1 true))).lift
              (Nat.le_trans u.size_behind_le (Nat.le_of_lt hu))
          else .ok (.dot (access tok.pos name p.1 false) []) u hu).lift
            (Nat.le_trans t.size_behind_le (Nat.le_of_lt h))
      else .ok (.var (.at_ tok.pos) name) t h
    | l => .error ⟨tok.pos, .unexpected l⟩ t (Nat.le_of_lt h)
termination_by (t.size, tower.length + 3)
decreasing_by
  · exact .right _ (by omega)
  · rcases Nat.lt_or_eq_of_le t.size_behind_le with hlt | heq
    · exact .left _ _ hlt
    · exact heq ▸ .right _ (by omega)
  · exact .left _ _
      (Nat.lt_of_le_of_lt u.size_behind_le (Nat.lt_of_lt_of_le hu t.size_behind_le))

/-- Full expressions with commas between them, up to a closing symbol that is taken too. -/
def arguments (s : Feed) (closing : Symbol) (first : Bool) : Outcome (List Node) s.size :=
  if s.atSymbol closing then (s.symbol closing).map fun _ => []
  else if first then
    (layer tower s).andThen fun e t _ht => (arguments t closing false).map (e :: ·)
  else
    (s.symbol .comma).andThen fun _ t _ht =>
      (layer tower t).andThen fun e u _hu => (arguments u closing false).map (e :: ·)
termination_by (s.size, tower.length + 2)
decreasing_by
  · exact .right _ (Nat.lt_succ_self _)
  · exact .left _ _ _ht
  · exact .left _ _ _ht
  · exact .left _ _ (Nat.lt_trans _hu _ht)

end

/-- An expression of the layered grammar. -/
def expression (s : Feed) : Outcome Node s.size := layer tower s

/-! ### Levels -/

/-- The operators that bind as tightly as `level`. -/
def Holds (level : Nat) (ops : List (Symbol × BinaryOp)) : Prop :=
  ∀ l, operator? ops l = ((binaryOp? l).filter fun p => p.2 == level).map Prod.fst

/-- The levels hold the binary operators that bind at least as tightly as `least`. -/
def Lists (least : Nat) : List (List (Symbol × BinaryOp)) → Prop
  | [] => ∀ l op level, binaryOp? l = some (op, level) → level < least
  | ops :: tighter => Holds least ops ∧ Lists (least + 1) tighter

theorem tower_lists : Lists 1 tower := by
  refine ⟨?_, ?_, ?_, ?_, ?_, ?_, fun l op level h => ?_⟩
  case refine_7 =>
    cases l with
    | symbol x => cases x <;> cases h <;> decide
    | _ => cases h
  all_goals
    intro l
    cases l with
    | symbol x => cases x <;> rfl
    | _ => rfl

section

variable (ops : List (Symbol × BinaryOp)) (tighter : List (List (Symbol × BinaryOp))) (tok : Token)
  (rest : List Token) (stop : Position) (included : List Library)

theorem chain_nil (n : Nat) (left : Node) (h : Feed.size ⟨[], stop, included⟩ < n) :
    chain ops tighter n left ⟨[], stop, included⟩ h = .ok left ⟨[], stop, included⟩ h := by
  rw [chain]

theorem chain_cons (n : Nat) (left : Node) (h : Feed.size ⟨tok :: rest, stop, included⟩ < n) :
    chain ops tighter n left ⟨tok :: rest, stop, included⟩ h =
      match operator? ops tok.lexeme with
      | none => .ok left ⟨tok :: rest, stop, included⟩ h
      | some op =>
        (layer tighter ⟨rest, stop, included⟩).into (Nat.le_of_lt (Nat.lt_of_succ_lt h))
          fun right u k =>
            chain ops tighter n (.binary (.at_ tok.pos) op left right) u
              (Nat.lt_trans k (Nat.lt_of_succ_lt h)) := by
  rw [chain]
  simp only
  rcases operator? ops tok.lexeme with _ | op
  · rfl
  · rcases hc : layer tighter (Feed.withRest ⟨tok :: rest, stop, included⟩ rest) with
      ⟨right, u, k⟩ | ⟨e, u, k⟩ <;>
    · change layer tighter ⟨rest, stop, included⟩ = _ at hc
      rw [hc]
      rfl

end

end Layered

open Layered

/-- No operator that binds at least as tightly as `least` comes next. -/
def Closed (least : Nat) (t : Feed) : Prop :=
  ∀ tok rest op level, t.rest = tok :: rest → binaryOp? tok.lexeme = some (op, level) → level < least

theorem climb_of_closed {least n : Nat} {t : Feed} (ht : Closed least t) (left : Node)
    (h : t.size < n) : climb n least left t h = .ok left t h := by
  obtain ⟨_ | ⟨tok, rest⟩, stop, included⟩ := t
  · exact climb_nil ..
  · rw [climb_cons]
    rcases hop : binaryOp? tok.lexeme with _ | ⟨op, level⟩
    · rfl
    · exact if_pos (ht tok rest op level rfl hop)

theorem climb_closed {least n : Nat} {left a : Node} {t u : Feed} {h : t.size < n} {k : u.size < n}
    (hrun : climb n least left t h = .ok a u k) : Closed least u := by
  induction hm : t.size using Nat.strong_induction_on generalizing left t with
  | _ m ih =>
    obtain ⟨_ | ⟨tok, rest⟩, stop, included⟩ := t
    · rw [climb_nil] at hrun
      cases hrun
      rintro _ _ _ _ ⟨⟩
    rw [climb_cons] at hrun
    rcases hop : binaryOp? tok.lexeme with _ | ⟨op, level⟩ <;> simp only [hop] at hrun
    · cases hrun
      rintro _ _ op level ⟨⟩ hop'
      rw [hop] at hop'
      cases hop'
    split at hrun
    · rename_i hlow
      cases hrun
      rintro _ _ op level ⟨⟩ hop'
      rw [hop] at hop'
      cases hop'
      exact hlow
    · rcases hc : climbing ⟨rest, stop, included⟩ (level + 1) with ⟨right, v, hv⟩ | ⟨e, v, hv⟩ <;>
        simp only [hc, Outcome.into] at hrun
      · exact ih v.size (hm ▸ Nat.lt_succ_of_lt hv) hrun rfl
      · cases hrun

theorem climbing_closed {least : Nat} {a : Node} {s u : Feed} {k : u.size < s.size}
    (hrun : climbing s least = .ok a u k) : Closed least u := by
  rw [climbing] at hrun
  rcases hx : unary s with ⟨left, t, ht⟩ | ⟨e, t, ht⟩ <;> simp only [hx, Outcome.bind] at hrun
  · exact climb_closed hrun
  · cases hrun

/-- A loop over the operators of all levels from one on is a loop over those of the tighter
levels, which gives the first operand, and then a loop over those of the one level. -/
theorem climb_eq_bind {least n : Nat} {ops : List (Symbol × BinaryOp)}
    {tighter : List (List (Symbol × BinaryOp))}
    (hops : Holds least ops) {t : Feed}
    (htight : ∀ u : Feed, u.size < t.size → climbing u (least + 1) = layer tighter u) (left : Node)
    (h : t.size < n) :
    climb n least left t h = (climb n (least + 1) left t h).bind (chain ops tighter n) := by
  induction hm : t.size using Nat.strong_induction_on generalizing left t with
  | _ m ih =>
    obtain ⟨_ | ⟨tok, rest⟩, stop, included⟩ := t
    · rw [climb_nil, climb_nil]
      exact (chain_nil ..).symm
    rw [climb_cons, climb_cons]
    have hop := hops tok.lexeme
    rcases hb : binaryOp? tok.lexeme with _ | ⟨op, level⟩ <;> rw [hb] at hop
    · simp only [Outcome.bind, chain_cons, hop, Option.filter_none, Option.map_none]
    simp only
    rcases Nat.lt_trichotomy level least with hlt | rfl | hgt
    · rw [if_pos hlt, if_pos (Nat.lt_succ_of_lt hlt)]
      simp only [Outcome.bind, chain_cons, hop, Option.filter_some, beq_iff_eq, hlt.ne, if_false,
        Option.map_none]
    · rw [if_neg (Nat.lt_irrefl _), if_pos (Nat.lt_succ_self _)]
      simp only [Outcome.bind, chain_cons, hop, Option.filter_some, beq_self_eq_true, if_true,
        Option.map_some]
      rw [← htight _ (Nat.lt_succ_self _)]
      rcases hc : climbing ⟨rest, stop, included⟩ (level + 1) with ⟨right, v, hv⟩ | ⟨e, v, hv⟩
      · have hsize : v.size < m := hm ▸ Nat.lt_succ_of_lt hv
        simp only [Outcome.into]
        rw [ih v.size hsize (fun u hu => htight u (hm ▸ Nat.lt_trans hu hsize)) _ _ rfl,
          climb_of_closed (climbing_closed hc)]
        rfl
      · rfl
    · rw [if_neg (by omega), if_neg (by omega)]
      rcases hc : climbing ⟨rest, stop, included⟩ (level + 1) with ⟨right, v, hv⟩ | ⟨e, v, hv⟩
      · have hsize : v.size < m := hm ▸ Nat.lt_succ_of_lt hv
        exact ih v.size hsize (fun u hu => htight u (hm ▸ Nat.lt_trans hu hsize)) _ _ rfl
      · rfl

/-! ### Equal outcomes -/

/-- Both ways of reading have the same outcomes on a feed. -/
structure Agree (s : Feed) : Prop where
  unary_eq : unary s = factor s
  climbing_eq : ∀ least levels, Lists least levels → climbing s least = layer levels s
  operands_eq : ∀ closing first, operands s closing first = arguments s closing first

theorem primary_eq_atom {n : Nat} {t : Feed} (ht : ∀ u : Feed, u.size ≤ t.size → Agree u)
    (h : t.size < n) (tok : Token) : primary n tok t h = atom n tok t h := by
  obtain ⟨l, pos⟩ := tok
  rw [atom]
  rcases hlit : literal? pos l with _ | node
  · cases l with
    | symbol x =>
      by_cases hx : x = .lparen
      · subst hx
        rw [primary_group, (ht t (Nat.le_refl _)).climbing_eq 1 tower tower_lists]
      · rw [primary_other h pos hlit (by simpa using hx) nofun]
        cases x <;> first | rfl | exact absurd rfl hx
    | ident name =>
      have hargs {u : Feed} (hu : u.size ≤ t.size) := (ht _ hu).operands_eq .rparen true
      rw [primary_ident, hargs t.size_behind_le]
      refine ite_congr rfl (fun _ => rfl) fun _ => ite_congr rfl (fun _ => ?_) fun _ => rfl
      refine congrArg (Outcome.lift _) (congrArg (Outcome.bind _) ?_)
      funext p u hu
      rw [hargs (Nat.le_trans u.size_behind_le (Nat.le_trans (Nat.le_of_lt hu) t.size_behind_le))]
    | _ => exact primary_other h pos hlit nofun nofun
  · exact primary_literal h pos hlit

section

variable {s : Feed} (hs : ∀ u : Feed, u.size < s.size → Agree u)

include hs

theorem unary_eq_factor : unary s = factor s := by
  obtain ⟨_ | ⟨tok, rest⟩, stop, included⟩ := s
  · rw [unary_nil, factor]
  · rw [unary_cons, factor]
    simp only
    rcases unaryOp? tok.lexeme with _ | op
    · exact primary_eq_atom (fun u hu => hs u (Nat.lt_succ_of_le hu)) _ tok
    · rw [(hs ⟨rest, stop, included⟩ (Nat.lt_succ_self _)).unary_eq]
      rfl

/-- By recursion over the levels: the tightest one holds no operator, and each looser one adds
a loop of its own. -/
theorem climbing_eq_layer {least : Nat} {levels : List (List (Symbol × BinaryOp))}
    (hlevels : Lists least levels) : climbing s least = layer levels s := by
  induction levels generalizing least with
  | nil =>
    have hclosed : ∀ t, Closed least t := fun t tok rest op level _ => hlevels tok.lexeme op level
    rw [layer, ← unary_eq_factor hs, climbing]
    rcases unary s with ⟨left, t, ht⟩ | ⟨e, t, ht⟩
    · exact climb_of_closed (hclosed t) left ht
    · rfl
  | cons ops tighter ih =>
    rw [layer, ← ih hlevels.2, climbing, climbing]
    rcases unary s with ⟨left, t, ht⟩ | ⟨e, t, ht⟩
    · exact climb_eq_bind hlevels.1
        (fun u hu => (hs u (Nat.lt_trans hu ht)).climbing_eq _ _ hlevels.2) left ht
    · rfl

theorem operands_eq_arguments (closing : Symbol) (first : Bool) :
    operands s closing first = arguments s closing first := by
  rw [operands, arguments, climbing_eq_layer hs tower_lists]
  refine ite_congr rfl (fun _ => rfl) fun _ => ite_congr rfl (fun _ => ?_) fun _ => ?_
  · refine congrArg (Outcome.andThen _) ?_
    funext e t ht
    rw [(hs t ht).operands_eq]
  · refine congrArg (Outcome.andThen _) ?_
    funext e t ht
    rw [(hs t ht).climbing_eq 1 tower tower_lists]
    refine congrArg (Outcome.andThen _) ?_
    funext e u hu
    rw [(hs u (Nat.lt_trans hu ht)).operands_eq]

theorem Agree.step : Agree s :=
  ⟨unary_eq_factor hs, fun _ _ => climbing_eq_layer hs, operands_eq_arguments hs⟩

end

theorem agree (s : Feed) : Agree s := by
  induction hm : s.size using Nat.strong_induction_on generalizing s with
  | _ m ih => exact .step fun u hu => ih u.size (hm ▸ hu) u rfl

/-- Precedence climbing gives the tree of the layered grammar and stops at the same token, or
fails with the same error at the same place. -/
theorem expression_eq_layered (s : Feed) : expression s = Layered.expression s :=
  (agree s).climbing_eq 1 tower tower_lists

end Augite.Parse
