import Augite.Proofs.ErrorPositions

/-!
# Progress of reading

A sequence of readings goes through the tokens of a source from the first one to the end, never back
and never past the end, and a failure stands at one of them.
-/

namespace Augite

namespace Feed.Precedes

variable {s t : Feed}

theorem size_le (h : s.Precedes t) : t.size ≤ s.size := h.rest.length_le

theorem positions_subset (h : s.Precedes t) : t.positions ⊆ s.positions := by
  intro q hq
  rcases List.mem_cons.mp hq with rfl | hq
  · rw [h.stop]
    exact List.mem_cons_self
  · exact List.mem_cons_of_mem _ ((h.rest.map Token.pos).subset hq)

end Feed.Precedes

namespace Parse

theorem piece_within (p : Piece) (s : Feed) : s.Precedes (piece p s).2 := by
  cases p with
  | statement => exact (statement_parses s).run
  | expression => exact (expression_parses s).run
  | program => exact (items_parses s).1

/-- A statement or an expression takes a token at least. -/
theorem size_piece_lt {p : Piece} (hp : p ≠ .program) {s : Feed} {n : Node}
    (h : (piece p s).1 = .ok n) : (piece p s).2.size < s.size := by
  have hrun {o : Outcome Node s.size} (ho : o.run.1 = .ok n) : o.run.2.size < s.size := by
    cases o with
    | ok a t hlt => exact hlt
    | error e t hle => cases ho
  cases p with
  | statement => exact hrun h
  | expression => exact hrun h
  | program => exact absurd rfl hp

theorem rest_piece_program {s : Feed} {n : Node} (h : (piece .program s).1 = .ok n) :
    (piece .program s).2.rest = [] := by
  rcases hr : (items s).1 with e | ns
  · simp only [piece, program, hr, Except.map] at h
    cases h
  · exact ((items_parses s).2 ns hr).1

/-- What does not change when all positions move that are not in the feed has its error there. -/
theorem pos_mem_of_follows {α : Type} {n : Nat} {s : Feed} {V : α → α} {o : Outcome α n}
    (ho : o.Follows s.place s.place V o) {e : SyntaxError} (he : o.run.1 = .error e) :
    e.pos ∈ s.positions := by
  cases o with
  | ok a t h => cases he
  | error e' t h =>
    cases he
    obtain ⟨e', _, heq, -, hpos⟩ := ho
    obtain ⟨rfl, -⟩ := Outcome.error.inj heq
    rw [show e.pos = s.place e.pos from hpos.elim id id]
    exact s.place_mem e.pos

theorem piece_error_pos {p : Piece} {s : Feed} {e : SyntaxError} (h : (piece p s).1 = .error e) :
    e.pos ∈ s.positions := by
  have hmove : s.shift s.place s.place = s := s.move_place
  cases p with
  | statement =>
    have hfollows : Outcome.Follows s.place s.place _ _ _ := statement_follows s
    rw [hmove] at hfollows
    exact pos_mem_of_follows hfollows h
  | expression =>
    have hfollows : Outcome.Follows s.place s.place _ _ _ := expression_follows s
    rw [hmove] at hfollows
    exact pos_mem_of_follows hfollows h
  | program =>
    have hitems := items_positions s
    rcases hr : (items s).1 with e' | ns
    · simp only [piece, program, hr, Except.map] at h
      cases h
      rw [hr] at hitems
      exact hitems
    · simp only [piece, program, hr, Except.map] at h
      cases h

/-- The feed reached by reading pieces one after another, each from where the one before it has
succeeded or failed. -/
def feedAfter (s : Feed) : List Piece → Feed
  | [] => s
  | p :: ps => feedAfter (piece p s).2 ps

theorem feedAfter_within (s : Feed) (ps : List Piece) : s.Precedes (feedAfter s ps) := by
  induction ps generalizing s with
  | nil => exact .refl s
  | cons p ps ih => exact (piece_within p s).trans (ih _)

end Parse

namespace Feed

/-- The tokens of the feed, with the one that stands for its end behind them. -/
def tokens (s : Feed) : List Token := s.rest ++ [⟨.endOfInput, s.stop⟩]

theorem length_tokens (s : Feed) : s.tokens.length = s.size + 1 := List.length_append

theorem map_pos_tokens (s : Feed) : s.tokens.map Token.pos = s.rest.map Token.pos ++ [s.stop] :=
  List.map_append

theorem Precedes.tokens_eq {s t : Feed} (h : s.Precedes t) :
    t.tokens = s.tokens.drop (s.size - t.size) := by
  obtain ⟨⟨taken, htaken⟩, hstop⟩ := h
  have hsize : s.size - t.size = taken.length := by
    simp only [size, ← htaken, List.length_append]
    omega
  rw [tokens, tokens, hsize, ← htaken, hstop, List.append_assoc, List.drop_left]

end Feed

/-- Pieces are read from the tokens of a feed, going on after failures. Each one is read from a
token of the feed up to one that does not stand before it. A statement or an expression takes
a token at least, a program ends at the end, and a failure stands at one of the tokens. -/
theorem Parse.pieces_progress (s : Feed) (before : List Piece) (p : Piece) :
    ∃ i j, i ≤ j ∧ j < s.tokens.length ∧
      (feedAfter s before).tokens = s.tokens.drop i ∧
      (piece p (feedAfter s before)).2.tokens = s.tokens.drop j ∧
      match (piece p (feedAfter s before)).1 with
      | .ok _ => if p = .program then j + 1 = s.tokens.length else i < j
      | .error e => e.pos ∈ s.tokens.map Token.pos := by
  have hbefore := feedAfter_within s before
  have hpiece := piece_within p (feedAfter s before)
  have hle := hbefore.size_le
  have hle' := hpiece.size_le
  refine ⟨s.size - (feedAfter s before).size, s.size - (piece p (feedAfter s before)).2.size,
    by omega, by rw [s.length_tokens]; omega, hbefore.tokens_eq, (hbefore.trans hpiece).tokens_eq,
    ?_⟩
  rcases hr : (piece p (feedAfter s before)).1 with e | n
  · have hmem := hbefore.positions_subset (piece_error_pos hr)
    rw [s.map_pos_tokens]
    exact List.mem_append.mpr ((List.mem_cons.mp hmem).symm.imp id List.mem_singleton.mpr)
  · simp only
    split
    · rename_i hp
      subst hp
      have hend : (piece .program (feedAfter s before)).2.size = 0 :=
        congrArg List.length (rest_piece_program hr)
      rw [s.length_tokens, hend]
      omega
    · rename_i hp
      have hlt := size_piece_lt hp hr
      omega

end Augite
