import Augite.Proofs.AnalysisErrors
import Augite.Proofs.TokenSpans

/-!
# Where errors stand

The position of an error is that of a byte of the source where a token starts, or of the end;
if there is a malformed lexeme, it is that of its first byte. Reading does not make positions
up: it commutes with moving them, so moving all positions but those of the tokens to the end
must leave its result as it is.
-/

namespace Augite

/-! ### Positions that reading gives -/

namespace Node

variable (place : Position → Position)

theorem pos_move (params : List Param) :
    (params.map (Param.move place)).map Param.pos = (params.map Param.pos).map place := by
  rw [List.map_map, List.map_map]
  rfl

mutual

theorem positions_strip (n : Node) : (n.strip place).positions = n.positions.map place := by
  cases n with
  | missing => rfl
  | int | float | char | string | bool | var | varDecl | graphDecl | includeLib => rfl
  | binary m op l r =>
    simp only [strip, positions, List.map_cons, List.map_append, positions_strip l,
      positions_strip r]
    rfl
  | unary m op x => simp only [strip, positions, List.map_cons, positions_strip x]; rfl
  | varDef m name t x => simp only [strip, positions, List.map_cons, positions_strip x]; rfl
  | assign m name x => simp only [strip, positions, List.map_cons, positions_strip x]; rfl
  | print m x => simp only [strip, positions, List.map_cons, positions_strip x]; rfl
  | exprStmt m x => simp only [strip, positions, List.map_cons, positions_strip x]; rfl
  | ret m value =>
    cases value with
    | none => rfl
    | some x => simp only [strip, positions, List.map_cons, positions_strip x]; rfl
  | call m name xs => simp only [strip, positions, List.map_cons, positionsAll_stripAll xs]; rfl
  | listDecl m name k xs =>
    simp only [strip, positions, List.map_cons, positionsAll_stripAll xs]; rfl
  | program m xs => simp only [strip, positions, List.map_cons, positionsAll_stripAll xs]; rfl
  | dot a xs => simp only [strip, positions, List.map_cons, positionsAll_stripAll xs]; rfl
  | fieldAssign m a xs x =>
    simp only [strip, positions, List.map_cons, List.map_append, positionsAll_stripAll xs,
      positions_strip x]
    rfl
  | branch m merge test yes no =>
    cases no with
    | none =>
      simp only [strip, positions, List.map_cons, List.map_append, positions_strip test,
        positionsAll_stripAll yes]
      rfl
    | some no =>
      simp only [strip, positions, List.map_cons, List.map_append, positions_strip test,
        positionsAll_stripAll yes, positionsAll_stripAll no]
      rfl
  | whileLoop m merge test body =>
    simp only [strip, positions, List.map_cons, List.map_append, positions_strip test,
      positionsAll_stripAll body]
    rfl
  | forLoop m merge init test step body =>
    simp only [strip, positions, List.map_cons, List.map_append, positions_strip init,
      positions_strip test, positions_strip step, positionsAll_stripAll body]
    rfl
  | funcDef m name params result body =>
    simp only [strip, positions, List.map_cons, List.map_append, pos_move,
      positionsAll_stripAll body]
    rfl
  | classDecl m name fields => simp only [strip, positions, List.map_cons, pos_move]; rfl
termination_by structural n

theorem positionsAll_stripAll (ns : List Node) :
    positionsAll (stripAll place ns) = (positionsAll ns).map place := by
  cases ns with
  | nil => rfl
  | cons n rest =>
    simp only [stripAll, positionsAll, List.map_append, positions_strip n,
      positionsAll_stripAll rest]
termination_by structural ns

end

end Node

namespace Feed

/-- The positions of the tokens and of the end. -/
def positions (s : Feed) : List Position := s.stop :: s.rest.map Token.pos

/-- The positions of the feed stay where they are, and all others move to its end. -/
def place (s : Feed) (q : Position) : Position := if q ∈ s.positions then q else s.stop

theorem place_mem (s : Feed) (q : Position) : s.place q ∈ s.positions := by
  unfold place
  split
  · assumption
  · exact List.mem_cons_self

theorem move_place (s : Feed) : s.move s.place = s := by
  have hkeep {q : Position} (hq : q ∈ s.positions) : s.place q = q := if_pos hq
  have hrest : s.rest.map (Token.move s.place) = s.rest := by
    refine (List.map_congr_left fun tok htok => ?_).trans (List.map_id _)
    rw [Token.move, hkeep (List.mem_cons_of_mem _ (List.mem_map_of_mem htok))]
    rfl
  rw [move, hrest, hkeep List.mem_cons_self]

end Feed

/-- Reading takes all positions from the feed. -/
theorem Parse.items_positions (s : Feed) :
    match (items s).1 with
    | .error e => e.pos ∈ s.positions
    | .ok ns => ∀ q ∈ Node.positionsAll ns, q ∈ s.positions := by
  have hmove := items_move s.place s
  rw [s.move_place] at hmove
  rcases hr : (items s).1 with e | ns <;> rw [hr] at hmove
  · have hpos : e.pos = s.place e.pos := congrArg SyntaxError.pos (Except.error.inj hmove)
    change e.pos ∈ s.positions
    rw [hpos]
    exact s.place_mem e.pos
  · have hstrip : ns = Node.stripAll s.place ns := Except.ok.inj hmove
    intro q hq
    rw [hstrip, Node.positionsAll_stripAll] at hq
    obtain ⟨p, -, rfl⟩ := List.mem_map.mp hq
    exact s.place_mem p

/-! ### Positions of errors -/

/-- The position of an error in the source, if the source is to blame. -/
def CompileError.pos? : CompileError → Option Position
  | .grammar e => some e.pos
  | .semantic e => some e.pos
  | .internal _ => none

/-- What follows the analysis gives internal errors only. -/
theorem emitted_error {ctx : Context} {body : List Node} {e : CompileError}
    (h : emitted ctx body = .error e) : e.pos? = none := by
  unfold emitted at h
  split at h
  · cases h
    rfl
  · split at h <;> cases h
    rfl

/-- The errors of a source whose lexemes are well-formed stand at one of its tokens or at
its end. -/
theorem compileSource_error_mem {src : Text} {ts : List Token} {stop : Position}
    (htokens : Lexer.tokenize src = .ok (ts, stop)) {e : CompileError}
    (h : (compileSource src).1 = .error e) {p : Position} (hp : e.pos? = some p) :
    p ∈ stop :: ts.map Token.pos := by
  have hitems := Parse.items_positions ⟨ts, stop, []⟩
  have hparse := Program.parse_of_tokens htokens 0
  rw [compileSource_fst] at h
  rcases hr : (Parse.items ⟨ts, stop, []⟩).1 with x | body <;> rw [hr] at hitems hparse
  · rw [hparse] at h
    cases h
    cases hp
    exact hitems
  · rw [Except.map] at hparse
    rw [hparse] at h
    simp only at h
    rw [Program.compile_fst] at h
    split at h
    · rename_i e' ctx q hanalyse
      cases h
      obtain ⟨x, rfl, hx⟩ := Program.analyse_error_pos (Program.parse_isItem hparse) {}
        (congrArg Prod.fst hanalyse)
      cases hp
      exact hitems _ hx
    · rw [emitted_error h] at hp
      cases hp

/-- The position of an error is that of the first byte of a malformed lexeme, which is the
first one behind the tokens before it, or else of the first byte of a token or of the end. -/
theorem compileSource_error_pos {src : Text} {e : CompileError} {p : Position}
    (h : (compileSource src).1 = .error e) (hp : e.pos? = some p) :
    p ≠ .none ∧
      match Lexer.tokenize src with
      | .error x => e = .grammar x ∧ ∃ ts k i, Lexer.TiledTo src 0 k ts ∧ k ≤ i ∧
          Lexer.IsTrivia (src.slice k i) ∧ Lexer.MalformedAt src i x
      | .ok (ts, stop) => stop = .ofOffset src src.length ∧ ∃ spans k, Lexer.Tiles src 0 spans k ∧
          List.Forall₂ (Lexer.StandsAt src) spans ts ∧ Lexer.IsFinalTrivia (src.drop k) ∧
          ∃ i ∈ src.length :: spans.map Lexer.Span.start, p = .ofOffset src i := by
  have htiled := Lexer.tokenize_tiled src
  rcases htokens : Lexer.tokenize src with x | ⟨ts, stop⟩ <;> rw [htokens] at htiled
  · obtain ⟨ts, k, i, htiled, hki, hgap, hbad⟩ := htiled
    have hparse : Program.parse 0 src = .error x := by
      unfold Program.parse Feed.ofSource
      rw [htokens]
      rfl
    rw [compileSource_fst, hparse] at h
    cases h
    cases hp
    refine ⟨?_, rfl, ts, k, i, htiled, hki, hgap, hbad⟩
    rw [hbad.pos]
    exact Position.ofOffset_ne_none src i
  · obtain ⟨k, ⟨spans, htiles, hstand⟩, hend, hstop⟩ := htiled
    have hoffset : ∃ i ∈ src.length :: spans.map Lexer.Span.start, p = .ofOffset src i := by
      have hmem := compileSource_error_mem htokens h hp
      rw [hstop, Lexer.map_pos_of_standsAt hstand, ← List.map_cons] at hmem
      obtain ⟨i, hi, hpos⟩ := List.mem_map.mp hmem
      exact ⟨i, hi, hpos.symm⟩
    refine ⟨?_, hstop, spans, k, htiles, hstand, hend, hoffset⟩
    obtain ⟨i, -, rfl⟩ := hoffset
    exact Position.ofOffset_ne_none src i

/-- A program whose string is not closed. -/
def unclosed : Text := "x: int = 1; // one\nprint(\"a);"

/-- A program that ends too early. -/
def cutOff : Text := "print(1)\n"

/-- A program that assigns to a variable with a number of the wrong type. -/
def mistyped : Text := "x: int = 1;\nx = 2.5;"

theorem blamed_error_pos :
    (∃ e p, (compileSource unclosed).1 = .error e ∧ e.pos? = some p ∧ p = ⟨2, 7⟩ ∧ p ≠ .none ∧
      ∃ x, e = .grammar x ∧ ∃ ts k i, Lexer.TiledTo unclosed 0 k ts ∧ k ≤ i ∧
        Lexer.IsTrivia (unclosed.slice k i) ∧ Lexer.MalformedAt unclosed i x) ∧
    (∃ e p, (compileSource cutOff).1 = .error e ∧ e.pos? = some p ∧ p = ⟨2, 1⟩ ∧ p ≠ .none) ∧
    ∃ e p, (compileSource mistyped).1 = .error e ∧ e.pos? = some p ∧ p = ⟨2, 5⟩ ∧ p ≠ .none := by
  have hrun (src : Text) {p : Position}
      (h : ((compileSource src).1.mapError CompileError.pos?).map (fun _ => ()) = .error (some p)) :
      ∃ e, (compileSource src).1 = .error e ∧ e.pos? = some p := by
    rcases hr : (compileSource src).1 with e | m <;> rw [hr] at h
    · exact ⟨e, rfl, Except.error.inj h⟩
    · cases h
  refine ⟨?_, ?_, ?_⟩
  · obtain ⟨e, he, hp⟩ := hrun unclosed (p := ⟨2, 7⟩) (by decide +kernel)
    obtain ⟨hpos, hlexeme⟩ := compileSource_error_pos he hp
    have htokens : (Lexer.tokenize unclosed).isOk = false := by decide +kernel
    rcases ht : Lexer.tokenize unclosed with x | _ <;> rw [ht] at htokens hlexeme
    · exact ⟨e, _, he, hp, rfl, hpos, x, hlexeme⟩
    · cases htokens
  · obtain ⟨e, he, hp⟩ := hrun cutOff (p := ⟨2, 1⟩) (by decide +kernel)
    exact ⟨e, _, he, hp, rfl, (compileSource_error_pos he hp).1⟩
  · obtain ⟨e, he, hp⟩ := hrun mistyped (p := ⟨2, 5⟩) (by decide +kernel)
    exact ⟨e, _, he, hp, rfl, (compileSource_error_pos he hp).1⟩

end Augite
