import Augite.Proofs.Words
import Augite.Proofs.ParsedShape
import Augite.Proofs.ParsedPositions
import Augite.Proofs.Recompilation

/-!
# Layout

A source text may be laid out again: its words in the same order, with other white space
and other comments between them. The lexemes stay, and a compilation has the same module or
an error that differs in its position alone.
-/

namespace Augite.Lexer

/-! ### White space and comments -/

/-- White space and comments, each of them closed by a newline. -/
inductive IsTrivia : Text → Prop
  | nil : IsTrivia []
  | space {b : UInt8} {rest : Text} : isSpace b = true → IsTrivia rest → IsTrivia (b :: rest)
  | comment (body : Text) {rest : Text} : (∀ b ∈ body, b ≠ byte '\n') → IsTrivia rest →
      IsTrivia (byte '/' :: byte '/' :: body ++ byte '\n' :: rest)

/-- What may stand between two words: white space and comments that begin with white space. -/
def IsGap : Text → Prop
  | [] => False
  | b :: rest => isSpace b = true ∧ IsTrivia rest

theorem IsGap.isTrivia {gap : Text} (h : IsGap gap) : IsTrivia gap := by
  cases gap with
  | nil => exact h.elim
  | cons b rest => exact .space h.1 h.2

theorem IsGap.breaks {gap : Text} (h : IsGap gap) (s : Text) : Breaks (gap ++ s) := by
  cases gap with
  | nil => exact h.elim
  | cons b rest => exact h.1

theorem triviaLength_comment {body : Text} (h : ∀ b ∈ body, b ≠ byte '\n') (t : Text) :
    triviaLength true (body ++ byte '\n' :: t) = body.length + 1 + triviaLength false t := by
  induction body with
  | nil =>
    rw [List.nil_append, triviaLength, if_pos rfl, bne_self_eq_false, List.length_nil]
    omega
  | cons b body ih =>
    obtain ⟨hb, hbody⟩ := List.forall_mem_cons.mp h
    have hne : (b != byte '\n') = true := by simpa using hb
    rw [List.cons_append, triviaLength, if_pos rfl, hne, ih hbody, List.length_cons]
    omega

/-- White space and comments are skipped as far as they go. -/
theorem triviaLength_append {lead : Text} (h : IsTrivia lead) (t : Text) :
    triviaLength false (lead ++ t) = lead.length + triviaLength false t := by
  induction h with
  | nil => simp
  | space hb _ ih =>
    rw [List.cons_append, triviaLength, if_neg Bool.false_ne_true, if_pos hb, ih, List.length_cons]
    omega
  | @comment body rest hbody _ ih =>
    have hslash : isSpace (byte '/') = false := rfl
    have hbang : (byte '/' != byte '\n') = true := rfl
    rw [List.cons_append, List.cons_append, List.append_assoc, List.cons_append, triviaLength,
      if_neg Bool.false_ne_true, if_neg (by rw [hslash]; exact Bool.false_ne_true),
      if_pos ⟨rfl, rfl⟩, triviaLength, if_pos rfl, hbang, List.cons_append, triviaLength_comment hbody, ih]
    simp
    omega

/-! ### Words laid out -/

/-- The text has the words `ws` in their order and gaps between them. -/
inductive Laid : List Text → Text → Prop
  | done : Laid [] []
  | last (w : Text) : Laid [w] w
  | word (w : Text) {gap rest : Text} {ws : List Text} :
      IsGap gap → Laid ws rest → Laid (w :: ws) (w ++ gap ++ rest)

/-- Words joined with a gap are laid out. -/
theorem laid_join {gap : Text} (hgap : IsGap gap) (ws : List Text) : Laid ws (Text.join gap ws) := by
  induction ws with
  | nil => exact .done
  | cons w ws ih =>
    cases ws with
    | nil => exact .last w
    | cons v ws => exact .word w hgap ih

theorem ofWord_ne_endOfInput (word : Text) : Lexeme.ofWord word ≠ .endOfInput := by
  unfold Lexeme.ofWord
  split <;> exact nofun

theorem number_ne_endOfInput (t : Text) : (number t).1 ≠ .ok .endOfInput := by
  unfold number
  simp only
  split
  · unfold intOf
    simp only
    split <;> exact nofun
  · unfold floatOf
    split <;> exact nofun

/-- Only the end of the text is read as the end. -/
theorem lexeme_ne_endOfInput (b : UInt8) (rest : Text) : (lexeme b rest).1 ≠ .ok .endOfInput := by
  unfold lexeme
  split
  · exact nofun
  · split
    · exact fun h => ofWord_ne_endOfInput _ (Except.ok.inj h)
    · split
      · exact number_ne_endOfInput _
      · split
        · rcases hq : quoted b rest with ⟨_ | contents, n⟩ <;> exact nofun
        · split
          · rcases hq : quoted b rest with ⟨_ | _ | ⟨c, _ | _⟩, n⟩ <;> exact nofun
          · exact nofun

theorem Spells.ne_endOfInput {w : Text} {l : Lexeme} (h : Spells w l) : l ≠ .endOfInput := by
  obtain ⟨b, r, _, hw⟩ := h
  have hlexeme := lexeme_ne_endOfInput b (r ++ [])
  rw [(hw [] trivial).2] at hlexeme
  exact fun hl => hlexeme (congrArg Except.ok hl)

theorem next_of_lexeme {c : Cursor} {b : UInt8} {rest : Text} {l : Lexeme} {n : Nat}
    (hrest : c.rest.drop (triviaLength false c.rest) = b :: rest)
    (hl : lexeme b rest = (.ok l, n)) :
    ∃ p q, next c = (.ok ⟨l, p⟩, ⟨(b :: rest).drop n, q⟩) := by
  unfold next
  simp only [Cursor.drop, hrest, hl]
  exact ⟨_, _, rfl⟩

theorem next_of_nil {c : Cursor} (hrest : c.rest.drop (triviaLength false c.rest) = []) :
    ∃ p q, next c = (.ok ⟨.endOfInput, p⟩, q) := by
  unfold next
  simp only [Cursor.drop, hrest]
  exact ⟨_, _, rfl⟩

/-- A word behind white space and comments is the next lexeme. -/
theorem next_word {lead w s : Text} {l : Lexeme} (hlead : IsTrivia lead) (hw : Spells w l)
    (hs : Breaks s) (pos : Position) :
    ∃ p q, next ⟨lead ++ (w ++ s), pos⟩ = (.ok ⟨l, p⟩, ⟨s, q⟩) := by
  obtain ⟨b, r, rfl, hw⟩ := hw
  obtain ⟨htrivia, hlexeme⟩ := hw s hs
  have hskip : (lead ++ (b :: r ++ s)).drop (triviaLength false (lead ++ (b :: r ++ s))) =
      b :: (r ++ s) := by
    rw [triviaLength_append hlead, htrivia, Nat.add_zero, List.drop_left, List.cons_append]
  have hbehind : (b :: (r ++ s)).drop (b :: r).length = s := by
    rw [← List.cons_append, List.drop_left]
  obtain ⟨p, q, hnext⟩ := next_of_lexeme (c := ⟨_, pos⟩) hskip hlexeme
  exact ⟨p, q, by rw [hnext, hbehind]⟩

theorem next_end {lead : Text} (hlead : IsTrivia lead) (pos : Position) :
    ∃ p q, next ⟨lead, pos⟩ = (.ok ⟨.endOfInput, p⟩, q) := by
  have hlength := triviaLength_append hlead []
  rw [List.append_nil] at hlength
  apply next_of_nil
  rw [hlength, triviaLength, Nat.add_zero, List.drop_length]

theorem tokens_of_next {c c' : Cursor} {t : Token} (h : next c = (.ok t, c'))
    (ht : t.lexeme ≠ .endOfInput) :
    tokens c = (tokens c').map fun r => (t :: r.1, r.2) := by
  rw [tokens]
  split
  · rename_i h'
    rw [h] at h'
    cases h'
  · rename_i h'
    rw [h] at h'
    cases h'
    rw [dif_neg ht]
    rcases tokens c' with e | ⟨ts, stop⟩ <;> rfl

theorem tokens_of_next_end {c c' : Cursor} {p : Position}
    (h : next c = (.ok ⟨.endOfInput, p⟩, c')) : tokens c = .ok ([], p) := by
  rw [tokens]
  split
  · rename_i h'
    rw [h] at h'
    cases h'
  · rename_i h'
    rw [h] at h'
    cases h'
    rfl

theorem tokens_of_next_error {c c' : Cursor} {e : SyntaxError} (h : next c = (.error e, c')) :
    tokens c = .error e := by
  rw [tokens]
  split
  · rename_i h'
    rw [h] at h'
    cases h'
    rfl
  · rename_i h'
    rw [h] at h'
    cases h'

/-- Words that are laid out are read as the lexemes they spell. -/
theorem tokens_laid {ws : List Text} {t : Text} (ht : Laid ws t) {ls : List Lexeme}
    (hws : List.Forall₂ Spells ws ls) {lead : Text} (hlead : IsTrivia lead) (pos : Position) :
    ∃ ts stop, tokens ⟨lead ++ t, pos⟩ = .ok (ts, stop) ∧ ts.map Token.lexeme = ls := by
  induction ht generalizing ls lead pos with
  | done =>
    cases hws
    rw [List.append_nil]
    obtain ⟨p, q, hnext⟩ := next_end hlead pos
    exact ⟨[], p, tokens_of_next_end hnext, rfl⟩
  | last w =>
    cases hws with
    | cons hw hnil =>
      cases hnil
      obtain ⟨p, q, hnext⟩ := next_word hlead hw (s := []) trivial pos
      rw [List.append_nil] at hnext
      obtain ⟨p', q', hend⟩ := next_end .nil q
      rw [tokens_of_next hnext hw.ne_endOfInput, tokens_of_next_end hend]
      exact ⟨_, _, rfl, rfl⟩
  | @word w gap rest ws hgap _ ih =>
    cases hws with
    | cons hw hws =>
      obtain ⟨p, q, hnext⟩ := next_word hlead hw (hgap.breaks rest) pos
      obtain ⟨ts, stop, hts, hls⟩ := ih hws hgap.isTrivia q
      rw [List.append_assoc, tokens_of_next hnext hw.ne_endOfInput, hts]
      exact ⟨_, _, rfl, by rw [List.map_cons, hls]⟩

/-! ### The words of a source text -/

/-- The bytes of the lexemes of a text, up to the first malformed one. -/
def spans (t : Text) : List Text :=
  match _h : t.drop (triviaLength false t) with
  | [] => []
  | b :: rest =>
    match _hl : lexeme b rest with
    | (.ok _, n) => (b :: rest).take n :: spans ((b :: rest).drop n)
    | (.error _, _) => []
termination_by t.length
decreasing_by
  have hn := lexeme_length_pos _hl
  have hlength := congrArg List.length _h
  rw [List.length_drop, List.length_cons] at hlength
  rw [List.length_drop, List.length_cons]
  omega

/-- The words of a text spell its lexemes. -/
theorem spells_spans (c : Cursor) {ts : List Token} {stop : Position}
    (h : tokens c = .ok (ts, stop)) :
    List.Forall₂ Spells (spans c.rest) (ts.map Token.lexeme) := by
  rw [spans]
  split
  · rename_i hrest
    obtain ⟨p, q, hnext⟩ := next_of_nil hrest
    rw [tokens_of_next_end hnext] at h
    cases h
    exact .nil
  · rename_i b rest hrest
    split
    · rename_i l n hl
      obtain ⟨p, q, hnext⟩ := next_of_lexeme hrest hl
      obtain ⟨w, ⟨s, hws⟩, rfl, hw⟩ := exists_spells hl
      have hlt : rest.length + 1 - w.length < c.rest.length := by
        simpa using length_rest_next hnext hw.ne_endOfInput
      rw [tokens_of_next hnext hw.ne_endOfInput] at h
      rcases htail : tokens ⟨(b :: rest).drop w.length, q⟩ with e | ⟨ts', stop'⟩
      · rw [htail] at h
        cases h
      · rw [htail] at h
        cases h
        refine .cons ?_ (spells_spans ⟨_, q⟩ htail)
        rw [← hws, List.take_left]
        exact hw
    · rename_i cause n hl
      exfalso
      rw [tokens] at h
      split at h
      · cases h
      · rename_i t c' hnext
        unfold next at hnext
        simp only [Cursor.drop, hrest, hl] at hnext
        cases hnext
termination_by c.rest.length

end Augite.Lexer

namespace Augite

/-- The error without its position. -/
def CompileError.unplaced (e : CompileError) : CompileError := e.move fun _ => .none

namespace Feed

/-- Feeds of the same lexemes differ in positions only. -/
theorem move_eq_of_lexemes {ts ts' : List Token} (h : ts'.map Token.lexeme = ts.map Token.lexeme)
    (stop stop' : Position) (included : List Library) :
    move (fun _ => .none) ⟨ts', stop', included⟩ = move (fun _ => .none) ⟨ts, stop, included⟩ := by
  have hmap (us : List Token) : us.map (Token.move fun _ => .none) =
      (us.map Token.lexeme).map fun l => ⟨l, .none⟩ := by
    rw [List.map_map]
    rfl
  simp only [move, hmap, h]

end Feed

theorem compileSource_fst (source : Text) :
    (compileSource source).1 = match Program.parse 0 source with
      | .error e => .error (.grammar e)
      | .ok p => p.compile.1 := by
  unfold compileSource
  rcases Program.parse 0 source with e | p <;> rfl

theorem Program.parse_of_tokens {src : Text} {ts : List Token} {stop : Position}
    (h : Lexer.tokenize src = .ok (ts, stop)) (key : Nat) :
    Program.parse key src = (Parse.items ⟨ts, stop, []⟩).1.map fun body =>
      { key, mark := .at_ (Feed.cur ⟨ts, stop, []⟩).pos, body } := by
  unfold Program.parse Feed.ofSource
  rw [h]
  simp only [Except.map, bind, Except.bind]
  rcases (Parse.items ⟨ts, stop, []⟩).1 with e | body <;> rfl

/-- Sources with the same lexemes hold the same program, or fail alike, up to positions. -/
theorem Program.parse_of_lexemes {src src' : Text} {ts ts' : List Token} {stop stop' : Position}
    (h : Lexer.tokenize src = .ok (ts, stop)) (h' : Lexer.tokenize src' = .ok (ts', stop'))
    (hls : ts'.map Token.lexeme = ts.map Token.lexeme) (key : Nat) :
    match Program.parse key src, Program.parse key src' with
    | .ok p, .ok p' => Node.stripAll (fun _ => .none) p'.body = Node.stripAll (fun _ => .none) p.body
    | .error e, .error e' => e'.move (fun _ => .none) = e.move (fun _ => .none)
    | _, _ => False := by
  have hitems := Parse.items_move (fun _ => .none) ⟨ts, stop, []⟩
  have hitems' := Parse.items_move (fun _ => .none) ⟨ts', stop', []⟩
  rw [Feed.move_eq_of_lexemes hls stop stop', hitems] at hitems'
  rw [Program.parse_of_tokens h, Program.parse_of_tokens h']
  generalize (Parse.items ⟨ts, stop, []⟩).1 = r at hitems' ⊢
  generalize (Parse.items ⟨ts', stop', []⟩).1 = r' at hitems' ⊢
  rcases r with e | body <;> rcases r' with e' | body'
  · exact (Except.error.inj hitems').symm
  · cases hitems'
  · cases hitems'
  · exact (Except.ok.inj hitems').symm

/-- A source text that is laid out again, from its first word on with any gaps between its
words, has the same lexemes, and compiles to the same module or with the same error at
another position. -/
theorem compileSource_laid {src body lead : Text} {ts : List Token} {stop : Position}
    (hsrc : Lexer.tokenize src = .ok (ts, stop)) (hlead : Lexer.IsTrivia lead)
    (hbody : Lexer.Laid (Lexer.spans src) body) :
    (∃ ts' stop', Lexer.tokenize (lead ++ body) = .ok (ts', stop') ∧
        ts'.map Token.lexeme = ts.map Token.lexeme) ∧
      (compileSource (lead ++ body)).1.mapError CompileError.unplaced =
        (compileSource src).1.mapError CompileError.unplaced := by
  obtain ⟨ts', stop', hts', hls⟩ :=
    Lexer.tokens_laid hbody (Lexer.spells_spans (.ofSource src) hsrc) hlead .start
  refine ⟨⟨ts', stop', hts', hls⟩, ?_⟩
  have hparse := Program.parse_of_lexemes hsrc hts' hls 0
  rw [compileSource_fst, compileSource_fst]
  rcases hp : Program.parse 0 src with e | p <;>
    rcases hp' : Program.parse 0 (lead ++ body) with e' | p' <;> rw [hp, hp'] at hparse
  · exact congrArg (fun e => Except.error (CompileError.grammar e)) hparse
  · exact hparse.elim
  · exact hparse.elim
  · have hplain := Node.allPlain_of_isItem (Program.parse_isItem hp)
    have hplain' := Node.allPlain_of_isItem (Program.parse_isItem hp')
    exact Program.compile_eq_of_stripAll_eq rfl hplain' hplain hparse

/-- A program without any space but one comment. -/
def halved : Text := "x:int=9;//odd\nprint(x/2);"

/-- The words of the program with a comment before each of them. -/
def halvedLaid : Text := Text.join " //next\n" (Lexer.spans halved)

theorem halved_compile_laid :
    (Lexer.tokenize halved).isOk = true ∧
      (compileSource ("//first\n" ++ halvedLaid)).1.mapError CompileError.unplaced =
        (compileSource halved).1.mapError CompileError.unplaced := by
  have htokens : (Lexer.tokenize halved).isOk = true := by decide +kernel
  have hgap : Lexer.IsGap " //next\n" := ⟨rfl, .comment "next" (by decide +kernel) .nil⟩
  have hlead : Lexer.IsTrivia "//first\n" := .comment "first" (by decide +kernel) .nil
  rcases hsrc : Lexer.tokenize halved with e | ⟨ts, stop⟩
  · rw [hsrc] at htokens
    cases htokens
  · exact ⟨rfl, (compileSource_laid hsrc hlead (Lexer.laid_join hgap _)).2⟩

end Augite
