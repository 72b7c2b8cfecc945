import Augite.Document.TestCase
import Augite.Proofs.Layout

/-!
# Newlines at the end of a source text

A source text compiles alike with and without the newlines at its end, except where the
first of them stands behind a backslash inside an open literal. Where the text ends counts
for the position of an error only.
-/

namespace Augite

namespace Lexer

section

variable {nl : Text} (hnl : ∀ b ∈ nl, b = byte '\n')

include hnl

/-! ### Scanning -/

theorem takeWhile_append_lines {p : UInt8 → Bool} (hp : p (byte '\n') = false) (t : Text) :
    (t ++ nl).takeWhile p = t.takeWhile p := by
  induction t with
  | nil =>
    cases nl with
    | nil => rfl
    | cons b r =>
      obtain rfl := hnl b List.mem_cons_self
      exact List.takeWhile_cons_of_neg (by simp [hp])
  | cons b t ih => simp only [List.cons_append, List.takeWhile_cons, ih]

theorem dropWhile_append_lines {p : UInt8 → Bool} (hp : p (byte '\n') = false) (t : Text) :
    (t ++ nl).dropWhile p = t.dropWhile p ++ nl := by
  induction t with
  | nil =>
    cases nl with
    | nil => rfl
    | cons b r =>
      obtain rfl := hnl b List.mem_cons_self
      exact List.dropWhile_cons_of_neg (by simp [hp])
  | cons b t ih =>
    simp only [List.cons_append, List.dropWhile_cons, ih]
    split <;> rfl

theorem isPrefixOf_append_lines {w : Text} (hw : byte '\n' ∉ w) (t : Text) :
    w.isPrefixOf (t ++ nl) = w.isPrefixOf t := by
  induction w generalizing t with
  | nil => rfl
  | cons c w ih =>
    obtain ⟨hc, hw⟩ := not_or.mp (mt List.mem_cons.mpr hw)
    cases t with
    | nil =>
      cases nl with
      | nil => rfl
      | cons b r =>
        obtain rfl := hnl b List.mem_cons_self
        simp [List.isPrefixOf, Ne.symm hc]
    | cons b t => simp only [List.cons_append, List.isPrefixOf, ih hw]

theorem ofPrefix?_append_lines (t : Text) : Symbol.ofPrefix? (t ++ nl) = Symbol.ofPrefix? t := by
  have hall : ∀ x ∈ Symbol.all, byte '\n' ∉ x.spelling := by decide
  unfold Symbol.ofPrefix?
  apply List.find?_congr
  intro x hx
  exact isPrefixOf_append_lines hnl (hall x hx) t

theorem triviaLength_lines (inComment : Bool) : triviaLength inComment nl = nl.length := by
  induction nl generalizing inComment with
  | nil => rfl
  | cons b r ih =>
    obtain ⟨rfl, hr⟩ := List.forall_mem_cons.mp hnl
    cases inComment with
    | true => exact congrArg (· + 1) (ih hr _)
    | false => exact congrArg (· + 1) (ih hr _)

omit hnl in
theorem triviaLength_le (inComment : Bool) (t : Text) :
    triviaLength inComment t ≤ t.length := by
  induction t generalizing inComment with
  | nil => rfl
  | cons b t ih =>
    have := ih true
    have := ih false
    have := ih (b != byte '\n')
    rw [triviaLength, List.length_cons]
    split
    · omega
    · split
      · omega
      · split <;> omega

/-- White space and comments go on into the newlines only if there is nothing behind them. -/
theorem triviaLength_append_lines (inComment : Bool) (t : Text) :
    triviaLength inComment (t ++ nl) =
      if triviaLength inComment t = t.length then (t ++ nl).length else triviaLength inComment t := by
  induction t generalizing inComment with
  | nil => exact triviaLength_lines hnl inComment
  | cons b t ih =>
    have hstep : ∀ c, triviaLength c (t ++ nl) + 1 =
        if triviaLength c t + 1 = (b :: t).length then (b :: t ++ nl).length
        else triviaLength c t + 1 := by
      intro c
      rw [ih c]
      simp only [List.length_cons, List.cons_append, Nat.add_right_cancel_iff]
      split <;> rfl
    have hslash : (t ++ nl).head? = some (byte '/') ↔ t.head? = some (byte '/') := by
      cases t with
      | nil =>
        cases nl with
        | nil => rfl
        | cons c r =>
          obtain rfl := hnl c List.mem_cons_self
          simp
          decide
      | cons c t => rfl
    rw [List.cons_append, triviaLength, triviaLength]
    by_cases hc : inComment = true
    · simp only [hc, if_true]
      exact hstep _
    by_cases hs : isSpace b = true
    · simp only [hc, hs, if_true]
      exact hstep _
    by_cases hb : b = byte '/' ∧ t.head? = some (byte '/')
    · simp only [hc, hs, hslash, if_pos hb]
      exact hstep _
    · simp only [hc, hs, hslash, if_neg hb, List.length_cons]
      rfl

/-! ### Lexemes -/

theorem fraction_append_lines (t : Text) : fraction (t ++ nl) = fraction t := by
  match t with
  | [] =>
    match nl with
    | [] => rfl
    | [b] => rfl
    | b :: c :: r =>
      obtain rfl := hnl b List.mem_cons_self
      rfl
  | [point] =>
    match nl with
    | [] => rfl
    | b :: r =>
      obtain rfl := hnl b List.mem_cons_self
      exact if_neg fun h => absurd h.2 (by decide)
  | point :: d :: t =>
    have hdigits := takeWhile_append_lines hnl (p := Text.isDigit) rfl (d :: t)
    rw [List.cons_append] at hdigits
    simp only [List.cons_append, fraction, hdigits]

theorem number_append_lines (t : Text) : number (t ++ nl) = number t := by
  simp only [number, takeWhile_append_lines hnl (p := Text.isDigit) rfl,
    dropWhile_append_lines hnl (p := Text.isDigit) rfl, fraction_append_lines hnl]

omit hnl in
theorem quoted_newline (mark : UInt8) (s : Text) :
    quoted mark (byte '\n' :: s) = (.error .unterminatedLiteral, 0) := by
  rw [quoted.eq_def]
  rfl

omit hnl in
theorem quoted_bad_escape {mark e : UInt8} (hmark : mark ≠ byte '\\') (hv : escape? e = none)
    (s : Text) : quoted mark (byte '\\' :: e :: s) = (.error (.invalidEscape e), 2) := by
  have hline : byte '\\' ≠ byte '\n' := by decide
  rw [quoted, if_neg hline, if_neg (Ne.symm hmark), if_pos rfl, hv]

omit hnl in
theorem quoted_behind_escape {mark e v : UInt8} (hmark : mark ≠ byte '\\')
    (hv : escape? e = some v) (s : Text) :
    quoted mark (byte '\\' :: e :: s) =
      ((quoted mark s).1.map (v :: ·), (quoted mark s).2 + 2) := by
  have hline : byte '\\' ≠ byte '\n' := by decide
  rw [quoted, if_neg hline, if_neg (Ne.symm hmark), if_pos rfl, hv]

omit hnl in
theorem quoted_behind {mark b : UInt8} (hline : b ≠ byte '\n') (hmark : b ≠ mark)
    (hslash : b ≠ byte '\\') (s : Text) :
    quoted mark (b :: s) = ((quoted mark s).1.map (b :: ·), (quoted mark s).2 + 1) := by
  rw [quoted.eq_def]
  simp only [hline, hmark, hslash, if_false]

/-- The newlines take part in what stands in quotes only behind a backslash at the end. -/
theorem quoted_append_lines (mark : UInt8) (t : Text) :
    quoted mark (t ++ nl) = quoted mark t ∨
      (quoted mark t).1 = .error .unterminatedLiteral ∧
        (quoted mark (t ++ nl)).1 = .error (.invalidEscape (byte '\n')) := by
  fun_induction quoted mark t with
  | case1 =>
    cases nl with
    | nil => exact .inl rfl
    | cons b r =>
      obtain rfl := hnl b List.mem_cons_self
      exact .inl (quoted_newline mark r)
  | case2 rest => exact .inl (quoted_newline mark _)
  | case3 rest hmark => exact .inl (quoted_close hmark _)
  | case4 hline hmark =>
    cases nl with
    | nil => exact .inl (by rw [List.append_nil, quoted.eq_def]; simp [hline, hmark])
    | cons b r =>
      obtain rfl := hnl b List.mem_cons_self
      exact .inr ⟨rfl, congrArg Prod.fst (quoted_bad_escape (Ne.symm hmark) rfl r)⟩
  | case5 e rest hv hline hmark => exact .inl (quoted_bad_escape (Ne.symm hmark) hv _)
  | case6 e rest v hv contents n hrest hline hmark ih =>
    rw [List.cons_append, List.cons_append, quoted_behind_escape (Ne.symm hmark) hv]
    rcases ih with ih | ⟨hold, hnew⟩
    · exact .inl (by rw [ih, hrest])
    · rw [hrest] at hold
      exact .inr ⟨congrArg (Except.map _) hold, congrArg (Except.map _) hnew⟩
  | case7 b rest hline hmark hslash contents n hrest ih =>
    rw [List.cons_append, quoted_behind hline hmark hslash]
    rcases ih with ih | ⟨hold, hnew⟩
    · exact .inl (by rw [ih, hrest])
    · rw [hrest] at hold
      exact .inr ⟨congrArg (Except.map _) hold, congrArg (Except.map _) hnew⟩

theorem lexeme_append_lines (b : UInt8) (t : Text) :
    lexeme b (t ++ nl) = lexeme b t ∨
      (lexeme b t).1 = .error .unterminatedLiteral ∧
        (lexeme b (t ++ nl)).1 = .error (.invalidEscape (byte '\n')) := by
  have hword : (b :: (t ++ nl)).takeWhile (fun c => Text.isLetter c || Text.isDigit c) =
      (b :: t).takeWhile fun c => Text.isLetter c || Text.isDigit c :=
    takeWhile_append_lines hnl rfl (b :: t)
  have hsymbol : Symbol.ofPrefix? (b :: (t ++ nl)) = Symbol.ofPrefix? (b :: t) :=
    ofPrefix?_append_lines hnl (b :: t)
  have hnumber : number (b :: (t ++ nl)) = number (b :: t) := number_append_lines hnl (b :: t)
  unfold lexeme
  rw [hsymbol, hword, hnumber]
  rcases Symbol.ofPrefix? (b :: t) with _ | x
  · simp only
    split
    · exact .inl rfl
    split
    · exact .inl rfl
    split
    · rcases quoted_append_lines hnl b t with heq | ⟨hold, hnew⟩
      · exact .inl (by rw [heq])
      · exact .inr ⟨congrArg (Except.map _) hold, congrArg (Except.map _) hnew⟩
    split
    · rcases quoted_append_lines hnl b t with heq | ⟨hold, hnew⟩
      · exact .inl (by rw [heq])
      · exact .inr ⟨congrArg (Except.bind · _) hold, congrArg (Except.bind · _) hnew⟩
    · exact .inl rfl
  · exact .inl rfl

omit hnl in
theorem fraction_length_le (t : Text) : (fraction t).length ≤ t.length := by
  match t with
  | [] | [_] => exact Nat.zero_le _
  | point :: d :: t =>
    rw [fraction]
    split
    · have := (List.takeWhile_prefix (l := d :: t) Text.isDigit).length_le
      simp only [List.length_cons] at this ⊢
      omega
    · exact Nat.zero_le _

omit hnl in
theorem lexeme_length_le {b : UInt8} {t : Text} {l : Lexeme} {n : Nat}
    (h : lexeme b t = (.ok l, n)) : n ≤ (b :: t).length := by
  unfold lexeme at h
  split at h
  · rename_i x hx
    cases h
    have hprefix : x.spelling.isPrefixOf (b :: t) = true :=
      List.find?_some (p := fun s : Symbol => s.spelling.isPrefixOf (b :: t)) hx
    exact (List.isPrefixOf_iff_prefix.mp hprefix).length_le
  split at h
  · cases h
    exact (List.takeWhile_prefix _).length_le
  split at h
  · have hsplit := congrArg List.length (List.takeWhile_append_dropWhile (p := Text.isDigit) (l := b :: t))
    have hpart := fraction_length_le ((b :: t).dropWhile Text.isDigit)
    rw [List.length_append] at hsplit
    unfold number at h
    simp only at h
    split at h
    · have := congrArg Prod.snd h
      simp only at this
      omega
    · have := congrArg Prod.snd h
      simp only at this
      omega
  split at h
  · rcases hq : quoted b t with ⟨_ | contents, k⟩ <;> rw [hq] at h <;> cases h
    have := (quoted_append hq []).1
    simp only [List.length_cons]
    omega
  split at h
  · rcases hq : quoted b t with ⟨_ | contents, k⟩ <;> rw [hq] at h
    · cases h
    · have := (quoted_append hq []).1
      have := congrArg Prod.snd h
      simp only [List.length_cons] at this ⊢
      omega
  · cases h

/-! ### Tokens -/

omit hnl in
/-- The step to what stands behind white space and comments. -/
theorem next_of_drop {c : Cursor} {b : UInt8} {rest : Text}
    (h : c.rest.drop (triviaLength false c.rest) = b :: rest) :
    next c = (((lexeme b rest).1.mapError fun cause =>
        ⟨c.pos.across (c.rest.take (triviaLength false c.rest)), cause⟩).map fun l =>
          ⟨l, c.pos.across (c.rest.take (triviaLength false c.rest))⟩,
      Cursor.drop ⟨b :: rest, c.pos.across (c.rest.take (triviaLength false c.rest))⟩
        (lexeme b rest).2) := by
  unfold next
  simp only [Cursor.drop, h]
  rcases lexeme b rest with ⟨_ | l, n⟩ <;> rfl

/-- What a text without the newlines at its end is read as: the same tokens or the same
error, unless the newlines are a part of an open literal. -/
def Agrees (o o' : Except SyntaxError (List Token × Position)) : Prop :=
  match o with
  | .ok (ts, _) => ∃ stop, o' = .ok (ts, stop)
  | .error e => o' = .error e ∨
      e.cause = .unterminatedLiteral ∧ o' = .error ⟨e.pos, .invalidEscape (byte '\n')⟩

theorem tokens_append_lines (t : Text) (pos : Position) :
    Agrees (tokens ⟨t, pos⟩) (tokens ⟨t ++ nl, pos⟩) := by
  have hk := triviaLength_append_lines hnl false t
  have hle := triviaLength_le false t
  by_cases hall : triviaLength false t = t.length
  · obtain ⟨p, q, hnext⟩ := next_of_nil (c := ⟨t, pos⟩) (by simp [hall])
    rw [if_pos hall] at hk
    obtain ⟨p', q', hnext'⟩ := next_of_nil (c := ⟨t ++ nl, pos⟩) (by rw [hk, List.drop_length])
    rw [tokens_of_next_end hnext, tokens_of_next_end hnext']
    exact ⟨p', rfl⟩
  rw [if_neg hall] at hk
  obtain ⟨b, r, hr⟩ : ∃ b r, t.drop (triviaLength false t) = b :: r :=
    List.exists_cons_of_ne_nil (by simp; omega)
  have hr' : (t ++ nl).drop (triviaLength false (t ++ nl)) = b :: (r ++ nl) := by
    rw [hk, List.drop_append_of_le_length hle, hr, List.cons_append]
  have hnext := next_of_drop (c := ⟨t, pos⟩) hr
  have hnext' := next_of_drop (c := ⟨t ++ nl, pos⟩) hr'
  simp only [hk, List.take_append_of_le_length hle] at hnext hnext'
  generalize pos.across (t.take (triviaLength false t)) = p at hnext hnext'
  rcases lexeme_append_lines hnl b r with heq | ⟨hold, hnew⟩
  · rw [heq] at hnext'
    rcases hl : lexeme b r with ⟨cause | l, n⟩ <;> rw [hl] at hnext hnext'
    · rw [tokens_of_next_error hnext, tokens_of_next_error hnext']
      exact .inl rfl
    · by_cases hend : l = .endOfInput
      · subst hend
        rw [tokens_of_next_end hnext, tokens_of_next_end hnext']
        exact ⟨_, rfl⟩
      have hpos := lexeme_length_pos hl
      have hlen := lexeme_length_le hl
      have hdrop : Cursor.drop ⟨b :: (r ++ nl), p⟩ n =
          ⟨(b :: r).drop n ++ nl, p.across ((b :: r).take n)⟩ := by
        rw [← List.cons_append, Cursor.drop, List.drop_append_of_le_length hlen,
          List.take_append_of_le_length hlen]
      have hsmaller : ((b :: r).drop n).length < t.length := by
        have := congrArg List.length hr
        simp only [List.length_drop] at this ⊢
        omega
      have ih := tokens_append_lines ((b :: r).drop n) (p.across ((b :: r).take n))
      rw [hdrop] at hnext'
      rw [tokens_of_next hnext hend, tokens_of_next hnext' hend]
      change Agrees ((tokens ⟨(b :: r).drop n, p.across ((b :: r).take n)⟩).map _) _
      generalize tokens ⟨(b :: r).drop n, p.across ((b :: r).take n)⟩ = o at ih ⊢
      rcases o with e | ⟨ts, stop⟩
      · rcases ih with ih | ⟨hcause, ih⟩
        · exact .inl (by rw [ih]; rfl)
        · exact .inr ⟨hcause, by rw [ih]; rfl⟩
      · obtain ⟨stop', ih⟩ := ih
        exact ⟨stop', by rw [ih]; rfl⟩
  · rw [hold] at hnext
    rw [hnew] at hnext'
    rw [tokens_of_next_error hnext, tokens_of_next_error hnext']
    exact .inr ⟨rfl, rfl⟩
termination_by t.length
decreasing_by exact hsmaller

end

end Lexer

/-- A text and what its end was cut off. -/
theorem Text.exists_trimEnd (p : UInt8 → Bool) (t : Text) :
    ∃ u : Text, (∀ b ∈ u, p b = true) ∧ t = Text.trimEnd p t ++ u := by
  refine ⟨(t.reverse.takeWhile p).reverse, fun b hb => ?_, ?_⟩
  · exact List.mem_takeWhile_imp (List.mem_reverse.mp hb)
  · rw [trimEnd, ← List.reverse_append, List.takeWhile_append_dropWhile, List.reverse_reverse]

/-! ### Programs -/

/-- The items that a feed holds do not depend on the position of its end. -/
theorem Parse.items_stop (ts : List Token) (stop stop' : Position) (libs : List Library) :
    match (items ⟨ts, stop, libs⟩).1 with
    | .ok ns => (items ⟨ts, stop', libs⟩).1 = .ok ns
    | .error e => ∃ e', (items ⟨ts, stop', libs⟩).1 = .error e' ∧ e'.cause = e.cause := by
  have hfeed (final : Position → Position) :
      Feed.shift id final ⟨ts, stop, libs⟩ = ⟨ts, final stop, libs⟩ := by
    simp only [Feed.shift, Feed.mk.injEq, and_true]
    exact List.map_id ts
  have hitems := items_shift id (fun _ => stop') ⟨ts, stop, libs⟩
  have hbare := items_shift id id ⟨ts, stop, libs⟩
  rw [hfeed] at hitems hbare
  rcases hr : (items ⟨ts, stop, libs⟩).1 with e | ns <;> rw [hr] at hitems hbare
  · obtain ⟨e', he', hcause, -⟩ := hitems
    exact ⟨e', he', hcause⟩
  · -- Nothing is stripped from what has just been read.
    rw [id_eq, hr] at hbare
    exact hitems.trans hbare.symm

/-- Without the newlines at its end a source text has the same items or an error with the
same cause, unless the newlines are a part of an open literal. -/
theorem Program.parse_trimNewlines (key : Nat) (source : Text) :
    (∀ q, Program.parse key source = .ok q →
      ∃ p, Program.parse key (Document.trimNewlines source) = .ok p ∧ p.body = q.body) ∧
    ∀ e, Program.parse key source = .error e →
      ∃ e', Program.parse key (Document.trimNewlines source) = .error e' ∧
        (e'.cause = e.cause ∨
          e.cause = .invalidEscape (byte '\n') ∧ e'.cause = .unterminatedLiteral) := by
  obtain ⟨nl, hnl, heq⟩ := Text.exists_trimEnd (fun b => b == byte '\n') source
  have hlines : ∀ b ∈ nl, b = byte '\n' := fun b hb => beq_iff_eq.mp (hnl b hb)
  have hagrees := Lexer.tokens_append_lines hlines (Document.trimNewlines source) .start
  change source = Document.trimNewlines source ++ nl at heq
  rw [← heq] at hagrees
  generalize Document.trimNewlines source = input at hagrees ⊢
  change Lexer.Agrees (Lexer.tokenize input) (Lexer.tokenize source) at hagrees
  rcases hinput : Lexer.tokenize input with e | ⟨ts, stop⟩ <;> rw [hinput] at hagrees
  · have herror {src : Text} {e : SyntaxError} (h : Lexer.tokenize src = .error e) :
        Program.parse key src = .error e := by
      unfold Program.parse Feed.ofSource
      rw [h]
      rfl
    rcases hagrees with hsame | ⟨hcause, hother⟩
    · rw [herror hsame, herror hinput]
      refine ⟨fun q hq => (by cases hq), fun e' he => ⟨e, rfl, .inl ?_⟩⟩
      cases he
      rfl
    · rw [herror hother, herror hinput]
      refine ⟨fun q hq => (by cases hq), fun e' he => ⟨e, rfl, .inr ?_⟩⟩
      cases he
      exact ⟨rfl, hcause⟩
  · obtain ⟨stop', hsame⟩ := hagrees
    have hitems := Parse.items_stop ts stop' stop []
    rw [Program.parse_of_tokens hsame, Program.parse_of_tokens hinput]
    rcases hr : (Parse.items ⟨ts, stop', []⟩).1 with e | ns <;> rw [hr] at hitems
    · obtain ⟨e', he', hcause⟩ := hitems
      rw [he']
      refine ⟨fun q hq => (by cases hq), fun e'' he => ⟨e', rfl, .inl ?_⟩⟩
      cases he
      exact hcause
    · rw [hitems]
      refine ⟨fun q hq => ⟨_, rfl, ?_⟩, fun e he => by cases he⟩
      cases hq
      rfl

end Augite
