import Augite.Proofs.Layout

/-!
# Where tokens stand

The tokens of a source text have spans that tile it: between them, before the first one and
behind the last one there is nothing but white space and comments. The position of a token is
that of the first byte of its span, and the bytes of the span alone are read as the token. A
malformed lexeme is met behind such a tiling, and its error stands at its first byte.
-/

namespace Augite

/-- The bytes of a text from an offset up to another one. -/
def Text.slice (t : Text) (i j : Nat) : Text := (t.drop i).take (j - i)

theorem Text.slice_append (pre lead rest : Text) :
    Text.slice (pre ++ (lead ++ rest)) pre.length (pre.length + lead.length) = lead := by
  rw [slice, List.drop_left, Nat.add_sub_cancel_left, List.take_left]

namespace Position

/-- The position of the byte at an offset: newlines before it, and bytes since the last one. -/
def ofOffset (t : Text) (i : Nat) : Position where
  line := 1 + (t.take i).count (byte '\n')
  col := 1 + ((t.take i).reverse.takeWhile (· != byte '\n')).length

theorem across_start (t : Text) :
    start.across t =
      ⟨1 + t.count (byte '\n'), 1 + (t.reverse.takeWhile (· != byte '\n')).length⟩ := by
  induction t using List.reverseRecOn with
  | nil => rfl
  | append_singleton t b ih =>
    rw [across_append, ih, across_cons, across_nil, after]
    split
    · rename_i hb
      simp [hb, Int.add_assoc]
    · rename_i hb
      simp [hb, Int.add_comm]

theorem ofOffset_append (pre rest : Text) : ofOffset (pre ++ rest) pre.length = start.across pre := by
  rw [across_start, ofOffset, List.take_left]

theorem ofOffset_ne_none (t : Text) (i : Nat) : ofOffset t i ≠ .none := by
  intro h
  have hline : (1 : Int) + (t.take i).count (byte '\n') = 0 := congrArg Position.line h
  omega

end Position

namespace Lexer

/-! ### White space and comments -/

/-- Neither white space nor a comment starts here. -/
def StartsLexeme (b : UInt8) (rest : Text) : Prop :=
  isSpace b = false ∧ ¬(b = byte '/' ∧ rest.head? = some (byte '/'))

/-- White space and comments, the last of which the end of the source may close. -/
def IsFinalTrivia (t : Text) : Prop :=
  ∃ lead tail, t = lead ++ tail ∧ IsTrivia lead ∧
    (tail = [] ∨ ∃ body, tail = byte '/' :: byte '/' :: body ∧ byte '\n' ∉ body)

/-- A comment goes up to the next newline or to the end of the text. -/
theorem triviaLength_inComment (t : Text) :
    (∃ body rest, t = body ++ byte '\n' :: rest ∧ (∀ b ∈ body, b ≠ byte '\n')) ∨
      byte '\n' ∉ t ∧ triviaLength true t = t.length := by
  induction t with
  | nil => exact .inr ⟨List.not_mem_nil, rfl⟩
  | cons b t ih =>
    by_cases hb : b = byte '\n'
    · exact .inl ⟨[], t, by rw [hb]; rfl, nofun⟩
    · rcases ih with ⟨body, rest, rfl, hbody⟩ | ⟨hmem, hlength⟩
      · exact .inl ⟨b :: body, rest, rfl, List.forall_mem_cons.mpr ⟨hb, hbody⟩⟩
      · refine .inr ⟨by simp [Ne.symm hb, hmem], ?_⟩
        have hne : (b != byte '\n') = true := by simpa using hb
        rw [triviaLength, if_pos rfl, hne, hlength, List.length_cons]

/-- What is skipped is white space and comments, up to a lexeme or to the end of the text. -/
theorem triviaLength_cases (t : Text) :
    (∃ lead b rest, t = lead ++ b :: rest ∧ IsTrivia lead ∧ StartsLexeme b rest ∧
        triviaLength false t = lead.length) ∨
      IsFinalTrivia t ∧ triviaLength false t = t.length := by
  match t with
  | [] => exact .inr ⟨⟨[], [], rfl, .nil, .inl rfl⟩, rfl⟩
  | b :: t =>
    by_cases hspace : isSpace b = true
    · have hstep : triviaLength false (b :: t) = triviaLength false t + 1 := by
        rw [triviaLength, if_neg Bool.false_ne_true, if_pos hspace]
      rcases triviaLength_cases t with ⟨lead, c, rest, rfl, hlead, hc, hlength⟩ |
        ⟨⟨lead, tail, rfl, hlead, htail⟩, hlength⟩
      · exact .inl ⟨b :: lead, c, rest, rfl, .space hspace hlead, hc, by rw [hstep, hlength]; rfl⟩
      · exact .inr ⟨⟨b :: lead, tail, rfl, .space hspace hlead, htail⟩, by rw [hstep, hlength]; rfl⟩
    by_cases hcomment : b = byte '/' ∧ t.head? = some (byte '/')
    · obtain ⟨rfl, hhead⟩ := hcomment
      obtain ⟨u, hu⟩ : ∃ u, t = byte '/' :: u := by
        cases t with
        | nil => cases hhead
        | cons c u => exact ⟨u, by rw [Option.some.inj hhead]⟩
      rcases triviaLength_inComment u with ⟨body, rest, hrest, hbody⟩ | ⟨hmem, hlength⟩
      · have hlt : rest.length < t.length := by
          rw [hu, hrest]
          simp
          omega
        rw [hu, hrest]
        have hlead := IsTrivia.comment body hbody .nil
        have hstep := triviaLength_append hlead rest
        have htext : byte '/' :: byte '/' :: body ++ [byte '\n'] ++ rest =
            byte '/' :: byte '/' :: (body ++ byte '\n' :: rest) := by simp
        rw [htext] at hstep
        rcases triviaLength_cases rest with ⟨lead, c, rest, rfl, hrest, hc, hlength⟩ |
          ⟨⟨lead, tail, rfl, hrest, htail⟩, hlength⟩
        · refine .inl ⟨byte '/' :: byte '/' :: body ++ byte '\n' :: lead, c, rest, by simp,
            .comment body hbody hrest, hc, ?_⟩
          rw [hstep, hlength]
          simp
          omega
        · refine .inr ⟨⟨byte '/' :: byte '/' :: body ++ byte '\n' :: lead, tail, by simp,
            .comment body hbody hrest, htail⟩, ?_⟩
          rw [hstep, hlength]
          simp
          omega
      · rw [hu]
        refine .inr ⟨⟨[], _, rfl, .nil, .inr ⟨u, rfl, hmem⟩⟩, ?_⟩
        have hslash : (byte '/' != byte '\n') = true := rfl
        rw [triviaLength, if_neg Bool.false_ne_true, if_neg hspace, if_pos ⟨rfl, rfl⟩, triviaLength,
          if_pos rfl, hslash, hlength]
        rfl
    · refine .inl ⟨[], b, t, rfl, .nil, ⟨by simpa using hspace, hcomment⟩, ?_⟩
      rw [triviaLength, if_neg Bool.false_ne_true, if_neg hspace, if_neg hcomment]
      rfl
termination_by t.length
decreasing_by all_goals simp only [List.length_cons]; omega

/-! ### One step -/

theorem next_of_final {t : Text} (ht : triviaLength false t = t.length) (p : Position) :
    next ⟨t, p⟩ = (.ok ⟨.endOfInput, p.across t⟩, ⟨[], p.across t⟩) := by
  unfold next
  simp only [Cursor.drop, ht, List.drop_length, List.take_length]

theorem next_of_lead {lead rest : Text} {b : UInt8} {p : Position}
    (h : triviaLength false (lead ++ b :: rest) = lead.length) :
    next ⟨lead ++ b :: rest, p⟩ = match lexeme b rest with
      | (.ok l, n) => (.ok ⟨l, p.across lead⟩,
          ⟨(b :: rest).drop n, (p.across lead).across ((b :: rest).take n)⟩)
      | (.error cause, n) => (.error ⟨p.across lead, cause⟩,
          ⟨(b :: rest).drop n, (p.across lead).across ((b :: rest).take n)⟩) := by
  rcases hl : lexeme b rest with ⟨_ | _, n⟩ <;>
    simp only [next, Cursor.drop, h, List.drop_left, List.take_left, hl]

theorem triviaLength_of_startsLexeme {b : UInt8} {rest : Text} (h : StartsLexeme b rest) :
    triviaLength false (b :: rest) = 0 := by
  rw [triviaLength, if_neg Bool.false_ne_true, if_neg (by rw [h.1]; exact Bool.false_ne_true),
    if_neg h.2]

/-- A text that spells a lexeme is a source text with that token alone. -/
theorem Spells.tokenize {w : Text} {l : Lexeme} (h : Spells w l) :
    ∃ stop, tokenize w = .ok ([⟨l, .start⟩], stop) := by
  have hne := h.ne_endOfInput
  obtain ⟨b, r, rfl, hw⟩ := h
  obtain ⟨htrivia, hlexeme⟩ := hw [] trivial
  rw [List.append_nil] at htrivia hlexeme
  have hnext := @next_of_lead [] _ _ .start htrivia
  rw [List.nil_append, hlexeme] at hnext
  simp only [List.drop_length, List.take_length, Position.across_nil] at hnext
  refine ⟨Position.start.across (b :: r), ?_⟩
  rw [Lexer.tokenize, Cursor.ofSource, tokens_of_next hnext hne, tokens_of_next_end (next_of_final rfl _)]
  rfl

/-! ### Spans -/

/-- The offsets of a token's first byte and of the byte behind it. -/
structure Span where
  start : Nat
  stop : Nat

/-- The spans lead from an offset to another one, with white space and comments before each. -/
def Tiles (src : Text) : Nat → List Span → Nat → Prop
  | i, [], k => i = k
  | i, s :: rest, k =>
    i ≤ s.start ∧ IsTrivia (src.slice i s.start) ∧ s.start < s.stop ∧ s.stop ≤ src.length ∧
      Tiles src s.stop rest k

/-- The token stands at the span, whose bytes are read as the token alone. -/
structure StandsAt (src : Text) (s : Span) (tok : Token) : Prop where
  pos : tok.pos = .ofOffset src s.start
  alone : ∃ stop, tokenize (src.slice s.start s.stop) = .ok ([⟨tok.lexeme, .start⟩], stop)

/-- The lexeme at the offset is malformed, as the error says. -/
structure MalformedAt (src : Text) (i : Nat) (e : SyntaxError) : Prop where
  pos : e.pos = .ofOffset src i
  lexeme : ∃ b rest, src.drop i = b :: rest ∧ StartsLexeme b rest ∧
    tokenize (b :: rest) = .error ⟨.start, e.cause⟩

/-- The tokens have spans that tile the source up to the offset `k`. -/
def TiledTo (src : Text) (i k : Nat) (ts : List Token) : Prop :=
  ∃ spans, Tiles src i spans k ∧ List.Forall₂ (StandsAt src) spans ts

theorem TiledTo.cons {pre lead w rest : Text} {l : Lexeme} {k : Nat} {ts : List Token}
    (hlead : IsTrivia lead) (hw : Spells w l)
    (hrest : TiledTo (pre ++ (lead ++ (w ++ rest))) (pre ++ lead ++ w).length k ts) :
    TiledTo (pre ++ (lead ++ (w ++ rest))) pre.length k
      (⟨l, Position.start.across (pre ++ lead)⟩ :: ts) := by
  have hnonempty : 0 < w.length := by
    obtain ⟨b, r, rfl, _⟩ := hw
    exact Nat.succ_pos _
  obtain ⟨spans, htiles, hstand⟩ := hrest
  refine ⟨⟨(pre ++ lead).length, (pre ++ lead ++ w).length⟩ :: spans, ⟨?_, ?_, ?_, ?_, htiles⟩,
    .cons ⟨?_, ?_⟩ hstand⟩
  · simp
  · rw [List.length_append, Text.slice_append]
    exact hlead
  · simpa using hnonempty
  · simp
  · rw [← List.append_assoc, Position.ofOffset_append]
  · rw [← List.append_assoc, @List.length_append _ (pre ++ lead), Text.slice_append]
    exact hw.tokenize

/-- Reading on from an offset of the source: the tokens tile it to its end, or up to a
malformed lexeme. -/
theorem tokens_tiled (pre : Text) (t : Text) :
    match tokens ⟨t, Position.start.across pre⟩ with
    | .ok (ts, stop) => ∃ k, TiledTo (pre ++ t) pre.length k ts ∧
        IsFinalTrivia ((pre ++ t).drop k) ∧ stop = .ofOffset (pre ++ t) (pre ++ t).length
    | .error e => ∃ ts k i, TiledTo (pre ++ t) pre.length k ts ∧ k ≤ i ∧
        IsTrivia ((pre ++ t).slice k i) ∧ MalformedAt (pre ++ t) i e := by
  rcases triviaLength_cases t with ⟨lead, b, rest, rfl, hlead, hb, hlength⟩ | ⟨hfinal, hlength⟩
  · have hnext := next_of_lead (p := Position.start.across pre) hlength
    rcases hl : lexeme b rest with ⟨cause | l, n⟩ <;> rw [hl] at hnext <;> simp only at hnext
    · rw [tokens_of_next_error hnext]
      refine ⟨[], pre.length, (pre ++ lead).length, ⟨[], rfl, .nil⟩, by simp, ?_, ?_, b, rest, ?_, hb, ?_⟩
      · rw [List.length_append, Text.slice_append]
        exact hlead
      · rw [← List.append_assoc, Position.ofOffset_append, Position.across_append]
      · rw [← List.append_assoc, List.drop_left]
      · have hfirst := @next_of_lead [] _ _ .start (triviaLength_of_startsLexeme hb)
        rw [List.nil_append, hl] at hfirst
        rw [tokenize, Cursor.ofSource, tokens_of_next_error hfirst]
        rfl
    · obtain ⟨w, ⟨behind, hw⟩, rfl, hspells⟩ := exists_spells hl
      have hshort : behind.length < (lead ++ b :: rest).length := by
        have hlong : 0 < w.length := lexeme_length_pos hl
        have htotal := congrArg List.length hw
        simp only [List.length_append] at htotal ⊢
        omega
      rw [← hw, List.drop_left, List.take_left, ← Position.across_append,
        ← Position.across_append] at hnext
      have ih := tokens_tiled (pre ++ lead ++ w) behind
      have hsource : pre ++ lead ++ w ++ behind = pre ++ (lead ++ (w ++ behind)) := by simp
      rw [hsource] at ih
      rw [← hw, tokens_of_next hnext hspells.ne_endOfInput]
      rcases htail : tokens ⟨behind, Position.start.across (pre ++ lead ++ w)⟩ with e | ⟨ts, stop⟩ <;>
        rw [htail] at ih
      · obtain ⟨ts, k, i, htiled, hki, hgap, hbad⟩ := ih
        exact ⟨_, k, i, .cons hlead hspells htiled, hki, hgap, hbad⟩
      · obtain ⟨k, htiled, hend, hstop⟩ := ih
        exact ⟨k, .cons hlead hspells htiled, hend, hstop⟩
  · rw [tokens_of_next_end (next_of_final hlength _)]
    refine ⟨pre.length, ⟨[], rfl, .nil⟩, ?_, ?_⟩
    · rwa [List.drop_left]
    · have hall := Position.ofOffset_append (pre ++ t) []
      rw [List.append_nil] at hall
      rw [hall, Position.across_append]
termination_by t.length

/-- A source text is tiled by tokens to its end, or up to a malformed lexeme. -/
theorem tokenize_tiled (src : Text) :
    match tokenize src with
    | .ok (ts, stop) => ∃ k, TiledTo src 0 k ts ∧ IsFinalTrivia (src.drop k) ∧
        stop = .ofOffset src src.length
    | .error e => ∃ ts k i, TiledTo src 0 k ts ∧ k ≤ i ∧ IsTrivia (src.slice k i) ∧
        MalformedAt src i e :=
  tokens_tiled [] src

theorem map_pos_of_standsAt {src : Text} {spans : List Span} {ts : List Token}
    (h : List.Forall₂ (StandsAt src) spans ts) :
    ts.map Token.pos = (spans.map Span.start).map (Position.ofOffset src) := by
  induction h with
  | nil => rfl
  | cons hs _ ih => rw [List.map_cons, List.map_cons, List.map_cons, hs.pos, ih]

/-- The tokens of a source text have spans with white space and comments around them. Each
token stands at the first byte of its span and is read from the span alone; the end stands
behind the last byte. -/
theorem tokenize_tiles {src : Text} {ts : List Token} {stop : Position}
    (h : tokenize src = .ok (ts, stop)) :
    ∃ spans k, Tiles src 0 spans k ∧ List.Forall₂ (StandsAt src) spans ts ∧
      IsFinalTrivia (src.drop k) ∧ stop = .ofOffset src src.length := by
  have htiled := tokenize_tiled src
  rw [h] at htiled
  obtain ⟨k, ⟨spans, htiles, hstand⟩, hend, hstop⟩ := htiled
  exact ⟨spans, k, htiles, hstand, hend, hstop⟩

/-- Numbers and operators without space, a comment, an escape, and a comment at the end. -/
def noted : Text := "a<=1.5//x\n\t\"\\n\" // end"

theorem noted_tiles :
    ∃ ts stop, tokenize noted = .ok (ts, stop) ∧ ts.length = 4 ∧
      ∃ spans k, Tiles noted 0 spans k ∧ List.Forall₂ (StandsAt noted) spans ts ∧
        IsFinalTrivia (noted.drop k) ∧ stop = .ofOffset noted noted.length := by
  have htokens : (tokenize noted).map (·.1.length) = .ok 4 := by decide +kernel
  rcases h : tokenize noted with e | ⟨ts, stop⟩ <;> rw [h] at htokens
  · cases htokens
  · exact ⟨ts, stop, rfl, Except.ok.inj htokens, tokenize_tiles h⟩

end Lexer

end Augite
