import Mathlib
import Augite.Proofs.Rendering
import Augite.Proofs.Sections
import Augite.Proofs.TrailingLines

/-!
# What is stated of an error

A snapshot states the text of an error without its position. That part of the text occurs in
the text of every error with the same cause, and does not end with a newline.
-/

namespace Augite

/-! ### Characters -/

namespace Utf8

theorem encode_of_decodeAfter? {a : UInt8} {rest after : Text} {c : Nat}
    (h : decodeAfter? a rest = some (c, after)) : encode c ++ after = a :: rest := by
  have hbyte {n : Nat} {b : UInt8} (hn : n = b.toNat) : n.toUInt8 = b := by
    subst hn
    exact UInt8.ofNat_toNat
  have ha := a.toNat_lt
  have htail {b : UInt8} (hb : isTail b = true) : 0x80 ≤ b.toNat ∧ b.toNat ≤ 0xBF := by
    simpa [isTail, UInt8.le_iff_toNat_le] using hb
  have hsecond {b : UInt8} (hb : secondAllowed a b = true) :
      0x80 ≤ b.toNat ∧ b.toNat ≤ 0xBF ∧ (a.toNat = 0xE0 → 0xA0 ≤ b.toNat) ∧
        (a.toNat = 0xF0 → 0x90 ≤ b.toNat) ∧ (a.toNat = 0xF4 → b.toNat ≤ 0x8F) := by
    unfold secondAllowed at hb
    simp only [← UInt8.toNat_inj, UInt8.reduceToNat] at hb
    split at hb
    · simp only [Bool.and_eq_true, decide_eq_true_eq, UInt8.le_iff_toNat_le, UInt8.reduceToNat] at hb
      omega
    split at hb
    · simp only [Bool.and_eq_true, decide_eq_true_eq, UInt8.le_iff_toNat_le, UInt8.reduceToNat] at hb
      omega
    split at hb
    · simp only [Bool.and_eq_true, decide_eq_true_eq, UInt8.le_iff_toNat_le, UInt8.reduceToNat] at hb
      omega
    split at hb
    · simp only [Bool.and_eq_true, decide_eq_true_eq, UInt8.le_iff_toNat_le, UInt8.reduceToNat] at hb
      omega
    · have := htail hb
      omega
  unfold decodeAfter? at h
  simp only [UInt8.lt_iff_toNat_lt, UInt8.le_iff_toNat_le, UInt8.reduceToNat, Bool.and_eq_true,
    decide_eq_true_eq] at h
  split at h
  · cases h
    rw [encode, if_pos (by omega), hbyte rfl, List.singleton_append]
  split at h
  · rcases rest with _ | ⟨b, rest⟩
    · cases h
    simp only at h
    split at h <;> cases h
    have := htail (by assumption)
    rw [encode, tailBits, if_neg (by omega), if_pos (by omega), hbyte (b := a) (by omega),
      hbyte (b := b) (by omega)]
    rfl
  split at h
  · rcases rest with _ | ⟨b, _ | ⟨d, rest⟩⟩
    · cases h
    · cases h
    simp only at h
    split at h <;> cases h
    rename_i hbd
    have hb := hsecond hbd.1
    have hd := htail hbd.2
    rw [encode, tailBits, tailBits, if_neg (by omega), if_neg (by omega), if_pos (by omega),
      hbyte (b := a) (by omega), hbyte (b := b) (by omega), hbyte (b := d) (by omega)]
    rfl
  split at h
  · rcases rest with _ | ⟨b, _ | ⟨d, _ | ⟨e, rest⟩⟩⟩
    · cases h
    · cases h
    · cases h
    simp only at h
    split at h <;> cases h
    rename_i hbde
    have hb := hsecond hbde.1.1
    have hd := htail hbde.1.2
    have he := htail hbde.2
    rw [encode, tailBits, tailBits, tailBits, if_neg (by omega), if_neg (by omega),
      if_neg (by omega), hbyte (b := a) (by omega), hbyte (b := b) (by omega),
      hbyte (b := d) (by omega), hbyte (b := e) (by omega)]
    rfl
  · cases h

/-- Writing the glyphs of a text back gives the text. -/
theorem flatMap_bytes_glyphs (t : Text) : (glyphs t).flatMap Glyph.bytes = t := by
  fun_induction glyphs t with
  | case1 => rfl
  | case2 a rest c after h ih => rw [List.flatMap_cons, ih]; exact encode_of_decodeAfter? h
  | case3 a rest h ih => rw [List.flatMap_cons, ih]; rfl

theorem le_of_stray_mem_glyphs {t : Text} {b : UInt8} (h : .stray b ∈ glyphs t) : 0x80 ≤ b := by
  fun_induction glyphs t with
  | case1 => cases h
  | case2 a rest c after hdecode ih =>
    rcases List.mem_cons.mp h with h | h
    · cases h
    · exact ih h
  | case3 a rest hdecode ih =>
    rcases List.mem_cons.mp h with h | h
    · cases h
      unfold decodeAfter? at hdecode
      split at hdecode
      · cases hdecode
      · exact UInt8.not_lt.mp (by assumption)
    · exact ih h

/-- A character ends with a newline only if it is one. -/
theorem getLast?_encode (c : Nat) : ∃ b, (encode c).getLast? = some b ∧ (b = 10 → c = 10) := by
  have htail : (0x80 + c % 0x40).toUInt8 ≠ 10 := by
    rw [ne_eq, ← UInt8.toNat_inj]
    simp only [Nat.toUInt8, UInt8.toNat_ofNat', UInt8.reduceToNat]
    omega
  unfold encode
  split
  · refine ⟨c.toUInt8, rfl, fun h => ?_⟩
    rw [← UInt8.toNat_inj] at h
    simp only [Nat.toUInt8, UInt8.toNat_ofNat', UInt8.reduceToNat] at h
    omega
  · repeat' split
    all_goals exact ⟨_, rfl, fun h => absurd h htail⟩

end Utf8

/-! ### Positions of errors -/

/-- Line and column are not below zero. -/
def Position.IsNatural (p : Position) : Prop := 0 ≤ p.line ∧ 0 ≤ p.col

theorem Position.IsNatural.across {p : Position} (h : p.IsNatural) (t : Text) :
    (p.across t).IsNatural := by
  induction t generalizing p with
  | nil => exact h
  | cons b t ih =>
    apply ih
    obtain ⟨hline, hcol⟩ := h
    unfold Position.after
    split
    · exact ⟨Int.le_add_one hline, Int.one_nonneg⟩
    · exact ⟨hline, Int.le_add_one hcol⟩

namespace Lexer

theorem next_isNatural {c : Cursor} (hc : c.pos.IsNatural) :
    (next c).2.pos.IsNatural ∧ (∀ t, (next c).1 = .ok t → t.pos.IsNatural) ∧
      ∀ e, (next c).1 = .error e → e.pos.IsNatural := by
  have hpos : (c.drop (triviaLength false c.rest)).pos.IsNatural := hc.across _
  unfold next
  simp only
  generalize c.drop (triviaLength false c.rest) = d at hpos ⊢
  rcases d.rest with _ | ⟨b, rest⟩
  · refine ⟨hpos, fun t ht => ?_, fun e he => by cases he⟩
    cases ht
    exact hpos
  · simp only
    rcases lexeme b rest with ⟨cause | l, n⟩
    · refine ⟨hpos.across _, fun t ht => (by cases ht), fun e he => ?_⟩
      cases he
      exact hpos
    · refine ⟨hpos.across _, fun t ht => ?_, fun e he => by cases he⟩
      cases ht
      exact hpos

theorem tokens_isNatural {c : Cursor} (hc : c.pos.IsNatural) :
    (∀ ts stop, tokens c = .ok (ts, stop) → stop.IsNatural ∧ ∀ t ∈ ts, t.pos.IsNatural) ∧
      ∀ e, tokens c = .error e → e.pos.IsNatural := by
  fun_induction tokens c with
  | case1 c e c' h =>
    refine ⟨fun _ _ hts => (by cases hts), fun e' he => ?_⟩
    cases he
    exact (next_isNatural hc).2.2 e (by rw [h])
  | case2 c t c' h ht =>
    refine ⟨fun ts stop hts => ?_, fun _ he => by cases he⟩
    cases hts
    exact ⟨(next_isNatural hc).2.1 t (by rw [h]), List.forall_mem_nil _⟩
  | case3 c t c' h ht e htokens ih =>
    have hnext := (next_isNatural hc).1
    rw [h] at hnext
    refine ⟨fun _ _ hts => (by cases hts), fun e' he => ?_⟩
    cases he
    exact (ih hnext).2 e htokens
  | case4 c t c' h ht ts stop htokens ih =>
    have hnext := next_isNatural hc
    rw [h] at hnext
    refine ⟨fun us stop' hus => ?_, fun _ he => by cases he⟩
    cases hus
    obtain ⟨hstop, hts⟩ := (ih hnext.1).1 ts stop htokens
    exact ⟨hstop, List.forall_mem_cons.mpr ⟨hnext.2.1 t rfl, hts⟩⟩

end Lexer

/-- The errors of a source text stand at natural positions. -/
theorem Program.parse_error_isNatural {key : Nat} {source : Text} {e : SyntaxError}
    (h : Program.parse key source = .error e) : e.pos.IsNatural := by
  have hstart : (Cursor.ofSource source).pos.IsNatural := ⟨Int.one_nonneg, Int.one_nonneg⟩
  obtain ⟨hok, herror⟩ := Lexer.tokens_isNatural hstart
  rcases htokens : Lexer.tokens (.ofSource source) with e' | ⟨ts, stop⟩
  · unfold Program.parse Feed.ofSource Lexer.tokenize at h
    rw [htokens] at h
    cases h
    exact herror e htokens
  · obtain ⟨hstop, hts⟩ := hok ts stop htokens
    rw [Program.parse_of_tokens htokens] at h
    -- Where all positions are natural, making them natural changes nothing.
    have hitems := Parse.items_shift (fun p => ⟨p.line.natAbs, p.col.natAbs⟩)
      (fun p => ⟨p.line.natAbs, p.col.natAbs⟩) ⟨ts, stop, []⟩
    have habs {p : Position} (hp : p.IsNatural) :
        (⟨p.line.natAbs, p.col.natAbs⟩ : Position) = p := by
      obtain ⟨line, col⟩ := p
      obtain ⟨hline, hcol⟩ := hp
      rw [Int.natAbs_of_nonneg hline, Int.natAbs_of_nonneg hcol]
    have hfeed : Feed.shift (fun p => ⟨p.line.natAbs, p.col.natAbs⟩)
        (fun p => ⟨p.line.natAbs, p.col.natAbs⟩) ⟨ts, stop, []⟩ = ⟨ts, stop, []⟩ := by
      simp only [Feed.shift, habs hstop, Feed.mk.injEq, and_true]
      refine (List.map_congr_left fun t ht => ?_).trans (List.map_id ts)
      simp only [Token.move, habs (hts t ht), id]
    rw [hfeed] at hitems
    rcases hr : (Parse.items ⟨ts, stop, []⟩).1 with e' | ns <;> rw [hr] at h hitems
    · cases h
      obtain ⟨e', he', -, hpos⟩ := hitems
      cases he'
      rcases hpos with hpos | hpos <;> rw [hpos] <;>
        exact ⟨Int.natCast_nonneg _, Int.natCast_nonneg _⟩
    · cases h

/-! ### Texts of errors -/

namespace Text

theorem trim_infix (t : Text) : trim t <:+: t := by
  have hdrop : ((Utf8.glyphs t).dropWhile isBlankGlyph).reverse.dropWhile isBlankGlyph <:+
      ((Utf8.glyphs t).dropWhile isBlankGlyph).reverse := List.dropWhile_suffix _
  have hinner : (((Utf8.glyphs t).dropWhile isBlankGlyph).reverse.dropWhile isBlankGlyph).reverse <:+:
      Utf8.glyphs t := by
    have := List.reverse_prefix.mpr hdrop
    rw [List.reverse_reverse] at this
    exact this.isInfix.trans (List.dropWhile_suffix _).isInfix
  obtain ⟨before, behind, h⟩ := hinner
  refine ⟨before.flatMap Utf8.Glyph.bytes, behind.flatMap Utf8.Glyph.bytes, ?_⟩
  rw [trim, ← List.flatMap_append, ← List.flatMap_append, h, Utf8.flatMap_bytes_glyphs]

theorem cut?_append {b : UInt8} {t : Text} (h : b ∉ t) (u : Text) :
    cut? b (t ++ b :: u) = some (t, u) := by
  induction t with
  | nil => exact if_pos rfl
  | cons c t ih =>
    obtain ⟨hc, ht⟩ := not_or.mp (mt List.mem_cons.mpr h)
    rw [List.cons_append, cut?, if_neg (Ne.symm hc), ih ht]
    rfl

theorem cut?_suffix {b : UInt8} {t l r : Text} (h : cut? b t = some (l, r)) : r <:+ t := by
  induction t generalizing l with
  | nil => cases h
  | cons c t ih =>
    rw [cut?] at h
    split at h
    · cases h
      exact List.suffix_cons _ _
    · obtain ⟨⟨l', r'⟩, h', heq⟩ := Option.map_eq_some_iff.mp h
      cases heq
      exact (ih h').trans (List.suffix_cons _ _)

end Text

namespace Snapshot

theorem withoutNumber_suffix (message : Text) : withoutNumber message <:+ message := by
  unfold withoutNumber
  split
  · exact List.suffix_rfl
  · split
    · exact List.suffix_rfl
    · exact Text.cut?_suffix (by assumption)

theorem errorText_infix (message : Text) : errorText message <:+: message :=
  (Text.trim_infix _).trans
    ((withoutNumber_suffix _).trans (withoutNumber_suffix _)).isInfix

theorem withoutNumber_decimal (n : Nat) (t : Text) :
    withoutNumber (Text.decimal n ++ byte ':' :: t) = t := by
  have hdigits := Text.isDigit_of_mem_decimal n
  have hcolon : byte ':' ∉ Text.decimal n := fun hmem => absurd (hdigits _ hmem) (by decide)
  have hempty : (Text.decimal n).isEmpty = false :=
    List.isEmpty_eq_false_iff.mpr (Text.decimal_ne_nil n)
  have hall : (Text.decimal n).all Text.isDigit = true := List.all_eq_true.mpr hdigits
  unfold withoutNumber
  rw [Text.cut?_append hcolon]
  simp [hempty, hall]

/-- What is stated of an error does not depend on its position. -/
theorem errorText_wording {p : Position} (hp : p.IsNatural) (message : Text) :
    errorText (SyntaxError.wording p message) = Text.trim (" syntax error: " ++ message) := by
  obtain ⟨line, col⟩ := p
  obtain ⟨hline, hcol⟩ := hp
  obtain ⟨line, rfl⟩ := Int.eq_ofNat_of_zero_le hline
  obtain ⟨col, rfl⟩ := Int.eq_ofNat_of_zero_le hcol
  have htext : SyntaxError.wording ⟨line, col⟩ message =
      Text.decimal line ++ byte ':' :: (Text.decimal col ++ byte ':' :: (" syntax error: " ++ message)) := by
    simp only [SyntaxError.wording, Position.text, Text.ofInt, List.append_assoc]
    rfl
  rw [htext, errorText, withoutNumber_decimal, withoutNumber_decimal]

/-- Errors with one cause are stated alike. -/
theorem errorText_infix_of_cause {e e' : SyntaxError} (he : e.pos.IsNatural)
    (h : e'.cause = e.cause) : errorText e.text <:+: e'.text := by
  obtain ⟨pos, cause⟩ := e
  obtain ⟨pos', cause'⟩ := e'
  cases h
  rw [SyntaxError.text, errorText_wording he]
  refine (Text.trim_infix _).trans ⟨pos'.text ++ [byte ':'], [], ?_⟩
  rw [SyntaxError.text, SyntaxError.wording]
  simp only [List.append_nil, List.append_assoc]
  rfl

end Snapshot

theorem Text.trimNewlines_trim (t : Text) : Document.trimNewlines (trim t) = trim t := by
  apply trimEnd_eq_self
  unfold trim
  have hmem : ∀ g ∈ ((Utf8.glyphs t).dropWhile isBlankGlyph).reverse.dropWhile isBlankGlyph,
      g ∈ Utf8.glyphs t := fun g hg => (List.dropWhile_suffix _).subset
    (List.mem_reverse.mp ((List.dropWhile_suffix _).subset hg))
  have hhead := List.head?_dropWhile_not isBlankGlyph
    ((Utf8.glyphs t).dropWhile isBlankGlyph).reverse
  generalize ((Utf8.glyphs t).dropWhile isBlankGlyph).reverse.dropWhile isBlankGlyph = gs at *
  cases gs with
  | nil => exact nofun
  | cons g gs =>
    have hblank : isBlankGlyph g = false := by simpa using hhead
    have hlast : ∃ b, g.bytes.getLast? = some b ∧ b ≠ 10 := by
      cases g with
      | char c =>
        obtain ⟨b, hb, hc⟩ := Utf8.getLast?_encode c
        refine ⟨b, hb, fun h => ?_⟩
        rw [hc h] at hblank
        cases hblank
      | stray b =>
        refine ⟨b, rfl, fun h => ?_⟩
        have := Utf8.le_of_stray_mem_glyphs (hmem _ List.mem_cons_self)
        rw [h] at this
        exact absurd this (by decide)
    obtain ⟨b, hb, hne⟩ := hlast
    intro c hc
    simp only [List.reverse_cons, List.flatMap_append, List.flatMap_cons, List.flatMap_nil,
      List.append_nil, List.getLast?_append, hb, Option.some_or, Option.mem_def,
      Option.some.injEq] at hc
    rw [← hc]
    exact beq_eq_false_iff_ne.mpr hne

end Augite
