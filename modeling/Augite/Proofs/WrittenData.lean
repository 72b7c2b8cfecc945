import Mathlib
import Augite.Datum.Reader
import Augite.Proofs.Numerals

/-!
# Data as text

A text that data are written in is read as these data again. The tokens of a datum do not
depend on what stands behind it, as long as it is white space, a bracket, a colon or a comma;
and tokens that the grammar of data derives a datum from are read as that datum.
-/

namespace Augite.Datum

namespace Lexer

/-! ### Tokens one by one -/

/-- White space, a bracket, a colon or a comma. -/
def endsAtom (b : UInt8) : Bool := isBlank b || (bracket? b).isSome

/-- What may stand behind a datum: nothing, or a byte that belongs to no atom. -/
def Ends (s : Text) : Prop := ∀ b ∈ s.head?, endsAtom b = true

/-- The text has one line and is read as the tokens `ts`, whatever stands behind it. -/
structure Spells (w : Text) (ts : List Token) : Prop where
  line : byte '\n' ∉ w
  tokens_append : ∀ s, Ends s → tokens (w ++ s) = (ts ++ (tokens s).1, (tokens s).2)

theorem tokens_of_dropWhile_nil {t : Text} (h : t.dropWhile isBlank = []) :
    tokens t = ([], none) := by
  rw [tokens]
  split
  · rfl
  · rename_i h'
    rw [h] at h'
    cases h'

theorem tokens_of_dropWhile_cons {t rest : Text} {b : UInt8}
    (h : t.dropWhile isBlank = b :: rest) :
    tokens t =
      if b = 0 then ([], none)
      else if b = byte ';' then tokens (rest.dropWhile fun c => !endsComment c)
      else match token b rest with
        | .error e => ([], some e)
        | .ok (tok, n) => (tok :: (tokens (rest.drop n)).1, (tokens (rest.drop n)).2) := by
  rw [tokens]
  split
  · rename_i h'
    rw [h] at h'
    cases h'
  · rename_i h'
    rw [h] at h'
    cases h'
    rfl

theorem tokens_nil : tokens [] = ([], none) := tokens_of_dropWhile_nil rfl

theorem tokens_blank {b : UInt8} (h : isBlank b = true) (s : Text) : tokens (b :: s) = tokens s := by
  have hdrop : (b :: s).dropWhile isBlank = s.dropWhile isBlank := List.dropWhile_cons_of_pos h
  cases hs : s.dropWhile isBlank with
  | nil => rw [tokens_of_dropWhile_nil hs, tokens_of_dropWhile_nil (hdrop.trans hs)]
  | cons c rest =>
    rw [tokens_of_dropWhile_cons hs, tokens_of_dropWhile_cons (hdrop.trans hs)]

/-- The byte begins a token. -/
def begins (b : UInt8) : Bool := !isBlank b && b != 0 && b != byte ';'

theorem tokens_cons {b : UInt8} {rest : Text} {tok : Token} {n : Nat} (hb : begins b = true)
    (h : token b rest = .ok (tok, n)) :
    tokens (b :: rest) = (tok :: (tokens (rest.drop n)).1, (tokens (rest.drop n)).2) := by
  simp only [begins, Bool.and_eq_true, Bool.not_eq_true', bne_iff_ne] at hb
  have hdrop : (b :: rest).dropWhile isBlank = b :: rest :=
    List.dropWhile_cons_of_neg (by rw [hb.1.1]; decide)
  rw [tokens_of_dropWhile_cons hdrop, if_neg hb.1.2, if_neg hb.2, h]

/-- A byte that begins a token which is neither a bracket nor a string. -/
def beginsAtom (b : UInt8) : Prop :=
  begins b = true ∧ bracket? b = none ∧ b ≠ byte '"' ∧ b ≠ byte '.'

instance (b : UInt8) : Decidable (beginsAtom b) := inferInstanceAs (Decidable (_ ∧ _))

/-- The classes of bytes that begin tokens of different kinds, and that end atoms. -/
theorem byte_classes : ∀ b : UInt8,
    ((bracket? b).isSome = true → begins b = true) ∧
    (isSymbolStart b = true → beginsAtom b) ∧
    (Text.isDigit b = true → beginsAtom b ∧ isSymbolStart b = false) ∧
    (isSign b = true → beginsAtom b ∧ isSymbolStart b = false ∧ Text.isDigit b = false) ∧
    (endsAtom b = true → isSymbolByte b = false ∧ Text.isDigit b = false ∧ b ≠ byte '.') ∧
    (0x80 ≤ b → b ≠ 0 ∧ b ≠ byte '"' ∧ b ≠ byte '\\') := by
  decide +kernel

theorem tokens_bracket {b : UInt8} {tok : Token} (h : bracket? b = some tok) (s : Text) :
    tokens (b :: s) = (tok :: (tokens s).1, (tokens s).2) := by
  have hb : begins b = true := (byte_classes b).1 (by rw [h]; rfl)
  have htoken : token b s = .ok (tok, 0) := by rw [token, h]
  exact tokens_cons hb htoken

/-- A symbol of more than a sign. -/
def IsSymbol (w : Text) : Prop :=
  ∃ b r, w = b :: r ∧ isSymbolStart b = true ∧ ∀ c ∈ r, isSymbolByte c = true

theorem token_of_symbolStart {b : UInt8} (hb : isSymbolStart b = true) (s : Text) :
    token b s = .ok (.symbol (b :: s.takeWhile isSymbolByte), (s.takeWhile isSymbolByte).length) := by
  obtain ⟨-, hbracket, hquote, hpoint⟩ := (byte_classes b).2.1 hb
  rw [token, hbracket]
  simp only [hquote, hpoint, hb, if_true, if_false]

theorem tokens_symbol {w s : Text} (hw : IsSymbol w)
    (hs : ∀ b ∈ s.head?, isSymbolByte b = false) :
    tokens (w ++ s) = (.symbol w :: (tokens s).1, (tokens s).2) := by
  obtain ⟨b, r, rfl, hb, hr⟩ := hw
  have htail : (r ++ s).takeWhile isSymbolByte = r := by
    rw [List.takeWhile_append_of_pos hr]
    cases s with
    | nil => simp
    | cons c s => simp [hs c rfl]
  have htoken := token_of_symbolStart hb (r ++ s)
  rw [htail] at htoken
  rw [List.cons_append, tokens_cons ((byte_classes b).2.1 hb).1 htoken, List.drop_left]

theorem numberTail_isUnsigned {n : Nat} {t whole part s : Text}
    (h : Text.IsUnsigned n t whole part)
    (hs : ∀ b ∈ s.head?, Text.isDigit b = false ∧ b ≠ byte '.') : numberTail (t ++ s) = t := by
  have hstop (p : Text) (hp : ∀ b ∈ p, Text.isDigit b = true) :
      (p ++ s).takeWhile Text.isDigit = p ∧ (p ++ s).dropWhile Text.isDigit = s := by
    rw [List.takeWhile_append_of_pos hp, List.dropWhile_append_of_pos hp]
    cases s with
    | nil => simp
    | cons c s => simp [(hs c rfl).1]
  obtain ⟨rfl, -, -, hwhole, hpart⟩ := h
  by_cases hp : part = []
  · simp only [hp, if_true, List.append_nil]
    unfold numberTail
    rw [(hstop whole hwhole).1, (hstop whole hwhole).2]
    match s, hs with
    | [], _ | [_], _ => rfl
    | c :: d :: rest, hs => simp only [(hs c rfl).2, false_and, if_false]
  · simp only [hp, if_false]
    obtain ⟨d, ds, rfl⟩ := List.exists_cons_of_ne_nil hp
    have hpoint : Text.isDigit (byte '.') = false := rfl
    have hfirst : (whole ++ byte '.' :: d :: ds ++ s).takeWhile Text.isDigit = whole ∧
        (whole ++ byte '.' :: d :: ds ++ s).dropWhile Text.isDigit = byte '.' :: d :: (ds ++ s) := by
      rw [List.append_assoc, List.takeWhile_append_of_pos hwhole,
        List.dropWhile_append_of_pos hwhole]
      simp [hpoint]
    unfold numberTail
    rw [hfirst.1, hfirst.2]
    simp only [hpart d List.mem_cons_self, and_self, if_true,
      (hstop ds fun b hb => hpart b (List.mem_cons_of_mem d hb)).1]

theorem token_of_digit {b : UInt8} (hb : Text.isDigit b = true) {s tail : Text}
    (h : numberTail (b :: s) = b :: tail) : token b s = .ok (.number (b :: tail), tail.length) := by
  obtain ⟨⟨-, hbracket, hquote, hpoint⟩, hstart⟩ := (byte_classes b).2.2.1 hb
  rw [token, hbracket]
  simp only [hquote, hpoint, hstart, hb, if_true, if_false, Bool.false_eq_true, h, List.drop_one,
    List.tail_cons]

theorem token_of_sign_digit {c d : UInt8} (hc : isSign c = true) (hd : Text.isDigit d = true)
    (s : Text) :
    token c (d :: s) = .ok (.number (c :: numberTail (d :: s)), (numberTail (d :: s)).length) := by
  obtain ⟨⟨-, hbracket, hquote, hpoint⟩, hstart, hdigit⟩ := (byte_classes c).2.2.2.1 hc
  rw [token, hbracket]
  simp only [hquote, hpoint, hstart, hdigit, hc, if_true, if_false, Bool.false_eq_true]
  simp [hd]

theorem token_of_sign {c : UInt8} (hc : isSign c = true) {s : Text}
    (hs : ∀ b ∈ s.head?, Text.isDigit b = false) : token c s = .ok (.symbol [c], 0) := by
  obtain ⟨⟨-, hbracket, hquote, hpoint⟩, hstart, hdigit⟩ := (byte_classes c).2.2.2.1 hc
  rw [token, hbracket]
  simp only [hquote, hpoint, hstart, hdigit, hc, if_true, if_false, Bool.false_eq_true]
  cases s with
  | nil => rfl
  | cons b s => simp [hs b rfl]

theorem tokens_numeral {n : Nat} {w s : Text} (hw : w.IsNumeral n)
    (hs : ∀ b ∈ s.head?, Text.isDigit b = false ∧ b ≠ byte '.') :
    tokens (w ++ s) = (.number w :: (tokens s).1, (tokens s).2) := by
  obtain ⟨sign, body, whole, part, rfl, hbody, hsign⟩ := hw
  have htail := numberTail_isUnsigned hbody hs
  obtain ⟨b, rest, rfl, hb⟩ := hbody.exists_cons
  rcases hsign with rfl | ⟨c, rfl, hc⟩
  · have hbegins := ((byte_classes b).2.2.1 hb).1.1
    rw [List.cons_append] at htail
    have htoken := token_of_digit hb htail
    rw [List.nil_append, List.cons_append, tokens_cons hbegins htoken, List.drop_left]
  · have hbegins := ((byte_classes c).2.2.2.1 hc).1.1
    have htoken := token_of_sign_digit hc hb (rest ++ s)
    rw [← List.cons_append, htail] at htoken
    rw [List.singleton_append, List.cons_append, tokens_cons hbegins htoken, List.drop_left]

theorem tokens_sign {c : UInt8} (hc : isSign c = true) {s : Text}
    (hs : ∀ b ∈ s.head?, Text.isDigit b = false) :
    tokens (c :: s) = (.symbol [c] :: (tokens s).1, (tokens s).2) :=
  tokens_cons ((byte_classes c).2.2.2.1 hc).1.1 (token_of_sign hc hs)

/-! ### Strings -/

/-- A character that a string can show: printable, or a control character whose escape is
not a letter of its own, `\\n` and `\\t` excepted. Stray bytes can always be shown. -/
def isReadable : Utf8.Glyph → Bool
  | .stray _ => true
  | .char c => Text.isPrintable c || (c < 0x80 && !([7, 8, 11, 12, 13].contains c))

/-- What a shown character is read as. Bytes beyond ASCII are taken for characters. -/
def reread : Utf8.Glyph → Text
  | .stray b => [b]
  | .char c => if c < 0x80 then [c.toUInt8] else (Utf8.encode c).flatMap fun b => Utf8.encode b.toNat

/-- Inside quotes, the bytes `w` stand for the bytes `u`. -/
def Shows (w u : Text) : Prop :=
  ∀ rest, stringBody (w ++ rest) = (stringBody rest).map fun p => (u ++ p.1, p.2 + w.length)

theorem Shows.append {w u v t : Text} (hw : Shows w u) (hv : Shows v t) :
    Shows (w ++ v) (u ++ t) := by
  intro rest
  rw [List.append_assoc, hw, hv]
  rcases stringBody rest with e | ⟨contents, n⟩
  · rfl
  · simp only [Except.map, List.append_assoc, List.length_append]
    congr 2
    omega

theorem shows_nil : Shows [] [] := by
  intro rest
  rcases h : stringBody rest with e | p <;> simp [Except.map, h]

theorem shows_byte {b : UInt8} (h : b ≠ 0 ∧ b ≠ byte '"' ∧ b ≠ byte '\\') :
    Shows [b] (Utf8.encode b.toNat) := by
  intro rest
  rw [List.singleton_append, stringBody.eq_def]
  simp only [h.1, h.2.1, h.2.2, if_false]
  rfl

theorem shows_escape {e v : UInt8} (h : escape? e = some v) : Shows [byte '\\', e] [v] := by
  have hx : e ≠ byte 'x' := by
    rintro rfl
    cases h
  intro rest
  have hne : byte '\\' ≠ 0 ∧ byte '\\' ≠ byte '"' := by decide
  rw [List.cons_append, List.singleton_append, stringBody.eq_def]
  simp only [hne.1, hne.2, if_false, if_true, if_neg hx, h]
  rfl

theorem hexByte?_hexPadded (b : UInt8) :
    ∃ h l, Text.hexPadded 'a' 2 b.toNat = [h, l] ∧ hexByte? h l = some b ∧ byte '\n' ∉ [h, l] := by
  refine ⟨_, _, rfl, ?_⟩
  revert b
  decide +kernel

theorem shows_hex (b : UInt8) :
    Shows (byte '\\' :: byte 'x' :: Text.hexPadded 'a' 2 b.toNat) [b] := by
  intro rest
  obtain ⟨h, l, hpad, hbyte, -⟩ := hexByte?_hexPadded b
  have hne : byte '\\' ≠ 0 ∧ byte '\\' ≠ byte '"' := by decide
  rw [hpad, List.cons_append, List.cons_append, stringBody.eq_def]
  simp only [hne.1, hne.2, if_false, if_true, List.cons_append, List.nil_append, hbyte]
  rfl

theorem shows_bytes {w : Text} (h : ∀ b ∈ w, b ≠ 0 ∧ b ≠ byte '"' ∧ b ≠ byte '\\') :
    Shows w (w.flatMap fun b => Utf8.encode b.toNat) := by
  induction w with
  | nil => exact shows_nil
  | cons b w ih =>
    obtain ⟨hb, hw⟩ := List.forall_mem_cons.mp h
    exact (shows_byte hb).append (ih hw)

/-- The bytes of a character beyond ASCII are beyond ASCII. -/
theorem le_of_mem_encode {c : Nat} (hc : 0x80 ≤ c) (hlt : c < 0x110000) :
    ∀ b ∈ Utf8.encode c, 0x80 ≤ b := by
  have hbyte {n : Nat} (hn : 0x80 ≤ n) (hn' : n < 0x100) : (0x80 : UInt8) ≤ n.toUInt8 := by
    rw [UInt8.le_iff_toNat_le]
    simp only [Nat.toUInt8, UInt8.toNat_ofNat', UInt8.reduceToNat]
    omega
  unfold Utf8.encode
  rw [if_neg (by omega)]
  split
  · simp only [List.forall_mem_cons]
    exact ⟨hbyte (by omega) (by omega), hbyte (by omega) (by omega), fun _ h => by cases h⟩
  · split
    · simp only [List.forall_mem_cons]
      exact ⟨hbyte (by omega) (by omega), hbyte (by omega) (by omega), hbyte (by omega) (by omega),
        fun _ h => by cases h⟩
    · simp only [List.forall_mem_cons]
      exact ⟨hbyte (by omega) (by omega), hbyte (by omega) (by omega), hbyte (by omega) (by omega),
        hbyte (by omega) (by omega), fun _ h => by cases h⟩

theorem shows_ascii : ∀ b : UInt8, b < 0x80 → isReadable (.char b.toNat) = true →
    byte '\n' ∉ Text.escapeChar (byte '"') b.toNat ∧
    ((b ≠ 0 ∧ b ≠ byte '"' ∧ b ≠ byte '\\' ∧ Text.escapeChar (byte '"') b.toNat = [b] ∧
      Utf8.encode b.toNat = [b]) ∨
    (∃ e ∈ [byte 'n', byte 't', byte '"', byte '\\'], escape? e = some b ∧
      Text.escapeChar (byte '"') b.toNat = [byte '\\', e]) ∨
    Text.escapeChar (byte '"') b.toNat = byte '\\' :: byte 'x' :: Text.hexPadded 'a' 2 b.toNat) := by
  decide +kernel

/-- A readable character is read back. -/
theorem shows_escapeGlyph {g : Utf8.Glyph} (h : isReadable g = true) :
    Shows (Text.escapeGlyph (byte '"') g) (reread g) := by
  cases g with
  | stray b => exact shows_hex b
  | char c =>
    by_cases hc : c < 0x80
    · have hsmall : c.toUInt8 < 0x80 ∧ c.toUInt8.toNat = c := by
        rw [UInt8.lt_iff_toNat_lt]
        simp only [Nat.toUInt8, UInt8.toNat_ofNat', UInt8.reduceToNat]
        omega
      simp only [Text.escapeGlyph, reread, hc, if_true]
      have hcases := shows_ascii c.toUInt8 hsmall.1
      rw [hsmall.2] at hcases
      rcases (hcases h).2 with ⟨h0, hq, hb, hesc, henc⟩ | ⟨e, -, hesc, htext⟩ | htext
      · have hshow := shows_byte ⟨h0, hq, hb⟩
        rw [hsmall.2, henc] at hshow
        rw [hesc]
        exact hshow
      · rw [htext]
        exact shows_escape hesc
      · have hshow := shows_hex c.toUInt8
        rw [hsmall.2] at hshow
        rw [htext]
        exact hshow
    · have hprint : Text.isPrintable c = true := by
        simpa [isReadable, hc] using h
      have hne : c ≠ (byte '"').toNat ∧ c ≠ 0x5C := by
        have : (byte '"').toNat = 34 := rfl
        omega
      have hbytes := le_of_mem_encode (by omega) (Text.lt_of_isPrintable hprint)
      simp only [Text.escapeGlyph, Text.escapeChar, reread, hc, hne.1, hne.2, hprint, or_self,
        if_false, if_true]
      exact shows_bytes fun b hb => (byte_classes b).2.2.2.2.2 (hbytes b hb)

theorem shows_flatMap {gs : List Utf8.Glyph} (h : gs.all isReadable = true) :
    Shows (gs.flatMap (Text.escapeGlyph (byte '"'))) (gs.flatMap reread) := by
  induction gs with
  | nil => exact shows_nil
  | cons g gs ih =>
    rw [List.all_cons, Bool.and_eq_true] at h
    exact (shows_escapeGlyph h.1).append (ih h.2)

theorem newline_not_mem_escapeGlyph {g : Utf8.Glyph} (h : isReadable g = true) :
    byte '\n' ∉ Text.escapeGlyph (byte '"') g := by
  cases g with
  | stray b =>
    obtain ⟨d, l, hpad, -, hnot⟩ := hexByte?_hexPadded b
    change byte '\n' ∉ byte '\\' :: byte 'x' :: Text.hexPadded 'a' 2 b.toNat
    rw [hpad]
    exact List.not_mem_cons_of_ne_of_not_mem (by decide)
      (List.not_mem_cons_of_ne_of_not_mem (by decide) hnot)
  | char c =>
    by_cases hc : c < 0x80
    · have hsmall : c.toUInt8 < 0x80 ∧ c.toUInt8.toNat = c := by
        rw [UInt8.lt_iff_toNat_lt]
        simp only [Nat.toUInt8, UInt8.toNat_ofNat', UInt8.reduceToNat]
        omega
      have hascii := shows_ascii c.toUInt8 hsmall.1
      rw [hsmall.2] at hascii
      exact (hascii h).1
    · have hprint : Text.isPrintable c = true := by
        simpa [isReadable, hc] using h
      have hne : ¬(c = (byte '"').toNat ∨ c = 0x5C) := by
        have : (byte '"').toNat = 34 := rfl
        omega
      rw [Text.escapeGlyph, Text.escapeChar, if_neg hne, if_pos hprint]
      intro hmem
      exact absurd (le_of_mem_encode (by omega) (Text.lt_of_isPrintable hprint) _ hmem) (by decide)

theorem newline_not_mem_quote {t : Text} (h : (Utf8.glyphs t).all isReadable = true) :
    byte '\n' ∉ Text.quote t := by
  simp only [Text.quote, List.mem_cons, List.mem_append, List.mem_flatMap, List.not_mem_nil]
  rintro ((hmark | ⟨g, hg, hmem⟩) | (hmark | hmark))
  · exact absurd hmark (by decide)
  · exact newline_not_mem_escapeGlyph (List.all_eq_true.mp h g hg) hmem
  · exact absurd hmark (by decide)
  · exact hmark

theorem tokens_quote {t : Text} (h : (Utf8.glyphs t).all isReadable = true) (s : Text) :
    tokens (Text.quote t ++ s) =
      (.string ((Utf8.glyphs t).flatMap reread) :: (tokens s).1, (tokens s).2) := by
  have hclose : stringBody (byte '"' :: s) = .ok ([], 1) := by
    rw [stringBody.eq_def]
    rfl
  have hbody := shows_flatMap h (byte '"' :: s)
  rw [hclose] at hbody
  have htoken : token (byte '"')
      ((Utf8.glyphs t).flatMap (Text.escapeGlyph (byte '"')) ++ byte '"' :: s) =
      .ok (.string ((Utf8.glyphs t).flatMap reread),
        ((Utf8.glyphs t).flatMap (Text.escapeGlyph (byte '"'))).length + 1) := by
    have hbracket : bracket? (byte '"') = none := by decide
    rw [token, hbracket]
    simp only [if_true, hbody, Except.map, List.append_nil]
    rw [Nat.add_comm]
  have hquote : Text.quote t ++ s = byte '"' ::
      ((Utf8.glyphs t).flatMap (Text.escapeGlyph (byte '"')) ++ byte '"' :: s) := by
    simp [Text.quote]
  rw [hquote, tokens_cons (by decide) htoken, List.drop_append, List.drop_of_length_le (by simp)]
  simp

/-! ### Texts that spell tokens -/

theorem Ends.isSymbolByte {s : Text} (h : Ends s) : ∀ b ∈ s.head?, isSymbolByte b = false :=
  fun b hb => ((byte_classes b).2.2.2.2.1 (h b hb)).1

theorem Ends.isDigit {s : Text} (h : Ends s) :
    ∀ b ∈ s.head?, Text.isDigit b = false ∧ b ≠ byte '.' :=
  fun b hb => ((byte_classes b).2.2.2.2.1 (h b hb)).2

theorem ends_cons {b : UInt8} (h : endsAtom b = true) (s : Text) : Ends (b :: s) := by
  intro c hc
  cases hc
  exact h

theorem IsSymbol.newline_not_mem {w : Text} (hw : IsSymbol w) : byte '\n' ∉ w := by
  obtain ⟨b, r, rfl, hb, hr⟩ := hw
  rintro (_ | ⟨_, hmem⟩)
  · exact absurd hb (by decide)
  · exact absurd (hr _ hmem) (by decide)

theorem newline_not_mem_numeral {n : Nat} {w : Text} (hw : w.IsNumeral n) : byte '\n' ∉ w := by
  obtain ⟨sign, body, whole, part, rfl, hbody, hsign⟩ := hw
  intro hmem
  rcases List.mem_append.mp hmem with hmem | hmem
  · rcases hsign with rfl | ⟨c, rfl, hc⟩
    · cases hmem
    · rw [← List.mem_singleton.mp hmem] at hc
      exact absurd hc (by decide)
  · rcases hbody.isDigit_or_eq _ hmem with hdigit | hpoint
    · exact absurd hdigit (by decide)
    · exact absurd hpoint (by decide)

theorem spells_symbol {w : Text} (hw : IsSymbol w) : Spells w [.symbol w] :=
  ⟨hw.newline_not_mem, fun _ hs => tokens_symbol hw hs.isSymbolByte⟩

theorem spells_numeral {n : Nat} {w : Text} (hw : w.IsNumeral n) : Spells w [.number w] :=
  ⟨newline_not_mem_numeral hw, fun _ hs => tokens_numeral hw hs.isDigit⟩

theorem spells_quote {t : Text} (h : (Utf8.glyphs t).all isReadable = true) :
    Spells (Text.quote t) [.string ((Utf8.glyphs t).flatMap reread)] :=
  ⟨newline_not_mem_quote h, fun s _ => tokens_quote h s⟩

theorem spells_nil : Spells [] [] := ⟨List.not_mem_nil, fun _ _ => rfl⟩

theorem newline_not_mem_between {w v : Text} {b : UInt8} (hb : byte '\n' ≠ b)
    (hw : byte '\n' ∉ w) (hv : byte '\n' ∉ v) : byte '\n' ∉ w ++ b :: v := by
  simp only [List.mem_append, List.mem_cons, not_or]
  exact ⟨hw, hb, hv⟩

/-- Texts with a blank between them. -/
theorem Spells.blank {w v : Text} {ts us : List Token} (hw : Spells w ts) (hv : Spells v us) :
    Spells (w ++ byte ' ' :: v) (ts ++ us) := by
  refine ⟨newline_not_mem_between (by decide) hw.line hv.line, fun s hs => ?_⟩
  rw [List.append_assoc, List.cons_append, hw.tokens_append _ (ends_cons rfl _), tokens_blank rfl,
    hv.tokens_append s hs]
  simp

/-- A text in front of a bracket, a colon or a comma. -/
theorem Spells.bracket {w v : Text} {ts us : List Token} (hw : Spells w ts) {b : UInt8}
    {tok : Token} (hb : bracket? b = some tok) (hv : Spells v us) :
    Spells (w ++ b :: v) (ts ++ tok :: us) := by
  have hends : endsAtom b = true := by rw [endsAtom, hb]; simp
  have hline : byte '\n' ≠ b := by
    rintro rfl
    cases hb
  refine ⟨newline_not_mem_between hline hw.line hv.line, fun s hs => ?_⟩
  rw [List.append_assoc, List.cons_append, hw.tokens_append _ (ends_cons hends _),
    tokens_bracket hb, hv.tokens_append s hs]
  simp

end Lexer

open Datum.Lexer (Spells)

/-! ### The grammar of data -/

mutual

/-- The tokens derive a datum. -/
inductive Derives : List Token → Datum → Prop
  | symbol (name : Text) : Derives [.symbol name] (.symbol name)
  | string (contents : Text) : Derives [.string contents] (.string contents)
  | number (spelling : Text) : Derives [.number spelling] (.number spelling)
  | ellipsis : Derives [.ellipsis] .ellipsis
  | list {ts : List Token} {ds : List Datum} :
    DeriveAll ts ds → Derives (.opening .round :: (ts ++ [.closing .round])) (.list ds)
  | array {ts : List Token} {ds : List Datum} :
    DeriveAll ts ds → Derives (.opening .square :: (ts ++ [.closing .square])) (.array ds)
  | map {ts : List Token} {es : List (Text × Datum)} :
    DeriveEntries ts es → Derives (.opening .curly :: (ts ++ [.closing .curly])) (.map es)

/-- The tokens derive data one after the other. -/
inductive DeriveAll : List Token → List Datum → Prop
  | nil : DeriveAll [] []
  | cons {ts us : List Token} {d : Datum} {ds : List Datum} :
    Derives ts d → DeriveAll us ds → DeriveAll (ts ++ us) (d :: ds)

/-- The tokens derive entries with commas between them, and one more at the end perhaps. -/
inductive DeriveEntries : List Token → List (Text × Datum) → Prop
  | nil : DeriveEntries [] []
  | last {tok : Token} {key : Text} {ts : List Token} {d : Datum} :
    Reader.key? tok = some key → Derives ts d → DeriveEntries (tok :: .colon :: ts) [(key, d)]
  | cons {tok : Token} {key : Text} {ts us : List Token} {d : Datum} {es : List (Text × Datum)} :
    Reader.key? tok = some key → Derives ts d → DeriveEntries us es →
      DeriveEntries (tok :: .colon :: (ts ++ .comma :: us)) ((key, d) :: es)

end

theorem Derives.exists_cons {ts : List Token} {d : Datum} (h : Derives ts d) :
    ∃ tok rest, ts = tok :: rest ∧ ∀ b, tok ≠ .closing b := by
  cases h <;> exact ⟨_, _, rfl, fun _ => nofun⟩

theorem DeriveAll.singleton {ts : List Token} {d : Datum} (h : Derives ts d) :
    DeriveAll ts [d] := by
  have := DeriveAll.cons h .nil
  rwa [List.append_nil] at this

theorem DeriveAll.append {ts us : List Token} {ds es : List Datum} (h : DeriveAll ts ds)
    (h' : DeriveAll us es) : DeriveAll (ts ++ us) (ds ++ es) := by
  match h with
  | .nil => exact h'
  | .cons hd hds =>
    rw [List.append_assoc]
    exact .cons hd (hds.append h')

namespace Reading

variable {α β : Type} {m n : Nat}

/-- What was read and the tokens behind it. -/
def value? : Reading α n → Option (α × List Token)
  | ok a rest _ => some (a, rest)
  | error _ _ => none

theorem value?_lift (h : m ≤ n) (r : Reading α m) : (r.lift h).value? = r.value? := by
  cases r <;> rfl

theorem value?_map (f : α → β) (r : Reading α n) :
    (r.map f).value? = r.value?.map fun p => (f p.1, p.2) := by
  cases r <;> rfl

theorem value?_bind {r : Reading α n} {a : α} {rest : List Token} (h : r.value? = some (a, rest))
    (f : α → (rest : List Token) → rest.length < n → Reading β n) :
    ∃ hlt, (r.bind f).value? = (f a rest hlt).value? := by
  cases r with
  | ok a' rest' hlt =>
    cases h
    exact ⟨hlt, rfl⟩
  | error => cases h

theorem value?_andThen {r : Reading α n} {a : α} {rest : List Token}
    (h : r.value? = some (a, rest))
    (f : α → (rest : List Token) → rest.length < n → Reading β rest.length) :
    ∃ hlt, (r.andThen f).value? = (f a rest hlt).value? := by
  obtain ⟨hlt, hbind⟩ := value?_bind h fun a rest h => (f a rest h).lift (Nat.le_of_lt h)
  exact ⟨hlt, hbind.trans (value?_lift _ _)⟩

end Reading

namespace Reader

theorem value?_take {α : Type} {tok : Token} {rest : List Token} {cause : Option Token → ReadCause}
    {accept : Token → Option α} {a : α} (h : accept tok = some a) :
    (take (tok :: rest) cause accept).value? = some (a, rest) := by
  rw [take]
  split
  · rename_i h'
    rw [h] at h'
    cases h'
    rfl
  · rename_i h'
    rw [h] at h'
    cases h'

/-- One entry and what stands behind it. -/
theorem value?_entries {tok : Token} {key : Text} {ts behind next : List Token} {d : Datum}
    (hkey : key? tok = some key) (hd : (datum (ts ++ behind)).value? = some (d, behind))
    (hnext : ∀ {n : Nat} (h : behind.length < n), (afterEntry behind h).value? = some ((), next)) :
    (entries (tok :: .colon :: (ts ++ behind))).value? =
      (entries next).value?.map fun p => ((key, d) :: p.1, p.2) := by
  have htok : tok ≠ .closing .curly := by
    rintro rfl
    cases hkey
  have hfirst : (take (tok :: .colon :: (ts ++ behind)) .expectedKey key?).value? =
      some (key, .colon :: (ts ++ behind)) := value?_take hkey
  have hcolon : (take (.colon :: (ts ++ behind)) .expectedColon fun t =>
      if t = .colon then some () else none).value? = some ((), ts ++ behind) := value?_take rfl
  rw [entries, if_neg htok]
  obtain ⟨h₁, hthen⟩ := Reading.value?_andThen hfirst _
  rw [hthen]
  obtain ⟨h₂, hthen⟩ := Reading.value?_andThen hcolon _
  rw [hthen]
  obtain ⟨h₃, hthen⟩ := Reading.value?_bind hd _
  rw [hthen]
  obtain ⟨h₄, hthen⟩ := Reading.value?_andThen (hnext h₃) _
  rw [hthen, Reading.value?_map]

mutual

/-- Tokens that derive a datum are read as that datum, up to where they end. -/
theorem datum_of_derives {ts : List Token} {d : Datum} (h : Derives ts d) (rest : List Token) :
    (datum (ts ++ rest)).value? = some (d, rest) := by
  match h with
  | .symbol name | .string contents | .number spelling | .ellipsis =>
    rw [List.singleton_append, datum]
    rfl
  | .list hds =>
    rw [List.cons_append, List.append_assoc, List.singleton_append, datum, Reading.value?_lift,
      Reading.value?_map, items_of_deriveAll hds .round rest]
    rfl
  | .array hds =>
    rw [List.cons_append, List.append_assoc, List.singleton_append, datum, Reading.value?_lift,
      Reading.value?_map, items_of_deriveAll hds .square rest]
    rfl
  | .map hes =>
    rw [List.cons_append, List.append_assoc, List.singleton_append, datum, Reading.value?_lift,
      Reading.value?_map, entries_of_deriveEntries hes rest]
    rfl

theorem items_of_deriveAll {ts : List Token} {ds : List Datum} (h : DeriveAll ts ds)
    (b : Bracket) (rest : List Token) :
    (items b (ts ++ .closing b :: rest)).value? = some (ds, rest) := by
  match h with
  | .nil =>
    rw [List.nil_append, items, if_pos rfl]
    rfl
  | @DeriveAll.cons ts us d ds hd hds =>
    have hdatum := datum_of_derives hd (us ++ .closing b :: rest)
    obtain ⟨tok, tail, rfl, htok⟩ := hd.exists_cons
    rw [List.append_assoc, List.cons_append, items, if_neg (htok b)]
    obtain ⟨hlt, hthen⟩ := Reading.value?_andThen hdatum fun d rest' _ =>
      (items b rest').map fun ds => d :: ds
    rw [List.cons_append] at hthen
    rw [hthen, Reading.value?_map, items_of_deriveAll hds b rest]
    rfl

theorem entries_of_deriveEntries {ts : List Token} {es : List (Text × Datum)}
    (h : DeriveEntries ts es) (rest : List Token) :
    (entries (ts ++ .closing .curly :: rest)).value? = some (es, rest) := by
  match h with
  | .nil =>
    rw [List.nil_append, entries, if_pos rfl]
    rfl
  | @DeriveEntries.last tok key ts d hkey hd =>
    have hnext {n : Nat} (h : (.closing .curly :: rest : List Token).length < n) :
        (afterEntry (.closing .curly :: rest) h).value? = some ((), .closing .curly :: rest) := rfl
    rw [List.cons_append, List.cons_append, value?_entries hkey (datum_of_derives hd _) hnext,
      entries, if_pos rfl]
    rfl
  | @DeriveEntries.cons tok key ts us d es hkey hd hes =>
    have hnext {n : Nat} (h : (.comma :: (us ++ .closing .curly :: rest) : List Token).length < n) :
        (afterEntry (.comma :: (us ++ .closing .curly :: rest)) h).value? =
          some ((), us ++ .closing .curly :: rest) := rfl
    rw [List.cons_append, List.cons_append, List.append_assoc, List.cons_append,
      value?_entries hkey (datum_of_derives hd _) hnext, entries_of_deriveEntries hes rest]
    rfl

end

end Reader

/-! ### Written data -/

/-- The text is read as the data `ds` one after the other, whatever stands behind it. -/
def Written (w : Text) (ds : List Datum) : Prop := ∃ ts, Spells w ts ∧ DeriveAll ts ds

theorem Written.derives {w : Text} {d : Datum} (h : Written w [d]) :
    ∃ ts, Spells w ts ∧ Derives ts d := by
  obtain ⟨ts, hts, hds⟩ := h
  cases hds with
  | @cons ts us _ _ hd hnil =>
    cases hnil
    rw [List.append_nil] at hts
    exact ⟨ts, hts, hd⟩

/-- A text that one datum is written in is read as that datum. -/
theorem read_of_written {w : Text} {d : Datum} (h : Written w [d]) : read w = .ok d := by
  obtain ⟨ts, hts, hd⟩ := h.derives
  have htokens : Lexer.tokens w = (ts, none) := by
    simpa [Lexer.tokens_nil] using hts.tokens_append [] nofun
  have hdatum := Reader.datum_of_derives hd []
  rw [List.append_nil] at hdatum
  rw [read, htokens]
  simp only
  rcases hr : Reader.datum ts with ⟨d', rest, hlt⟩ | ⟨cause, stop⟩
  · rw [hr] at hdatum
    cases hdatum
    rfl
  · rw [hr] at hdatum
    cases hdatum

theorem written_atom {w : Text} {tok : Token} {d : Datum} (hw : Spells w [tok])
    (hd : Derives [tok] d) : Written w [d] := ⟨[tok], hw, .singleton hd⟩

theorem written_symbol {w : Text} (h : Lexer.IsSymbol w) : Written w [.symbol w] :=
  written_atom (Lexer.spells_symbol h) (.symbol w)

theorem written_numeral {n : Nat} {w : Text} (h : w.IsNumeral n) : Written w [.number w] :=
  written_atom (Lexer.spells_numeral h) (.number w)

theorem written_quote {t : Text} (h : (Utf8.glyphs t).all Lexer.isReadable = true) :
    Written (Text.quote t) [.string ((Utf8.glyphs t).flatMap Lexer.reread)] :=
  written_atom (Lexer.spells_quote h) (.string _)

/-- Data with blanks between them. -/
theorem written_join {ws : List Text} {dss : List (List Datum)}
    (h : List.Forall₂ Written ws dss) : Written (Text.join " " ws) dss.flatten := by
  induction h with
  | nil => exact ⟨[], Lexer.spells_nil, .nil⟩
  | @cons w ds ws dss hw hws ih =>
    cases hws with
    | nil =>
      rw [List.flatten_cons, List.flatten_nil, List.append_nil]
      exact hw
    | cons hv hws =>
      obtain ⟨ts, hts, hds⟩ := hw
      obtain ⟨us, hus, hes⟩ := ih
      refine ⟨ts ++ us, ?_, hds.append hes⟩
      rw [Text.join, List.append_assoc]
      · exact hts.blank hus
      · simp

theorem Written.list {w : Text} {ds : List Datum} (h : Written w ds) :
    Written ("(" ++ w ++ ")") [.list ds] := by
  obtain ⟨ts, hts, hds⟩ := h
  have hclose : Spells (w ++ [byte ')']) (ts ++ [.closing .round]) :=
    hts.bracket rfl Lexer.spells_nil
  have hopen : Lexer.bracket? (byte '(') = some (.opening .round) := rfl
  exact ⟨_, Lexer.spells_nil.bracket hopen hclose, .singleton (.list hds)⟩

theorem Written.array {w : Text} {ds : List Datum} (h : Written w ds) :
    Written ("[" ++ w ++ "]") [.array ds] := by
  obtain ⟨ts, hts, hds⟩ := h
  have hclose : Spells (w ++ [byte ']']) (ts ++ [.closing .square]) :=
    hts.bracket rfl Lexer.spells_nil
  have hopen : Lexer.bracket? (byte '[') = some (.opening .square) := rfl
  exact ⟨_, Lexer.spells_nil.bracket hopen hclose, .singleton (.array hds)⟩

theorem spells_entry {key v : Text} {ts : List Token} (hkey : Spells key [.symbol key])
    (hv : Spells v ts) : Spells (key ++ ": " ++ v) (.symbol key :: .colon :: ts) := by
  have hcolon : Lexer.bracket? (byte ':') = some .colon := rfl
  have hblank : Spells (byte ' ' :: v) ts := Lexer.spells_nil.blank hv
  rw [List.append_assoc]
  exact hkey.bracket hcolon hblank

theorem written_entries {es : List (Text × Datum)}
    (h : ∀ e ∈ es, Spells e.1 [.symbol e.1] ∧ ∃ ts, Spells e.2.render ts ∧ Derives ts e.2) :
    ∃ ts, Spells (Text.join ", " (renderEntries es)) ts ∧ DeriveEntries ts es := by
  induction es with
  | nil => exact ⟨[], Lexer.spells_nil, .nil⟩
  | cons e es ih =>
    obtain ⟨⟨hkey, ts, hts, hd⟩, hes⟩ := List.forall_mem_cons.mp h
    obtain ⟨us, hus, hderive⟩ := ih hes
    cases es with
    | nil => exact ⟨_, spells_entry hkey hts, .last rfl hd⟩
    | cons e' es =>
      have hcomma : Lexer.bracket? (byte ',') = some .comma := rfl
      have hblank : Spells (byte ' ' :: Text.join ", " (renderEntries (e' :: es))) us :=
        Lexer.spells_nil.blank hus
      refine ⟨.symbol e.1 :: .colon :: (ts ++ .comma :: us), ?_, .cons rfl hd hderive⟩
      rw [renderEntries, Text.join, List.append_assoc]
      · exact (spells_entry hkey hts).bracket hcomma hblank
      · simp [renderEntries]

/-- A map whose keys are symbols and whose values are read back is read back. -/
theorem written_map {es : List (Text × Datum)}
    (h : ∀ e ∈ es, Spells e.1 [.symbol e.1] ∧ Written e.2.render [e.2]) :
    Written (Datum.map es).render [.map es] := by
  obtain ⟨ts, hts, hes⟩ := written_entries fun e he => ⟨(h e he).1, (h e he).2.derives⟩
  have hclose : Spells (Text.join ", " (renderEntries es) ++ [0x7D]) (ts ++ [.closing .curly]) :=
    hts.bracket rfl Lexer.spells_nil
  have hopen : Lexer.bracket? 0x7B = some (.opening .curly) := rfl
  exact ⟨_, Lexer.spells_nil.bracket hopen hclose, .singleton (.map hes)⟩

end Augite.Datum
