import Mathlib
import Augite.Token.Lexer

/-!
# Words and the space between them

A text spells a lexeme if it is read as that lexeme wherever white space or the end of the
source follows it. Every lexeme is spelled by the bytes it was read from, so that words can
be laid out again with other white space and comments between them.
-/

namespace Augite.Lexer

/-! ### Ends of words -/

/-- No word goes on into the text: it is empty or starts with white space. -/
def Breaks : Text → Prop
  | [] => True
  | b :: _ => isSpace b = true

theorem eq_of_isSpace {b : UInt8} (h : isSpace b = true) : b = 32 ∨ b = 9 ∨ b = 10 ∨ b = 13 := by
  simp only [isSpace, Bool.or_eq_true, beq_iff_eq] at h
  obtain ((h | h) | h) | h := h <;> subst h
  · exact .inl rfl
  · exact .inr (.inl rfl)
  · exact .inr (.inr (.inl rfl))
  · exact .inr (.inr (.inr rfl))

/-- A predicate on bytes that no white space satisfies. -/
def Visible (p : UInt8 → Bool) : Prop := ∀ b, isSpace b = true → p b = false

theorem visible_isDigit : Visible Text.isDigit := by
  intro b hb
  obtain rfl | rfl | rfl | rfl := eq_of_isSpace hb <;> rfl

theorem visible_wordByte : Visible fun b => Text.isLetter b || Text.isDigit b := by
  intro b hb
  obtain rfl | rfl | rfl | rfl := eq_of_isSpace hb <;> rfl

section

variable {p : UInt8 → Bool} {w s : Text}

theorem takeWhile_of_breaks (hp : Visible p) (hs : Breaks s) : s.takeWhile p = [] := by
  cases s with
  | nil => rfl
  | cons b r => exact List.takeWhile_cons_of_neg (by simp [hp b hs])

theorem takeWhile_append_breaks (hp : Visible p) (hw : ∀ b ∈ w, p b = true) (hs : Breaks s) :
    (w ++ s).takeWhile p = w := by
  rw [List.takeWhile_append_of_pos hw, takeWhile_of_breaks hp hs, List.append_nil]

theorem dropWhile_append_breaks (hp : Visible p) (hw : ∀ b ∈ w, p b = true) (hs : Breaks s) :
    (w ++ s).dropWhile p = s := by
  rw [List.dropWhile_append_of_pos hw]
  cases s with
  | nil => rfl
  | cons b r => exact List.dropWhile_cons_of_neg (by simp [hp b hs])

end

/-! ### Symbols -/

theorem symbol_first (x : Symbol) : ∃ b r, x.spelling = b :: r ∧ Text.isLetter b = false ∧
    Text.isDigit b = false ∧ b ≠ byte '"' ∧ b ≠ byte '\'' := by
  cases x <;> exact ⟨_, _, rfl, rfl, rfl, by decide, by decide⟩

theorem ofPrefix?_spelling (x : Symbol) {s : Text} (hs : Breaks s) :
    Symbol.ofPrefix? (x.spelling ++ s) = some x := by
  cases s with
  | nil => cases x <;> rfl
  | cons b r => obtain rfl | rfl | rfl | rfl := eq_of_isSpace hs <;> cases x <;> rfl

theorem triviaLength_spelling (x : Symbol) {s : Text} (hs : Breaks s) :
    triviaLength false (x.spelling ++ s) = 0 := by
  cases s with
  | nil => cases x <;> rfl
  | cons b r => obtain rfl | rfl | rfl | rfl := eq_of_isSpace hs <;> cases x <;> rfl

/-! ### Spellings -/

/-- The text is read as the lexeme wherever no word goes on behind it. -/
def Spells (w : Text) (l : Lexeme) : Prop :=
  ∃ b r, w = b :: r ∧ ∀ s, Breaks s →
    triviaLength false (w ++ s) = 0 ∧ lexeme b (r ++ s) = (.ok l, w.length)

theorem spells_symbol (x : Symbol) : Spells x.spelling (.symbol x) := by
  obtain ⟨b, r, hx, _⟩ := symbol_first x
  refine ⟨b, r, hx, fun s hs => ⟨triviaLength_spelling x hs, ?_⟩⟩
  have hprefix := ofPrefix?_spelling x hs
  rw [hx] at hprefix
  unfold lexeme
  simp only [← List.cons_append, hprefix]

/-- The byte starts a word, a number or a literal in quotes. -/
def Opens (b : UInt8) : Prop :=
  Text.isLetter b = true ∨ Text.isDigit b = true ∨ b = byte '"' ∨ b = byte '\''

theorem ofPrefix?_of_opens {b : UInt8} (h : Opens b) (rest : Text) :
    Symbol.ofPrefix? (b :: rest) = none := by
  rw [Symbol.ofPrefix?, List.find?_eq_none]
  intro x _ hx
  obtain ⟨c, r, hcr, hletter, hdigit, hquote, happ⟩ := symbol_first x
  rw [hcr, List.isPrefixOf, Bool.and_eq_true, beq_iff_eq] at hx
  obtain ⟨rfl, _⟩ := hx
  obtain h | h | h | h := h
  · rw [h] at hletter
    cases hletter
  · rw [h] at hdigit
    cases hdigit
  · exact hquote h
  · exact happ h

theorem triviaLength_of_opens {b : UInt8} (h : Opens b) (rest : Text) :
    triviaLength false (b :: rest) = 0 := by
  have hspace : isSpace b = false := by
    by_contra hb
    obtain rfl | rfl | rfl | rfl := eq_of_isSpace (by simpa using hb) <;>
      obtain h | h | h | h := h <;> cases h
  have hslash : b ≠ byte '/' := by
    rintro rfl
    obtain h | h | h | h := h <;> cases h
  simp [triviaLength, hspace, hslash]

theorem spells_word {b : UInt8} {r : Text} (hb : Text.isLetter b = true)
    (hr : ∀ c ∈ r, (Text.isLetter c || Text.isDigit c) = true) :
    Spells (b :: r) (.ofWord (b :: r)) := by
  have hword : ∀ c ∈ b :: r, (Text.isLetter c || Text.isDigit c) = true :=
    List.forall_mem_cons.mpr ⟨by rw [hb, Bool.true_or], hr⟩
  refine ⟨b, r, rfl, fun s hs => ⟨triviaLength_of_opens (.inl hb) _, ?_⟩⟩
  unfold lexeme
  rw [ofPrefix?_of_opens (.inl hb)]
  simp only [hb, if_true, ← List.cons_append, takeWhile_append_breaks visible_wordByte hword hs]

/-! ### Numbers -/

theorem lexeme_of_isDigit {b : UInt8} (hb : Text.isDigit b = true) (rest : Text) :
    lexeme b rest = number (b :: rest) := by
  have hletter : Text.isLetter b = false := by
    simp only [Text.isDigit, Bool.and_eq_true, decide_eq_true_eq, UInt8.le_iff_toNat_le] at hb
    have hunderscore : b ≠ 95 := by
      rintro rfl
      exact absurd hb.2 (by decide)
    simp [Text.isLetter, UInt8.le_iff_toNat_le, hunderscore] at hb ⊢
    omega
  unfold lexeme
  rw [ofPrefix?_of_opens (.inr (.inl hb))]
  simp only [hletter, hb, if_true, Bool.false_eq_true, if_false]

theorem fraction_of_breaks {s : Text} (hs : Breaks s) : fraction s = [] := by
  match s, hs with
  | [], _ => rfl
  | [_], _ => rfl
  | b :: c :: r, hs =>
    have hb : b ≠ byte '.' := by
      rintro rfl
      cases hs
    simp [fraction, hb]

theorem fraction_point {fs s : Text} (hfs : fs ≠ []) (hdigits : ∀ b ∈ fs, Text.isDigit b = true)
    (hs : Breaks s) : fraction (byte '.' :: (fs ++ s)) = byte '.' :: fs := by
  obtain ⟨d, ds, rfl⟩ := List.exists_cons_of_ne_nil hfs
  have hd := hdigits d List.mem_cons_self
  have htake := takeWhile_append_breaks visible_isDigit hdigits hs
  rw [List.cons_append] at htake ⊢
  simp only [fraction, hd, and_self, if_true, htake]

theorem number_whole {ds s : Text} (hdigits : ∀ b ∈ ds, Text.isDigit b = true) (hs : Breaks s) :
    number (ds ++ s) = (intOf ds, ds.length) := by
  unfold number
  rw [takeWhile_append_breaks visible_isDigit hdigits hs,
    dropWhile_append_breaks visible_isDigit hdigits hs, fraction_of_breaks hs]
  rfl

theorem number_fraction {ds fs s : Text} (hds : ∀ b ∈ ds, Text.isDigit b = true) (hfs : fs ≠ [])
    (hdigits : ∀ b ∈ fs, Text.isDigit b = true) (hs : Breaks s) :
    number (ds ++ byte '.' :: fs ++ s) =
      (floatOf (ds ++ byte '.' :: fs), ds.length + fs.length + 1) := by
  have hpoint : ¬ Text.isDigit (byte '.') = true := by decide
  unfold number
  rw [List.append_assoc, List.takeWhile_append_of_pos hds, List.dropWhile_append_of_pos hds,
    List.cons_append, List.takeWhile_cons_of_neg hpoint, List.dropWhile_cons_of_neg hpoint,
    fraction_point hfs hdigits hs, List.append_nil]
  simp [Nat.add_assoc]

theorem spells_int {ds : Text} {l : Lexeme} (hne : ds ≠ [])
    (hdigits : ∀ b ∈ ds, Text.isDigit b = true) (hl : intOf ds = .ok l) : Spells ds l := by
  obtain ⟨b, r, rfl⟩ := List.exists_cons_of_ne_nil hne
  have hb := hdigits b List.mem_cons_self
  refine ⟨b, r, rfl, fun s hs => ⟨triviaLength_of_opens (.inr (.inl hb)) _, ?_⟩⟩
  rw [lexeme_of_isDigit hb, ← List.cons_append, number_whole hdigits hs, hl]

theorem spells_float {ds fs : Text} {l : Lexeme} (hne : ds ≠ [])
    (hds : ∀ b ∈ ds, Text.isDigit b = true) (hfs : fs ≠ [])
    (hdigits : ∀ b ∈ fs, Text.isDigit b = true) (hl : floatOf (ds ++ byte '.' :: fs) = .ok l) :
    Spells (ds ++ byte '.' :: fs) l := by
  obtain ⟨b, r, rfl⟩ := List.exists_cons_of_ne_nil hne
  have hb := hds b List.mem_cons_self
  refine ⟨b, r ++ byte '.' :: fs, rfl,
    fun s hs => ⟨triviaLength_of_opens (.inr (.inl hb)) _, ?_⟩⟩
  rw [lexeme_of_isDigit hb, ← List.cons_append, ← List.cons_append, number_fraction hds hfs hdigits hs,
    hl]
  simp
  omega

/-! ### Literals in quotes -/

section

variable {mark : UInt8} {t contents : Text} {n : Nat}

theorem quoted_close (hmark : mark ≠ byte '\n') (s : Text) :
    quoted mark (mark :: s) = (.ok [], 1) := by
  unfold quoted
  simp [hmark]

theorem quoted_plain {b : UInt8} (hline : b ≠ byte '\n') (hmark : b ≠ mark) (hslash : b ≠ byte '\\')
    (h : quoted mark t = (.ok contents, n)) :
    quoted mark (b :: t) = (.ok (b :: contents), n + 1) := by
  unfold quoted
  simp [hline, hmark, hslash, h, Except.map]

theorem quoted_escape {e v : UInt8} (hmark : mark ≠ byte '\\') (hv : escape? e = some v)
    (h : quoted mark t = (.ok contents, n)) :
    quoted mark (byte '\\' :: e :: t) = (.ok (v :: contents), n + 2) := by
  have hline : byte '\\' ≠ byte '\n' := by decide
  unfold quoted
  simp [hline, hmark.symm, hv, h, Except.map]

/-- The bytes that a literal in quotes was read from are enough to read it. -/
theorem quoted_append (h : quoted mark t = (.ok contents, n)) (s : Text) :
    n ≤ t.length ∧ quoted mark (t.take n ++ s) = (.ok contents, n) := by
  fun_induction quoted mark t generalizing contents n with
  | case1 => cases h
  | case2 => cases h
  | case3 rest hline =>
    cases h
    exact ⟨by simp, quoted_close hline s⟩
  | case4 => cases h
  | case5 => cases h
  | case6 e rest v hv inner m hinner _ hmark ih =>
    rcases inner with _ | inner
    · cases h
    · cases h
      obtain ⟨hle, htake⟩ := ih hinner
      exact ⟨by simpa using hle, quoted_escape (Ne.symm hmark) hv htake⟩
  | case7 b rest hline hmark hslash inner m hinner ih =>
    rcases inner with _ | inner
    · cases h
    · cases h
      obtain ⟨hle, htake⟩ := ih hinner
      exact ⟨by simpa using hle, quoted_plain hline hmark hslash htake⟩

end

theorem spells_string {t contents : Text} (h : quoted (byte '"') t = (.ok contents, t.length)) :
    Spells (byte '"' :: t) (.string contents) := by
  refine ⟨byte '"', t, rfl, fun s _ => ⟨triviaLength_of_opens (by simp [Opens]) _, ?_⟩⟩
  have hq := (quoted_append h s).2
  rw [List.take_length] at hq
  unfold lexeme
  rw [ofPrefix?_of_opens (by simp [Opens])]
  simp only [hq]
  rfl

theorem spells_char {t : Text} {b : UInt8} (h : quoted (byte '\'') t = (.ok [b], t.length)) :
    Spells (byte '\'' :: t) (.char b) := by
  refine ⟨byte '\'', t, rfl, fun s _ => ⟨triviaLength_of_opens (by simp [Opens]) _, ?_⟩⟩
  have hq := (quoted_append h s).2
  rw [List.take_length] at hq
  unfold lexeme
  rw [ofPrefix?_of_opens (by simp [Opens])]
  simp only [hq]
  rfl

/-! ### Lexemes as they were read -/

/-- A fraction, if there is one, is a point and digits. -/
theorem fraction_cases (t : Text) : fraction t = [] ∨ ∃ fs, fraction t = byte '.' :: fs ∧ fs ≠ [] ∧
    (∀ b ∈ fs, Text.isDigit b = true) ∧ byte '.' :: fs <+: t := by
  match t with
  | [] => exact .inl rfl
  | [_] => exact .inl rfl
  | b :: d :: rest =>
    by_cases h : b = byte '.' ∧ Text.isDigit d = true
    · refine .inr ⟨(d :: rest).takeWhile Text.isDigit, ?_, ?_, fun c hc => ?_, ?_⟩
      · rw [fraction, if_pos h, h.1]
      · rw [List.takeWhile_cons_of_pos h.2]
        exact List.cons_ne_nil _ _
      · exact List.mem_takeWhile_imp (p := Text.isDigit) hc
      · rw [h.1]
        exact List.cons_prefix_cons.mpr ⟨rfl, List.takeWhile_prefix _⟩
    · exact .inl (by rw [fraction, if_neg h])

theorem spells_number {b : UInt8} {rest : Text} (hb : Text.isDigit b = true) {l : Lexeme} {n : Nat}
    (h : number (b :: rest) = (.ok l, n)) :
    ∃ w, w <+: b :: rest ∧ w.length = n ∧ Spells w l := by
  have hwhole : (b :: rest).takeWhile Text.isDigit ≠ [] := by
    rw [List.takeWhile_cons_of_pos hb]
    exact List.cons_ne_nil _ _
  have hdigits : ∀ c ∈ (b :: rest).takeWhile Text.isDigit, Text.isDigit c = true :=
    fun c hc => List.mem_takeWhile_imp (p := Text.isDigit) hc
  unfold number at h
  obtain hpart | ⟨fs, hpart, hfs, hfdigits, hprefix⟩ :=
    fraction_cases ((b :: rest).dropWhile Text.isDigit)
  · simp only [hpart, if_true, Prod.mk.injEq] at h
    exact ⟨_, List.takeWhile_prefix _, h.2, spells_int hwhole hdigits h.1⟩
  · simp only [hpart, reduceCtorEq, if_false, Prod.mk.injEq] at h
    refine ⟨_, ?_, ?_, spells_float hwhole hdigits hfs hfdigits h.1⟩
    · obtain ⟨s, hs⟩ := hprefix
      refine ⟨s, ?_⟩
      rw [List.append_assoc, hs, List.takeWhile_append_dropWhile]
    · rw [List.length_append, h.2]

/-- Every lexeme is spelled by the bytes it was read from. -/
theorem exists_spells {b : UInt8} {rest : Text} {l : Lexeme} {n : Nat}
    (h : lexeme b rest = (.ok l, n)) :
    ∃ w, w <+: b :: rest ∧ w.length = n ∧ Spells w l := by
  unfold lexeme at h
  split at h
  · rename_i x hx
    cases h
    have hprefix := List.find?_some (p := fun y : Symbol => y.spelling.isPrefixOf (b :: rest)) hx
    exact ⟨_, List.isPrefixOf_iff_prefix.mp hprefix, rfl, spells_symbol x⟩
  · split at h
    · rename_i hletter
      cases h
      refine ⟨_, List.takeWhile_prefix _, rfl, ?_⟩
      rw [List.takeWhile_cons_of_pos (by rw [hletter, Bool.true_or])]
      refine spells_word hletter fun c hc => ?_
      exact List.mem_takeWhile_imp (p := fun c => Text.isLetter c || Text.isDigit c) hc
    · split at h
      · rename_i hdigit
        exact spells_number hdigit h
      · split at h
        · rename_i hb
          subst hb
          rcases hq : quoted (byte '"') rest with ⟨_ | contents, m⟩ <;> rw [hq] at h <;> cases h
          obtain ⟨hle, htake⟩ := quoted_append hq []
          rw [List.append_nil] at htake
          refine ⟨byte '"' :: rest.take m, ?_, by simpa using hle, spells_string ?_⟩
          · exact List.cons_prefix_cons.mpr ⟨rfl, List.take_prefix _ _⟩
          · rw [htake, List.length_take_of_le hle]
        · split at h
          · rename_i hb
            subst hb
            rcases hq : quoted (byte '\'') rest with ⟨_ | contents, m⟩
            · rw [hq] at h
              cases h
            · rw [hq] at h
              obtain ⟨hle, htake⟩ := quoted_append hq []
              rw [List.append_nil] at htake
              obtain ⟨hl, rfl⟩ := Prod.mk.inj h
              match contents, hl, htake with
              | [c], hl, htake =>
                cases hl
                refine ⟨byte '\'' :: rest.take m, ?_, by simpa using hle, spells_char ?_⟩
                · exact List.cons_prefix_cons.mpr ⟨rfl, List.take_prefix _ _⟩
                · rw [htake, List.length_take_of_le hle]
          · cases h

end Augite.Lexer
