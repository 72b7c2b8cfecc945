import Mathlib
import Augite.Datum.Match
import Augite.Datum.Token
import Augite.Proofs.Rendering

/-!
# Numerals

A numeral has digits, a point with more digits behind it perhaps, and a sign in front of it
perhaps. Unless very many digits stand before the point, it denotes a finite double, and a
numeral that denotes a double is the same number as itself.
-/

namespace Augite

namespace Double

/-! ### The nearest double -/

theorem toNat_bits_assemble (negative : Bool) {field fraction : Nat} (hfield : field < 2048)
    (hfraction : fraction < leadingBit) :
    (assemble negative field fraction).bits.toNat =
      (if negative then signBit else 0) + field * leadingBit + fraction := by
  have hlt : (if negative then signBit else 0) + field * leadingBit + fraction < 2 ^ 64 := by
    simp only [leadingBit, signBit] at *
    split <;> omega
  simp only [assemble, Nat.toUInt64, UInt64.toNat_ofNat', Nat.mod_eq_of_lt hlt]

theorem exponentField_assemble (negative : Bool) {field fraction : Nat} (hfield : field < 2048)
    (hfraction : fraction < leadingBit) :
    (assemble negative field fraction).exponentField = field := by
  rw [exponentField, toNat_bits_assemble negative hfield hfraction]
  simp only [leadingBit, signBit] at *
  split <;> omega

theorem scaled_snd_pos {den : Nat} (hden : 0 < den) (num : Nat) (e : Int) :
    0 < (scaled num den e).2 := by
  unfold scaled
  split
  · exact Nat.mul_pos hden (Nat.pow_pos (by decide))
  · exact hden

/-- Scaling divides by a power of two. -/
theorem scaled_div (num den : Nat) (e : Int) :
    ((scaled num den e).1 : ℚ) / (scaled num den e).2 = num / den / 2 ^ e := by
  unfold scaled
  split
  · rename_i he
    obtain ⟨n, rfl⟩ := Int.eq_ofNat_of_zero_le he
    simp [div_div]
  · rename_i he
    obtain ⟨n, hn⟩ := Int.eq_ofNat_of_zero_le (show 0 ≤ -e by omega)
    obtain rfl : e = -(n : Int) := by omega
    simp
    ring

theorem scaled_lt_iff {den : Nat} (hden : 0 < den) (num : Nat) (e : Int) (k : Nat) :
    (scaled num den e).1 / (scaled num den e).2 < 2 ^ k ↔ (num : ℚ) / den < 2 ^ (k + e) := by
  have hpos := scaled_snd_pos hden num e
  have hposq : (0 : ℚ) < (scaled num den e).2 := by exact_mod_cast hpos
  have htwo : (0 : ℚ) < 2 ^ e := by positivity
  have hcast : ((2 ^ k : Nat) : ℚ) = 2 ^ k := by norm_cast
  rw [Nat.div_lt_iff_lt_mul hpos, zpow_add₀ two_ne_zero, ← div_lt_iff₀ htwo, ← scaled_div,
    div_lt_iff₀ hposq, zpow_natCast, ← hcast]
  norm_cast

/-- At the exponent that is aimed at, a significand has at most fifty-three bits. -/
theorem scaled_targetExponent_lt {num den : Nat} (hnum : num ≠ 0) (hden : 0 < den) :
    (scaled num den (targetExponent num den)).1 / (scaled num den (targetExponent num den)).2 <
      2 * leadingBit := by
  have hbit : leadingBit = 2 ^ 52 := rfl
  have hfirst : (num : ℚ) / den < 2 ^ ((53 : Nat) + ((Nat.log2 num : Int) - Nat.log2 den - 52)) := by
    have hlow : (2 : ℚ) ^ Nat.log2 den ≤ den := by exact_mod_cast Nat.log2_self_le hden.ne'
    have hhigh : (num : ℚ) < 2 ^ (Nat.log2 num + 1) := by exact_mod_cast Nat.lt_log2_self
    have hposq : (0 : ℚ) < den := by exact_mod_cast hden
    have hsum : ((53 : Nat) + ((Nat.log2 num : Int) - Nat.log2 den - 52)) =
        ((Nat.log2 num + 1 : Nat) : Int) - (Nat.log2 den : Nat) := by push_cast; ring
    rw [hsum, zpow_sub₀ two_ne_zero, zpow_natCast, zpow_natCast, div_lt_div_iff₀ hposq (by positivity)]
    calc (num : ℚ) * 2 ^ Nat.log2 den ≤ num * den := by gcongr
      _ < 2 ^ (Nat.log2 num + 1) * den := by gcongr
  rw [show 2 * leadingBit = 2 ^ 53 from rfl, scaled_lt_iff hden]
  have hmono {a b : Int} (hab : a ≤ b) : (2 : ℚ) ^ a ≤ 2 ^ b := zpow_le_zpow_right₀ one_le_two hab
  simp only [targetExponent]
  split
  · rename_i hsmall
    rw [hbit, scaled_lt_iff hden] at hsmall
    refine hsmall.trans_le (hmono ?_)
    push_cast
    omega
  · exact hfirst.trans_le (hmono (by omega))

theorem roundedQuotient_le (num den : Nat) : roundedQuotient num den ≤ num / den + 1 := by
  simp only [roundedQuotient]
  split
  · omega
  · split <;> omega

/-- The double with a given significand, which may be one too great, and exponent. -/
def packed? (negative : Bool) (m : Nat) (e : Int) : Option Double :=
  let (m, e) := if m = 2 * leadingBit then (leadingBit, e + 1) else (m, e)
  if m < leadingBit then some (assemble negative 0 m)
  else
    let field := (e + 1075).toNat
    if field < 2047 then some (assemble negative field (m - leadingBit)) else none

theorem ofRatio?_eq (negative : Bool) {num : Nat} (hnum : num ≠ 0) (den : Nat) :
    ofRatio? negative num den =
      packed? negative (roundedQuotient (scaled num den (targetExponent num den)).1
        (scaled num den (targetExponent num den)).2) (targetExponent num den) := by
  rw [ofRatio?, if_neg hnum]
  rfl

theorem isFinite_assemble (negative : Bool) {field fraction : Nat} (hfield : field < 2047)
    (hfraction : fraction < leadingBit) : (assemble negative field fraction).isFinite = true := by
  rw [isFinite, exponentField_assemble negative (by omega) hfraction]
  exact decide_eq_true hfield

theorem isNaN_of_isFinite {d : Double} (h : d.isFinite = true) : d.isNaN = false := by
  have hfield : d.exponentField < 2047 := of_decide_eq_true h
  simp only [isNaN, Bool.and_eq_false_iff, beq_eq_false_iff_ne]
  omega

theorem isFinite_of_packed? {negative : Bool} {m : Nat} (hm : m ≤ 2 * leadingBit) {e : Int}
    {d : Double} (h : packed? negative m e = some d) : d.isFinite = true := by
  have hbit : 0 < leadingBit := by decide
  by_cases hcarry : m = 2 * leadingBit
  · simp only [packed?, hcarry, if_true, lt_irrefl, if_false, Nat.sub_self] at h
    split at h
    · rename_i hfield
      rw [← Option.some.inj h]
      exact isFinite_assemble negative hfield hbit
    · cases h
  · simp only [packed?, hcarry, if_false] at h
    split at h
    · rename_i hlt
      cases h
      exact isFinite_assemble negative (by decide) hlt
    · split at h
      · rename_i hfield
        rw [← Option.some.inj h]
        exact isFinite_assemble negative hfield (by omega)
      · cases h

theorem exists_packed? (negative : Bool) (m : Nat) {e : Int} (he : e ≤ 948) :
    ∃ d, packed? negative m e = some d := by
  have hfield : (e + 1075).toNat < 2047 := by omega
  have hcarried : (e + 1 + 1075).toNat < 2047 := by omega
  by_cases hcarry : m = 2 * leadingBit
  · simp only [packed?, hcarry, if_true, lt_irrefl, if_false, if_pos hcarried]
    exact ⟨_, rfl⟩
  · simp only [packed?, hcarry, if_false, if_pos hfield]
    split <;> exact ⟨_, rfl⟩

/-- What is nearest to a quotient is finite. -/
theorem isFinite_of_ofRatio? {negative : Bool} {num den : Nat} (hden : 0 < den) {d : Double}
    (h : ofRatio? negative num den = some d) : d.isFinite = true := by
  by_cases hnum : num = 0
  · rw [ofRatio?, if_pos hnum] at h
    cases h
    exact isFinite_assemble negative (by decide) (by decide)
  · have hlt := scaled_targetExponent_lt hnum hden
    have hround := roundedQuotient_le (scaled num den (targetExponent num den)).1
      (scaled num den (targetExponent num den)).2
    rw [ofRatio?_eq negative hnum] at h
    exact isFinite_of_packed? (by omega) h

theorem targetExponent_le {num den : Nat} (hnum : num ≠ 0) (h : num < 2 ^ 1000 * den) :
    targetExponent num den ≤ 948 := by
  have hpow : 2 ^ Nat.log2 num < 2 ^ (Nat.log2 den + 1001) := by
    calc 2 ^ Nat.log2 num ≤ num := Nat.log2_self_le hnum
      _ < 2 ^ 1000 * den := h
      _ ≤ 2 ^ 1000 * 2 ^ (Nat.log2 den + 1) := Nat.mul_le_mul_left _ Nat.lt_log2_self.le
      _ = 2 ^ (Nat.log2 den + 1001) := by rw [← pow_add]; congr 1; omega
  have hlog := (Nat.pow_lt_pow_iff_right (by decide : 1 < 2)).mp hpow
  simp only [targetExponent]
  split <;> omega

/-- A quotient below `2 ^ 1000` has a nearest double. -/
theorem exists_ofRatio? (negative : Bool) {num den : Nat} (h : num < 2 ^ 1000 * den) :
    ∃ d, ofRatio? negative num den = some d := by
  by_cases hnum : num = 0
  · rw [ofRatio?, if_pos hnum]
    exact ⟨_, rfl⟩
  · rw [ofRatio?_eq negative hnum]
    exact exists_packed? negative _ (targetExponent_le hnum h)

theorem equals_self {d : Double} (h : d.isNaN = false) : d.equals d = true := by
  simp [equals, h]

/-! ### Reading numerals -/

theorem isDigit_decimal (b : UInt8) : Radix.decimal.isDigit b = Text.isDigit b := by
  revert b
  decide +kernel

theorem digitValue?_lt {b : UInt8} (h : Text.isDigit b = true) : (digitValue? b).getD 0 < 10 := by
  revert b
  decide +kernel

theorem value_append (ds : Text) (d : UInt8) :
    Radix.decimal.value (ds ++ [d]) = 10 * Radix.decimal.value ds + (digitValue? d).getD 0 := by
  simp [Radix.value, Radix.decimal]

theorem value_lt {ds : Text} (h : ∀ b ∈ ds, Text.isDigit b = true) :
    Radix.decimal.value ds < 10 ^ ds.length := by
  induction ds using List.reverseRecOn with
  | nil => decide
  | append_singleton ds d ih =>
    have hd := digitValue?_lt (h d (by simp))
    have hds := ih fun b hb => h b (by simp [hb])
    rw [value_append, List.length_append, List.length_singleton, pow_succ]
    omega

theorem separates_of_forall (r : Radix) {t : Text} (h : ∀ b ∈ t, b ≠ byte '_') (digit : Bool) :
    separates r digit t = true := by
  induction t generalizing digit with
  | nil => rfl
  | cons b t ih =>
    obtain ⟨hb, ht⟩ := List.forall_mem_cons.mp h
    rw [separates, if_neg hb]
    exact ih ht _

end Double

namespace Text

/-- Digits, at most `n` of them before the point if there is one, and digits behind it. -/
structure IsUnsigned (n : Nat) (t whole part : Text) : Prop where
  eq : t = whole ++ if part = [] then [] else byte '.' :: part
  whole_ne_nil : whole ≠ []
  length_le : whole.length ≤ n
  isDigit_whole : ∀ b ∈ whole, isDigit b = true
  isDigit_part : ∀ b ∈ part, isDigit b = true

namespace IsUnsigned

variable {n : Nat} {t whole part : Text}

theorem isDigit_or_eq (h : IsUnsigned n t whole part) :
    ∀ b ∈ t, isDigit b = true ∨ b = byte '.' := by
  intro b hb
  rw [h.eq, List.mem_append] at hb
  rcases hb with hb | hb
  · exact .inl (h.isDigit_whole b hb)
  · split at hb
    · cases hb
    · rcases List.mem_cons.mp hb with rfl | hb
      · exact .inr rfl
      · exact .inl (h.isDigit_part b hb)

theorem exists_cons (h : IsUnsigned n t whole part) :
    ∃ b rest, t = b :: rest ∧ isDigit b = true := by
  obtain ⟨b, rest, rfl⟩ := List.exists_cons_of_ne_nil h.whole_ne_nil
  exact ⟨b, _, h.eq, h.isDigit_whole b List.mem_cons_self⟩

theorem takeWhile_isDigit (h : IsUnsigned n t whole part) : t.takeWhile isDigit = whole := by
  have hrest : (if part = [] then [] else byte '.' :: part).takeWhile isDigit = [] := by
    split <;> rfl
  rw [h.eq, List.takeWhile_append_of_pos h.isDigit_whole, hrest, List.append_nil]

theorem dropWhile_isDigit (h : IsUnsigned n t whole part) :
    t.dropWhile isDigit = if part = [] then [] else byte '.' :: part := by
  have hrest : (if part = [] then [] else byte '.' :: part).dropWhile isDigit =
      if part = [] then [] else byte '.' :: part := by
    split <;> rfl
  rw [h.eq, List.dropWhile_append_of_pos h.isDigit_whole, hrest]

end IsUnsigned

end Text

namespace Double

variable {n : Nat} {t whole part : Text}

/-- What a numeral denotes: the double nearest to a quotient, if there is one. -/
theorem readUnsigned_isUnsigned (h : Text.IsUnsigned n t whole part) (negative : Bool) :
    readUnsigned .decimal negative t =
      (ofRatio? negative (Radix.decimal.value (whole ++ part)) (10 ^ part.length)).elim
        (.error .outOfRange) .ok := by
  have hdigit : Radix.decimal.isDigit = Text.isDigit := funext isDigit_decimal
  have hwhole : whole.isEmpty = false := by simpa using h.whole_ne_nil
  have hpart : part.takeWhile Text.isDigit = part := List.takeWhile_eq_self_iff.mpr h.isDigit_part
  have hrest : part.dropWhile Text.isDigit = [] := List.dropWhile_eq_nil_iff.mpr h.isDigit_part
  have hratio : Radix.decimal.double? negative (Radix.decimal.value (whole ++ part))
      (0 - (1 : Nat) * (part.length : Int)) =
        ofRatio? negative (Radix.decimal.value (whole ++ part)) (10 ^ part.length) := by
    have hpos : (0 - (1 : Nat) * (part.length : Int)).toNat = 0 := by omega
    have hneg : (-(0 - (1 : Nat) * (part.length : Int))).toNat = part.length := by omega
    rw [Radix.double?, hpos, hneg]
    simp [Radix.decimal]
  have hlimit (k : Nat) : max (min (0 : Int) (1100 + 4 * k)) (-(1100 + 4 * k)) = 0 := by omega
  rw [← hratio]
  unfold readUnsigned
  rw [hdigit, h.takeWhile_isDigit, h.dropWhile_isDigit]
  by_cases hp : part = []
  · simp only [hp, if_true, hwhole, Bool.false_and, Bool.false_eq_true, if_false]
    simp only [Radix.decimal, Bool.false_eq_true, if_false, hlimit]
    split <;> rename_i hd <;> rw [hd] <;> rfl
  · simp only [hp, if_false, if_true, hpart, hrest, hwhole, Bool.false_and, Bool.false_eq_true]
    simp only [Radix.decimal, Bool.false_eq_true, if_false, hlimit]
    split <;> rename_i hd <;> rw [hd] <;> rfl

theorem readNumber_isUnsigned (h : Text.IsUnsigned n t whole part) (negative : Bool) :
    readNumber negative t = readUnsigned .decimal negative t := by
  have hsmall : ∀ b : UInt8, Text.isDigit b = true ∨ b = byte '.' →
      small b ≠ byte 'x' ∧ b ≠ byte '_' := by decide +kernel
  have hbytes : ∀ b ∈ t, small b ≠ byte 'x' ∧ b ≠ byte '_' := fun b hb =>
    hsmall b (h.isDigit_or_eq b hb)
  have hradix : radixOf t = (.decimal, t) := by
    match t, hbytes with
    | [], _ | [_], _ => rfl
    | a :: b :: rest, hbytes =>
      have hb := (hbytes b (by simp)).1
      rw [radixOf, if_neg fun hx => hb hx.2]
  have hfilter : t.filter (fun b => b != byte '_') = t :=
    List.filter_eq_self.mpr fun b hb => bne_iff_ne.mpr (hbytes b hb).2
  rw [readNumber, hradix]
  simp only [separates_of_forall _ fun b hb => (hbytes b hb).2, if_true, hfilter]

/-- A numeral denotes a finite double or is out of range. -/
theorem readNumber_cases (h : Text.IsUnsigned n t whole part) (negative : Bool) :
    (∃ d, readNumber negative t = .ok d ∧ d.isFinite = true) ∨
      readNumber negative t = .error .outOfRange := by
  rw [readNumber_isUnsigned h, readUnsigned_isUnsigned h]
  rcases hd : ofRatio? negative (Radix.decimal.value (whole ++ part)) (10 ^ part.length) with _ | d
  · exact .inr rfl
  · exact .inl ⟨d, rfl, isFinite_of_ofRatio? (by positivity) hd⟩

theorem readNumber_ne_outOfRange (h : Text.IsUnsigned 300 t whole part) (negative : Bool) :
    readNumber negative t ≠ .error .outOfRange := by
  have hdigits : ∀ b ∈ whole ++ part, Text.isDigit b = true := fun b hb =>
    (List.mem_append.mp hb).elim (h.isDigit_whole b) (h.isDigit_part b)
  have hlt : Radix.decimal.value (whole ++ part) < 2 ^ 1000 * 10 ^ part.length := by
    calc Radix.decimal.value (whole ++ part) < 10 ^ (whole ++ part).length := value_lt hdigits
      _ = 10 ^ whole.length * 10 ^ part.length := by rw [List.length_append, pow_add]
      _ ≤ 10 ^ 300 * 10 ^ part.length := by
        gcongr
        · decide
        · exact h.length_le
      _ ≤ 2 ^ 1000 * 10 ^ part.length := Nat.mul_le_mul_right _ (by decide +kernel)
  obtain ⟨d, hd⟩ := exists_ofRatio? negative hlt
  rw [readNumber_isUnsigned h, readUnsigned_isUnsigned h, hd]
  exact nofun

end Double

/-- A numeral with at most `n` digits before the point, and a sign perhaps. -/
def Text.IsNumeral (n : Nat) (t : Text) : Prop :=
  ∃ sign body whole part, t = sign ++ body ∧ IsUnsigned n body whole part ∧
    (sign = [] ∨ ∃ b, sign = [b] ∧ Datum.Lexer.isSign b = true)

/-- A numeral is read as a number, and not as a name of one. -/
theorem Double.ofText_isNumeral {n : Nat} {t : Text} (h : t.IsNumeral n) :
    ∃ negative body whole part, Text.IsUnsigned n body whole part ∧
      ofText t = readNumber negative body := by
  obtain ⟨sign, body, whole, part, rfl, hbody, hsign⟩ := h
  obtain ⟨b, rest, rfl, hb⟩ := hbody.exists_cons
  have hfirst : ∀ c : UInt8, Text.isDigit c = true → c ≠ byte '-' ∧ c ≠ byte '+' ∧
      small c ≠ byte 'i' ∧ small c ≠ byte 'n' := by decide +kernel
  obtain ⟨hminus, hplus, hi, hn⟩ := hfirst b hb
  have hinf : (b :: rest).map small ≠ Text.ofString "inf" := fun h => hi (List.cons.inj h).1
  have hinfinity : (b :: rest).map small ≠ Text.ofString "infinity" := fun h => hi (List.cons.inj h).1
  have hnan : (b :: rest).map small ≠ Text.ofString "nan" := fun h => hn (List.cons.inj h).1
  rcases hsign with rfl | ⟨c, rfl, hc⟩
  · refine ⟨false, _, whole, part, hbody, ?_⟩
    rw [List.nil_append, ofText]
    simp only [hminus, hplus, if_false, hinf, hinfinity, hnan, or_self]
  · have hne : byte '+' ≠ byte '-' := by decide
    rcases Bool.or_eq_true_iff.mp hc with hc | hc
    · refine ⟨false, _, whole, part, hbody, ?_⟩
      rw [List.singleton_append, ofText]
      simp only [beq_iff_eq.mp hc, hne, if_true, if_false, hinf, hinfinity, hnan, or_self]
    · refine ⟨true, _, whole, part, hbody, ?_⟩
      rw [List.singleton_append, ofText]
      simp only [beq_iff_eq.mp hc, if_true, hinf, hinfinity, hnan, or_self, if_false]

/-- What a numeral denotes is finite. -/
theorem Double.isFinite_of_ofText {n : Nat} {t : Text} (h : t.IsNumeral n) {d : Double}
    (hd : ofText t = .ok d) : d.isFinite = true := by
  obtain ⟨negative, body, whole, part, hbody, htext⟩ := ofText_isNumeral h
  rw [htext] at hd
  rcases readNumber_cases hbody negative with ⟨d', hd', hfinite⟩ | herror
  · rw [hd'] at hd
    cases hd
    exact hfinite
  · rw [herror] at hd
    cases hd

/-- A numeral in the range of doubles is the same number as itself. -/
theorem Datum.sameNumber_of_ne {n : Nat} {t : Text} (h : t.IsNumeral n)
    (hrange : Double.ofText t ≠ .error .outOfRange) : sameNumber t t = true := by
  obtain ⟨negative, body, whole, part, hbody, htext⟩ := Double.ofText_isNumeral h
  rw [htext] at hrange
  obtain ⟨d, hd, hfinite⟩ := (Double.readNumber_cases hbody negative).resolve_right hrange
  rw [sameNumber, htext, hd]
  exact Double.equals_self (Double.isNaN_of_isFinite hfinite)

/-- A numeral that is not very long is the same number as itself. -/
theorem Datum.sameNumber_self {t : Text} (h : t.IsNumeral 300) : sameNumber t t = true := by
  obtain ⟨negative, body, whole, part, hbody, htext⟩ := Double.ofText_isNumeral h
  exact sameNumber_of_ne h (htext ▸ Double.readNumber_ne_outOfRange hbody negative)

end Augite
