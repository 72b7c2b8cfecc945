import Augite.Double.Layout
import Augite.Proofs.WrittenData

/-!
# Data that match themselves

A datum is steady if its written form is read as data that match themselves. Symbols, strings
that can be shown, and numbers are steady, and so are lists and arrays of steady data. A
double whose digits are followed by an exponent is written as one number and read as several
atoms.
-/

namespace Augite

namespace Datum

/-! ### Matching -/

theorem accepts_symbol (t : Text) : (symbol t).accepts (symbol t) = true := by
  change (t == Text.ofString "_" || t == t) = true
  rw [beq_self_eq_true, Bool.or_true]

theorem acceptsItems_self {ds : List Datum} (h : ∀ d ∈ ds, d.accepts d = true) :
    acceptsItems ds ds = true := by
  induction ds with
  | nil => rfl
  | cons d ds ih =>
    obtain ⟨hd, hds⟩ := List.forall_mem_cons.mp h
    simp [acceptsItems, hd, ih hds]

theorem get?_of_mem {es : List (Text × Datum)} (hes : (es.map Prod.fst).Nodup) {key : Text}
    {d : Datum} (h : (key, d) ∈ es) : (map es).get? key = some d := by
  induction es with
  | nil => cases h
  | cons e es ih =>
    obtain ⟨hnot, hnodup⟩ := List.nodup_cons.mp hes
    rcases List.mem_cons.mp h with rfl | h
    · simp [get?]
    · have hne : (e.1 == key) = false := by
        apply beq_eq_false_iff_ne.mpr
        rintro rfl
        exact hnot (List.mem_map.mpr ⟨_, h, rfl⟩)
      have htail := ih hnodup h
      simp only [get?] at htail ⊢
      rw [List.find?_cons_of_neg (by simp [hne]), htail]

/-- A map with distinct keys matches itself if its values do. -/
theorem accepts_map {es : List (Text × Datum)} (hes : (es.map Prod.fst).Nodup)
    (h : ∀ e ∈ es, e.2.accepts e.2 = true) : (map es).accepts (map es) = true := by
  have hsome : ∀ fs : List (Text × Datum), (∀ e ∈ fs, e ∈ es) → acceptsEntries fs es = true := by
    intro fs hfs
    induction fs with
    | nil => rfl
    | cons e fs ih =>
      obtain ⟨he, htail⟩ := List.forall_mem_cons.mp hfs
      rw [acceptsEntries, get?_of_mem hes he, ih htail, Bool.and_true]
      exact h e he
  exact hsome es fun _ he => he

/-! ### Steady data -/

/-- The written form of the datum is read as data that match themselves. -/
def Steady (d : Datum) (es : List Datum) : Prop :=
  Written d.render es ∧ ∀ e ∈ es, e.accepts e = true

/-- The datum is written as one datum that matches itself. -/
def IsSteady (d : Datum) : Prop := ∃ e, Steady d [e]

theorem steady_symbol {t : Text} (h : Lexer.IsSymbol t) : Steady (.symbol t) [.symbol t] :=
  ⟨written_symbol h, List.forall_mem_singleton.mpr (accepts_symbol t)⟩

theorem steady_numeral {t : Text} (h : t.IsNumeral 300) : Steady (.number t) [.number t] :=
  ⟨written_numeral h, List.forall_mem_singleton.mpr (sameNumber_self h)⟩

theorem isSteady_string {t : Text} (h : (Utf8.glyphs t).all Lexer.isReadable = true) :
    IsSteady (.string t) :=
  ⟨_, written_quote h, List.forall_mem_singleton.mpr (beq_self_eq_true _)⟩

theorem renderItems_eq (ds : List Datum) : renderItems ds = ds.map render := by
  induction ds with
  | nil => rfl
  | cons d ds ih => rw [renderItems, ih, List.map_cons]

theorem steady_items {ds : List Datum} (h : ∀ d ∈ ds, ∃ es, Steady d es) :
    ∃ es, Written (Text.join " " (renderItems ds)) es ∧ ∀ e ∈ es, e.accepts e = true := by
  have hall : ∃ dss, List.Forall₂ Written (ds.map render) dss ∧
      ∀ es ∈ dss, ∀ e ∈ es, e.accepts e = true := by
    induction ds with
    | nil => exact ⟨[], .nil, nofun⟩
    | cons d ds ih =>
      obtain ⟨⟨es, hw, hes⟩, hds⟩ := List.forall_mem_cons.mp h
      obtain ⟨dss, hws, hdss⟩ := ih hds
      exact ⟨es :: dss, .cons hw hws, List.forall_mem_cons.mpr ⟨hes, hdss⟩⟩
  obtain ⟨dss, hws, hdss⟩ := hall
  refine ⟨dss.flatten, ?_, ?_⟩
  · rw [renderItems_eq]
    exact written_join hws
  · intro e he
    obtain ⟨es, hes, he⟩ := List.mem_flatten.mp he
    exact hdss es hes e he

theorem isSteady_list {ds : List Datum} (h : ∀ d ∈ ds, ∃ es, Steady d es) :
    IsSteady (.list ds) := by
  obtain ⟨es, hw, hes⟩ := steady_items h
  refine ⟨.list es, hw.list, List.forall_mem_singleton.mpr ?_⟩
  exact acceptsItems_self hes

theorem isSteady_array {ds : List Datum} (h : ∀ d ∈ ds, ∃ es, Steady d es) :
    IsSteady (.array ds) := by
  obtain ⟨es, hw, hes⟩ := steady_items h
  refine ⟨.array es, hw.array, List.forall_mem_singleton.mpr ?_⟩
  exact acceptsItems_self hes

end Datum

/-! ### Numbers -/

namespace Text

theorem length_decimal_le {n k : Nat} (hk : 0 < k) (h : n < 10 ^ k) : (decimal n).length ≤ k := by
  fun_induction decimal n generalizing k with
  | case1 n hn =>
    rw [List.length_singleton]
    exact hk
  | case2 n hn ih =>
    obtain ⟨k, rfl⟩ : ∃ j, k = j + 1 := ⟨k - 1, by omega⟩
    have hpos : 0 < k := by
      rcases Nat.eq_zero_or_pos k with rfl | hpos
      · omega
      · exact hpos
    have hdiv : n / 10 < 10 ^ k := by
      rw [pow_succ] at h
      omega
    rw [List.length_append, List.length_singleton]
    exact Nat.add_le_add_right (ih hpos hdiv) 1

theorem isUnsigned_digits {n : Nat} {ds : Text} (hne : ds ≠ []) (hlen : ds.length ≤ n)
    (h : ∀ b ∈ ds, isDigit b = true) : IsUnsigned n ds ds [] :=
  ⟨by simp, hne, hlen, h, nofun⟩

theorem isNumeral_decimal {n k : Nat} (hk : 0 < k) (h : n < 10 ^ k) : (decimal n).IsNumeral k :=
  ⟨[], _, _, _, rfl,
    isUnsigned_digits (decimal_ne_nil n) (length_decimal_le hk h) (isDigit_of_mem_decimal n), .inl rfl⟩

theorem isNumeral_ofInt {v : Int} {k : Nat} (hk : 0 < k) (h : v.natAbs < 10 ^ k) :
    (ofInt v).IsNumeral k := by
  cases v with
  | ofNat n => exact isNumeral_decimal hk h
  | negSucc n =>
    have hn : n + 1 < 10 ^ k := h
    exact ⟨[byte '-'], _, _, _, rfl, isUnsigned_digits (decimal_ne_nil _)
      (length_decimal_le hk hn) (isDigit_of_mem_decimal _), .inr ⟨_, rfl, rfl⟩⟩

end Text

namespace Double

theorem significand_lt (d : Double) : d.significand < 2 ^ 53 := by
  have hfraction : d.fraction < leadingBit := Nat.mod_lt _ (by decide)
  simp only [significand, leadingBit] at *
  split <;> omega

theorem exponent_bounds (d : Double) : -1074 ≤ d.exponent ∧ d.exponent ≤ 972 := by
  have hfield : d.exponentField < 2048 := Nat.mod_lt _ (by decide)
  simp only [exponent]
  omega

/-- The exponent in front of a magnitude's digits is small. -/
theorem decimalExponent_bounds {m : Nat} {q : Int} (hm : m < 2 ^ 53) (hq : -1074 ≤ q)
    (hq' : q ≤ 972) : -400 ≤ decimalExponent m q ∧ decimalExponent m q ≤ 400 := by
  have hneg : (-q).toNat ≤ 1074 := by omega
  have hpos : (- -q).toNat ≤ 1074 := by omega
  have hpow {i : Nat} (hi : i ≤ 1074) : 2 ^ i ≤ 2 ^ 1074 := pow_le_pow_right₀ one_le_two hi
  have hbig : 2 ^ 53 * 2 ^ 1074 < 10 ^ 400 := by decide +kernel
  have hscaled : (scaled m 1 (-q)).1 < 10 ^ 400 ∧ (scaled m 1 (-q)).2 < 10 ^ 400 := by
    unfold scaled
    split
    · have hone : 1 * Nat.pow 2 (-q).toNat = 2 ^ (-q).toNat := Nat.one_mul _
      simp only [hone]
      constructor
      · exact (hm.trans_le (Nat.le_mul_of_pos_right _ (by positivity))).trans hbig
      · exact ((hpow hneg).trans (Nat.le_mul_of_pos_left _ (by positivity))).trans_lt hbig
    · constructor
      · exact (Nat.mul_le_mul hm.le (hpow hpos)).trans_lt hbig
      · exact (Nat.succ_le_of_lt (by positivity)).trans_lt hbig
  simp only [decimalExponent]
  generalize scaled m 1 (-q) = r at hscaled ⊢
  have hquotient : r.1 / r.2 < 10 ^ 400 := (Nat.div_le_self _ _).trans_lt hscaled.1
  have hquotient' : r.2 / r.1 < 10 ^ 400 := (Nat.div_le_self _ _).trans_lt hscaled.2
  have hlen := Text.length_decimal_le (by decide) hquotient
  have hlen' := Text.length_decimal_le (by decide) hquotient'
  split <;> omega

theorem neighbours_cases {m : Nat} {q e : Int} {x : Decimal}
    (h : x = (neighbours m q e).1 ∨ x = (neighbours m q e).2) :
    x.exponent = e ∧ x.digits ≤ m * 2 ^ q.toNat * 10 ^ (-e).toNat + 1 := by
  have hle : m * 2 ^ q.toNat * 10 ^ (-e).toNat / (1 * 10 ^ e.toNat * 2 ^ (-q).toNat) ≤
      m * 2 ^ q.toNat * 10 ^ (-e).toNat := Nat.div_le_self _ _
  generalize hf : m * 2 ^ q.toNat * 10 ^ (-e).toNat / (1 * 10 ^ e.toNat * 2 ^ (-q).toNat) = f at hle
  have hpair : neighbours m q e = (⟨f, e⟩, ⟨f + 1, e⟩) ∨ neighbours m q e = (⟨f + 1, e⟩, ⟨f, e⟩) := by
    simp only [neighbours, Decimal.sides, Nat.pow_eq, hf]
    split
    · exact .inl rfl
    · exact .inr rfl
  rcases hpair with hpair | hpair <;> rw [hpair] at h <;> rcases h with rfl | rfl
  · exact ⟨rfl, Nat.le_succ_of_le hle⟩
  · exact ⟨rfl, Nat.succ_le_succ hle⟩
  · exact ⟨rfl, Nat.succ_le_succ hle⟩
  · exact ⟨rfl, Nat.le_succ_of_le hle⟩

/-- The shortest decimal is among the neighbours at one of seventeen exponents. -/
theorem shortestFrom_cases (m : Nat) (q x : Int) (more count : Nat) :
    ∃ i ≤ more, shortestFrom m q x more count = (neighbours m q (x - (count + i : Nat) + 1)).1 ∨
      shortestFrom m q x more count = (neighbours m q (x - (count + i : Nat) + 1)).2 := by
  induction more generalizing count with
  | zero => exact ⟨0, le_rfl, .inl rfl⟩
  | succ more ih =>
    rw [shortestFrom]
    simp only
    split
    · exact ⟨0, Nat.zero_le _, .inl rfl⟩
    · split
      · exact ⟨0, Nat.zero_le _, .inr rfl⟩
      · obtain ⟨i, hi, h⟩ := ih (count + 1)
        refine ⟨i + 1, by omega, ?_⟩
        rw [show count + (i + 1) = count + 1 + i by omega]
        exact h

theorem trimmed_bounds (fuel : Nat) (x : Decimal) :
    (x.trimmed fuel).digits ≤ x.digits ∧ x.exponent ≤ (x.trimmed fuel).exponent ∧
      (x.trimmed fuel).exponent ≤ x.exponent + fuel := by
  induction fuel generalizing x with
  | zero => simp [Decimal.trimmed]
  | succ fuel ih =>
    rw [Decimal.trimmed]
    split
    · have := ih ⟨x.digits / 10, x.exponent + 1⟩
      simp only at this
      push_cast
      omega
    · push_cast
      omega

/-- Digits and exponent of a shortest decimal are bounded. -/
theorem shortest_bounds (d : Double) :
    (Text.decimal d.shortest.digits).length ≤ 1000 ∧ -1000 ≤ d.shortest.exponent ∧
      d.shortest.exponent ≤ 1000 := by
  unfold shortest
  split
  · exact ⟨Text.length_decimal_le (by decide) (by positivity), by decide, by decide⟩
  · obtain ⟨hq, hq'⟩ := d.exponent_bounds
    obtain ⟨hx, hx'⟩ := decimalExponent_bounds d.significand_lt hq hq'
    simp only
    generalize decimalExponent d.significand d.exponent = x at hx hx' ⊢
    obtain ⟨i, hi, hcase⟩ := shortestFrom_cases d.significand d.exponent x 16 1
    obtain ⟨hexp, hdigits⟩ := neighbours_cases hcase
    obtain ⟨htrim, hlow, hhigh⟩ :=
      trimmed_bounds 18 (shortestFrom d.significand d.exponent x 16 1)
    have htwo : d.exponent.toNat ≤ 972 := by omega
    have hten : (-(x - (1 + i : Nat) + 1)).toNat ≤ 420 := by omega
    refine ⟨Text.length_decimal_le (by decide) (htrim.trans_lt (hdigits.trans_lt ?_)), by omega,
      by omega⟩
    calc _ ≤ 2 ^ 53 * 2 ^ 972 * 10 ^ 420 + 1 := by
          gcongr
          · exact d.significand_lt.le
          · exact one_le_two
          · decide
      _ < 10 ^ 1000 := by decide +kernel

end Double

namespace Layout

open Text (IsUnsigned IsNumeral)

theorem isUnsigned_withPoint {ds : Text} (hne : ds ≠ []) (hds : ∀ b ∈ ds, Text.isDigit b = true)
    {k : Nat} (hpos : 0 < k) (hk : k ≤ 300) :
    ∃ whole part, IsUnsigned 300 (plain.withPoint ds k) whole part := by
  unfold withPoint
  split
  · rename_i hlt
    have hpart : ds.drop k ≠ [] := by simpa using hlt
    refine ⟨ds.take k, ds.drop k, by rw [if_neg hpart], ?_, ?_, ?_, ?_⟩
    · simp [hne, hpos.ne']
    · simp [hk]
    · exact fun b hb => hds b (List.mem_of_mem_take hb)
    · exact fun b hb => hds b (List.mem_of_mem_drop hb)
  · rename_i hge
    refine ⟨_, [], ⟨rfl, by simp [hne], ?_, ?_, nofun⟩⟩
    · rw [List.length_append, List.length_replicate]
      omega
    · intro b hb
      rcases List.mem_append.mp hb with hb | hb
      · exact hds b hb
      · rw [List.eq_of_mem_replicate hb]
        rfl

/-- A number with an exponent is read as the number and what the exponent looks like. -/
theorem steady_exponent {t : Text} (ht : t.IsNumeral 300) {x : Int} (hx : x.natAbs < 10 ^ 299) :
    ∃ es, Datum.Steady (.number (t ++ byte 'e' :: exponentText x)) es := by
  have hdigits := Text.isDigit_of_mem_decimal x.natAbs
  have hlen := Text.length_decimal_le (by decide) hx
  have hpadded : ∃ ds : Text, exponentText x = (if x < 0 then byte '-' else byte '+') :: ds ∧
      ds ≠ [] ∧ ds.length ≤ 300 ∧ ∀ b ∈ ds, Text.isDigit b = true := by
    refine ⟨_, rfl, ?_⟩
    split
    · refine ⟨List.cons_ne_nil _ _, by rw [List.length_cons]; omega, ?_⟩
      exact List.forall_mem_cons.mpr ⟨rfl, hdigits⟩
    · exact ⟨Text.decimal_ne_nil _, by omega, hdigits⟩
  obtain ⟨ds, htext, hne, hle, hds⟩ := hpadded
  rw [htext]
  split
  · have hsymbol : Datum.Lexer.IsSymbol (byte 'e' :: byte '-' :: ds) := by
      refine ⟨_, _, rfl, rfl, List.forall_mem_cons.mpr ⟨rfl, fun b hb => ?_⟩⟩
      simp [Datum.Lexer.isSymbolByte, hds b hb]
    refine ⟨[.number t, .symbol (byte 'e' :: byte '-' :: ds)], ⟨_, ?_, .cons (.number t)
      (.singleton (.symbol _))⟩, ?_⟩
    · have hline := mt List.mem_append.mp
        (not_or.mpr ⟨Datum.Lexer.newline_not_mem_numeral ht, hsymbol.newline_not_mem⟩)
      refine ⟨hline, fun s hs => ?_⟩
      change Datum.Lexer.tokens (t ++ (byte 'e' :: byte '-' :: ds) ++ s) = _
      rw [List.append_assoc, Datum.Lexer.tokens_numeral ht,
        Datum.Lexer.tokens_symbol hsymbol hs.isSymbolByte]
      · rfl
      · intro b hb
        cases hb
        exact ⟨rfl, by decide⟩
    · simp only [List.forall_mem_cons, List.not_mem_nil, false_implies, implies_true, and_true]
      exact ⟨Datum.sameNumber_self ht, Datum.accepts_symbol _⟩
  · have hnumeral : IsNumeral 300 (byte '+' :: ds) :=
      ⟨[byte '+'], ds, ds, [], rfl, Text.isUnsigned_digits hne hle hds, .inr ⟨_, rfl, rfl⟩⟩
    have hsymbol : Datum.Lexer.IsSymbol [byte 'e'] := ⟨_, _, rfl, rfl, List.forall_mem_nil _⟩
    refine ⟨[.number t, .symbol [byte 'e'], .number (byte '+' :: ds)], ⟨_, ?_, .cons (.number t)
      (.cons (.symbol _) (.singleton (.number _)))⟩, ?_⟩
    · have hline := Datum.Lexer.newline_not_mem_between (b := byte 'e') (by decide)
        (Datum.Lexer.newline_not_mem_numeral ht) (Datum.Lexer.newline_not_mem_numeral hnumeral)
      refine ⟨hline, fun s hs => ?_⟩
      change Datum.Lexer.tokens (t ++ ([byte 'e'] ++ (byte '+' :: ds)) ++ s) = _
      rw [List.append_assoc, List.append_assoc, Datum.Lexer.tokens_numeral ht,
        Datum.Lexer.tokens_symbol hsymbol, Datum.Lexer.tokens_numeral hnumeral hs.isDigit]
      · rfl
      · intro b hb
        cases hb
        rfl
      · intro b hb
        cases hb
        exact ⟨rfl, by decide⟩
    · simp only [List.forall_mem_cons, List.not_mem_nil, false_implies, implies_true, and_true]
      exact ⟨Datum.sameNumber_self ht, Datum.accepts_symbol _, Datum.sameNumber_self hnumeral⟩

/-- A decimal has an exponent or is a number. -/
theorem decimalText_cases {v : Decimal} (hlen : (Text.decimal v.digits).length ≤ 1000)
    (hlow : -1000 ≤ v.exponent) (hhigh : v.exponent ≤ 1000) :
    (∃ t x whole part, plain.decimalText v = t ++ byte 'e' :: exponentText x ∧
      IsUnsigned 300 t whole part ∧ x.natAbs < 2001) ∨
    ∃ whole part, IsUnsigned 300 (plain.decimalText v) whole part := by
  have hne := Text.decimal_ne_nil v.digits
  have hds := Text.isDigit_of_mem_decimal v.digits
  simp only [decimalText]
  generalize hx : (if v.digits = 0 then 0 else v.exponent + (Text.decimal v.digits).length - 1) = x
  have hbound : x.natAbs < 2001 := by
    rw [← hx]
    split <;> omega
  split
  · obtain ⟨whole, part, hpoint⟩ := isUnsigned_withPoint hne hds Nat.one_pos (by decide : 1 ≤ 300)
    exact .inl ⟨_, x, whole, part, rfl, hpoint, hbound⟩
  · rename_i hplain
    simp only [plain] at hplain
    right
    split
    · refine ⟨[byte '0'], List.replicate (x.natAbs - 1) (byte '0') ++ Text.decimal v.digits,
        ?_, List.cons_ne_nil _ _, by simp, List.forall_mem_singleton.mpr rfl, ?_⟩
      · rw [if_neg (by simp [hne]), List.append_assoc]
        rfl
      · intro b hb
        rcases List.mem_append.mp hb with hb | hb
        · rw [List.eq_of_mem_replicate hb]
          rfl
        · exact hds b hb
    · exact isUnsigned_withPoint hne hds (Nat.succ_pos x.toNat) (by omega : x.toNat + 1 ≤ 300)

theorem steady_decimalText {sign : Text} {v : Decimal}
    (hsign : sign = [] ∨ ∃ b, sign = [b] ∧ Datum.Lexer.isSign b = true)
    (hlen : (Text.decimal v.digits).length ≤ 1000) (hlow : -1000 ≤ v.exponent)
    (hhigh : v.exponent ≤ 1000) :
    ∃ es, Datum.Steady (.number (sign ++ plain.decimalText v)) es := by
  rcases decimalText_cases hlen hlow hhigh with ⟨t, x, whole, part, htext, ht, hx⟩ | ⟨whole, part, ht⟩
  · rw [htext, ← List.append_assoc]
    exact steady_exponent ⟨sign, _, whole, part, rfl, ht, hsign⟩ (hx.trans (by decide +kernel))
  · exact ⟨_, Datum.steady_numeral ⟨sign, _, whole, part, rfl, ht, hsign⟩⟩

theorem steady_infinity {sign : UInt8} (h : Datum.Lexer.isSign sign = true) :
    ∃ es, Datum.Steady (.number (sign :: "Inf")) es := by
  have hsymbol : Datum.Lexer.IsSymbol "Inf" :=
    ⟨_, _, rfl, rfl, List.forall_mem_cons.mpr ⟨rfl, List.forall_mem_cons.mpr ⟨rfl, nofun⟩⟩⟩
  refine ⟨[.symbol [sign], .symbol "Inf"], ⟨_, ?_, .cons (.symbol _) (.singleton (.symbol _))⟩, ?_⟩
  · have hline : byte '\n' ≠ sign := by
      rintro rfl
      cases h
    refine ⟨not_or.mpr ⟨hline, hsymbol.newline_not_mem⟩ ∘ List.mem_cons.mp, fun s hs => ?_⟩
    change Datum.Lexer.tokens (sign :: ("Inf" ++ s)) = _
    rw [Datum.Lexer.tokens_sign h, Datum.Lexer.tokens_symbol hsymbol hs.isSymbolByte]
    · rfl
    · intro b hb
      cases hb
      rfl
  · simp only [List.forall_mem_cons, List.not_mem_nil, false_implies, implies_true, and_true]
    exact ⟨Datum.accepts_symbol _, Datum.accepts_symbol _⟩

/-- The sign in front of a finite double. -/
theorem sign_cases (d : Double) : (if d.isNegative then ("-" : Text) else "") = [] ∨
    ∃ b, (if d.isNegative then ("-" : Text) else "") = [b] ∧ Datum.Lexer.isSign b = true := by
  split
  · exact .inr ⟨byte '-', rfl, rfl⟩
  · exact .inl rfl

/-- A finite double without an exponent is written as a number. -/
theorem isNumeral_text {d : Double} (hd : d.isFinite = true) (he : byte 'e' ∉ plain.text d) :
    (plain.text d).IsNumeral 300 := by
  simp only [text, Double.isNaN_of_isFinite hd, hd, if_true, Bool.false_eq_true, if_false] at he ⊢
  obtain ⟨hlen, hlow, hhigh⟩ := d.shortest_bounds
  rcases decimalText_cases hlen hlow hhigh with ⟨t, x, whole, part, htext, -⟩ | ⟨whole, part, ht⟩
  · rw [htext] at he
    simp at he
  · exact ⟨_, _, whole, part, rfl, ht, sign_cases d⟩

/-- Every double is written in a steady way. -/
theorem steady_text (d : Double) : ∃ es, Datum.Steady (.number (plain.text d)) es := by
  unfold text
  split
  · have hsymbol : Datum.Lexer.IsSymbol "NaN" :=
      ⟨_, _, rfl, rfl, List.forall_mem_cons.mpr ⟨rfl, List.forall_mem_cons.mpr ⟨rfl, nofun⟩⟩⟩
    exact ⟨_, Datum.steady_symbol hsymbol⟩
  · simp only
    split
    · obtain ⟨hlen, hlow, hhigh⟩ := d.shortest_bounds
      exact steady_decimalText (sign_cases d) hlen hlow hhigh
    · have hminus : Datum.Lexer.isSign (byte '-') = true := rfl
      have hplus : Datum.Lexer.isSign (byte '+') = true := rfl
      split
      · exact steady_infinity hminus
      · exact steady_infinity hplus

end Layout

end Augite
