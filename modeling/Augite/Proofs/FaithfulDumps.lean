import Augite.Proofs.DataReadBack

/-!
# Dumps that are read back

A tree from a source text is read from its dump as the datum that the dump shows, provided that
its literals hold plain bytes and floats that are written without an exponent.
-/

namespace Augite

theorem Datum.written_items {ds : List Datum} (h : ∀ d ∈ ds, Written d.render [d]) :
    Written (Text.join " " (renderItems ds)) ds := by
  have hall : List.Forall₂ Written (ds.map render) (ds.map fun d => [d]) := by
    rw [List.forall₂_map_left_iff, List.forall₂_map_right_iff]
    exact List.forall₂_same.mpr h
  have hjoin := written_join hall
  rwa [← renderItems_eq, ← List.flatMap_def, List.flatMap_singleton'] at hjoin

theorem Datum.passes_written : Passes fun d => Written d.render [d] where
  list h := (written_items h).list
  array h := (written_items h).array
  symbol h := written_symbol h
  number h := written_numeral h
  string h := by
    have hplain : ∀ b : UInt8, 0x20 ≤ b ∧ b < 0x7f → isPlainByte b = true := by decide +kernel
    exact written_string fun b hb => hplain b (h b hb)

theorem isFinite_of_isFloatLiteral {v : Double} (h : IsFloatLiteral v) : v.isFinite = true := by
  obtain ⟨t, ⟨whole, part, rfl, hwhole, hwholeDigits, hpart, hpartDigits⟩, hv⟩ := h
  have hbody : Text.IsUnsigned whole.length (whole ++ byte '.' :: part) whole part :=
    ⟨by rw [if_neg hpart], hwhole, le_rfl, hwholeDigits, hpartDigits⟩
  have hnumeral : Text.IsNumeral whole.length (whole ++ byte '.' :: part) :=
    ⟨[], _, whole, part, rfl, hbody, .inl rfl⟩
  exact Double.isFinite_of_ofText hnumeral hv

/-- The literal holds plain bytes, or a float that is written without an exponent. -/
def Literal.isPlain : Literal → Bool
  | text contents => contents.all Datum.isPlainByte
  | float v => !(Layout.plain.text v).contains (byte 'e')

theorem Literal.written {l : Literal} (h : l.isPlain = true) (hread : l.IsRead) :
    Datum.Written l.datum.render [l.datum] := by
  cases l with
  | text contents => exact Datum.written_string (List.all_eq_true.mp h)
  | float v =>
    apply Datum.written_numeral (n := 300)
    apply Layout.isNumeral_text (isFinite_of_isFloatLiteral hread)
    simpa [isPlain] using h

/-- A source with lists of statements in many places and literals of every kind. -/
def inventory : Text :=
  "include list; xs: list<int> = [1, 2]; class C \x7b p: float; \x7d " ++
  "def f(a: int, c: char) -> float \x7b if (a < 1) \x7b return -2.50; \x7d else \x7b \x7d " ++
  "for (i: int = 0; i < 3; i = i + 1) \x7b xs.add(i); \x7d while (true) \x7b \x7d " ++
  "return 100.0; \x7d print(\"a\\\"\\n\"); print('\\''); f(1, 'x');"

end Augite
