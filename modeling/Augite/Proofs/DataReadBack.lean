import Augite.Proofs.ReadableDumps

/-!
# Data that are read back

A datum whose symbols and numbers are single tokens, and whose strings hold ASCII bytes that
the reader has an escape for, is read from its written form as it was, however deep its lists,
arrays and maps are nested.
-/

namespace Augite.Datum

namespace Lexer

/-! ### Symbols and numbers as they were read -/

theorem numberTail_isPrefix (t : Text) : numberTail t <+: t := by
  have hsplit := List.takeWhile_append_dropWhile (p := Text.isDigit) (l := t)
  unfold numberTail
  simp only
  split
  · rename_i point d rest hdrop
    rw [hdrop] at hsplit
    split
    · refine ⟨rest.dropWhile Text.isDigit, ?_⟩
      rw [List.append_assoc, List.cons_append, List.cons_append, List.takeWhile_append_dropWhile]
      exact hsplit
    · exact ⟨_, hsplit⟩
  · exact ⟨_, hsplit⟩

/-- The token is a symbol or a number, which `w` spells. -/
inductive IsSpelling (w : Text) : Token → Prop
  | symbol : IsSpelling w (.symbol w)
  | number : IsSpelling w (.number w)

/-- The ways in which a symbol or a number that starts with `b` is read. -/
inductive ReadFrom (b : UInt8) (rest : Text) : Token → Prop
  | symbol : isSymbolStart b = true → ReadFrom b rest (.symbol (b :: rest.takeWhile isSymbolByte))
  | sign : isSign b = true → ReadFrom b rest (.symbol [b])
  | unsigned (part : Text) : Text.isDigit b = true → numberTail (b :: rest) = b :: part →
      ReadFrom b rest (.number (b :: part))
  | signed (d : UInt8) (part : Text) : isSign b = true → Text.isDigit d = true →
      rest = d :: part → ReadFrom b rest (.number (b :: numberTail rest))

theorem numberTail_cons {b : UInt8} (hb : Text.isDigit b = true) (rest : Text) :
    ∃ part, numberTail (b :: rest) = b :: part := by
  unfold numberTail
  simp only [List.takeWhile_cons_of_pos hb]
  split
  · split <;> exact ⟨_, rfl⟩
  · exact ⟨_, rfl⟩

theorem bracket?_not_spelling {b : UInt8} {w : Text} {tok : Token} (h : bracket? b = some tok) :
    ¬ IsSpelling w tok := by
  intro hw
  unfold bracket? at h
  repeat' split at h
  all_goals cases h
  all_goals cases hw

theorem readFrom_of_token {b : UInt8} {rest w : Text} {tok : Token} {n : Nat}
    (h : token b rest = .ok (tok, n)) (hw : IsSpelling w tok) : ReadFrom b rest tok := by
  unfold token at h
  split at h
  · rename_i ht
    cases h
    exact absurd hw (bracket?_not_spelling ht)
  split at h
  · rcases hbody : stringBody rest with e | p <;> rw [hbody] at h <;> cases h
    cases hw
  split at h
  · split at h <;> cases h
    cases hw
  split at h
  · rename_i hstart
    cases h
    exact .symbol hstart
  split at h
  · rename_i hdigit
    obtain ⟨part, hpart⟩ := numberTail_cons hdigit rest
    cases h
    rw [hpart]
    exact .unsigned part hdigit hpart
  split at h
  · rename_i hsign
    split at h
    · rename_i hhead
      cases h
      cases rest with
      | nil => cases hhead
      | cons d part => exact .signed d part hsign hhead rfl
    · cases h
      exact .sign hsign
  · cases h

theorem ReadFrom.starts {b : UInt8} {rest w : Text} {tok : Token} (h : ReadFrom b rest tok)
    (hw : IsSpelling w tok) : w <+: b :: rest := by
  cases h with
  | symbol _ =>
    cases hw
    exact List.cons_prefix_cons.mpr ⟨rfl, List.takeWhile_prefix _⟩
  | sign _ =>
    cases hw
    exact List.cons_prefix_cons.mpr ⟨rfl, List.nil_prefix⟩
  | unsigned part _ hpart =>
    cases hw
    rw [← hpart]
    exact numberTail_isPrefix _
  | signed d part _ _ _ =>
    cases hw
    exact List.cons_prefix_cons.mpr ⟨rfl, numberTail_isPrefix rest⟩

/-! ### Single tokens -/

/-- No symbol and no number of a text is longer than the text. -/
theorem length_le_of_mem_tokens {t w : Text} {tok : Token} (h : tok ∈ (tokens t).1)
    (hw : IsSpelling w tok) : w.length ≤ t.length := by
  have hle : (t.dropWhile isBlank).length ≤ t.length := (List.dropWhile_suffix _).length_le
  match hdrop : t.dropWhile isBlank with
  | [] =>
    rw [tokens_of_dropWhile_nil hdrop] at h
    cases h
  | b :: rest =>
    have hlt : rest.length < t.length := by rwa [hdrop] at hle
    rw [tokens_of_dropWhile_cons hdrop] at h
    split at h
    · cases h
    split at h
    · have hcomment := (List.dropWhile_suffix (l := rest) fun c => !endsComment c).length_le
      exact (length_le_of_mem_tokens h hw).trans (by omega)
    match htoken : token b rest with
    | .error e =>
      rw [htoken] at h
      cases h
    | .ok (tok', n) =>
      have hdropped : (rest.drop n).length ≤ rest.length := by simp
      rw [htoken] at h
      rcases List.mem_cons.mp h with rfl | h
      · exact ((readFrom_of_token htoken hw).starts hw).length_le.trans hlt
      · exact (length_le_of_mem_tokens h hw).trans (by omega)
termination_by t.length
decreasing_by all_goals omega

/-- A text that is a single symbol or number has no other bytes. -/
theorem readFrom_of_tokens {w : Text} {tok : Token} (h : tokens w = ([tok], none))
    (hw : IsSpelling w tok) : ∃ b rest, w = b :: rest ∧ ReadFrom b rest tok := by
  have hsuffix : w.dropWhile isBlank <:+ w := List.dropWhile_suffix _
  rcases hdrop : w.dropWhile isBlank with _ | ⟨b, rest⟩
  · rw [tokens_of_dropWhile_nil hdrop] at h
    cases h
  rw [hdrop] at hsuffix
  rw [tokens_of_dropWhile_cons hdrop] at h
  split at h
  · cases h
  split at h
  · -- behind a comment there is no room for the whole text
    have hcomment := (List.dropWhile_suffix (l := rest) fun c => !endsComment c).length_le
    have hmem : tok ∈ (tokens (rest.dropWhile fun c => !endsComment c)).1 := by
      rw [h]
      exact List.mem_singleton_self tok
    have hlong := length_le_of_mem_tokens hmem hw
    have hshort := hsuffix.length_le
    rw [List.length_cons] at hshort
    omega
  rcases htoken : token b rest with e | ⟨tok', n⟩ <;> rw [htoken] at h
  · cases h
  · obtain rfl : tok' = tok := (List.cons.inj (congrArg Prod.fst h)).1
    have hread := readFrom_of_token htoken hw
    exact ⟨b, rest, (hsuffix.eq_of_length_le (hread.starts hw).length_le).symm, hread⟩

theorem spells_sign {c : UInt8} (hc : isSign c = true) : Spells [c] [.symbol [c]] := by
  refine ⟨fun hmem => ?_, fun s hs => tokens_sign hc fun b hb => (hs.isDigit b hb).1⟩
  rw [← List.mem_singleton.mp hmem] at hc
  exact absurd hc (by decide)

/-- A single symbol stays one in front of white space, brackets, colons and commas. -/
theorem spells_of_symbol {w : Text} (h : tokens w = ([.symbol w], none)) :
    Spells w [.symbol w] := by
  obtain ⟨b, rest, rfl, hread⟩ := readFrom_of_tokens h .symbol
  generalize hname : b :: rest = w at hread
  cases hread with
  | symbol hstart =>
    refine spells_symbol ⟨b, _, rfl, hstart, fun c hc => ?_⟩
    exact List.mem_takeWhile_imp (p := isSymbolByte) hc
  | sign hsign => exact spells_sign hsign

/-- What is taken for a number that starts with a digit has digits, with a point among them
perhaps. -/
theorem isUnsigned_numberTail {b : UInt8} (hb : Text.isDigit b = true) (rest : Text) :
    ∃ whole part, Text.IsUnsigned (rest.length + 1) (numberTail (b :: rest)) whole part := by
  have hwhole : (b :: rest).takeWhile Text.isDigit ≠ [] := by
    rw [List.takeWhile_cons_of_pos hb]
    exact List.cons_ne_nil _ _
  have hle : ((b :: rest).takeWhile Text.isDigit).length ≤ rest.length + 1 :=
    (List.takeWhile_prefix _).length_le
  have hdigits (t : Text) : ∀ c ∈ t.takeWhile Text.isDigit, Text.isDigit c = true :=
    fun c hc => List.mem_takeWhile_imp (p := Text.isDigit) hc
  have hall : Text.IsUnsigned (rest.length + 1) ((b :: rest).takeWhile Text.isDigit)
      ((b :: rest).takeWhile Text.isDigit) [] :=
    ⟨by rw [if_pos rfl, List.append_nil], hwhole, hle, hdigits _, nofun⟩
  unfold numberTail
  simp only
  split
  · rename_i point d tail hdrop
    split
    · rename_i hpoint
      refine ⟨(b :: rest).takeWhile Text.isDigit, d :: tail.takeWhile Text.isDigit, ?_, hwhole, hle,
        hdigits _, List.forall_mem_cons.mpr ⟨hpoint.2, hdigits tail⟩⟩
      rw [if_neg (List.cons_ne_nil _ _), ← hpoint.1]
    · exact ⟨_, [], hall⟩
  · exact ⟨_, [], hall⟩

/-- A single number stays one in front of white space, brackets, colons and commas. -/
theorem spells_of_number {w : Text} (h : tokens w = ([.number w], none)) :
    Spells w [.number w] := by
  obtain ⟨b, rest, rfl, hread⟩ := readFrom_of_tokens h .number
  generalize hname : b :: rest = w at hread
  cases hread with
  | unsigned part hdigit hpart =>
    cases hname
    obtain ⟨whole, frac, hbody⟩ := isUnsigned_numberTail hdigit rest
    rw [hpart] at hbody
    exact spells_numeral ⟨[], _, whole, frac, rfl, hbody, .inl rfl⟩
  | signed d part hsign hdigit hrest =>
    subst hrest
    obtain ⟨whole, frac, hbody⟩ := isUnsigned_numberTail hdigit part
    exact spells_numeral ⟨[b], _, whole, frac, rfl, hbody, .inr ⟨b, rfl, hsign⟩⟩

theorem spells_ellipsis : Spells "..." [.ellipsis] := by
  refine ⟨by decide, fun s _ => ?_⟩
  have htoken : token (byte '.') (byte '.' :: byte '.' :: s) = .ok (.ellipsis, 2) := rfl
  exact tokens_cons (by decide) htoken

end Lexer

/-! ### Strings -/

/-- An ASCII byte that a string shows as itself, by `\n`, `\t` or by two hexadecimal digits. -/
def isPlainByte (b : UInt8) : Bool := b < 0x80 && !([7, 8, 11, 12, 13].contains b)

theorem plainByte_read : ∀ b : UInt8, isPlainByte b = true →
    b < 0x80 ∧ Lexer.isReadable (.char b.toNat) = true ∧ Lexer.reread (.char b.toNat) = [b] := by
  decide +kernel

theorem written_string {t : Text} (h : ∀ b ∈ t, isPlainByte b = true) :
    Written (Text.quote t) [.string t] := by
  have hbyte := fun b hb => plainByte_read b (h b hb)
  have hglyphs := Utf8.glyphs_of_ascii fun b hb => (hbyte b hb).1
  have hreadable : (Utf8.glyphs t).all Lexer.isReadable = true := by
    rw [hglyphs, List.all_map, List.all_eq_true]
    exact fun b hb => (hbyte b hb).2.1
  have hreread : (Utf8.glyphs t).flatMap Lexer.reread = t := by
    rw [hglyphs, List.flatMap_map]
    calc t.flatMap (fun b => Lexer.reread (.char b.toNat)) = t.flatMap fun b => [b] :=
          List.flatMap_congr fun b hb => (hbyte b hb).2.2
      _ = t := by simp
  have hwritten := written_quote hreadable
  rwa [hreread] at hwritten

/-! ### Trees of data -/

mutual

/-- Symbols, numbers and the keys of maps are single tokens, strings hold plain bytes. -/
def IsPlain : Datum → Prop
  | symbol name => Lexer.tokens name = ([.symbol name], none)
  | string contents => ∀ b ∈ contents, isPlainByte b = true
  | number spelling => Lexer.tokens spelling = ([.number spelling], none)
  | ellipsis => True
  | list items | array items => AllPlain items
  | map entries => EntriesPlain entries
termination_by structural d => d

def AllPlain : List Datum → Prop
  | [] => True
  | d :: ds => IsPlain d ∧ AllPlain ds
termination_by structural ds => ds

def EntriesPlain : List (Text × Datum) → Prop
  | [] => True
  | (key, d) :: es => Lexer.tokens key = ([.symbol key], none) ∧ IsPlain d ∧ EntriesPlain es
termination_by structural es => es

end

mutual

/-- The written form of a plain datum is that datum, whatever stands behind it. -/
theorem written_of_isPlain {d : Datum} (h : d.IsPlain) : Written d.render [d] := by
  match d, h with
  | symbol name, h => exact written_atom (Lexer.spells_of_symbol h) (.symbol name)
  | string contents, h => exact written_string h
  | number spelling, h => exact written_atom (Lexer.spells_of_number h) (.number spelling)
  | ellipsis, _ => exact written_atom Lexer.spells_ellipsis .ellipsis
  | list items, h => exact (written_of_allPlain h).list
  | array items, h => exact (written_of_allPlain h).array
  | map entries, h => exact written_map (written_of_entriesPlain h)

theorem written_of_allPlain {ds : List Datum} (h : AllPlain ds) :
    Written (Text.join " " (renderItems ds)) ds := by
  match ds, h with
  | [], _ => exact ⟨[], Lexer.spells_nil, .nil⟩
  | [d], h => exact written_of_isPlain h.1
  | d :: d' :: ds, h =>
    obtain ⟨ts, hts, hd⟩ := written_of_isPlain h.1
    obtain ⟨us, hus, hds⟩ := written_of_allPlain h.2
    refine ⟨ts ++ us, ?_, hd.append hds⟩
    rw [renderItems, Text.join, List.append_assoc]
    · exact hts.blank hus
    · simp [renderItems]

theorem written_of_entriesPlain {es : List (Text × Datum)} (h : EntriesPlain es) :
    ∀ e ∈ es, Lexer.Spells e.1 [.symbol e.1] ∧ Written e.2.render [e.2] := by
  match es, h with
  | [], _ => exact nofun
  | (key, d) :: es, h =>
    refine List.forall_mem_cons.mpr ⟨⟨Lexer.spells_of_symbol h.1, ?_⟩, ?_⟩
    · exact written_of_isPlain h.2.1
    · exact written_of_entriesPlain h.2.2

end

/-- A plain datum is read back from its written form. -/
theorem read_render {d : Datum} (h : d.IsPlain) : read d.render = .ok d :=
  read_of_written (written_of_isPlain h)

/-- A map with signs, brackets and control bytes in all places that take them. -/
def ledger : Datum :=
  .map [("list<int>", .array [.number "-1.50", .symbol "-", .symbol "+", .list [], .ellipsis]),
    ("-", .map [("_", .string [0, 34, 92, 10, 127, 32])]), ("k", .list [.map [], .number "+7"])]

theorem ledger_read_render : ledger.IsPlain ∧ read ledger.render = .ok ledger := by
  have hplain : ledger.IsPlain := by
    simp only [ledger, IsPlain, AllPlain, EntriesPlain]
    decide +kernel
  exact ⟨hplain, read_render hplain⟩

end Augite.Datum
