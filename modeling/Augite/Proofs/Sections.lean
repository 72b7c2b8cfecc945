import Mathlib
import Augite.Snapshot

/-!
# Sections of a test document

What the lines of a written section are read as: a heading with the name of the test, and
fences with their contents. A fence ends at the line it was written to end at if no line of
its contents closes it.
-/

namespace Augite

/-! ### Lines -/

namespace Text

theorem lines_line {l : Text} (hl : 10 ∉ l) (t : Text) :
    lines (l ++ 10 :: t) = (l ++ [10]) :: lines t := by
  induction l with
  | nil => exact if_pos rfl
  | cons b l ih =>
    obtain ⟨hb, hl⟩ := not_or.mp (mt List.mem_cons.mpr hl)
    rw [List.cons_append, lines, if_neg (Ne.symm hb), ih hl]
    rfl

theorem flatten_lines (t : Text) : (lines t).flatten = t := by
  induction t with
  | nil => rfl
  | cons b t ih =>
    rw [lines]
    split
    · rw [List.flatten_cons, ih, List.singleton_append]
    · cases h : lines t with
      | nil =>
        rw [h] at ih
        rw [← ih]
        rfl
      | cons l ls =>
        rw [h] at ih
        simp only [List.flatten_cons, List.cons_append] at ih ⊢
        rw [ih]

theorem lines_append (t u : Text) : lines (t ++ 10 :: u) = lines (t ++ [10]) ++ lines u := by
  induction t with
  | nil => rw [List.nil_append, lines, if_pos rfl]; rfl
  | cons b t ih =>
    simp only [List.cons_append, lines]
    by_cases hb : b = 10
    · rw [if_pos hb, if_pos hb, ih, List.cons_append]
    · rw [if_neg hb, if_neg hb, ih]
      cases h : lines (t ++ [10]) with
      | nil =>
        have := flatten_lines (t ++ [10])
        rw [h] at this
        exact absurd this.symm (by simp)
      | cons l ls => rfl

theorem trimEnd_append {p : UInt8 → Bool} {u : Text} (hu : ∀ b ∈ u, p b = true) (t : Text) :
    trimEnd p (t ++ u) = trimEnd p t := by
  unfold trimEnd
  rw [List.reverse_append, List.dropWhile_append_of_pos fun b hb => hu b (List.mem_reverse.mp hb)]

theorem trimEnd_eq_self {p : UInt8 → Bool} {t : Text} (h : ∀ b ∈ t.getLast?, p b = false) :
    trimEnd p t = t := by
  unfold trimEnd
  rcases List.eq_nil_or_concat t with rfl | ⟨u, b, rfl⟩
  · rfl
  · rw [List.concat_eq_append] at h ⊢
    have hb : p b = false := h b (by simp)
    simp [hb]

theorem trimEnd_trimEnd (p : UInt8 → Bool) (t : Text) : trimEnd p (trimEnd p t) = trimEnd p t := by
  unfold trimEnd
  rw [List.reverse_reverse]
  congr 1
  exact List.dropWhile_idempotent p t.reverse

end Text

namespace Document

/-! ### Headings -/

/-- Bytes that mean nothing in a heading. -/
def isPlain (b : UInt8) : Bool :=
  !(b == byte '\\' || b == byte '`' || b == byte '*' || b == byte '_' || b == byte '\n')

theorem pieces_of_isPlain {t : Text} (h : ∀ b ∈ t, isPlain b = true) (before : Nat) :
    pieces before t = t.map fun b => .text [b] := by
  induction t generalizing before with
  | nil => rw [pieces, List.map_nil]
  | cons b t ih =>
    obtain ⟨hb, ht⟩ := List.forall_mem_cons.mp h
    simp only [isPlain, Bool.not_eq_true', Bool.or_eq_false_iff, beq_eq_false_iff_ne] at hb
    obtain ⟨⟨⟨⟨hslash, htick⟩, hstar⟩, hunder⟩, hline⟩ := hb
    have hmem : (b :: t.takeWhile isSpace).contains (byte '\n') = false := by
      rw [← Bool.not_eq_true, List.contains_iff_mem]
      rintro (_ | ⟨_, hmem⟩)
      · exact hline rfl
      · have := ht _ ((List.takeWhile_sublist isSpace).subset hmem)
        exact absurd this (by decide)
    rw [pieces.eq_def]
    simp only
    rw [if_neg hslash, if_neg htick, if_neg (not_or.mpr ⟨hstar, hunder⟩), hmem,
      Bool.and_false, if_neg Bool.false_ne_true, ih ht, List.map_cons]

theorem plainText_of_isPlain {t : Text} (h : ∀ b ∈ t, isPlain b = true) : plainText t = t := by
  have hsettle : ∀ (ts : List Text) (done : List Piece),
      settleAll done (ts.map .text) = (ts.map .text).reverse ++ done := by
    intro ts
    induction ts with
    | nil => exact fun done => rfl
    | cons t ts ih =>
      intro done
      rw [List.map_cons, settleAll, ih, List.reverse_cons, List.append_assoc]
      rfl
  have hpieces : pieces 0x0A t = (t.map fun b => [b]).map .text := by
    rw [pieces_of_isPlain h, List.map_map]
    rfl
  rw [plainText, hpieces, hsettle, List.append_nil, List.reverse_reverse, List.flatMap_map]
  simp only [Piece.plain]
  rw [List.flatMap_map]
  simp

/-- A line outside of all blocks, without an indent. -/
theorem step_nothing {l : Text} (hblank : isBlankLine l = false) (hindent : indent l = (0, l))
    (n : Nat) (hrule : isRule l = false) :
    step .nothing n l =
      match heading? l with
      | some (level, t) => (some (.heading n level (plainText t)), .nothing)
      | none =>
        match fence? 0 l with
        | some f => (none, .fence f (n + 1) [])
        | none => (none, .paragraph n [l]) := by
  unfold step
  rw [hindent]
  simp only [hblank, hrule]
  rfl

/-- A line that starts with neither white space nor the mark of a rule. -/
theorem step_of_head {b : UInt8} {l : Text}
    (hb : b ∉ [byte ' ', byte '\t', byte '\n', byte '\r', byte '*', byte '-', byte '_']) (n : Nat) :
    step .nothing n (b :: l) =
      match heading? (b :: l) with
      | some (level, t) => (some (.heading n level (plainText t)), .nothing)
      | none =>
        match fence? 0 (b :: l) with
        | some f => (none, .fence f (n + 1) [])
        | none => (none, .paragraph n [b :: l]) := by
  simp only [List.mem_cons, List.not_mem_nil, or_false, not_or] at hb
  obtain ⟨hblank, htab, hline, hreturn, hstar, hhyphen, hunder⟩ := hb
  have hspace : isSpace b = false := by
    simp [isSpace, hblank, htab, hline, hreturn]
  apply step_nothing
  · simp [isBlankLine, hspace]
  · simp [indent, indentFrom, hblank, htab]
  · simp [isRule, hspace, hstar, hhyphen, hunder]

/-- A text with no white space around it, and no number sign at its end. -/
structure IsTitle (t : Text) : Prop where
  first : ∀ b ∈ t.head?, isSpace b = false
  last : ∀ b ∈ t.getLast?, isSpace b = false ∧ b ≠ byte '#'
  plain : ∀ b ∈ t, isPlain b = true

theorem trimLine_title {t : Text} (ht : IsTitle t) :
    trimLine (byte ' ' :: (t ++ [byte '\n'])) = t := by
  have hlast : trimRight (t ++ [byte '\n']) = t := by
    rw [trimRight, Text.trimEnd_append (by simp [isSpace])]
    exact Text.trimEnd_eq_self fun b hb => (ht.last b hb).1
  have hfirst : (byte ' ' :: (t ++ [byte '\n'])).dropWhile isSpace = (t ++ [byte '\n']).dropWhile isSpace :=
    List.dropWhile_cons_of_pos rfl
  rw [trimLine, hfirst]
  cases t with
  | nil => rfl
  | cons b t =>
    have hb : isSpace b = false := ht.first b rfl
    rw [List.cons_append, List.dropWhile_cons_of_neg (by simp [hb]), ← List.cons_append, hlast]

theorem heading?_title {marks t : Text} (hmarks : ∀ b ∈ marks, b = byte '#') (h0 : marks ≠ [])
    (h6 : marks.length ≤ 6) (ht : IsTitle t) :
    heading? (marks ++ byte ' ' :: (t ++ [byte '\n'])) = some (marks.length, t) := by
  have hlevel : (marks ++ byte ' ' :: (t ++ [byte '\n'])).takeWhile (fun b => b == byte '#') = marks := by
    rw [List.takeWhile_append_of_pos fun b hb => by simp [hmarks b hb]]
    rw [List.takeWhile_cons_of_neg (by decide), List.append_nil]
  have hlen : marks.length ≠ 0 := by simpa using h0
  have hclosing : withoutClosing t = t := by
    rw [withoutClosing, Text.trimEnd_eq_self fun b hb => by simp [(ht.last b hb).2]]
    simp
  unfold heading?
  simp only [hlevel, List.drop_left, trimLine_title ht, hclosing]
  rw [if_neg (by omega)]
  rfl

theorem heading?_of_ne {b : UInt8} (hb : b ≠ byte '#') (l : Text) : heading? (b :: l) = none := by
  have hlevel : (b :: l).takeWhile (fun c => c == byte '#') = [] :=
    List.takeWhile_cons_of_neg (by simp [hb])
  simp only [heading?, hlevel]
  rfl

/-- A heading is read as it is written. -/
theorem step_heading {marks t : Text} (hmarks : ∀ b ∈ marks, b = byte '#') (h0 : marks ≠ [])
    (h6 : marks.length ≤ 6) (ht : IsTitle t) (n : Nat) :
    step .nothing n (marks ++ byte ' ' :: (t ++ [byte '\n'])) =
      (some (.heading n marks.length t), .nothing) := by
  have hheading := heading?_title hmarks h0 h6 ht
  obtain ⟨b, r, rfl⟩ := List.exists_cons_of_ne_nil h0
  obtain rfl := hmarks b List.mem_cons_self
  rw [List.cons_append] at hheading ⊢
  rw [step_of_head (by decide), hheading]
  simp only [plainText_of_isPlain ht.plain]

/-! ### Fences -/

/-- The fence that three backticks open. -/
def ticks (language : Text) : Fence := { mark := byte '`', size := 3, margin := 0, language }

/-- A language is a word without backticks. -/
structure IsLanguage (t : Text) : Prop where
  ne_nil : t ≠ []
  plain : ∀ b ∈ t, isSpace b = false ∧ b ≠ byte '`'

theorem trimLine_word {t : Text} (ht : ∀ b ∈ t, isSpace b = false) :
    trimLine (t ++ [byte '\n']) = t := by
  have hlast : trimRight (t ++ [byte '\n']) = t := by
    rw [trimRight, Text.trimEnd_append (by simp [isSpace])]
    exact Text.trimEnd_eq_self fun b hb => ht b (List.mem_of_getLast? hb)
  rw [trimLine]
  cases t with
  | nil => rfl
  | cons b t =>
    have hb : isSpace b = false := ht b List.mem_cons_self
    rw [List.cons_append, List.dropWhile_cons_of_neg (by simp [hb]), ← List.cons_append, hlast]

theorem fence?_ticks {language : Text} (h : IsLanguage language) :
    fence? 0 (Text.ofString "```" ++ (language ++ [byte '\n'])) = some (ticks language) := by
  have hmark : Text.ofString "```" = [byte '`', byte '`', byte '`'] := rfl
  obtain ⟨b, r, rfl⟩ := List.exists_cons_of_ne_nil h.ne_nil
  have hb := (h.plain b List.mem_cons_self).2
  have hsize : (byte '`' :: byte '`' :: byte '`' :: (b :: r ++ [byte '\n'])).takeWhile
      (fun c => c == byte '`') = [byte '`', byte '`', byte '`'] := by
    simp [hb]
  have hinfo := trimLine_word fun c hc => (h.plain c hc).1
  have hlang : (b :: r).takeWhile (fun c => c != byte ' ') = b :: r := by
    rw [List.takeWhile_eq_self_iff]
    intro c hc
    have := (h.plain c hc).1
    simp only [bne_iff_ne]
    rintro rfl
    exact absurd this (by decide)
  have hnone : (b :: r).contains (byte '`') = false := by
    rw [← Bool.not_eq_true, List.contains_iff_mem]
    exact fun hmem => (h.plain _ hmem).2 rfl
  rw [hmark]
  simp only [List.cons_append, List.nil_append, fence?]
  rw [List.cons_append] at hsize hinfo
  have hlen : ¬ (b :: (r ++ [byte '\n'])).length ≤ 1 := by simp
  simp only [hsize, List.length_cons, List.length_nil, List.drop_succ_cons, List.drop_zero] at hlen ⊢
  rw [if_neg hlen, hinfo, hlang, hnone, if_pos (by simp)]
  rfl

/-- A line that ends a fence of three backticks. -/
def closesTicks (l : Text) : Bool := (ticks []).closedBy l

theorem contentLine_ticks (language l : Text) : (ticks language).contentLine l = l := by
  have hcolumn : fromColumn? 0 0 l = some l := by cases l <;> rfl
  simp only [Fence.contentLine, ticks, hcolumn]

theorem blocksFrom_nothing (n : Nat) (l : Text) (ls : List Text) :
    blocksFrom .nothing n (l :: ls) =
      (step .nothing n l).1.toList ++ blocksFrom (step .nothing n l).2 (n + 1) ls := rfl

theorem blocksFrom_fence_append {f : Fence} {ls : List Text} (h : ∀ l ∈ ls, f.closedBy l = false)
    (first : Nat) (lines : List Text) (n : Nat) (ls' : List Text) :
    blocksFrom (.fence f first lines) n (ls ++ ls') =
      blocksFrom (.fence f first (lines ++ ls.map f.contentLine)) (n + ls.length) ls' := by
  induction ls generalizing lines n with
  | nil => simp
  | cons l ls ih =>
    obtain ⟨hl, hls⟩ := List.forall_mem_cons.mp h
    rw [List.cons_append, blocksFrom]
    simp only [hl, Bool.false_eq_true, if_false]
    rw [ih hls, List.map_cons, List.append_assoc, List.length_cons, Nat.add_right_comm, Nat.add_assoc]
    rfl

/-- A fence is read as it is written if no line of its contents closes it. -/
theorem blocksFrom_fence {language content : Text} (h : IsLanguage language)
    (hopen : ∀ l ∈ Text.lines (content ++ [10]), closesTicks l = false) (n : Nat) (rest : Text) :
    blocksFrom .nothing n (Text.lines (Snapshot.fence language content ++ rest)) =
      .fence (n + 1) language (content ++ [10]) ::
        blocksFrom .nothing (n + 2 + (Text.lines (content ++ [10])).length) (Text.lines rest) := by
  have htext : Snapshot.fence language content ++ rest =
      (Text.ofString "```" ++ language) ++ 10 :: (content ++ 10 :: (Text.ofString "```" ++ 10 :: rest)) := by
    have hopening : Text.ofString "\n" = [10] := rfl
    have hclosing : Text.ofString "\n```\n" = 10 :: (Text.ofString "```" ++ [10]) := rfl
    rw [Snapshot.fence, hopening, hclosing]
    simp
  have hfirst : 10 ∉ Text.ofString "```" ++ language := by
    rw [List.mem_append]
    rintro (hmem | hmem)
    · exact absurd hmem (by decide)
    · exact absurd (h.plain 10 hmem).1 (by decide)
  have hstep : step .nothing n ((Text.ofString "```" ++ language) ++ [10]) =
      (none, .fence (ticks language) (n + 1) []) := by
    have hfence : fence? 0 (Text.ofString "```" ++ (language ++ [10])) = some (ticks language) :=
      fence?_ticks h
    rw [List.append_assoc]
    have hmark : Text.ofString "```" = byte '`' :: [byte '`', byte '`'] := rfl
    rw [hmark, List.cons_append] at hfence ⊢
    rw [step_of_head (by decide), heading?_of_ne (by decide)]
    simp only [hfence]
  have hlines : (Text.lines (content ++ [10])).flatten = content ++ [10] := Text.flatten_lines _
  have hne : Text.lines (content ++ [10]) ≠ [] := by
    intro hnil
    rw [hnil] at hlines
    exact absurd hlines.symm (by simp)
  have hclose : Text.lines (Text.ofString "```" ++ 10 :: rest) =
      (Text.ofString "```" ++ [10]) :: Text.lines rest := Text.lines_line (by decide) rest
  have hclosed : (ticks language).closedBy (Text.ofString "```" ++ [10]) = true := rfl
  have hcontent : (Text.lines (content ++ [10])).map (ticks language).contentLine =
      Text.lines (content ++ [10]) :=
    (List.map_congr_left fun l _ => contentLine_ticks language l).trans (List.map_id' _)
  rw [htext, Text.lines_line hfirst, Text.lines_append content, hclose, blocksFrom_nothing, hstep,
    Option.toList_none, List.nil_append, blocksFrom_fence_append (f := ticks language) hopen,
    blocksFrom, if_pos hclosed, List.nil_append, hcontent, fenceBlock, hlines]
  simp only [List.isEmpty_eq_false_iff.mpr hne, ticks]
  rw [if_neg Bool.false_ne_true]
  congr 2
  omega

/-- Contents that can stand in a fence and are read as they are. -/
structure IsContent (t : Text) : Prop where
  isOpen : ∀ l ∈ Text.lines (t ++ [10]), closesTicks l = false
  trimmed : trimNewlines t = t

/-- The block is a fence with a given language and contents. -/
def IsFence (f : Text × Text) (b : Block) : Prop := ∃ line, b = .fence line f.1 (f.2 ++ [10])

theorem blocksFrom_fences {fs : List (Text × Text)}
    (h : ∀ f ∈ fs, IsLanguage f.1 ∧ IsContent f.2) (n : Nat) (rest : Text) :
    ∃ bs n', List.Forall₂ IsFence fs bs ∧
      blocksFrom .nothing n (Text.lines ((fs.flatMap fun f => Snapshot.fence f.1 f.2) ++ rest)) =
        bs ++ blocksFrom .nothing n' (Text.lines rest) := by
  induction fs generalizing n with
  | nil => exact ⟨[], n, .nil, rfl⟩
  | cons f fs ih =>
    obtain ⟨hf, hfs⟩ := List.forall_mem_cons.mp h
    obtain ⟨bs, n', hbs, heq⟩ := ih hfs (n + 2 + (Text.lines (f.2 ++ [10])).length)
    refine ⟨_ :: bs, n', .cons ⟨n + 1, rfl⟩ hbs, ?_⟩
    rw [List.flatMap_cons, List.append_assoc, blocksFrom_fence hf.1 hf.2.isOpen, heq, List.cons_append]

/-! ### Tests -/

theorem ofLanguage_program : Purpose.ofLanguage InputKind.program.language = .input .program := rfl

theorem ofLanguage_assertion (k : AssertionKind) :
    Purpose.ofLanguage k.language = .assertion k := by
  cases k <;> rfl

theorem isLanguage_of_check {t : Text}
    (h : (!t.isEmpty && t.all fun b => !isSpace b && b != byte '`') = true) : IsLanguage t := by
  simp only [Bool.and_eq_true, List.all_eq_true, Bool.not_eq_true', bne_iff_ne] at h
  exact ⟨List.isEmpty_eq_false_iff.mp h.1, h.2⟩

theorem isLanguage_program : IsLanguage InputKind.program.language := isLanguage_of_check rfl

theorem isLanguage_assertion (k : AssertionKind) : IsLanguage k.language := by
  cases k <;> exact isLanguage_of_check rfl

theorem trimNewlines_append {t : Text} (h : trimNewlines t = t) : trimNewlines (t ++ [10]) = t := by
  rw [trimNewlines, Text.trimEnd_append (List.forall_mem_singleton.mpr rfl)]
  exact h

/-- Fences with assertions are entered in order. -/
theorem extractFrom_assertions {cs : List (AssertionKind × Text)} {as : List Assertion}
    (hcs : List.Forall₂ (fun c a => assertionOf c.1 c.2 = .ok a) cs as)
    (htrim : ∀ c ∈ cs, trimNewlines c.2 = c.2)
    {bs : List Block} (hbs : List.Forall₂ IsFence (cs.map fun c => (c.1.language, c.2)) bs)
    (t : TestCase) (rest : List Block) :
    extractFrom (some t) (bs ++ rest) =
      extractFrom (some { t with assertions := t.assertions ++ as }) rest := by
  induction hcs generalizing bs t with
  | nil =>
    cases hbs
    rw [List.append_nil]
    rfl
  | @cons c a cs as hc hcs ih =>
    cases hbs with
    | cons hb hbs =>
      obtain ⟨line, rfl⟩ := hb
      obtain ⟨htrim, htrims⟩ := List.forall_mem_cons.mp htrim
      have hfence : t.addFence line c.1.language (c.2 ++ [10]) =
          .ok { t with assertions := t.assertions ++ [a] } := by
        simp only [TestCase.addFence, ofLanguage_assertion, trimNewlines_append htrim, hc]
      rw [List.cons_append, extractFrom]
      simp only [hfence]
      change extractFrom (some { t with assertions := t.assertions ++ [a] }) _ = _
      rw [ih htrims hbs]
      simp only [List.append_assoc, List.singleton_append]

end Document

namespace Snapshot

open Document

/-- What a snapshot states of its input. -/
def checks (s : Snapshot) : List (AssertionKind × Text) :=
  (if s.ast.isEmpty then [] else [(.ast, s.ast)]) ++
    (if s.ir.isEmpty then [] else [(.ir, s.ir)]) ++
    (if s.error.isEmpty then [] else [(.compileError, errorText s.error)])

theorem testSection_eq (s : Snapshot) (rest : Text) :
    s.testSection ++ rest =
      Text.ofString "##" ++ byte ' ' :: (testMark ++ s.name) ++ 10 ::
        ((((InputKind.program.language, s.input) :: s.checks.map fun c => (c.1.language, c.2)).flatMap
          fun f => fence f.1 f.2) ++ 10 :: rest) := by
  have hmarks : Text.ofString "## " = Text.ofString "##" ++ [byte ' '] := rfl
  have hline : Text.ofString "\n" = [10] := rfl
  unfold testSection checks fenceOf
  rw [hmarks, hline]
  cases s.ast.isEmpty <;> cases s.ir.isEmpty <;> cases s.error.isEmpty <;> simp

/-- A name of letters and digits. -/
def IsTestName (name : Text) : Prop :=
  name ≠ [] ∧ ∀ b ∈ name, (Text.isLetter b && b != byte '_' || Text.isDigit b) = true

theorem nameByte : ∀ b : UInt8, (Text.isLetter b && b != byte '_' || Text.isDigit b) = true →
    isSpace b = false ∧ b ≠ byte '#' ∧ isPlain b = true := by
  decide +kernel

theorem IsTestName.isTitle {name : Text} (h : IsTestName name) : IsTitle (testMark ++ name) where
  first b hb := by
    cases hb
    rfl
  last b hb := by
    rw [List.getLast?_append_of_ne_nil _ h.1] at hb
    have := nameByte b (h.2 b (List.mem_of_getLast? hb))
    exact ⟨this.1, this.2.1⟩
  plain := by
    have hmark : ∀ b ∈ testMark, isPlain b = true := List.all_eq_true.mp rfl
    exact List.forall_mem_append.mpr ⟨hmark, fun b hb => (nameByte b (h.2 b hb)).2.2⟩

/-- The snapshot can be stated, with given assertions. -/
structure IsStated (s : Snapshot) (as : List Assertion) : Prop where
  name : IsTestName s.name
  ne_nil : s.input ≠ []
  input : IsContent s.input
  contents : ∀ c ∈ s.checks, IsContent c.2
  reads : List.Forall₂ (fun c a => assertionOf c.1 c.2 = .ok a) s.checks as
  stated : as ≠ []

/-- The test case that states a snapshot at a line. -/
def testCase (s : Snapshot) (as : List Assertion) (line : Nat) : TestCase :=
  { name := s.name, line, input := s.input, inputKind := some .program, assertions := as }

theorem IsStated.check {s : Snapshot} {as : List Assertion} (h : s.IsStated as) (line : Nat) :
    (s.testCase as line).check = .ok (s.testCase as line) := by
  have hinput : s.input.isEmpty = false := by simpa using h.ne_nil
  have has : as.isEmpty = false := by simpa using h.stated
  simp [TestCase.check, testCase, hinput, has]

/-- A section is read as the test case it states, behind which the document goes on. -/
theorem IsStated.blocks {s : Snapshot} {as : List Assertion} (h : s.IsStated as) (n : Nat)
    (rest : Text) :
    ∃ bs n', blocksFrom .nothing n (Text.lines (s.testSection ++ rest)) =
        .heading n 2 (testMark ++ s.name) :: bs ++ blocksFrom .nothing n' (Text.lines rest) ∧
      ∀ bs', extractFrom (some { name := s.name, line := n }) (bs ++ bs') =
        extractFrom (some (s.testCase as n)) bs' := by
  have hfs : ∀ f ∈ (InputKind.program.language, s.input) ::
      s.checks.map fun c => (c.1.language, c.2), IsLanguage f.1 ∧ IsContent f.2 := by
    refine List.forall_mem_cons.mpr ⟨⟨isLanguage_program, h.input⟩, fun f hf => ?_⟩
    obtain ⟨c, hc, rfl⟩ := List.mem_map.mp hf
    exact ⟨isLanguage_assertion c.1, h.contents c hc⟩
  obtain ⟨bs, n', hbs, heq⟩ := blocksFrom_fences hfs (n + 1) (10 :: rest)
  refine ⟨bs, n' + 1, ?_, fun bs' => ?_⟩
  · have hfirst : 10 ∉ Text.ofString "##" ++ byte ' ' :: (testMark ++ s.name) := by
      intro hmem
      rcases List.mem_append.mp hmem with hmem | hmem
      · exact absurd hmem (by decide)
      · rcases List.mem_cons.mp hmem with hmem | hmem
        · exact absurd hmem (by decide)
        · exact absurd (h.name.isTitle.plain 10 hmem) (by decide)
    have hheading : step .nothing n (Text.ofString "##" ++ byte ' ' :: (testMark ++ s.name) ++ [10]) =
        (some (.heading n 2 (testMark ++ s.name)), .nothing) := by
      rw [List.append_assoc]
      have hall : (Text.ofString "##").all (fun b => b == byte '#') = true := rfl
      exact step_heading (fun b hb => beq_iff_eq.mp (List.all_eq_true.mp hall b hb)) (by decide)
        (by decide) h.name.isTitle n
    have hblank : blocksFrom .nothing n' (Text.lines (10 :: rest)) =
        blocksFrom .nothing (n' + 1) (Text.lines rest) := rfl
    rw [testSection_eq, Text.lines_line hfirst, blocksFrom_nothing, hheading, heq, hblank]
    rfl
  · cases hbs with
    | cons hb hbs =>
      obtain ⟨line, rfl⟩ := hb
      have hinput : TestCase.addFence { name := s.name, line := n } line InputKind.program.language
          (s.input ++ [10]) = .ok (s.testCase [] n) := by
        simp only [TestCase.addFence, ofLanguage_program, trimNewlines_append h.input.trimmed]
        rfl
      rw [List.cons_append, extractFrom]
      simp only [hinput]
      change extractFrom (some (s.testCase [] n)) _ = _
      rw [extractFrom_assertions h.reads (fun c hc => (h.contents c hc).trimmed) hbs]
      rfl

/-- The document of snapshots that can be stated has a test case for each of them. -/
theorem extractFrom_sections {ss : List Snapshot} {ass : List (List Assertion)}
    (h : List.Forall₂ IsStated ss ass) (current : Option TestCase)
    (hcurrent : ∀ t ∈ current, t.check = .ok t) (n : Nat) :
    ∃ ts, extractFrom current (blocksFrom .nothing n (Text.lines (ss.flatMap testSection))) =
        .ok (current.toList ++ ts) ∧
      List.Forall₂ (fun x t => ∃ line, t = x.1.testCase x.2 line) (ss.zip ass) ts := by
  induction h generalizing current n with
  | nil =>
    refine ⟨[], ?_, .nil⟩
    cases current with
    | none => rfl
    | some t =>
      have := hcurrent t rfl
      change (t.check.mapError _).map _ = _
      rw [this]
      rfl
  | @cons s as ss ass hs hss ih =>
    obtain ⟨bs, n', hblocks, hextract⟩ := hs.blocks n (ss.flatMap testSection)
    obtain ⟨ts, hts, hforall⟩ := ih (some (s.testCase as n))
      (fun t ht => by cases ht; exact hs.check n) n'
    refine ⟨s.testCase as n :: ts, ?_, .cons ⟨n, rfl⟩ hforall⟩
    have hname : Text.after? testMark (testMark ++ s.name) = some s.name := rfl
    have hrest := hextract (blocksFrom .nothing n' (Text.lines (ss.flatMap testSection)))
    rw [hts] at hrest
    rw [List.flatMap_cons, hblocks, List.cons_append, extractFrom, hname]
    cases current with
    | none => exact hrest
    | some t =>
      have := hcurrent t rfl
      simp only [this, hrest]
      rfl

/-- Only the sections of a document count. -/
theorem extract_eq (ss : List Snapshot) :
    extract (document ss) =
      extractFrom none (blocksFrom .nothing 5 (Text.lines (ss.flatMap testSection))) := by
  have hintro : document ss = Text.ofString "# Snapshot tests" ++ 10 :: 10 ::
      (Text.ofString "Generated from .pyrx sources. Review before committing." ++
        10 :: 10 :: ss.flatMap testSection) := by
    have htext : Text.ofString
        "# Snapshot tests\n\nGenerated from .pyrx sources. Review before committing.\n\n" =
      Text.ofString "# Snapshot tests" ++ 10 :: 10 ::
        (Text.ofString "Generated from .pyrx sources. Review before committing." ++ [10, 10]) := rfl
    rw [document, htext]
    simp
  have htitle : IsTitle (Text.ofString "Snapshot tests") :=
    ⟨fun b hb => by cases hb; rfl, fun b hb => by cases hb; exact ⟨rfl, by decide⟩,
      List.all_eq_true.mp rfl⟩
  have hheading : step .nothing 1 (Text.ofString "# Snapshot tests" ++ [10]) =
      (some (.heading 1 1 (Text.ofString "Snapshot tests")), .nothing) :=
    @step_heading [byte '#'] _ (List.forall_mem_singleton.mpr rfl) (by decide) (by decide) htitle 1
  have hblank (n : Nat) (t : Text) : blocksFrom .nothing n (Text.lines (10 :: t)) =
      blocksFrom .nothing (n + 1) (Text.lines t) := rfl
  have hleave (first n : Nat) (ls : List Text) (t : Text) :
      blocksFrom (.paragraph first ls) n (Text.lines (10 :: t)) =
        blocksFrom .nothing (n + 1) (Text.lines t) := rfl
  have hparagraph : step .nothing 3
      (Text.ofString "Generated from .pyrx sources. Review before committing." ++ [10]) =
      (none, .paragraph 3 [Text.ofString
        "Generated from .pyrx sources. Review before committing." ++ [10]]) := rfl
  have hnone : Text.after? testMark (Text.ofString "Snapshot tests") = none := rfl
  rw [extract, blocks, hintro, Text.lines_line (by decide), blocksFrom_nothing, hheading, hblank,
    Text.lines_line (by decide), blocksFrom_nothing, hparagraph, hleave]
  change extractFrom none (.heading 1 1 (Text.ofString "Snapshot tests") :: _) = _
  rw [extractFrom, hnone]
  rfl

end Snapshot

end Augite
