import Mathlib
import Augite.Proofs.ErrorTexts
import Augite.Proofs.ReadableSummaries
import Augite.Proofs.Recompilation

/-!
# Snapshots that pass their own tests

The document that states snapshots is read as one test case for each of them, and the input
of a test case meets all of its assertions. A source text has to leave the fence that it is
put in open, and strings have to show what its literals hold.
-/

namespace Augite

namespace Document

/-- One line that starts with neither white space nor a backtick. -/
theorem isContent_of_line {b : UInt8} {t : Text} (hline : byte '\n' ∉ b :: t)
    (hb : b ∉ [byte ' ', byte '\t', byte '`']) : IsContent (b :: t) := by
  simp only [List.mem_cons, List.not_mem_nil, or_false, not_or] at hb
  refine ⟨fun l hl => ?_, Text.trimEnd_eq_self fun c hc => ?_⟩
  · have hlines : Text.lines (b :: t ++ [10]) = [b :: t ++ [10]] := Text.lines_line hline []
    rw [hlines, List.mem_singleton] at hl
    subst hl
    simp [closesTicks, Fence.closedBy, indent, indentFrom, ticks, hb.1, hb.2.1, hb.2.2]
  · simp only [beq_eq_false_iff_ne]
    rintro rfl
    exact hline (List.mem_of_getLast? hc)

/-- The assertion holds of a source text. -/
def Assertion.Holds (a : Assertion) (source : Text) : Prop :=
  match a.kind with
  | .ast => ∃ p d pattern, Program.parse 0 source = .ok p ∧ Datum.read p.node.dump = .ok d ∧
      a.pattern = some pattern ∧ pattern.accepts d = true
  | .ir => ∃ m pattern, (compileSource source).1 = .ok m ∧ a.pattern = some pattern ∧
      pattern.accepts m.summary = true
  | .compileError => ∃ e, (compileSource source).1 = .error e ∧ a.content <:+: e.text
  | .types => False

end Document

namespace Snapshot

open Document

/-- What a source text needs for its snapshot to be a test that it passes. -/
@[mk_iff]
structure IsStatable (source : Text) : Prop where
  /-- There is something besides newlines. -/
  ne_nil : trimNewlines source ≠ []
  /-- No line of it ends the fence that it is put in. -/
  isOpen : ∀ l ∈ Text.lines (trimNewlines source ++ [10]), closesTicks l = false
  /-- Strings can show what its literals hold. -/
  readable : ∀ p, Program.parse 0 source = .ok p → Node.allReadable p.body = true
  /-- The newlines at its end do not follow the backslash of an open literal. -/
  unbroken : ∀ e, Program.parse 0 source = .error e →
    ∀ e', Program.parse 0 (trimNewlines source) = .error e' →
    ¬(e.cause = .invalidEscape (byte '\n') ∧ e'.cause = .unterminatedLiteral)
  /-- No line of its error ends the fence that it is put in. -/
  errorOpen : ∀ e, (compileSource source).1 = .error e →
    ∀ l ∈ Text.lines (errorText e.text ++ [10]), closesTicks l = false
  /-- Its instructions can be counted by machine integers. -/
  countable : ∀ m, (compileSource source).1 = .ok m → ∀ f ∈ m.funcs, f.opcodes.length < 2 ^ 63

instance {ε α : Type} (x : Except ε α) (P : α → Prop) [DecidablePred P] :
    Decidable (∀ a, x = .ok a → P a) :=
  match x with
  | .error _ => .isTrue fun _ h => nomatch h
  | .ok a => decidable_of_iff (P a) ⟨fun h _ heq => Except.ok.inj heq ▸ h, fun h => h a rfl⟩

instance {ε α : Type} (x : Except ε α) (P : ε → Prop) [DecidablePred P] :
    Decidable (∀ e, x = .error e → P e) :=
  match x with
  | .error e => decidable_of_iff (P e) ⟨fun h _ heq => Except.error.inj heq ▸ h, fun h => h e rfl⟩
  | .ok _ => .isTrue fun _ h => nomatch h

instance (source : Text) : Decidable (IsStatable source) :=
  decidable_of_iff _ (isStatable_iff source).symm

instance (name : Text) : Decidable (IsTestName name) :=
  inferInstanceAs (Decidable (_ ∧ _))

variable {source : Text}

/-- The assertion that an error states. -/
def errorAssertion (e : CompileError) : Assertion := ⟨.compileError, errorText e.text, none⟩

/-- The assertion that a dump or a summary states. -/
def patternAssertion (k : AssertionKind) (content : Text) (pattern : Datum) : Assertion :=
  ⟨k, content, some pattern⟩

theorem assertionOf_pattern {k : AssertionKind} (hk : k ≠ .compileError) {content : Text}
    {d : Datum} (h : Datum.read content = .ok d) :
    assertionOf k content = .ok (patternAssertion k content d) := by
  rw [assertionOf, if_neg hk, h]
  rfl

theorem isContent_dump {p : Program} (hline : byte '\n' ∉ p.node.dump) : IsContent p.node.dump :=
  isContent_of_line hline (by decide)

theorem isContent_summary {m : IR.Module} (hline : byte '\n' ∉ m.summary.render) :
    IsContent m.summary.render :=
  isContent_of_line hline (by decide)

theorem dump_isEmpty (p : Program) : p.node.dump.isEmpty = false := rfl

theorem summary_isEmpty (m : IR.Module) : m.summary.render.isEmpty = false := rfl

theorem error_isEmpty (e : CompileError) : e.text.isEmpty = false := by
  have hgrammar : Text.ofString ": syntax error: " ≠ [] := by decide
  have hmark : Text.ofString ": " ≠ [] := by decide
  have hinternal : Text.ofString "internal compiler error: " ≠ [] := by decide
  rw [List.isEmpty_eq_false_iff]
  cases e with
  | grammar e => simp [CompileError.text, SyntaxError.text, SyntaxError.wording, hgrammar]
  | semantic e => simp [CompileError.text, SemanticError.text, hmark]
  | internal e =>
    simp only [CompileError.text, InternalError.text, InternalError.wording]
    split <;> simp [hmark, hinternal]

namespace IsStatable

theorem errorContent (h : IsStatable source) {e : CompileError}
    (he : (compileSource source).1 = .error e) : IsContent (errorText e.text) :=
  ⟨h.errorOpen e he, Text.trimNewlines_trim _⟩

/-- What is left to show of a snapshot are the assertions. -/
theorem isStated (h : IsStatable source) {s : Snapshot} (hname : IsTestName s.name)
    (hinput : s.input = trimNewlines source) {cs : List (AssertionKind × Text)}
    {as : List Assertion} (hchecks : s.checks = cs) (hcontents : ∀ c ∈ cs, IsContent c.2)
    (hreads : List.Forall₂ (fun c a => assertionOf c.1 c.2 = .ok a) cs as) (hne : as ≠ []) :
    s.IsStated as where
  name := hname
  ne_nil := hinput ▸ h.ne_nil
  input := hinput ▸ ⟨h.isOpen, Text.trimEnd_trimEnd _ _⟩
  contents := hchecks ▸ hcontents
  reads := hchecks ▸ hreads
  stated := hne

/-- A snapshot of a malformed source text. -/
theorem isStated_of_error (h : IsStatable source) {name : Text} (hname : IsTestName name)
    (file : Text) {e : SyntaxError} (he : Program.parse 0 source = .error e) :
    ∃ as, (ofSource name file source).IsStated as ∧
      ∀ a ∈ as, a.Holds (trimNewlines source) := by
  have hsource : (compileSource source).1 = .error (.grammar e) := by rw [compileSource_fst, he]
  have hsnapshot : ofSource name file source =
      { name, file, input := trimNewlines source, error := (CompileError.grammar e).text } := by
    simp only [ofSource, he]
    rfl
  have hchecks : (ofSource name file source).checks =
      [(.compileError, errorText (CompileError.grammar e).text)] := by
    simp [hsnapshot, checks, error_isEmpty]
  refine ⟨[errorAssertion (.grammar e)], h.isStated (by rwa [hsnapshot]) (by rw [hsnapshot]) hchecks
    (List.forall_mem_singleton.mpr (h.errorContent hsource)) (.cons rfl .nil)
    (List.cons_ne_nil _ _), ?_⟩
  obtain ⟨e', he', hcause⟩ := (Program.parse_trimNewlines 0 source).2 e he
  have hsame := hcause.resolve_right (h.unbroken e he e' he')
  rw [List.forall_mem_singleton]
  refine ⟨.grammar e', by rw [compileSource_fst, he'], ?_⟩
  exact errorText_infix_of_cause (Program.parse_error_isNatural he) hsame

/-- A snapshot of a source text that has a tree. -/
theorem isStated_of_ok (h : IsStatable source) {name : Text} (hname : IsTestName name)
    (file : Text) {p : Program} (hp : Program.parse 0 source = .ok p) :
    ∃ as, (ofSource name file source).IsStated as ∧
      ∀ a ∈ as, a.Holds (trimNewlines source) := by
  have hsource : (compileSource source).1 = p.compile.1 := by rw [compileSource_fst, hp]
  obtain ⟨p', hp', hbody⟩ := (Program.parse_trimNewlines 0 source).1 p hp
  have hcompile : (compileSource (trimNewlines source)).1 = p.compile.1 := by
    rw [compileSource_fst, hp']
    exact Program.compile_eq_of_body_eq hbody
  have hdump : p'.node.dump = p.node.dump := by
    unfold Program.node
    rw [hbody]
    rfl
  obtain ⟨d, hd, hself, hline⟩ := Program.read_dump hp (h.readable p hp)
  have hreads := assertionOf_pattern (k := .ast) (by decide) hd
  have htree : (patternAssertion .ast p.node.dump d).Holds (trimNewlines source) :=
    ⟨p', d, d, hp', by rw [hdump, hd], rfl, hself⟩
  rcases hm : p.compile.1 with e | m <;> rw [hm] at hsource hcompile
  · have hsnapshot : ofSource name file source =
        { name, file, input := trimNewlines source, ast := p.node.dump, error := e.text } := by
      simp only [ofSource, hp, hm]
    have hchecks : (ofSource name file source).checks =
        [(.ast, p.node.dump), (.compileError, errorText e.text)] := by
      simp [hsnapshot, checks, error_isEmpty, dump_isEmpty]
    refine ⟨[patternAssertion .ast p.node.dump d, errorAssertion e],
      h.isStated (by rwa [hsnapshot]) (by rw [hsnapshot]) hchecks
        (List.forall_mem_cons.mpr ⟨isContent_dump hline,
          List.forall_mem_singleton.mpr (h.errorContent hsource)⟩)
        (.cons hreads (.cons rfl .nil)) (List.cons_ne_nil _ _),
      List.forall_mem_cons.mpr ⟨htree, List.forall_mem_singleton.mpr ?_⟩⟩
    exact ⟨e, hcompile, errorText_infix _⟩
  · have hsnapshot : ofSource name file source =
        { name, file, input := trimNewlines source, ast := p.node.dump, ir := m.summary.render } := by
      simp only [ofSource, hp, hm]
    have hchecks : (ofSource name file source).checks =
        [(.ast, p.node.dump), (.ir, m.summary.render)] := by
      simp [hsnapshot, checks, dump_isEmpty, summary_isEmpty]
    obtain ⟨hread, haccepts, hline'⟩ := Program.read_summary hp hm (h.countable m hsource)
    have hreads' := assertionOf_pattern (k := .ir) (by decide) hread
    refine ⟨[patternAssertion .ast p.node.dump d, patternAssertion .ir m.summary.render m.summary],
      h.isStated (by rwa [hsnapshot]) (by rw [hsnapshot]) hchecks
        (List.forall_mem_cons.mpr ⟨isContent_dump hline,
          List.forall_mem_singleton.mpr (isContent_summary hline')⟩)
        (.cons hreads (.cons hreads' .nil)) (List.cons_ne_nil _ _),
      List.forall_mem_cons.mpr ⟨htree, List.forall_mem_singleton.mpr ?_⟩⟩
    exact ⟨m, m.summary, hcompile, rfl, haccepts⟩

end IsStatable

/-- The test case states a snapshot, and the snapshot's input passes it. -/
structure IsPassed (s : Snapshot) (t : TestCase) : Prop where
  name : t.name = s.name
  input : t.input = s.input
  kind : t.inputKind = some .program
  assertions : t.assertions.map (fun a => (a.kind, a.content)) = s.checks
  holds : ∀ a ∈ t.assertions, a.Holds t.input

theorem assertionOf_ok {k : AssertionKind} {content : Text} {a : Assertion}
    (h : assertionOf k content = .ok a) : (a.kind, a.content) = (k, content) := by
  unfold assertionOf at h
  split at h
  · cases h
    rfl
  · rcases hd : Datum.read content with e | d <;> rw [hd] at h <;> cases h
    rfl

theorem map_assertionOf {cs : List (AssertionKind × Text)} {as : List Assertion}
    (h : List.Forall₂ (fun c a => assertionOf c.1 c.2 = .ok a) cs as) :
    as.map (fun a => (a.kind, a.content)) = cs := by
  induction h with
  | nil => rfl
  | cons hc _ ih => rw [List.map_cons, ih, assertionOf_ok hc]

theorem IsStated.isPassed {s : Snapshot} {as : List Assertion} (h : s.IsStated as)
    (hholds : ∀ a ∈ as, a.Holds s.input) (line : Nat) : s.IsPassed (s.testCase as line) where
  name := rfl
  input := rfl
  kind := rfl
  assertions := map_assertionOf h.reads
  holds := hholds

theorem ofSource_name (name file source : Text) : (ofSource name file source).name = name := by
  unfold ofSource
  rcases Program.parse 0 source with e | p
  · rfl
  · rcases hm : p.compile.1 with e | m <;> simp only [hm]

theorem ofSource_input (name file source : Text) :
    (ofSource name file source).input = trimNewlines source := by
  unfold ofSource
  rcases Program.parse 0 source with e | p
  · rfl
  · rcases hm : p.compile.1 with e | m <;> simp only [hm]

theorem exists_isStated {s : Snapshot} {file : Text} (hname : IsTestName s.name)
    (h : IsStatable source) (hs : s = ofSource s.name file source) :
    ∃ as, s.IsStated as ∧ ∀ a ∈ as, a.Holds s.input := by
  rw [hs, ofSource_input]
  rcases hp : Program.parse 0 source with e | p
  · exact h.isStated_of_error hname file hp
  · exact h.isStated_of_ok hname file hp

/-- A program that compiles, and one that ends too early. -/
def samples : List Snapshot :=
  [ofSource "answer" "a.pyrx" "x:int=6;\nprint(x*7);\n", ofSource "open" "b.pyrx" "print(1\n\n"]

/-- A program that prints a soft hyphen. -/
def hyphenated : Text := "print(\"\u00ad\");\n"

end Snapshot

end Augite
