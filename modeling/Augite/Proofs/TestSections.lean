import Augite.Proofs.Sections

/-!
# The sections of a test document

A document falls into what stands before its first test and one section for each test. The test
cases of a document are exactly what its sections yield, in order: a fence counts by its language
alone, and no fence with a language is passed over. There is one exception. A fence that states an
input without contents is passed over where another input follows it.
-/

namespace Augite.Document

/-- Fenced code, with the line of its contents. -/
structure Code where
  line : Nat
  language : Text
  content : Text

/-- A test's heading with the fenced code up to the next test. -/
structure Section where
  name : Text
  line : Nat
  fences : List Code

/-- The fenced code before the first test, and the sections. -/
def outline : List Block → List Code × List Section
  | [] => ([], [])
  | .heading line _ text :: bs =>
    match Text.after? testMark text with
    | none => outline bs
    | some name => ([], ⟨name, line, (outline bs).1⟩ :: (outline bs).2)
  | .fence line language content :: bs => (⟨line, language, content⟩ :: (outline bs).1, (outline bs).2)

namespace Code

def isInput (f : Code) : Bool :=
  [InputKind.expression, .program].any fun k => f.language == k.language

def isAssertion (f : Code) : Bool :=
  [AssertionKind.ast, .types, .compileError, .ir].any fun k => f.language == k.language

def isBlank (f : Code) : Bool := (trimNewlines f.content).isEmpty

/-- The assertion is the one that the fence states. -/
structure States (f : Code) (a : Assertion) : Prop where
  language : a.kind.language = f.language
  content : a.content = trimNewlines f.content
  text : a.kind = .compileError → a.pattern = none
  pattern : a.kind ≠ .compileError → ∃ d, Datum.read a.content = .ok d ∧ a.pattern = some d

theorem isInput_iff {f : Code} : f.isInput = true ↔ ∃ k : InputKind, f.language = k.language := by
  simp only [isInput, List.any_cons, List.any_nil, Bool.or_false, Bool.or_eq_true, beq_iff_eq]
  constructor
  · rintro (h | h)
    · exact ⟨_, h⟩
    · exact ⟨_, h⟩
  · rintro ⟨k, h⟩
    cases k
    · exact .inl h
    · exact .inr h

theorem isAssertion_iff {f : Code} :
    f.isAssertion = true ↔ ∃ k : AssertionKind, f.language = k.language := by
  simp only [isAssertion, List.any_cons, List.any_nil, Bool.or_false, Bool.or_eq_true, beq_iff_eq]
  constructor
  · rintro (h | h | h | h) <;> exact ⟨_, h⟩
  · rintro ⟨k, h⟩
    cases k <;> simp [h]

end Code

namespace Section

def inputs (s : Section) : List Code := s.fences.filter Code.isInput

def assertions (s : Section) : List Code := s.fences.filter Code.isAssertion

/-- What a section with only known languages makes a test case of: its last input, in front of
which there are none but blank ones, and its assertions. -/
structure Yields (s : Section) (t : TestCase) : Prop where
  name : t.name = s.name
  line : t.line = s.line
  known : ∀ f ∈ s.fences, f.language = [] ∨ f.isInput = true ∨ f.isAssertion = true
  input : ∃ blanks f k, s.inputs = blanks ++ [f] ∧ (∀ b ∈ blanks, b.isBlank = true) ∧
    t.input = trimNewlines f.content ∧ t.inputKind = some k ∧ k.language = f.language
  input_ne : t.input ≠ []
  assertions : List.Forall₂ Code.States s.assertions t.assertions
  assertions_ne : t.assertions ≠ []

end Section

/-! ### Fences -/

theorem Purpose.ofLanguage_input (k : InputKind) : ofLanguage k.language = .input k := by
  cases k <;> rfl

theorem InputKind.language_injective : Function.Injective InputKind.language := by
  intro k l h
  have heq := congrArg Purpose.ofLanguage h
  rw [Purpose.ofLanguage_input, Purpose.ofLanguage_input] at heq
  exact Purpose.input.inj heq

theorem AssertionKind.language_injective : Function.Injective AssertionKind.language := by
  intro k l h
  have heq := congrArg Purpose.ofLanguage h
  rw [ofLanguage_assertion, ofLanguage_assertion] at heq
  exact Purpose.assertion.inj heq

theorem Purpose.ofLanguage_cases (l : Text) :
    (∃ k : InputKind, l = k.language) ∨ (∃ k : AssertionKind, l = k.language) ∨
      l = [] ∨ ofLanguage l = .unknown := by
  unfold ofLanguage
  split
  · next k hk =>
    have hl := List.find?_some hk
    exact .inl ⟨k, (beq_iff_eq.mp hl).symm⟩
  split
  · next k hk =>
    have hl := List.find?_some hk
    exact .inr (.inl ⟨k, (beq_iff_eq.mp hl).symm⟩)
  split
  · next hl => exact .inr (.inr (.inl (List.isEmpty_iff.mp hl)))
  · exact .inr (.inr (.inr rfl))

theorem assertionOf_eq_ok_iff {f : Code} {k : AssertionKind} (hk : f.language = k.language)
    {a : Assertion} : assertionOf k (trimNewlines f.content) = .ok a ↔ f.States a := by
  constructor
  · intro h
    unfold assertionOf at h
    split at h
    · next htext =>
      cases h
      exact ⟨hk.symm, rfl, fun _ => rfl, fun hne => absurd htext hne⟩
    · next hne =>
      rcases hd : Datum.read (trimNewlines f.content) with e | d <;> rw [hd] at h <;> cases h
      exact ⟨hk.symm, rfl, fun htext => absurd htext hne, fun _ => ⟨d, hd, rfl⟩⟩
  · intro ⟨hlanguage, hcontent, htext, hpattern⟩
    have hkind : a.kind = k := AssertionKind.language_injective (hlanguage.trans hk)
    obtain ⟨kind, content, pattern⟩ := a
    dsimp only at hkind hcontent htext hpattern
    subst hkind hcontent
    unfold assertionOf
    split
    · next hcompile => rw [htext hcompile]
    · next hne =>
      obtain ⟨d, hd, hpattern⟩ := hpattern hne
      rw [hd, hpattern]
      rfl

/-- What a fence adds to a test case. -/
inductive Adds (f : Code) (t : TestCase) : TestCase → Prop
  | free : f.language = [] → Adds f t t
  | input {k : InputKind} : f.language = k.language → t.input = [] →
      Adds f t { t with input := trimNewlines f.content, inputKind := some k }
  | assertion {a : Assertion} : f.States a → Adds f t { t with assertions := t.assertions ++ [a] }

theorem addFence_eq_ok_iff {f : Code} {t t' : TestCase} :
    t.addFence f.line f.language f.content = .ok t' ↔ Adds f t t' := by
  constructor
  · intro h
    rcases Purpose.ofLanguage_cases f.language with ⟨k, hk⟩ | ⟨k, hk⟩ | hnone | hunknown
    · simp only [TestCase.addFence, hk, Purpose.ofLanguage_input, List.isEmpty_iff] at h
      split at h
      · next hempty =>
        cases h
        exact .input hk hempty
      · cases h
    · simp only [TestCase.addFence, hk, ofLanguage_assertion] at h
      split at h
      · next a ha =>
        cases h
        exact .assertion ((assertionOf_eq_ok_iff hk).mp ha)
      · cases h
    · rw [TestCase.addFence, hnone] at h
      cases h
      exact .free hnone
    · simp [TestCase.addFence, hunknown] at h
  · intro h
    cases h with
    | free hlanguage =>
      rw [TestCase.addFence, hlanguage]
      rfl
    | input hk hempty => simp [TestCase.addFence, hk, Purpose.ofLanguage_input, hempty]
    | @assertion a ha =>
      have hread := (assertionOf_eq_ok_iff ha.language.symm).mpr ha
      simp only [TestCase.addFence, ← ha.language, ofLanguage_assertion, hread]

theorem checkOutside_eq_ok_iff {line : Nat} {language : Text} :
    checkOutside line language = .ok () ↔ language = [] := by
  constructor
  · intro h
    rcases Purpose.ofLanguage_cases language with ⟨k, hk⟩ | ⟨k, hk⟩ | hnone | hunknown
    · simp [checkOutside, hk, Purpose.ofLanguage_input] at h
    · simp [checkOutside, hk, ofLanguage_assertion] at h
    · exact hnone
    · simp [checkOutside, hunknown] at h
  · rintro rfl
    rfl

/-! ### Runs of fences -/

/-- What fences add to a test case one after another. -/
inductive Collects : TestCase → List Code → TestCase → Prop
  | nil (t : TestCase) : Collects t [] t
  | cons {f : Code} {fs : List Code} {t t' t'' : TestCase} : Adds f t t' → Collects t' fs t'' →
      Collects t (f :: fs) t''

/-- Inputs take a test case's input one after another: each but the last is blank, and a test
case that has an input takes none. -/
inductive Inputs (t : TestCase) : List Code → TestCase → Prop
  | none {t' : TestCase} : t'.input = t.input → t'.inputKind = t.inputKind → Inputs t [] t'
  | last {t' : TestCase} {k : InputKind} {blanks : List Code} {f : Code} : t.input = [] →
      (∀ b ∈ blanks, b.isBlank = true) → t'.input = trimNewlines f.content →
      t'.inputKind = some k → f.language = k.language → Inputs t (blanks ++ [f]) t'

/-- Everything that fences add to a test case. -/
structure Collected (t : TestCase) (fs : List Code) (t' : TestCase) : Prop where
  name : t'.name = t.name
  line : t'.line = t.line
  known : ∀ f ∈ fs, f.language = [] ∨ f.isInput = true ∨ f.isAssertion = true
  inputs : Inputs t (fs.filter Code.isInput) t'
  assertions : ∃ as, t'.assertions = t.assertions ++ as ∧
    List.Forall₂ Code.States (fs.filter Code.isAssertion) as

namespace Code

theorem isInput_of_nil {f : Code} (h : f.language = []) : f.isInput = false := by
  rw [isInput, h]
  rfl

theorem isAssertion_of_nil {f : Code} (h : f.language = []) : f.isAssertion = false := by
  rw [isAssertion, h]
  rfl

theorem isAssertion_of_input {f : Code} {k : InputKind} (h : f.language = k.language) :
    f.isAssertion = false := by
  rw [isAssertion, h]
  cases k <;> rfl

theorem isInput_of_assertion {f : Code} {k : AssertionKind} (h : f.language = k.language) :
    f.isInput = false := by
  rw [isInput, h]
  cases k <;> rfl

end Code

theorem Inputs.congr {t u t' : TestCase} {is : List Code} (h : Inputs t is t')
    (hinput : t.input = u.input) (hkind : t.inputKind = u.inputKind) : Inputs u is t' := by
  cases h with
  | none htext hk => exact .none (htext.trans hinput) (hk.trans hkind)
  | last hempty hblanks htext hk hlanguage =>
    exact .last (hinput.symm.trans hempty) hblanks htext hk hlanguage

/-- A fence in front of others adds first. -/
theorem Adds.collected {f : Code} {fs : List Code} {t t₁ t' : TestCase} (h : Adds f t t₁)
    (hrest : Collected t₁ fs t') : Collected t (f :: fs) t' := by
  obtain ⟨hname, hline, hknown, hinputs, as, has, hstates⟩ := hrest
  cases h with
  | free hf =>
    have hinput := Code.isInput_of_nil hf
    have hassertion := Code.isAssertion_of_nil hf
    refine ⟨hname, hline, List.forall_mem_cons.mpr ⟨.inl hf, hknown⟩, ?_, as, has, ?_⟩
    · rwa [List.filter_cons_of_neg (by simp [hinput])]
    · rwa [List.filter_cons_of_neg (by simp [hassertion])]
  | @input k hk hempty =>
    have hinput : f.isInput = true := Code.isInput_iff.mpr ⟨k, hk⟩
    have hassertion := Code.isAssertion_of_input hk
    refine ⟨hname, hline, List.forall_mem_cons.mpr ⟨.inr (.inl hinput), hknown⟩, ?_, as, has, ?_⟩
    · rw [List.filter_cons_of_pos hinput]
      generalize fs.filter Code.isInput = is at hinputs
      cases hinputs with
      | none htext hkind => exact @Inputs.last t t' k [] f hempty nofun htext hkind hk
      | last hblank hblanks htext hkind hlanguage =>
        rw [← List.cons_append]
        apply Inputs.last hempty (List.forall_mem_cons.mpr ⟨?_, hblanks⟩) htext hkind hlanguage
        exact List.isEmpty_iff.mpr hblank
    · rwa [List.filter_cons_of_neg (by simp [hassertion])]
  | @assertion a ha =>
    have hinput := Code.isInput_of_assertion ha.language.symm
    have hassertion : f.isAssertion = true := Code.isAssertion_iff.mpr ⟨a.kind, ha.language.symm⟩
    refine ⟨hname, hline, List.forall_mem_cons.mpr ⟨.inr (.inr hassertion), hknown⟩, ?_, a :: as, ?_, ?_⟩
    · rw [List.filter_cons_of_neg (by simp [hinput])]
      exact hinputs.congr rfl rfl
    · rw [has, List.append_assoc, List.singleton_append]
    · rw [List.filter_cons_of_pos hassertion]
      exact .cons ha hstates

/-- What a fence and others have added, the others have added to what the fence adds. -/
theorem Collected.cases {f : Code} {fs : List Code} {t t' : TestCase}
    (h : Collected t (f :: fs) t') : ∃ t₁, Adds f t t₁ ∧ Collected t₁ fs t' := by
  obtain ⟨hname, hline, hknown, hinputs, as, has, hstates⟩ := h
  obtain ⟨hf, hknown⟩ := List.forall_mem_cons.mp hknown
  rcases hf with hf | hf | hf
  · rw [List.filter_cons_of_neg (by simp [Code.isInput_of_nil hf])] at hinputs
    rw [List.filter_cons_of_neg (by simp [Code.isAssertion_of_nil hf])] at hstates
    exact ⟨t, .free hf, hname, hline, hknown, hinputs, as, has, hstates⟩
  · obtain ⟨k, hk⟩ := Code.isInput_iff.mp hf
    rw [List.filter_cons_of_pos hf] at hinputs
    rw [List.filter_cons_of_neg (by simp [Code.isAssertion_of_input hk])] at hstates
    generalize heq : f :: fs.filter Code.isInput = is at hinputs
    cases hinputs with
    | none => cases heq
    | @last _ l blanks g hempty hblanks htext hkind hlanguage =>
      refine ⟨_, .input hk hempty, hname, hline, hknown, ?_, as, has, hstates⟩
      rcases blanks with - | ⟨b, blanks⟩
      · obtain ⟨rfl, hfs⟩ := List.cons.inj heq
        rw [hfs]
        have hkl : k = l := InputKind.language_injective (hk.symm.trans hlanguage)
        exact .none htext (hkl ▸ hkind)
      · obtain ⟨rfl, hfs⟩ := List.cons.inj heq
        obtain ⟨hblank, hblanks⟩ := List.forall_mem_cons.mp hblanks
        rw [hfs]
        exact .last (List.isEmpty_iff.mp hblank) hblanks htext hkind hlanguage
  · obtain ⟨k, hk⟩ := Code.isAssertion_iff.mp hf
    rw [List.filter_cons_of_neg (by simp [Code.isInput_of_assertion hk])] at hinputs
    rw [List.filter_cons_of_pos hf] at hstates
    cases hstates with
    | @cons _ a _ as ha hstates =>
      refine ⟨_, .assertion ha, hname, hline, hknown, ?_, as, ?_, hstates⟩
      · exact hinputs.congr rfl rfl
      · rw [has, List.append_assoc, List.singleton_append]

theorem collects_iff {t t' : TestCase} {fs : List Code} :
    Collects t fs t' ↔ Collected t fs t' := by
  constructor
  · intro h
    induction h with
    | nil t => exact ⟨rfl, rfl, nofun, .none rfl rfl, [], (List.append_nil _).symm, .nil⟩
    | cons hadds _ ih => exact hadds.collected ih
  · intro h
    induction fs generalizing t with
    | nil =>
      obtain ⟨hname, hline, -, hinputs, as, has, hstates⟩ := h
      rw [List.filter_nil] at hinputs hstates
      cases hstates
      generalize heq : ([] : List Code) = is at hinputs
      cases hinputs with
      | none htext hkind =>
        have ht : t' = t := by
          rcases t
          rcases t'
          simp_all
        rw [ht]
        exact .nil t
      | last => simp at heq
    | cons f fs ih =>
      obtain ⟨t₁, hadds, hrest⟩ := h.cases
      exact .cons hadds (ih hrest)

/-! ### Documents -/

def TestCase.IsComplete (t : TestCase) : Prop := t.input ≠ [] ∧ t.assertions ≠ []

theorem check_eq_ok_iff {t t' : TestCase} : t.check = .ok t' ↔ t' = t ∧ t.IsComplete := by
  unfold TestCase.check TestCase.IsComplete
  rw [ne_eq, ne_eq, ← List.isEmpty_iff, ← List.isEmpty_iff]
  split
  · next hinput => simp [hinput]
  · next hinput =>
    split
    · next hassertions => simp [hassertions]
    · next hassertions => simp [hinput, hassertions, eq_comm]

/-- A section yields what its fences add to a test case that has only the name. -/
theorem yields_iff {s : Section} {t : TestCase} :
    s.Yields t ↔ Collects { name := s.name, line := s.line } s.fences t ∧ t.IsComplete := by
  rw [collects_iff]
  constructor
  · intro h
    obtain ⟨blanks, f, k, hinputs, hblanks, htext, hkind, hlanguage⟩ := h.input
    refine ⟨⟨h.name, h.line, h.known, ?_, t.assertions, rfl, h.assertions⟩, h.input_ne, h.assertions_ne⟩
    change Inputs _ s.inputs t
    rw [hinputs]
    exact .last rfl hblanks htext hkind hlanguage.symm
  · rintro ⟨⟨hname, hline, hknown, hinputs, as, has, hstates⟩, hinput, hassertions⟩
    cases has
    refine ⟨hname, hline, hknown, ?_, hinput, hstates, hassertions⟩
    change Inputs _ s.inputs t at hinputs
    generalize s.inputs = is at hinputs ⊢
    cases hinputs with
    | none htext => exact absurd htext hinput
    | last _ hblanks htext hkind hlanguage =>
      exact ⟨_, _, _, rfl, hblanks, htext, hkind, hlanguage.symm⟩

/-- A test that has been begun goes on to the next test's heading. -/
theorem extractFrom_some_iff {t : TestCase} {bs : List Block} {ts : List TestCase} :
    extractFrom (some t) bs = .ok ts ↔
      ∃ t' ts', ts = t' :: ts' ∧ Collects t (outline bs).1 t' ∧ t'.IsComplete ∧
        List.Forall₂ Section.Yields (outline bs).2 ts' := by
  induction bs generalizing t ts with
  | nil =>
    rw [extractFrom, outline]
    constructor
    · intro h
      rcases hcheck : t.check with e | t' <;> rw [hcheck] at h <;> cases h
      obtain ⟨rfl, hcomplete⟩ := check_eq_ok_iff.mp hcheck
      exact ⟨t', [], rfl, .nil t', hcomplete, .nil⟩
    · rintro ⟨t', ts', rfl, hcollects, hcomplete, hyields⟩
      cases hcollects
      cases hyields
      rw [check_eq_ok_iff.mpr ⟨rfl, hcomplete⟩]
      rfl
  | cons b bs ih =>
    cases b with
    | heading line level text =>
      rcases hname : Text.after? testMark text with - | name
      · simp only [extractFrom, outline, hname]
        exact ih
      · simp only [extractFrom, outline, hname]
        constructor
        · intro h
          rcases hcheck : t.check with e | t' <;> rw [hcheck] at h
          · cases h
          obtain ⟨rfl, hcomplete⟩ := check_eq_ok_iff.mp hcheck
          rcases hrest : extractFrom (some { name, line }) bs with e | ts' <;>
            simp [Except.mapError, bind, Except.bind, pure, Except.pure, hrest] at h
          obtain ⟨t'', ts'', rfl, hcollects, hcomplete', hyields⟩ := ih.mp hrest
          exact ⟨t', _, h.symm, .nil t', hcomplete, .cons (yields_iff.mpr ⟨hcollects, hcomplete'⟩) hyields⟩
        · rintro ⟨t', ts', rfl, hcollects, hcomplete, hyields⟩
          cases hcollects
          cases hyields with
          | cons hfirst hyields =>
            obtain ⟨hcollects, hcomplete'⟩ := yields_iff.mp hfirst
            rw [check_eq_ok_iff.mpr ⟨rfl, hcomplete⟩]
            have hrest := ih.mpr ⟨_, _, rfl, hcollects, hcomplete', hyields⟩
            simp [Except.mapError, bind, Except.bind, pure, Except.pure, hrest]
    | fence line language content =>
      simp only [extractFrom, outline]
      constructor
      · intro h
        rcases hadd : t.addFence line language content with e | t₁ <;> rw [hadd] at h
        · cases h
        obtain ⟨t', ts', rfl, hcollects, hcomplete, hyields⟩ := ih.mp h
        exact ⟨t', ts', rfl, .cons (addFence_eq_ok_iff.mp hadd) hcollects, hcomplete, hyields⟩
      · rintro ⟨t', ts', rfl, hcollects, hcomplete, hyields⟩
        cases hcollects with
        | cons hadds hcollects =>
          rw [addFence_eq_ok_iff.mpr hadds]
          exact ih.mpr ⟨t', ts', rfl, hcollects, hcomplete, hyields⟩

/-- The test cases of a document are what its sections yield, one for each. -/
theorem extractFrom_none_iff {bs : List Block} {ts : List TestCase} :
    extractFrom none bs = .ok ts ↔
      (∀ f ∈ (outline bs).1, f.language = []) ∧ List.Forall₂ Section.Yields (outline bs).2 ts := by
  induction bs generalizing ts with
  | nil =>
    rw [extractFrom, outline]
    constructor
    · intro h
      cases h
      exact ⟨List.forall_mem_nil _, .nil⟩
    · rintro ⟨-, hyields⟩
      cases hyields
      rfl
  | cons b bs ih =>
    cases b with
    | heading line level text =>
      rcases hname : Text.after? testMark text with - | name
      · simp only [extractFrom, outline, hname]
        exact ih
      · simp only [extractFrom, outline, hname, extractFrom_some_iff]
        constructor
        · rintro ⟨t', ts', rfl, hcollects, hcomplete, hyields⟩
          exact ⟨List.forall_mem_nil _, .cons (yields_iff.mpr ⟨hcollects, hcomplete⟩) hyields⟩
        · rintro ⟨-, hyields⟩
          cases hyields with
          | cons hfirst hyields =>
            obtain ⟨hcollects, hcomplete⟩ := yields_iff.mp hfirst
            exact ⟨_, _, rfl, hcollects, hcomplete, hyields⟩
    | fence line language content =>
      simp only [extractFrom, outline, List.forall_mem_cons]
      constructor
      · intro h
        rcases hcheck : checkOutside line language with e | _ <;> rw [hcheck] at h
        · cases h
        obtain ⟨hnone, hyields⟩ := ih.mp h
        exact ⟨⟨checkOutside_eq_ok_iff.mp hcheck, hnone⟩, hyields⟩
      · rintro ⟨⟨hlanguage, hnone⟩, hyields⟩
        rw [checkOutside_eq_ok_iff.mpr hlanguage]
        exact ih.mpr ⟨hnone, hyields⟩

/-- The inputs of a section that yields a test case: one that is not blank, behind blank ones. -/
theorem Section.Yields.length_inputs {s : Section} {t : TestCase} (h : s.Yields t)
    (hblank : ∀ f ∈ s.inputs.dropLast, f.isBlank = false) : s.inputs.length = 1 := by
  obtain ⟨blanks, f, k, hinputs, hblanks, -⟩ := h.input
  rw [hinputs, List.dropLast_concat] at hblank
  have hnil : blanks = [] := by
    apply List.eq_nil_iff_forall_not_mem.mpr
    intro b hb
    have hboth := (hblanks b hb).symm.trans (hblank b hb)
    cases hboth
  rw [hinputs, hnil]
  rfl

/-- A document is read if its first test has no fence with a language in front of it and all its
sections yield test cases. A section without an input is an error, and so is one with two or more
that are not blank. -/
theorem extractFrom_sections_iff (bs : List Block) :
    (∀ ts, extractFrom none bs = .ok ts ↔
      (∀ f ∈ (outline bs).1, f.language = []) ∧ List.Forall₂ Section.Yields (outline bs).2 ts) ∧
    ∀ s ∈ (outline bs).2, (∀ f ∈ s.inputs.dropLast, f.isBlank = false) → s.inputs.length ≠ 1 →
      ∃ e, extractFrom none bs = .error e := by
  constructor
  · exact fun ts => extractFrom_none_iff
  · intro s hs hblank hlength
    rcases h : extractFrom none bs with e | ts
    · exact ⟨e, rfl⟩
    · obtain ⟨-, hyields⟩ := extractFrom_none_iff.mp h
      obtain ⟨hlen, hget⟩ := List.forall₂_iff_get.mp hyields
      obtain ⟨i, rfl⟩ := List.mem_iff_get.mp hs
      have ht := hget i i.isLt (hlen ▸ i.isLt)
      exact absurd (ht.length_inputs hblank) hlength

/-- The second of two inputs is blank. -/
def blankSecond : Text :=
  "## Test: t\n```pyrx-program\nprint(1);\n```\n```pyrx-program\n```\n```compile-error\nx\n```\n"

theorem extract_blankSecond : ∃ s ∈ (outline (blocks blankSecond)).2,
    (∀ f ∈ s.inputs.dropLast, f.isBlank = false) ∧ s.inputs.length ≠ 1 ∧
      ∃ e, extract blankSecond = .error e := by
  have hs : ∃ s ∈ (outline (blocks blankSecond)).2,
      (∀ f ∈ s.inputs.dropLast, f.isBlank = false) ∧ s.inputs.length ≠ 1 := by
    decide +kernel
  obtain ⟨s, hmem, hblank, hlength⟩ := hs
  exact ⟨s, hmem, hblank, hlength, (extractFrom_sections_iff _).2 s hmem hblank hlength⟩

/-- The first of two inputs is blank. -/
def blankFirst : Text :=
  "## Test: t\n```pyrx-program\n```\n```pyrx-expr\n1\n```\n```compile-error\nx\n```\n"

theorem extract_blankFirst : (∃ s ∈ (outline (blocks blankFirst)).2, s.inputs.length = 2) ∧
    (extract blankFirst).isOk = true := by
  decide +kernel

end Augite.Document
