import Augite.Proofs.Reading
import Augite.Proofs.Words

/-!
# What reading yields

A program that was read is made of the tokens of its source as the grammar says, so its tree has
the shape of the grammar. The names and literals of the tree are those of the source, and list and
graph types stand where their library is included.
-/

namespace Augite

namespace Lexer

theorem intOf_read {t : Text} {l : Lexeme} (h : intOf t = .ok l) : l.IsRead := by
  unfold intOf at h
  simp only at h
  split at h
  · rename_i hlt
    cases h
    exact ⟨_, hlt, rfl⟩
  · cases h

theorem floatOf_read {t : Text} {l : Lexeme} (ht : t.IsFraction) (h : floatOf t = .ok l) :
    l.IsRead := by
  unfold floatOf at h
  split at h
  · rename_i v hv
    cases h
    exact ⟨t, ht, hv⟩
  · cases h

theorem number_read {b : UInt8} {rest : Text} (hb : Text.isDigit b = true) {l : Lexeme} {n : Nat}
    (h : number (b :: rest) = (.ok l, n)) : l.IsRead := by
  have hwhole : (b :: rest).takeWhile Text.isDigit ≠ [] := by
    rw [List.takeWhile_cons_of_pos hb]
    exact List.cons_ne_nil _ _
  unfold number at h
  obtain hpart | ⟨fs, hpart, hfs, hdigits, _⟩ :=
    fraction_cases ((b :: rest).dropWhile Text.isDigit)
  · simp only [hpart, if_true, Prod.mk.injEq] at h
    exact intOf_read h.1
  · simp only [hpart, reduceCtorEq, if_false, Prod.mk.injEq] at h
    refine floatOf_read ⟨_, fs, rfl, hwhole, fun c hc => ?_, hfs, hdigits⟩ h.1
    exact List.mem_takeWhile_imp (p := Text.isDigit) hc

/-- A lexeme that was read is one that sources have. -/
theorem lexeme_read {b : UInt8} {rest : Text} {l : Lexeme} {n : Nat}
    (h : lexeme b rest = (.ok l, n)) : l.IsRead := by
  unfold lexeme at h
  split at h
  · cases h
    trivial
  · split at h
    · rename_i hletter
      obtain ⟨h, _⟩ := Prod.mk.inj h
      simp only [Lexeme.ofWord, Except.ok.injEq] at h
      split at h
      · cases h
        trivial
      · rename_i hfree
        cases h
        have hfirst : (Text.isLetter b || Text.isDigit b) = true := by rw [hletter, Bool.true_or]
        refine ⟨⟨b, _, List.takeWhile_cons_of_pos hfirst, hletter⟩, ?_, hfree⟩
        exact fun c hc =>
          List.mem_takeWhile_imp (p := fun c => Text.isLetter c || Text.isDigit c) hc
    · split at h
      · rename_i hdigit
        exact number_read hdigit h
      · split at h
        · rcases hq : quoted b rest with ⟨_ | contents, m⟩ <;> rw [hq] at h <;> cases h
          trivial
        · split at h
          · rcases hq : quoted b rest with ⟨_ | _ | ⟨c, _ | _⟩, m⟩ <;> rw [hq] at h <;> cases h
            trivial
          · cases h

theorem tokens_read (c : Cursor) {ts : List Token} {stop : Position}
    (h : tokens c = .ok (ts, stop)) : ∀ tok ∈ ts, tok.lexeme.IsRead := by
  rw [tokens] at h
  split at h
  · cases h
  · rename_i t c' hnext
    split at h
    · cases h
      exact fun tok htok => absurd htok List.not_mem_nil
    · rename_i ht
      have hlt := length_rest_next hnext ht
      split at h
      · cases h
      · rename_i rest stop' hrest
        cases h
        refine List.forall_mem_cons.mpr ⟨?_, tokens_read c' hrest⟩
        unfold next at hnext
        simp only at hnext
        split at hnext
        · cases hnext
          trivial
        · split at hnext
          · rename_i l n hl
            cases hnext
            exact lexeme_read hl
          · cases hnext
termination_by c.rest.length

end Lexer

/-- A program that was read can be written down again. -/
theorem Program.parse_legible {key : Nat} {source : Text} {p : Program}
    (h : Program.parse key source = .ok p) : Node.ItemsLegible [] p.body := by
  unfold Program.parse Feed.ofSource Lexer.tokenize at h
  rcases ht : Lexer.tokens (.ofSource source) with e | ⟨ts, stop⟩
  · rw [ht] at h
    cases h
  · rw [ht] at h
    rcases hi : (Parse.items ⟨ts, stop, []⟩).1 with e | body
    · simp only [Except.map, bind, Except.bind, hi] at h
      cases h
    · simp only [Except.map, bind, Except.bind, hi] at h
      cases h
      exact ((Parse.items_parses _).2 body hi).2.2 (Lexer.tokens_read _ ht)

/-- A program that was read consists of items of the grammar. -/
theorem Program.parse_isItem {key : Nat} {source : Text} {p : Program}
    (h : Program.parse key source = .ok p) : ∀ n ∈ p.body, n.IsItem :=
  (Program.parse_legible h).isItem

/-- A program that was read is what the grammar makes of the tokens of its source. Functions,
classes and inclusions are items only; the types are written ones, and stand where their
library has been included; names and literals are those of the language; and the parts of
statements have the forms that belong there. -/
theorem Program.parse_grammar {key : Nat} {source : Text} {p : Program}
    (h : Program.parse key source = .ok p) :
    ∃ ts stop, Lexer.tokenize source = .ok (ts, stop) ∧ Grammar.Items ts p.body ∧
      Node.ItemsLegible [] p.body := by
  have hlegible := Program.parse_legible h
  unfold Program.parse Feed.ofSource at h
  rcases htokens : Lexer.tokenize source with e | ⟨ts, stop⟩
  · rw [htokens] at h
    cases h
  · rw [htokens] at h
    rcases hitems : (Parse.items ⟨ts, stop, []⟩).1 with e | body
    · simp only [Except.map, bind, Except.bind, hitems] at h
      cases h
    · simp only [Except.map, bind, Except.bind, hitems] at h
      cases h
      exact ⟨ts, stop, rfl, ((Parse.items_parses _).2 body hitems).2.1, hlegible⟩

/-- Conditionals with and without `else` in one another, and lists, graphs and classes. -/
def branching : Text :=
  "include list; include graph; class C \x7b a: list<int>; \x7d\n" ++
  "def f(g: graph<char>) -> void \x7b if (true) \x7b if (false) \x7b \x7d \x7d " ++
  "else if (1 < 2) \x7b c: C; c.a = 3; \x7d \x7d\n" ++
  "for (l: list<int> = [1, 2]; true; f(h)) \x7b h: graph<char>; k: list<bool>; \x7d"

theorem branching_grammar :
    ∃ p ts stop, Program.parse 0 branching = .ok p ∧ p.body.length = 5 ∧
      Lexer.tokenize branching = .ok (ts, stop) ∧ Grammar.Items ts p.body ∧
      Node.ItemsLegible [] p.body := by
  have hlength : (Program.parse 0 branching).map (·.body.length) = .ok 5 := by decide +kernel
  rcases h : Program.parse 0 branching with e | p <;> rw [h] at hlength
  · cases hlength
  · obtain ⟨ts, stop, hp⟩ := Program.parse_grammar h
    exact ⟨p, ts, stop, rfl, Except.ok.inj hlength, hp⟩

end Augite
