import Augite.Proofs.DataGrammar

/-!
# Patterns that are made more general

A datum that has been read matches itself if its maps have distinct keys and its numbers are in
range. A pattern goes on matching what it matches when parts of it are replaced by `_`, when the
end of a list or array is replaced by an ellipsis and when entries of its maps are left out.
-/

namespace Augite.Datum

/-! ### Data that match themselves -/

theorem forall_mem_tokens {P : Token → Prop}
    (hP : ∀ b rest tok n, Lexer.token b rest = .ok (tok, n) → P tok) (t : Text) :
    ∀ tok ∈ (Lexer.tokens t).1, P tok := by
  have hle : (t.dropWhile Lexer.isBlank).length ≤ t.length := (List.dropWhile_suffix _).length_le
  match hdrop : t.dropWhile Lexer.isBlank with
  | [] =>
    rw [Lexer.tokens_of_dropWhile_nil hdrop]
    exact nofun
  | b :: rest =>
    have hlt : rest.length < t.length := by rwa [hdrop] at hle
    rw [Lexer.tokens_of_dropWhile_cons hdrop]
    split
    · exact nofun
    split
    · have hcomment := (List.dropWhile_suffix (l := rest) fun c => !Lexer.endsComment c).length_le
      exact forall_mem_tokens hP _
    rcases htoken : Lexer.token b rest with e | ⟨tok, n⟩
    · exact nofun
    · have hdropped : (rest.drop n).length ≤ rest.length := by simp
      exact List.forall_mem_cons.mpr ⟨hP b rest tok n htoken, forall_mem_tokens hP _⟩
termination_by t.length

theorem isNumeral_of_mem_tokens {t w : Text} (h : .number w ∈ (Lexer.tokens t).1) :
    ∃ n, w.IsNumeral n := by
  have hall : ∀ tok ∈ (Lexer.tokens t).1, ∀ w, tok = .number w → ∃ n, w.IsNumeral n := by
    apply forall_mem_tokens
    rintro b rest tok n htoken w rfl
    obtain ⟨hlexeme, -⟩ := Lexer.lexeme_of_token htoken
    generalize b :: rest.take n = v at hlexeme
    cases hlexeme with
    | bracket hb => exact absurd .number (Lexer.bracket?_not_spelling (w := w) hb)
    | number hw => exact ⟨_, hw⟩
  exact hall _ h w rfl

mutual

/-- Maps have distinct keys and numbers are in the range of doubles, at any depth. -/
def IsRegular : Datum → Prop
  | number spelling => Double.ofText spelling ≠ .error .outOfRange
  | list items | array items => AllRegular items
  | map entries => (entries.map Prod.fst).Nodup ∧ EntriesRegular entries
  | _ => True
termination_by structural d => d

def AllRegular : List Datum → Prop
  | [] => True
  | d :: ds => IsRegular d ∧ AllRegular ds
termination_by structural ds => ds

def EntriesRegular : List (Text × Datum) → Prop
  | [] => True
  | (_, d) :: es => IsRegular d ∧ EntriesRegular es
termination_by structural es => es

end

mutual

theorem accepts_self {ts : List Token} {d : Datum} (h : Derives ts d)
    (hnumber : ∀ w, .number w ∈ ts → ∃ n, w.IsNumeral n) (hd : d.IsRegular) :
    d.accepts d = true := by
  match h with
  | .symbol name => exact accepts_symbol name
  | .string contents => simp [accepts]
  | .number spelling =>
    obtain ⟨n, hn⟩ := hnumber spelling List.mem_cons_self
    rw [accepts]
    exact sameNumber_of_ne hn hd
  | .ellipsis => rfl
  | .list hds | .array hds =>
    rw [accepts]
    apply acceptsItems_self
    exact accepts_self_all hds (fun w hw => hnumber w (by simp [hw])) hd
  | .map hes =>
    apply accepts_map hd.1
    exact accepts_self_entries hes (fun w hw => hnumber w (by simp [hw])) hd.2

theorem accepts_self_all {ts : List Token} {ds : List Datum} (h : DeriveAll ts ds)
    (hnumber : ∀ w, .number w ∈ ts → ∃ n, w.IsNumeral n) (hds : AllRegular ds) :
    ∀ d ∈ ds, d.accepts d = true := by
  match h with
  | .nil => exact nofun
  | .cons hd hrest =>
    refine List.forall_mem_cons.mpr ⟨?_, ?_⟩
    · exact accepts_self hd (fun w hw => hnumber w (by simp [hw])) hds.1
    · exact accepts_self_all hrest (fun w hw => hnumber w (by simp [hw])) hds.2

theorem accepts_self_entries {ts : List Token} {es : List (Text × Datum)} (h : DeriveEntries ts es)
    (hnumber : ∀ w, .number w ∈ ts → ∃ n, w.IsNumeral n) (hes : EntriesRegular es) :
    ∀ e ∈ es, e.2.accepts e.2 = true := by
  match h with
  | .nil => exact nofun
  | .last _ hd =>
    exact List.forall_mem_singleton.mpr
      (accepts_self hd (fun w hw => hnumber w (by simp [hw])) hes.1)
  | .cons _ hd hrest =>
    refine List.forall_mem_cons.mpr ⟨?_, ?_⟩
    · exact accepts_self hd (fun w hw => hnumber w (by simp [hw])) hes.1
    · exact accepts_self_entries hrest (fun w hw => hnumber w (by simp [hw])) hes.2

end

/-! ### More general patterns -/

mutual

/-- A single step from a pattern to a more general one. -/
inductive Generalises : Datum → Datum → Prop
  | any (p : Datum) : Generalises p (.symbol "_")
  | list {ps qs : List Datum} : GeneralisesItems ps qs → Generalises (.list ps) (.list qs)
  | array {ps qs : List Datum} : GeneralisesItems ps qs → Generalises (.array ps) (.array qs)
  | value {p q : Datum} {key : Text} (es fs : List (Text × Datum)) : Generalises p q →
      Generalises (.map (es ++ (key, p) :: fs)) (.map (es ++ (key, q) :: fs))
  | entries {es fs : List (Text × Datum)} : fs.Sublist es → Generalises (.map es) (.map fs)

/-- A step within the items of a list or array. An ellipsis at their end stays as it is, unless
it is taken up by the ellipsis that replaces the end. -/
inductive GeneralisesItems : List Datum → List Datum → Prop
  | item {p q : Datum} (ps rest : List Datum) : Generalises p q → ¬(p = .ellipsis ∧ rest = []) →
      GeneralisesItems (ps ++ p :: rest) (ps ++ q :: rest)
  | tail (ps rest : List Datum) : (rest = [] → ps.getLast? ≠ some .ellipsis) →
      GeneralisesItems (ps ++ rest) (ps ++ [.ellipsis])

end

theorem acceptsItems_cons {p : Datum} {ps : List Datum} (h : ¬(p = .ellipsis ∧ ps = []))
    (as : List Datum) :
    acceptsItems (p :: ps) as = true ↔
      ∃ a as', as = a :: as' ∧ p.accepts a = true ∧ acceptsItems ps as' = true := by
  rw [acceptsItems.eq_def]
  dsimp only
  split
  · exact absurd ⟨rfl, rfl⟩ h
  · cases as with
    | nil => simp
    | cons a as => simp

/-- Items in front of others match one by one. -/
theorem acceptsItems_append {ps qs : List Datum} (h : qs ≠ []) (as : List Datum) :
    acceptsItems (ps ++ qs) as = true ↔
      ∃ as₁ as₂, as = as₁ ++ as₂ ∧ List.Forall₂ (fun p a => p.accepts a = true) ps as₁ ∧
        acceptsItems qs as₂ = true := by
  induction ps generalizing as with
  | nil =>
    constructor
    · intro hqs
      exact ⟨[], as, rfl, .nil, hqs⟩
    · rintro ⟨as₁, as₂, rfl, hps, hqs⟩
      cases hps
      exact hqs
  | cons p ps ih =>
    rw [List.cons_append, acceptsItems_cons (by simp [h])]
    constructor
    · rintro ⟨a, as', rfl, ha, hrest⟩
      obtain ⟨as₁, as₂, rfl, hps, hqs⟩ := (ih as').mp hrest
      exact ⟨a :: as₁, as₂, rfl, .cons ha hps, hqs⟩
    · rintro ⟨as₁, as₂, rfl, hps, hqs⟩
      cases hps with
      | @cons _ a _ as₁ ha hps => exact ⟨a, as₁ ++ as₂, rfl, ha, (ih _).mpr ⟨as₁, as₂, rfl, hps, hqs⟩⟩

theorem forall₂_of_acceptsItems {ps as : List Datum} (hlast : ps.getLast? ≠ some .ellipsis)
    (h : acceptsItems ps as = true) : List.Forall₂ (fun p a => p.accepts a = true) ps as := by
  rcases List.eq_nil_or_concat ps with rfl | ⟨qs, p, rfl⟩
  · rw [acceptsItems, List.isEmpty_iff] at h
    rw [h]
    exact .nil
  · rw [List.concat_eq_append] at h hlast ⊢
    have hp : p ≠ .ellipsis := by
      rintro rfl
      simp at hlast
    obtain ⟨as₁, as₂, rfl, hqs, hp'⟩ := (acceptsItems_append (List.cons_ne_nil p []) as).mp h
    obtain ⟨a, as', rfl, ha, hnil⟩ := (acceptsItems_cons (by simp [hp]) as₂).mp hp'
    rw [acceptsItems, List.isEmpty_iff] at hnil
    rw [hnil]
    exact List.rel_append hqs (.cons ha .nil)

theorem acceptsEntries_iff {es as : List (Text × Datum)} :
    acceptsEntries es as = true ↔
      ∀ e ∈ es, ∃ a, (map as).get? e.1 = some a ∧ e.2.accepts a = true := by
  induction es with
  | nil => simp [acceptsEntries]
  | cons e es ih =>
    rw [acceptsEntries, Bool.and_eq_true, ih, List.forall_mem_cons]
    rcases (map as).get? e.1 with _ | a <;> simp

theorem exists_of_accepts_list {ps : List Datum} {a : Datum} (h : (list ps).accepts a = true) :
    ∃ as, a = .list as := by
  cases a with
  | list as => exact ⟨as, rfl⟩
  | _ => simp [accepts] at h

theorem exists_of_accepts_array {ps : List Datum} {a : Datum} (h : (array ps).accepts a = true) :
    ∃ as, a = .array as := by
  cases a with
  | array as => exact ⟨as, rfl⟩
  | _ => simp [accepts] at h

theorem exists_of_accepts_map {es : List (Text × Datum)} {a : Datum}
    (h : (map es).accepts a = true) : ∃ as, a = .map as := by
  cases a with
  | map as => exact ⟨as, rfl⟩
  | _ => simp [accepts] at h

theorem Generalises.ne_ellipsis {p q : Datum} (h : Generalises p q) : q ≠ .ellipsis := by
  cases h <;> exact nofun

mutual

/-- A step loses no match. -/
theorem Generalises.accepts {p q : Datum} (h : Generalises p q) {a : Datum}
    (ha : p.accepts a = true) : q.accepts a = true := by
  match h with
  | .any p => simp [Datum.accepts]
  | .list hitems =>
    obtain ⟨as, rfl⟩ := exists_of_accepts_list ha
    rw [Datum.accepts] at ha ⊢
    exact hitems.accepts ha
  | .array hitems =>
    obtain ⟨as, rfl⟩ := exists_of_accepts_array ha
    rw [Datum.accepts] at ha ⊢
    exact hitems.accepts ha
  | .value _ _ hpq =>
    obtain ⟨as, rfl⟩ := exists_of_accepts_map ha
    rw [Datum.accepts, acceptsEntries_iff, List.forall_mem_append, List.forall_mem_cons] at ha ⊢
    obtain ⟨hes, ⟨d, hget, hd⟩, hfs⟩ := ha
    exact ⟨hes, ⟨d, hget, hpq.accepts hd⟩, hfs⟩
  | .entries hsub =>
    obtain ⟨as, rfl⟩ := exists_of_accepts_map ha
    rw [Datum.accepts, acceptsEntries_iff] at ha ⊢
    exact fun e he => ha e (hsub.subset he)

theorem GeneralisesItems.accepts {ps qs : List Datum} (h : GeneralisesItems ps qs)
    {as : List Datum} (has : acceptsItems ps as = true) : acceptsItems qs as = true := by
  match h with
  | @GeneralisesItems.item p q ps rest hpq hp =>
    obtain ⟨as₁, as₂, rfl, hps, hrest⟩ := (acceptsItems_append (List.cons_ne_nil _ _) as).mp has
    obtain ⟨a, as', rfl, ha, hrest⟩ := (acceptsItems_cons hp as₂).mp hrest
    have hq : ¬(q = .ellipsis ∧ rest = []) := fun h => hpq.ne_ellipsis h.1
    rw [acceptsItems_append (List.cons_ne_nil _ _)]
    exact ⟨as₁, a :: as', rfl, hps, (acceptsItems_cons hq _).mpr ⟨a, as', rfl, hpq.accepts ha, hrest⟩⟩
  | .tail ps rest hlast =>
    rw [acceptsItems_append (List.cons_ne_nil _ _)]
    rcases eq_or_ne rest [] with rfl | hrest
    · rw [List.append_nil] at has
      exact ⟨as, [], (List.append_nil as).symm, forall₂_of_acceptsItems (hlast rfl) has, rfl⟩
    · obtain ⟨as₁, as₂, rfl, hps, -⟩ := (acceptsItems_append hrest as).mp has
      exact ⟨as₁, as₂, rfl, hps, rfl⟩

end

/-- Data that are read match themselves, and patterns that are made more general step by step,
at any depth, match what they have matched. -/
theorem accepts_generalised :
    (∀ t a, read t = .ok a → a.IsRegular → a.accepts a = true) ∧
      ∀ p q a, p.accepts a = true → Relation.ReflTransGen Generalises p q → q.accepts a = true := by
  constructor
  · intro t a hread hregular
    obtain ⟨ts, htokens, hderives⟩ := read_eq_ok.mp hread
    apply accepts_self hderives (fun w hw => ?_) hregular
    apply isNumeral_of_mem_tokens (t := t)
    rwa [htokens]
  · intro p q a ha hsteps
    induction hsteps with
    | refl => exact ha
    | tail _ hstep ih => exact hstep.accepts ih

def sampleCall : Datum :=
  .list [.symbol "call", .number "1.50", .ellipsis,
    .map [("a", .ellipsis), ("b", .array [.number "2"])]]

def sampleCallPattern : Datum :=
  .list [.symbol "call", .number "1.50", .symbol "_", .map [("b", .array [.ellipsis])]]

theorem sampleCall_accepts :
    read "(call 1.50 ... \x7ba: ..., b: [2]\x7d)" = .ok sampleCall ∧ sampleCall.IsRegular ∧
      sampleCall.accepts sampleCall = true ∧
      Relation.ReflTransGen Generalises sampleCall sampleCallPattern ∧
      sampleCallPattern.accepts sampleCall = true := by
  have hread : read "(call 1.50 ... \x7ba: ..., b: [2]\x7d)" = .ok sampleCall := by cbv
  have hnumber : Double.ofText "1.50" ≠ .error .outOfRange ∧
      Double.ofText "2" ≠ .error .outOfRange := by decide +kernel
  have hregular : sampleCall.IsRegular :=
    ⟨trivial, hnumber.1, trivial, ⟨by decide, trivial, ⟨hnumber.2, trivial⟩, trivial⟩, trivial⟩
  have hself := accepts_generalised.1 _ _ hread hregular
  have hmap (es : List (Text × Datum)) : ¬(Datum.map es = .ellipsis ∧ ([] : List Datum) = []) := by
    simp
  have hsteps : Relation.ReflTransGen Generalises sampleCall sampleCallPattern := by
    apply Relation.ReflTransGen.head (.list (.item [_, _] [_] (.any .ellipsis) (by simp)))
    apply Relation.ReflTransGen.head
      (.list (.item [_, _, _] [] (.entries (.cons _ (.refl _))) (hmap _)))
    have hitems : Generalises (.array [.number "2"]) (.array [.ellipsis]) :=
      .array (.tail [] [_] (by simp))
    exact .single (.list (.item [_, _, _] [] (.value [] [] hitems) (hmap _)))
  exact ⟨hread, hregular, hself, hsteps, accepts_generalised.2 _ _ _ hself hsteps⟩

end Augite.Datum
