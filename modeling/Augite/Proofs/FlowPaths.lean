import Mathlib
import Augite.IR.Flow

/-!
# Paths of flow graphs

A path leads from the entry along successors. A survey finds exactly the blocks to which a
path leads, with all branches between them. The table of dominance is the greatest one that
sweeps leave alone, so its marks are what they are meant to be: a block is marked in the row
of a reachable block exactly if every path to the latter passes through the former.
-/

namespace Augite.IR.Flow

/-- A path from the entry to a block; the blocks passed before it come latest first. -/
inductive Path (g : Flow) : List Nat → Nat → Prop
  | entry : Path g [] 0
  | step {before : List Nat} {b c : Nat} : Path g before b → c ∈ g.successors b →
      Path g (b :: before) c

/-- Every successor is a block of the graph. -/
def Closed (g : Flow) : Prop := ∀ b, ∀ c ∈ g.successors b, c < g.length

theorem Path.lt_length {g : Flow} (hg : g.Closed) (h0 : 0 < g.length) {before : List Nat} {b : Nat}
    (h : g.Path before b) : b < g.length := by
  cases h with
  | entry => exact h0
  | step _ hc => exact hg _ _ hc

section

variable {g : Flow}

/-- A path leads to every block of a path, passing only what the longer one passes. -/
theorem Path.to_mem {before : List Nat} {b c : Nat} (h : g.Path before b) (hc : c ∈ before) :
    ∃ earlier, g.Path earlier c ∧ earlier.length < before.length := by
  induction h with
  | entry => cases hc
  | step hpath _ ih =>
    rcases List.mem_cons.mp hc with rfl | hc
    · exact ⟨_, hpath, by simp⟩
    · obtain ⟨earlier, hearlier, hlt⟩ := ih hc
      exact ⟨earlier, hearlier, by simp only [List.length_cons]; omega⟩

/-- To a block to which a path leads, one leads that does not pass it before. -/
theorem Path.exists_first {before : List Nat} {b : Nat} (h : g.Path before b) :
    ∃ before, g.Path before b ∧ b ∉ before := by
  induction hn : before.length using Nat.strong_induction_on generalizing before with
  | _ n ih =>
    by_cases hb : b ∈ before
    · obtain ⟨earlier, hearlier, hlt⟩ := h.to_mem hb
      exact ih _ (hn ▸ hlt) hearlier rfl
    · exact ⟨before, h, hb⟩

end

/-! ### Surveys -/

namespace Survey

variable {g : Flow} {v : Survey}

/-- What holds of a survey between two visits: blocks were found along paths, and the
branches out of a block that is no longer pending are taken down. -/
structure Sound (g : Flow) (v : Survey) : Prop where
  entry : 0 ∈ v.found
  found : ∀ b ∈ v.found, ∃ before, g.Path before b
  pending : ∀ b ∈ v.pending, b ∈ v.found
  branches : ∀ e ∈ v.branches, e.1 ∈ v.found ∧ e.2 ∈ g.successors e.1
  visited : ∀ b ∈ v.found, b ∉ v.pending → ∀ c ∈ g.successors b, (b, c) ∈ v.branches ∧ c ∈ v.found

/-- What holds of a survey during the visit of a block, of whose branches some are taken
down. -/
structure Visiting (g : Flow) (b : Nat) (taken : List Nat) (v : Survey) : Prop where
  entry : 0 ∈ v.found
  here : b ∈ v.found
  found : ∀ x ∈ v.found, ∃ before, g.Path before x
  pending : ∀ x ∈ v.pending, x ∈ v.found
  branches : ∀ e ∈ v.branches, e.1 ∈ v.found ∧ e.2 ∈ g.successors e.1
  visited : ∀ x ∈ v.found, x ∉ v.pending → x ≠ b →
    ∀ c ∈ g.successors x, (x, c) ∈ v.branches ∧ c ∈ v.found
  taken : ∀ c ∈ taken, (b, c) ∈ v.branches ∧ c ∈ v.found

theorem Visiting.enter {b : Nat} {taken : List Nat} (h : Visiting g b taken v) {c : Nat}
    (hc : c ∈ g.successors b) (hlt : c < g.length) : Visiting g b (c :: taken) (v.enter g b c) := by
  obtain ⟨before, hpath⟩ := h.found b h.here
  unfold Survey.enter
  dsimp only
  split
  · rename_i hnew
    refine ⟨List.mem_cons_of_mem _ h.entry, List.mem_cons_of_mem _ h.here, ?_, ?_, ?_, ?_, ?_⟩
    · exact List.forall_mem_cons.mpr ⟨⟨_, hpath.step hc⟩, h.found⟩
    · refine List.forall_mem_cons.mpr ⟨List.mem_cons_self, fun x hx => ?_⟩
      exact List.mem_cons_of_mem _ (h.pending x hx)
    · refine List.forall_mem_cons.mpr ⟨⟨List.mem_cons_of_mem _ h.here, hc⟩, fun e he => ?_⟩
      exact ⟨List.mem_cons_of_mem _ (h.branches e he).1, (h.branches e he).2⟩
    · intro x hx hpending hne y hy
      obtain ⟨hxc, hxp⟩ := not_or.mp (List.mem_cons.not.mp hpending)
      obtain ⟨hbranch, hfound⟩ := h.visited x (List.mem_of_ne_of_mem hxc hx) hxp hne y hy
      exact ⟨List.mem_cons_of_mem _ hbranch, List.mem_cons_of_mem _ hfound⟩
    · refine List.forall_mem_cons.mpr ⟨⟨List.mem_cons_self, List.mem_cons_self⟩, fun y hy => ?_⟩
      exact ⟨List.mem_cons_of_mem _ (h.taken y hy).1, List.mem_cons_of_mem _ (h.taken y hy).2⟩
  · rename_i hold
    have hcfound : c ∈ v.found := by
      by_contra hno
      exact hold ⟨hlt, by simpa using hno⟩
    refine ⟨h.entry, h.here, h.found, h.pending, ?_, ?_, ?_⟩
    · exact List.forall_mem_cons.mpr ⟨⟨h.here, hc⟩, h.branches⟩
    · intro x hx hpending hne y hy
      obtain ⟨hbranch, hfound⟩ := h.visited x hx hpending hne y hy
      exact ⟨List.mem_cons_of_mem _ hbranch, hfound⟩
    · refine List.forall_mem_cons.mpr ⟨⟨List.mem_cons_self, hcfound⟩, fun y hy => ?_⟩
      exact ⟨List.mem_cons_of_mem _ (h.taken y hy).1, (h.taken y hy).2⟩

/-- All branches of the block are taken down one after the other. -/
theorem Visiting.foldl {b : Nat} {taken cs : List Nat} (h : Visiting g b taken v)
    (hcs : ∀ c ∈ cs, c ∈ g.successors b ∧ c < g.length) :
    Visiting g b (cs.reverse ++ taken) (cs.foldl (Survey.enter g b) v) := by
  induction cs generalizing taken v with
  | nil => exact h
  | cons c cs ih =>
    obtain ⟨hc, hlt⟩ := hcs c List.mem_cons_self
    rw [List.reverse_cons, List.append_assoc]
    exact ih (h.enter hc hlt) fun x hx => hcs x (List.mem_cons_of_mem _ hx)

theorem Sound.visit (hg : g.Closed) (h : Sound g v) {b : Nat} {rest : List Nat}
    (hv : v.pending = b :: rest) :
    Sound g ((g.successors b).foldl (Survey.enter g b) { v with pending := rest }) := by
  have hb : b ∈ v.found := h.pending b (hv ▸ List.mem_cons_self)
  have hstart : Visiting g b [] { v with pending := rest } :=
    { entry := h.entry
      here := hb
      found := h.found
      pending := fun x hx => h.pending x (hv ▸ List.mem_cons_of_mem _ hx)
      branches := h.branches
      visited := fun x hx hpending hne => h.visited x hx (hv ▸ by simp [hne, hpending])
      taken := nofun }
  have hend := hstart.foldl fun c (hc : c ∈ g.successors b) => ⟨hc, hg b c hc⟩
  refine ⟨hend.entry, hend.found, hend.pending, hend.branches, fun x hx hpending c hc => ?_⟩
  by_cases hxb : x = b
  · subst hxb
    exact hend.taken c (by simpa using hc)
  · exact hend.visited x hx hpending hxb c hc

theorem Sound.finish (hg : g.Closed) (h : Sound g v) :
    Sound g (v.finish g) ∧ (v.finish g).pending = [] := by
  fun_induction Survey.finish g v with
  | case1 v hv => exact ⟨h, hv⟩
  | case2 v b rest hv ih => exact ih (h.visit hg hv)

end Survey

section

variable {g : Flow} (hg : g.Closed)

include hg

theorem survey_sound : g.survey.Sound g ∧ g.survey.pending = [] := by
  refine Survey.Sound.finish hg ⟨List.mem_cons_self, ?_, fun _ h => h, nofun, ?_⟩
  · intro b hb
    cases List.mem_singleton.mp hb
    exact ⟨[], .entry⟩
  · exact fun b hb hpending => absurd hb hpending

/-- A block is reachable exactly if a path leads to it. -/
theorem mem_reachable_iff {b : Nat} : b ∈ g.reachable ↔ ∃ before, g.Path before b := by
  obtain ⟨hsound, hpending⟩ := survey_sound hg
  refine ⟨hsound.found b, ?_⟩
  rintro ⟨before, hpath⟩
  induction hpath with
  | entry => exact hsound.entry
  | step _ hc ih => exact (hsound.visited _ ih (by simp [hpending]) _ hc).2

/-- The sources of the branches to a block are the reachable blocks before it. -/
theorem mem_sources_iff {p b : Nat} :
    p ∈ g.survey.sources b ↔ p ∈ g.reachable ∧ b ∈ g.successors p := by
  obtain ⟨hsound, hpending⟩ := survey_sound hg
  have hbranch : p ∈ g.survey.sources b ↔ (p, b) ∈ g.survey.branches := by
    simp [Survey.sources]
  rw [hbranch]
  constructor
  · exact hsound.branches (p, b)
  · rintro ⟨hp, hb⟩
    exact (hsound.visited p hp (by simp [hpending]) b hb).1

end

/-! ### Sweeps -/

namespace Survey

variable {n : Nat} {v : Survey} {t : Table n}

/-- A sweep that changes nothing has made every row anew as it was. -/
theorem refine_eq_of_foldl_eq {bs : List Nat} (hbs : ∀ b ∈ bs, b ≠ 0) (h : v.Settling t)
    (heq : bs.foldl v.refine t = t) : ∀ b ∈ bs, v.refine t b = t := by
  induction bs with
  | nil => exact nofun
  | cons b bs ih =>
    have hb := hbs b List.mem_cons_self
    have htail : ∀ c ∈ bs, c ≠ 0 := fun c hc => hbs c (List.mem_cons_of_mem _ hc)
    -- The rows only lose marks, and at the end none is lost.
    have hsame : v.refine t b = t := by
      refine Table.eq_of_marks fun c d => Bool.eq_iff_iff.mpr ⟨h.refine_le hb, fun hm => ?_⟩
      refine (Settling.foldl htail (h.refine hb)).2 c d ?_
      rwa [← List.foldl_cons, heq]
    rw [List.foldl_cons, hsame] at heq
    exact List.forall_mem_cons.mpr ⟨hsame, ih htail heq⟩

theorem marks_eq_agreed (h : v.Settling t) (heq : v.sweep t = t) {b d : Nat} (hb : b ≠ 0)
    (hbn : b < n) (hdn : d < n) (hfound : b ∈ v.found) : t.marks b d = v.agreed t b d := by
  have hmem : b ∈ List.range' 1 (n - 1) := List.mem_range'_1.mpr ⟨by omega, by omega⟩
  have hrow := refine_eq_of_foldl_eq (fun _ => ne_zero_of_mem_range') h heq b hmem
  have hmarks := marks_refine (v := v) (t := t) b b d
  rwa [hrow, if_pos ⟨rfl, hfound, hbn, hdn⟩] at hmarks

/-- What sweeps end with is left alone by a further sweep, and has lost marks only. -/
theorem settle_spec (h : v.Settling t) : v.Settling (v.settle t h) ∧
    v.sweep (v.settle t h) = v.settle t h ∧
    ∀ b d, (v.settle t h).marks b d = true → t.marks b d = true := by
  fun_induction settle v t h with
  | case1 t h heq => exact ⟨h, Table.rows_inj.mp heq, fun _ _ hm => hm⟩
  | case2 t h hne ih =>
    obtain ⟨hsettling, hsweep, hle⟩ := ih
    exact ⟨hsettling, hsweep, fun b d hm => h.sweep_le b d (hle b d hm)⟩

/-- What holds of a table and is kept when a row is made anew holds of what sweeps end with. -/
theorem settle_induction {P : Table n → Prop} (hP : ∀ t b, P t → P (v.refine t b))
    (h : v.Settling t) (ht : P t) : P (v.settle t h) := by
  fun_induction settle v t h with
  | case1 t h heq => exact ht
  | case2 t h hne ih =>
    refine ih ?_
    unfold sweep
    generalize List.range' 1 (n - 1) = bs
    clear ih hne h
    induction bs generalizing t with
    | nil => exact ht
    | cons b bs ih => exact ih (v.refine t b) (hP t b ht)

end Survey

/-! ### Dominance -/

section

variable {g : Flow} (hg : g.Closed) (h0 : 0 < g.length)

include hg

/-- A block that is marked lies on every path. -/
theorem mem_path_of_marks {before : List Nat} {b d : Nat} (hpath : g.Path before b)
    (hm : g.dominators.marks b d = true) : d ∈ b :: before := by
  obtain ⟨hsettling, hsweep, hle⟩ := Survey.settle_spec (Survey.settling_top (n := g.length) g.survey)
  have hentry : ∀ d, g.dominators.marks 0 d = true → d = 0 := by
    intro d hm
    have htop := hle 0 d hm
    rw [Table.marks_top, Bool.and_eq_true] at htop
    simpa using htop.2
  induction hpath with
  | entry => exact List.mem_singleton.mpr (hentry d hm)
  | @step before b c hpath hc ih =>
    by_cases hzero : c = 0
    · subst hzero
      rw [hentry d hm]
      exact List.mem_cons_self
    · obtain ⟨hcn, hdn⟩ := Table.lt_of_marks hm
      have hfound : c ∈ g.reachable := (mem_reachable_iff hg).mpr ⟨_, hpath.step hc⟩
      have hagreed := Survey.marks_eq_agreed hsettling hsweep hzero hcn hdn hfound
      rw [dominators] at hm
      rw [hm, Survey.agreed] at hagreed
      simp only [Bool.true_eq, Bool.or_eq_true, beq_iff_eq, List.all_eq_true] at hagreed
      rcases hagreed with rfl | hall
      · exact List.mem_cons_self
      · have hb : b ∈ g.survey.sources c :=
          (mem_sources_iff hg).mpr ⟨(mem_reachable_iff hg).mpr ⟨_, hpath⟩, hc⟩
        exact List.mem_cons_of_mem _ (ih (hall b hb))

include h0

/-- A block that lies on every path to a reachable block stays marked. -/
theorem marks_of_mem_path {b d : Nat} (hb : ∃ before, g.Path before b)
    (hd : ∀ before, g.Path before b → d ∈ b :: before) : g.dominators.marks b d = true := by
  refine Survey.settle_induction (P := fun t => ∀ b d, (∃ before, g.Path before b) →
    (∀ before, g.Path before b → d ∈ b :: before) → t.marks b d = true) ?_ _ ?_ b d hb hd
  · intro t c ht b d hb hd
    rw [Survey.marks_refine]
    split
    · rename_i hc
      obtain ⟨rfl, -, -⟩ := hc
      rw [Survey.agreed, Bool.or_eq_true, beq_iff_eq, List.all_eq_true]
      refine or_iff_not_imp_left.mpr fun hne p hp => ?_
      obtain ⟨hreach, hbp⟩ := (mem_sources_iff hg).mp hp
      refine ht p d ((mem_reachable_iff hg).mp hreach) fun before hpath => ?_
      exact List.mem_of_ne_of_mem hne (hd _ (hpath.step hbp))
    · exact ht b d hb hd
  · rintro b d ⟨before, hpath⟩ hd
    have hbn := hpath.lt_length hg h0
    have hdn : d < g.length := by
      rcases List.mem_cons.mp (hd before hpath) with rfl | hmem
      · exact hbn
      · obtain ⟨earlier, hearlier, -⟩ := hpath.to_mem hmem
        exact hearlier.lt_length hg h0
    rw [Table.marks_top, decide_eq_true ⟨hbn, hdn⟩, Bool.true_and, Bool.or_eq_true]
    by_cases hzero : b = 0
    · subst hzero
      exact .inr (by simpa using hd [] .entry)
    · exact .inl (by simpa using hzero)

/-- A block is marked in the row of a reachable one exactly if it lies on every path to it. -/
theorem marks_dominators_iff {b d : Nat} (hb : ∃ before, g.Path before b) :
    g.dominators.marks b d = true ↔ ∀ before, g.Path before b → d ∈ b :: before :=
  ⟨fun hm _ hpath => mem_path_of_marks hg hpath hm, marks_of_mem_path hg h0 hb⟩

end

/-- Of a graph whose branches stay inside it, the survey finds exactly the blocks to which a
path leads from the entry. The sweeps come to a table that a further one leaves alone, and in
the row of a reachable block it marks exactly the blocks through which every path passes. -/
theorem dominators_exact (g : Flow) (h0 : 0 < g.length) (hg : ∀ cs ∈ g, ∀ c ∈ cs, c < g.length) :
    (∀ b, b ∈ g.reachable ↔ ∃ before, g.Path before b) ∧
      g.survey.sweep g.dominators = g.dominators ∧
      ∀ b ∈ g.reachable, ∀ d,
        g.dominators.marks b d = true ↔ ∀ before, g.Path before b → d ∈ b :: before := by
  have hclosed : g.Closed := by
    intro b c hc
    unfold successors at hc
    rcases hb : g[b]? with _ | cs
    · simp [hb] at hc
    · exact hg cs (List.mem_of_getElem? hb) c (by simpa [hb] using hc)
  refine ⟨fun b => mem_reachable_iff hclosed, ?_, fun b hb d => ?_⟩
  · exact (Survey.settle_spec (Survey.settling_top g.survey)).2.1
  · exact marks_dominators_iff hclosed h0 ((mem_reachable_iff hclosed).mp hb)

/-- Two ways to block 3, one of them with a loop of its own and one with a branch back to the
entry, and a block to which no path leads. -/
def diamond : Flow := [[1, 2, 2], [1, 3], [3, 0], [], [3]]

theorem diamond_dominators : diamond.reachable = [3, 2, 1, 0] ∧
    (∀ before, diamond.Path before 3 → 0 ∈ 3 :: before) ∧
    ¬ (∀ before, diamond.Path before 3 → 1 ∈ 3 :: before) ∧
    ¬ ∃ before, diamond.Path before 4 := by
  have hfound : diamond.reachable = [3, 2, 1, 0] := by cbv
  have hmarks : (diamond.dominators.marks 3 0, diamond.dominators.marks 3 1) = (true, false) := by
    cbv
  obtain ⟨hzero, hone⟩ := Prod.mk.inj hmarks
  have h3 : 3 ∈ diamond.reachable := by rw [hfound]; decide
  obtain ⟨hreach, -, hdom⟩ := dominators_exact diamond (by decide) (by decide)
  refine ⟨hfound, (hdom 3 h3 0).mp hzero, fun h => ?_, fun h => ?_⟩
  · rw [(hdom 3 h3 1).mpr h] at hone
    cases hone
  · have h4 := (hreach 4).mpr h
    rw [hfound] at h4
    revert h4
    decide

end Augite.IR.Flow
