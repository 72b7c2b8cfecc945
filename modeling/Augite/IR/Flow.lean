/-!
# Flow graphs

A flow graph is the list of its blocks' successors; block 0 is the entry. A block is
reachable if some path leads to it from the entry, and a block dominates another if every
path from the entry to the latter passes through the former. A survey finds the reachable
blocks and the branches between them. Dominance is then settled in sweeps over a table that
starts with every block dominated by all, the entry by itself only: a sweep takes from each
row what the blocks before it do not agree on, later rows reading what earlier ones have
become, until a sweep takes nothing more.
-/

namespace Augite.IR

abbrev Flow := List (List Nat)

namespace Flow

def successors (g : Flow) (b : Nat) : List Nat := (g[b]?).getD []

/-! ### Surveys -/

def unseen (g : Flow) (seen : List Nat) : Nat :=
  ((List.range g.length).filter fun b => !seen.contains b).length

theorem unseen_cons_lt {g : Flow} {seen : List Nat} {b : Nat} (hb : b < g.length)
    (hs : seen.contains b = false) : g.unseen (b :: seen) < g.unseen seen := by
  have mem : b ∈ (List.range g.length).filter fun c => !seen.contains c := by
    simp only [List.mem_filter, List.mem_range]
    exact ⟨hb, by rw [hs]; rfl⟩
  have sub : (List.range g.length).filter (fun c => !(b :: seen).contains c) =
      ((List.range g.length).filter fun c => !seen.contains c).filter fun c => c != b := by
    rw [List.filter_filter]
    congr 1
    funext c
    simp only [List.contains_cons, Bool.not_or]
    rfl
  unfold unseen
  rw [sub]
  exact List.length_filter_lt_length_iff_exists.mpr ⟨b, mem, by simp⟩

structure Survey where
  found : List Nat
  /-- The branches out of the blocks visited so far, each with its source first. -/
  branches : List (Nat × Nat) := []
  /-- The blocks found and not yet visited, the next one first. -/
  pending : List Nat
  deriving DecidableEq, Repr

namespace Survey

def enter (g : Flow) (b : Nat) (v : Survey) (c : Nat) : Survey :=
  let v := { v with branches := (b, c) :: v.branches }
  if c < g.length ∧ v.found.contains c = false then
    { v with found := c :: v.found, pending := c :: v.pending }
  else v

def left (g : Flow) (v : Survey) : Nat := g.unseen v.found + v.pending.length

theorem left_enter_le (g : Flow) (b : Nat) (v : Survey) (c : Nat) :
    (v.enter g b c).left g ≤ v.left g := by
  unfold enter left
  dsimp only
  split
  · rename_i h
    have := unseen_cons_lt h.1 h.2
    simp only [List.length_cons]
    omega
  · exact Nat.le_refl _

theorem left_foldl_le (g : Flow) (b : Nat) (cs : List Nat) (v : Survey) :
    (cs.foldl (enter g b) v).left g ≤ v.left g := by
  induction cs generalizing v with
  | nil => exact Nat.le_refl _
  | cons c cs ih => exact Nat.le_trans (ih _) (left_enter_le g b v c)

/-- Visits what is pending and whatever is found on the way. -/
def finish (g : Flow) (v : Survey) : Survey :=
  match _h : v.pending with
  | [] => v
  | b :: rest => finish g ((g.successors b).foldl (enter g b) { v with pending := rest })
termination_by v.left g
decreasing_by
  have := left_foldl_le g b (g.successors b) { v with pending := rest }
  simp only [left, _h, List.length_cons] at this ⊢
  omega

def sources (v : Survey) (b : Nat) : List Nat :=
  v.branches.filterMap fun (p, c) => if c = b then some p else none

end Survey

def survey (g : Flow) : Survey := Survey.finish g { found := [0], pending := [0] }

def reachable (g : Flow) : List Nat := g.survey.found

/-! ### Tables of dominance -/

abbrev Table (n : Nat) := Vector (Vector Bool n) n

namespace Table

variable {n : Nat}

def marks (t : Table n) (b d : Nat) : Bool := if h : b < n ∧ d < n then t[b][d] else false

/-- Every block is marked in every row, but only the entry in its own. -/
def top (n : Nat) : Table n := Vector.ofFn fun b => Vector.ofFn fun d => b.val != 0 || d.val == 0

theorem marks_top (b d : Nat) :
    (top n).marks b d = (decide (b < n ∧ d < n) && (b != 0 || d == 0)) := by
  by_cases h : b < n ∧ d < n
  · simp [marks, top, h]
  · rw [marks, dif_neg h, decide_eq_false h, Bool.false_and]

theorem eq_of_marks {t u : Table n} (h : ∀ b d, t.marks b d = u.marks b d) : t = u := by
  ext b hb d hd
  simpa [marks, hb, hd] using h b d

def rows (t : Table n) : List (List Bool) := t.toList.map Vector.toList

theorem rows_inj {t u : Table n} : t.rows = u.rows ↔ t = u := by
  have hinj : Function.Injective (Vector.toList : Vector Bool n → List Bool) :=
    fun _ _ => Vector.toList_inj.mp
  rw [rows, rows, List.map_inj_right hinj, Vector.toList_inj]

def all (t : Table n) : List (Nat × Nat) :=
  ((List.range n).flatMap fun b => (List.range n).map fun d => (b, d)).filter fun e =>
    t.marks e.1 e.2

theorem lt_of_marks {t : Table n} {b d : Nat} (h : t.marks b d = true) : b < n ∧ d < n := by
  unfold marks at h
  split at h
  · assumption
  · cases h

theorem mem_all {t : Table n} {b d : Nat} : (b, d) ∈ t.all ↔ t.marks b d = true := by
  simp only [all, List.mem_filter, List.mem_flatMap, List.mem_map, List.mem_range]
  constructor
  · exact fun h => h.2
  · intro h
    obtain ⟨hb, hd⟩ := lt_of_marks h
    exact ⟨⟨b, hb, d, hd, rfl⟩, h⟩

/-- A table that has lost marks and got none has fewer of them. -/
theorem length_all_lt {t u : Table n} (hle : ∀ b d, u.marks b d = true → t.marks b d = true)
    (hne : u ≠ t) : u.all.length < t.all.length := by
  have hlost : ∃ b d, t.marks b d = true ∧ u.marks b d = false := by
    refine Classical.byContradiction fun hno => hne (eq_of_marks fun b d => ?_)
    cases hu : u.marks b d with
    | true => rw [hle b d hu]
    | false =>
      cases ht : t.marks b d with
      | false => rfl
      | true => exact absurd ⟨b, d, ht, hu⟩ hno
  obtain ⟨b, d, ht, hu⟩ := hlost
  have hsub : u.all = t.all.filter fun e => u.marks e.1 e.2 := by
    unfold all
    rw [List.filter_filter]
    congr 1
    funext e
    cases hm : u.marks e.1 e.2 with
    | false => rfl
    | true => rw [hle _ _ hm]; rfl
  rw [hsub]
  exact List.length_filter_lt_length_iff_exists.mpr ⟨(b, d), mem_all.mpr ht, by simp [hu]⟩

end Table

namespace Survey

variable {n : Nat} (v : Survey)

/-- A block is dominated by itself and by what dominates all blocks before it. -/
def agreed (t : Table n) (b d : Nat) : Bool := d == b || (v.sources b).all fun p => t.marks p d

def refine (t : Table n) (b : Nat) : Table n :=
  if v.found.contains b then t.setIfInBounds b (Vector.ofFn fun d => v.agreed t b d) else t

/-- The table after the rows of all blocks but the entry have been made anew in their order. -/
def sweep (t : Table n) : Table n := (List.range' 1 (n - 1)).foldl v.refine t

/-- What the blocks before a reachable block agree on is marked: making a row anew can only
take marks away. -/
def Settling (t : Table n) : Prop :=
  ∀ b d, b ≠ 0 → b < n → d < n → b ∈ v.found → v.agreed t b d = true → t.marks b d = true

variable {v} {t : Table n}

theorem marks_refine (b c d : Nat) : (v.refine t b).marks c d =
    if c = b ∧ b ∈ v.found ∧ c < n ∧ d < n then v.agreed t b d else t.marks c d := by
  unfold refine Table.marks
  by_cases hb : v.found.contains b = true
  · rw [if_pos hb]
    have hmem : b ∈ v.found := by simpa using hb
    by_cases hn : c < n ∧ d < n
    · by_cases hc : c = b
      · subst hc
        simp [hn, hmem]
      · simp [hn, hc, Ne.symm hc]
    · simp [hn]
  · have hmem : b ∉ v.found := by simpa using hb
    rw [if_neg hb]
    simp [hmem]

theorem agreed_mono {u : Table n} (hle : ∀ b d, u.marks b d = true → t.marks b d = true) {b d : Nat}
    (h : v.agreed u b d = true) : v.agreed t b d = true := by
  simp only [agreed, Bool.or_eq_true, List.all_eq_true] at h ⊢
  exact h.imp id fun h p hp => hle p d (h p hp)

theorem Settling.refine_le (h : v.Settling t) {b : Nat} (hb : b ≠ 0) {c d : Nat}
    (hm : (v.refine t b).marks c d = true) : t.marks c d = true := by
  rw [marks_refine] at hm
  split at hm
  · rename_i hc
    obtain ⟨rfl, hfound, hc, hd⟩ := hc
    exact h c d hb hc hd hfound hm
  · exact hm

theorem Settling.refine (h : v.Settling t) {b : Nat} (hb : b ≠ 0) : v.Settling (v.refine t b) := by
  intro c d hc hcn hdn hfound ha
  have hold := agreed_mono (fun _ _ => h.refine_le hb) ha
  rw [marks_refine]
  split
  · rename_i hcb
    exact hcb.1 ▸ hold
  · exact h c d hc hcn hdn hfound hold

theorem Settling.foldl {bs : List Nat} (hbs : ∀ b ∈ bs, b ≠ 0) (h : v.Settling t) :
    v.Settling (bs.foldl v.refine t) ∧
      ∀ c d, (bs.foldl v.refine t).marks c d = true → t.marks c d = true := by
  induction bs generalizing t with
  | nil => exact ⟨h, fun _ _ hm => hm⟩
  | cons b bs ih =>
    have hb := hbs b List.mem_cons_self
    obtain ⟨hset, hle⟩ := ih (fun c hc => hbs c (List.mem_cons_of_mem _ hc)) (h.refine hb)
    exact ⟨hset, fun c d hm => h.refine_le hb (hle c d hm)⟩

theorem ne_zero_of_mem_range' {b : Nat} (h : b ∈ List.range' 1 (n - 1)) : b ≠ 0 := by
  have := (List.mem_range'_1.mp h).1
  omega

theorem Settling.sweep (h : v.Settling t) : v.Settling (v.sweep t) :=
  (Settling.foldl (fun _ => ne_zero_of_mem_range') h).1

theorem Settling.sweep_le (h : v.Settling t) (b d : Nat) (hm : (v.sweep t).marks b d = true) :
    t.marks b d = true :=
  (Settling.foldl (fun _ => ne_zero_of_mem_range') h).2 b d hm

/-- Sweeps until nothing changes. A sweep that changes the table takes marks away. -/
def settle (v : Survey) (t : Table n) (h : v.Settling t) : Table n :=
  if _hne : (v.sweep t).rows = t.rows then t else settle v (v.sweep t) h.sweep
termination_by t.all.length
decreasing_by exact Table.length_all_lt h.sweep_le fun heq => _hne (congrArg Table.rows heq)

theorem settling_top (v : Survey) : v.Settling (Table.top n) := by
  intro b d hb hbn hdn _ _
  simp [Table.marks_top, hb, hbn, hdn]

end Survey

/-- The table of a graph in which every reachable block has those blocks marked through which
every path from the entry to it passes. -/
def dominators (g : Flow) : Table g.length := g.survey.settle (.top _) (Survey.settling_top _)

end Flow

end Augite.IR
