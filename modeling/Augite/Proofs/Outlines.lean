import Augite.Proofs.StraightCode

/-!
# Outlines of the blocks under construction

Which blocks a path from the first block of their function comes to, looking at terminators
only. While a function is under construction every block is marked as unreachable or can be
reached, but for the pending ones, which have been opened and not yet been entered. Each step
of lowering keeps this.
-/

namespace Augite

namespace Lowering

open Relation (ReflTransGen)

/-! ### Outlines -/

/-- The function and the terminator of each block. -/
abbrev Outline := Nat → Option (Nat × Option IR.Term)

namespace Outline

/-- A branch leads from one block to the other. -/
def Leads (o : Outline) (a b : Nat) : Prop :=
  ∃ f t, o a = some (f, some t) ∧ b ∈ State.targets t

/-- The first block of a function. -/
def First (o : Outline) (f b : Nat) : Prop :=
  (∃ t, o b = some (f, t)) ∧ ∀ c t, c < b → o c ≠ some (f, t)

/-- What has been terminated stays as it is, and no block goes away. -/
def Grows (o o' : Outline) : Prop :=
  ∀ b f t, o b = some (f, t) → ∃ t', o' b = some (f, t') ∧ (t ≠ none → t' = t)

/-- Every block but the pending ones is marked as unreachable or can be reached. -/
structure Charted (pending : Set Nat) (o : Outline) : Prop where
  edges : ∀ a b, o.Leads a b → ∃ f t t', o a = some (f, t) ∧ o b = some (f, t') ∧
    t' ≠ some .unreachable
  first : ∀ f b, o.First f b → o b ≠ some (f, some .unreachable)
  live : ∀ b f t, o b = some (f, t) → b ∉ pending →
    t = some .unreachable ∨ ∃ e, o.First f e ∧ ReflTransGen o.Leads e b

variable {o o' : Outline} {pending : Set Nat} {a b f n : Nat}

theorem First.unique (ha : o.First f a) (hb : o.First f b) : a = b := by
  obtain ⟨⟨t, ht⟩, hfirst⟩ := ha
  obtain ⟨⟨t', ht'⟩, hfirst'⟩ := hb
  rcases Nat.lt_trichotomy a b with h | h | h
  · exact absurd ht (hfirst' a t h)
  · exact h
  · exact absurd ht' (hfirst b t' h)

theorem Leads.ne_of_open (h : o.Leads a n) (hb : o b = some (f, none)) : a ≠ b := by
  rintro rfl
  obtain ⟨g, t, ht, -⟩ := h
  rw [hb] at ht
  cases ht

theorem Grows.refl (o : Outline) : o.Grows o := fun _ _ t h => ⟨t, h, fun _ => rfl⟩

theorem Grows.trans {o'' : Outline} (h : o.Grows o') (k : o'.Grows o'') : o.Grows o'' := by
  intro b f t hb
  obtain ⟨t', hb', ht'⟩ := h b f t hb
  obtain ⟨t'', hb'', ht''⟩ := k b f t' hb'
  exact ⟨t'', hb'', fun hne => (ht'' (ht' hne ▸ hne)).trans (ht' hne)⟩

theorem Grows.leads (h : o.Grows o') (hab : o.Leads a b) : o'.Leads a b := by
  obtain ⟨f, t, ha, hb⟩ := hab
  obtain ⟨t', ha', ht'⟩ := h a f _ ha
  cases ht' (by simp)
  exact ⟨f, t, ha', hb⟩

theorem Grows.reaches (h : o.Grows o') (hab : ReflTransGen o.Leads a b) :
    ReflTransGen o'.Leads a b :=
  hab.lift id fun _ _ => h.leads

/-- The first block of a function stays the first if new blocks come behind all others. -/
theorem Grows.first (h : o.Grows o') (hold : ∀ b c x, o b = some x → c < b → o c ≠ none)
    (hf : o.First f b) : o'.First f b := by
  obtain ⟨⟨t, ht⟩, hfirst⟩ := hf
  refine ⟨⟨_, (h b f t ht).choose_spec.1⟩, fun c t' hc hget => ?_⟩
  obtain ⟨⟨f', t''⟩, hc'⟩ := Option.ne_none_iff_exists'.mp (hold b c _ ht hc)
  obtain ⟨t₁, hc₁, -⟩ := h c f' t'' hc'
  rw [hget] at hc₁
  cases hc₁
  exact hfirst c t'' hc hc'

/-- A pending block that a branch leads to can be reached. -/
theorem Charted.reached (h : o.Charted (insert b pending)) (hab : o.Leads a b)
    (ha : a ∉ insert b pending) : o.Charted pending := by
  refine ⟨h.edges, h.first, fun c f t hc hpend => ?_⟩
  by_cases hcb : c = b
  · subst hcb
    obtain ⟨f', s, t', ha', hb', -⟩ := h.edges a c hab
    rw [hc] at hb'
    cases hb'
    obtain ⟨f'', x, hx, hmem⟩ := id hab
    rw [ha'] at hx
    cases hx
    rcases h.live a f _ ha' ha with hdead | ⟨e, he, hreach⟩
    · cases hdead
      cases hmem
    · exact .inr ⟨e, he, hreach.tail hab⟩
  · exact h.live c f t hc (by simp [hcb, hpend])

section

variable {x : IR.Term}

theorem leads_update (hb : o b = some (f, none)) {c d : Nat} :
    Leads (Function.update o b (some (f, some x))) c d ↔
      o.Leads c d ∨ (c = b ∧ d ∈ State.targets x) := by
  unfold Leads
  by_cases hc : c = b
  · subst hc
    rw [Function.update_self]
    constructor
    · rintro ⟨f', t, h, hd⟩
      cases h
      exact .inr ⟨rfl, hd⟩
    · rintro (⟨f', t, h, -⟩ | ⟨-, hd⟩)
      · rw [hb] at h
        cases h
      · exact ⟨f, x, rfl, hd⟩
  · rw [Function.update_of_ne hc]
    simp [hc]

theorem grows_update (hb : o b = some (f, none)) :
    o.Grows (Function.update o b (some (f, some x))) := by
  intro c f' t hc
  by_cases hcb : c = b
  · subst hcb
    rw [hb] at hc
    cases hc
    exact ⟨some x, Function.update_self .., fun h => absurd rfl h⟩
  · exact ⟨t, by rw [Function.update_of_ne hcb, hc], fun _ => rfl⟩

theorem first_update (hb : o b = some (f, none)) {g c : Nat} :
    First (Function.update o b (some (f, some x))) g c ↔ o.First g c := by
  have hiff : ∀ c g, (∃ t, Function.update o b (some (f, some x)) c = some (g, t)) ↔
      ∃ t, o c = some (g, t) := by
    intro c g
    by_cases hc : c = b
    · subst hc
      simp [hb]
    · rw [Function.update_of_ne hc]
  have hnone : ∀ o : Outline, (∀ c' t, c' < c → o c' ≠ some (g, t)) ↔
      ∀ c' < c, ¬ ∃ t, o c' = some (g, t) := by
    intro o
    constructor
    · rintro h c' hc' ⟨t, ht⟩
      exact h c' t hc' ht
    · exact fun h c' t hc' ht => h c' hc' ⟨t, ht⟩
  unfold First
  rw [hiff, hnone, hnone]
  simp only [hiff]

/-- A block that can be reached branches to blocks of its function, which may be pending. -/
theorem Charted.close (h : o.Charted pending) (hb : o b = some (f, none)) (hx : x ≠ .unreachable)
    (htargets : ∀ c ∈ State.targets x, ∃ t, o c = some (f, t) ∧ t ≠ some .unreachable) :
    Charted pending (Function.update o b (some (f, some x))) := by
  refine ⟨fun c d hcd => ?_, fun g c hfirst hget => ?_, fun c g t hc hpend => ?_⟩
  · have hupdate : ∀ d t', o d = some (f, t') → t' ≠ some .unreachable →
        ∃ t'', Function.update o b (some (f, some x)) d = some (f, t'') ∧
          t'' ≠ some .unreachable := by
      intro d t' hd hne
      by_cases hdb : d = b
      · subst hdb
        exact ⟨some x, Function.update_self .., by simpa using hx⟩
      · exact ⟨t', by rw [Function.update_of_ne hdb, hd], hne⟩
    rcases (leads_update hb).mp hcd with hold | ⟨rfl, hd⟩
    · obtain ⟨g, t, t', hc, hd, hne⟩ := h.edges c d hold
      have hcb : c ≠ b := hold.ne_of_open hb
      by_cases hdb : d = b
      · subst hdb
        rw [hb] at hd
        cases hd
        obtain ⟨t'', hd'', hne''⟩ := hupdate d none hb (by simp)
        exact ⟨f, t, t'', by rw [Function.update_of_ne hcb, hc], hd'', hne''⟩
      · exact ⟨g, t, t', by rw [Function.update_of_ne hcb, hc],
          by rw [Function.update_of_ne hdb, hd], hne⟩
    · obtain ⟨t', ht', hne⟩ := htargets d hd
      obtain ⟨t'', hd'', hne''⟩ := hupdate d t' ht' hne
      exact ⟨f, some x, t'', Function.update_self .., hd'', hne''⟩
  · by_cases hcb : c = b
    · subst hcb
      rw [Function.update_self] at hget
      cases hget
      exact hx rfl
    · rw [Function.update_of_ne hcb] at hget
      exact h.first g c ((first_update hb).mp hfirst) hget
  · have hreach : (∃ e, o.First g e ∧ ReflTransGen o.Leads e c) →
        ∃ e, First (Function.update o b (some (f, some x))) g e ∧
          ReflTransGen (Leads (Function.update o b (some (f, some x)))) e c := by
      rintro ⟨e, he, hr⟩
      exact ⟨e, (first_update hb).mpr he, (grows_update hb).reaches hr⟩
    by_cases hcb : c = b
    · subst hcb
      rw [Function.update_self] at hc
      cases hc
      rcases h.live c f none hb hpend with hdead | hr
      · cases hdead
      · exact .inr (hreach hr)
    · rw [Function.update_of_ne hcb] at hc
      exact (h.live c g t hc hpend).imp_right hreach

/-- A pending block that no branch leads to is marked. -/
theorem Charted.mark (h : o.Charted (insert b pending)) (hb : o b = some (f, none))
    (hnone : ∀ a, ¬ o.Leads a b) (hfirst : ¬ o.First f b) :
    Charted pending (Function.update o b (some (f, some .unreachable))) := by
  have hleads : ∀ c d,
      Leads (Function.update o b (some (f, some .unreachable))) c d ↔ o.Leads c d := by
    intro c d
    rw [leads_update hb]
    simp [State.targets]
  refine ⟨fun c d hcd => ?_, fun g c hfirst' hget => ?_, fun c g t hc hpend => ?_⟩
  · have hold := (hleads c d).mp hcd
    obtain ⟨g, t, t', hc, hd, hne⟩ := h.edges c d hold
    have hcb : c ≠ b := hold.ne_of_open hb
    have hdb : d ≠ b := fun hdb => hnone c (hdb ▸ hold)
    exact ⟨g, t, t', by rw [Function.update_of_ne hcb, hc],
      by rw [Function.update_of_ne hdb, hd], hne⟩
  · have hold := (first_update hb).mp hfirst'
    by_cases hcb : c = b
    · subst hcb
      rw [Function.update_self] at hget
      cases hget
      exact hfirst hold
    · rw [Function.update_of_ne hcb] at hget
      exact h.first g c hold hget
  · by_cases hcb : c = b
    · subst hcb
      rw [Function.update_self] at hc
      cases hc
      exact .inl rfl
    · rw [Function.update_of_ne hcb] at hc
      refine (h.live c g t hc (by simp [hcb, hpend])).imp_right ?_
      rintro ⟨e, he, hr⟩
      exact ⟨e, (first_update hb).mpr he, (grows_update hb).reaches hr⟩

end

/-! A block more, behind all others. -/

section

variable (hnew : ∀ b, n ≤ b → o b = none)
include hnew

theorem leads_open : Leads (Function.update o n (some (f, none))) a b ↔ o.Leads a b := by
  unfold Leads
  by_cases ha : a = n
  · subst ha
    simp [hnew a le_rfl]
  · rw [Function.update_of_ne ha]

theorem grows_open : o.Grows (Function.update o n (some (f, none))) := by
  intro b g t hb
  have hbn : b ≠ n := by
    rintro rfl
    rw [hnew b le_rfl] at hb
    cases hb
  exact ⟨t, by rw [Function.update_of_ne hbn, hb], fun _ => rfl⟩

theorem first_open {g c : Nat} (hc : o.First g c) :
    First (Function.update o n (some (f, none))) g c := by
  obtain ⟨⟨t, ht⟩, hfirst⟩ := hc
  have hlt : c < n := by
    by_contra hle
    rw [hnew c (by omega)] at ht
    cases ht
  refine ⟨⟨t, by rw [Function.update_of_ne (by omega), ht]⟩, fun c' t' hc' => ?_⟩
  rw [Function.update_of_ne (by omega)]
  exact hfirst c' t' hc'

theorem edges_open (h : o.Charted pending) :
    ∀ a b, Leads (Function.update o n (some (f, none))) a b →
      ∃ g t t', Function.update o n (some (f, none)) a = some (g, t) ∧
        Function.update o n (some (f, none)) b = some (g, t') ∧ t' ≠ some .unreachable := by
  intro a b hab
  obtain ⟨g, t, t', ha, hb, hne⟩ := h.edges a b ((leads_open hnew).mp hab)
  have hne' : ∀ c x, o c = some x → c ≠ n := by
    rintro c x hc rfl
    rw [hnew c le_rfl] at hc
    cases hc
  exact ⟨g, t, t', by rw [Function.update_of_ne (hne' a _ ha), ha],
    by rw [Function.update_of_ne (hne' b _ hb), hb], hne⟩

theorem first_of_open {g c : Nat} (hc : First (Function.update o n (some (f, none))) g c)
    (hcn : c ≠ n) : o.First g c := by
  obtain ⟨⟨t, ht⟩, hfirst⟩ := hc
  rw [Function.update_of_ne hcn] at ht
  refine ⟨⟨t, ht⟩, fun c' t' hc' hget => ?_⟩
  have hn : c' ≠ n := by
    rintro rfl
    rw [hnew c' le_rfl] at hget
    cases hget
  exact hfirst c' t' hc' (by rw [Function.update_of_ne hn, hget])

/-- A new block is pending, or it is the first block of a new function. -/
theorem Charted.open (h : o.Charted pending) {pending' : Set Nat}
    (hpend : ∀ b, b ≠ n → b ∉ pending' → b ∉ pending)
    (hn : n ∈ pending' ∨ ∀ c t, o c ≠ some (f, t)) :
    Charted pending' (Function.update o n (some (f, none))) := by
  refine ⟨edges_open hnew h, fun g c hfirst hget => ?_, fun c g t hc hmem => ?_⟩
  · by_cases hcn : c = n
    · subst hcn
      rw [Function.update_self] at hget
      cases hget
    · rw [Function.update_of_ne hcn] at hget
      exact h.first g c (first_of_open hnew hfirst hcn) hget
  · by_cases hcn : c = n
    · subst hcn
      rw [Function.update_self] at hc
      cases hc
      rcases hn with hn | hn
      · exact absurd hn hmem
      · refine .inr ⟨c, ⟨⟨none, Function.update_self ..⟩, fun c' t' hc' => ?_⟩, .refl⟩
        rw [Function.update_of_ne (by omega)]
        exact hn c' t'
    · rw [Function.update_of_ne hcn] at hc
      refine (h.live c g t hc (hpend c hcn hmem)).imp_right ?_
      rintro ⟨e, he, hr⟩
      exact ⟨e, first_open hnew he, (grows_open hnew).reaches hr⟩

end

end Outline

namespace State

variable {s t u : State} {pending : Set Nat} {b : Nat}

/-! ### States as outlines -/

def outline (s : State) : Outline := fun b => (s.draft? b).map Draft.outline

theorem outline_eq_some_iff {f : Nat} {x : Option IR.Term} :
    s.outline b = some (f, x) ↔ ∃ d, s.draft? b = some d ∧ d.func = f ∧ d.term = x := by
  simp [outline, Draft.outline]

theorem Straight.outline_eq (h : s.Straight u) : u.outline = s.outline := funext h.outline

theorem outline_eq_none (s : State) : ∀ b, s.arena.length ≤ b → s.outline b = none := by
  intro b hb
  rw [outline, draft?, List.getElem?_eq_none hb]
  rfl

theorem outline_ne_none {c : Nat} {x : Nat × Option IR.Term} (hb : s.outline b = some x)
    (hc : c < b) : s.outline c ≠ none := by
  have hlt : b < s.arena.length := by
    by_contra hle
    rw [outline_eq_none s b (by omega)] at hb
    cases hb
  rw [outline, draft?, List.getElem?_eq_getElem (by omega)]
  simp

theorem outline_opened (s : State) (func : Nat) (role : IR.Role) :
    (s.opened func role).outline = Function.update s.outline s.arena.length (some (func, none)) := by
  funext b
  rw [outline, draft?_opened]
  by_cases hb : b = s.arena.length
  · subst hb
    rw [if_pos rfl, Function.update_self]
    rfl
  · rw [if_neg hb, Function.update_of_ne hb]
    rfl

theorem outline_closed {f : Nat} {y : Option IR.Term} (hcur : s.outline s.body.cur = some (f, y))
    (x : IR.Term) :
    (s.closed x).outline = Function.update s.outline s.body.cur (some (f, some x)) := by
  funext b
  rw [outline, draft?_closed]
  by_cases hb : b = s.body.cur
  · subst hb
    obtain ⟨d, hd, rfl, -⟩ := outline_eq_some_iff.mp hcur
    rw [Function.update_self, hd]
    simp [Draft.outline]
  · rw [Function.update_of_ne hb]
    simp only [Ne.symm hb, if_false, Option.map_id', outline]

theorem roles_opened (s : State) (func : Nat) (role : IR.Role) :
    (s.opened func role).roles = s.roles ++ [role] := by
  simp [roles, opened]

theorem roles_grown (s : State) (role : IR.Role) : (s.grown role).roles = s.roles ++ [role] :=
  roles_opened s s.body.func role

theorem roles_closed (s : State) (x : IR.Term) : (s.closed x).roles = s.roles :=
  map_modify_of_eq _ _ _ _ fun _ => rfl

theorem done_eq_false_iff_outline {f : Nat} {x : Option IR.Term}
    (hcur : s.outline s.body.cur = some (f, x)) : s.done = false ↔ x = none := by
  obtain ⟨d, hd, -, rfl⟩ := outline_eq_some_iff.mp hcur
  unfold done
  rw [hd]
  simp

theorem done_closed_of_outline {x : Nat × Option IR.Term} (hcur : s.outline s.body.cur = some x)
    (y : IR.Term) : (s.closed y).done = true := by
  have hout : (s.closed y).outline (s.closed y).body.cur = some (x.1, some y) := by
    rw [outline_closed hcur]
    exact Function.update_self ..
  rw [← Bool.not_eq_false, done_eq_false_iff_outline hout]
  nofun

theorem done_joined {x : Nat × Option IR.Term} (hcur : s.outline s.body.cur = some x) (b : Nat) :
    (s.joined b).done = true := by
  unfold State.joined
  split
  · assumption
  · exact done_closed_of_outline hcur _

theorem entering_eq_zero_iff : s.entering b = 0 ↔ ∀ a, ¬ s.outline.Leads a b := by
  unfold entering
  rw [List.count_eq_zero]
  constructor
  · rintro h a ⟨f, t, ha, hb⟩
    obtain ⟨d, hd, -, hterm⟩ := outline_eq_some_iff.mp ha
    refine h (List.mem_flatMap.mpr ⟨d, List.mem_of_getElem? hd, ?_⟩)
    rw [hterm]
    exact hb
  · intro h hmem
    obtain ⟨d, hd, hb⟩ := List.mem_flatMap.mp hmem
    obtain ⟨a, ha⟩ := List.mem_iff_getElem?.mp hd
    rcases hterm : d.term with _ | t
    · rw [hterm] at hb
      cases hb
    · rw [hterm] at hb
      exact h a ⟨d.func, t, outline_eq_some_iff.mpr ⟨d, ha, rfl, hterm⟩, hb⟩

/-! ### The invariant -/

/-- The blocks are charted but for the pending ones, which belong to the function under
construction. Blocks that are marked or pending are empty, and all other blocks of the function
but the current one are terminated. -/
structure Mapped (pending : Set Nat) (s : State) : Prop where
  charted : s.outline.Charted pending
  empty : ∀ b d, s.draft? b = some d → b ∈ pending ∨ d.term = some .unreachable → d.insts = []
  waits : ∀ b ∈ pending, s.outline b = some (s.body.func, none)
  opens : ∀ b, s.outline b = some (s.body.func, none) → b ∈ pending ∨ b = s.body.cur
  cur : ∃ x, s.outline s.body.cur = some (s.body.func, x)
  entered : s.body.cur ∉ pending
  entry : s.outline.First s.body.func s.body.entry
  behind : s.body.entry ∉ pending

structure Continues (s u : State) : Prop where
  grows : s.outline.Grows u.outline
  roles : s.roles <+: u.roles
  funcs : ∀ b x, u.outline b = some x → x.1 = s.body.func ∨ ∃ y, s.outline b = some (x.1, y)
  others : ∀ b d, s.draft? b = some d → d.func ≠ s.body.func → u.draft? b = some d
  func : u.body.func = s.body.func
  entry : u.body.entry = s.body.entry
  functions : u.functions = s.functions
  heads : s.heads <+: u.heads

namespace Continues

theorem trans (h : s.Continues t) (k : t.Continues u) : s.Continues u where
  grows := h.grows.trans k.grows
  roles := h.roles.trans k.roles
  funcs b x hx := by
    rcases k.funcs b x hx with hf | ⟨y, hy⟩
    · exact .inl (hf.trans h.func)
    · exact h.funcs b (x.1, y) hy
  others b d hd hne := k.others b d (h.others b d hd hne) (h.func ▸ hne)
  func := k.func.trans h.func
  entry := k.entry.trans h.entry
  functions := k.functions.trans h.functions
  heads := h.heads.trans k.heads

theorem straight (h : s.Straight u)
    (hother : ∀ b d, s.draft? b = some d → d.func ≠ s.body.func → u.draft? b = some d) :
    s.Continues u where
  grows := h.outline_eq ▸ .refl _
  roles := h.roles ▸ List.prefix_rfl
  funcs _ x hx := .inr ⟨x.2, h.outline_eq ▸ hx⟩
  others := hother
  func := h.func
  entry := h.entry
  functions := h.functions
  heads := h.heads

theorem of_arena (harena : u.arena = s.arena) (hfunc : u.body.func = s.body.func)
    (hentry : u.body.entry = s.body.entry) (hfunctions : u.functions = s.functions)
    (hheads : s.heads <+: u.heads) : s.Continues u := by
  have hdraft : u.draft? = s.draft? := by
    funext b
    rw [draft?, harena]
    rfl
  have hout : u.outline = s.outline := by
    funext b
    rw [outline, hdraft]
    rfl
  exact
    { grows := hout ▸ .refl _
      roles := by rw [State.roles, State.roles, harena]
      funcs := fun _ x hx => .inr ⟨x.2, hout ▸ hx⟩
      others := fun _ _ hd _ => hdraft ▸ hd
      func := hfunc
      entry := hentry
      functions := hfunctions
      heads := hheads }

theorem refl (s : State) : s.Continues s := of_arena rfl rfl rfl rfl List.prefix_rfl

theorem moved (s : State) (b : Nat) : s.Continues (s.moved b) :=
  of_arena rfl rfl rfl rfl List.prefix_rfl

theorem grown (s : State) (role : IR.Role) : s.Continues (s.grown role) where
  grows := by
    rw [State.grown, outline_opened]
    exact Outline.grows_open (outline_eq_none s)
  roles := ⟨[role], (roles_grown s role).symm⟩
  funcs b x hx := by
    rw [State.grown, outline_opened] at hx
    by_cases hb : b = s.arena.length
    · subst hb
      rw [Function.update_self] at hx
      cases hx
      exact .inl rfl
    · rw [Function.update_of_ne hb] at hx
      exact .inr ⟨x.2, hx⟩
  others b d hd _ := by
    rw [State.grown, draft?_opened, if_neg (lt_of_draft? hd).ne, hd]
  func := rfl
  entry := rfl
  functions := rfl
  heads := List.prefix_rfl

theorem closed (hcur : s.outline s.body.cur = some (s.body.func, none)) (x : IR.Term) :
    s.Continues (s.closed x) where
  grows := by
    rw [outline_closed hcur]
    exact Outline.grows_update hcur
  roles := roles_closed s x ▸ List.prefix_rfl
  funcs b y hy := by
    rw [outline_closed hcur] at hy
    by_cases hb : b = s.body.cur
    · subst hb
      rw [Function.update_self] at hy
      cases hy
      exact .inr ⟨none, hcur⟩
    · rw [Function.update_of_ne hb] at hy
      exact .inr ⟨y.2, hy⟩
  others b d hd hne := by
    have hb : s.body.cur ≠ b := by
      rintro rfl
      obtain ⟨e, he, hfunc, -⟩ := outline_eq_some_iff.mp hcur
      rw [hd] at he
      cases he
      exact hne hfunc
    rw [draft?_closed, hd, Option.map_some, if_neg hb]
  func := rfl
  entry := rfl
  functions := rfl
  heads := List.prefix_rfl

theorem joined (hcur : ∃ x, s.outline s.body.cur = some (s.body.func, x)) (b : Nat) :
    s.Continues (s.joined b) := by
  unfold State.joined
  split
  · exact refl s
  · rename_i hdone
    obtain ⟨x, hx⟩ := hcur
    have hnone := (done_eq_false_iff_outline hx).mp (by simpa using hdone)
    exact closed (hnone ▸ hx) _

end Continues

namespace Mapped

theorem outline_cur (h : s.Mapped pending) (hopen : s.done = false) :
    s.outline s.body.cur = some (s.body.func, none) := by
  obtain ⟨x, hx⟩ := h.cur
  rw [hx, (done_eq_false_iff_outline hx).mp hopen]

theorem congr (h : s.Mapped pending) (harena : u.arena = s.arena) (hbody : u.body = s.body) :
    u.Mapped pending := by
  have hdraft : u.draft? = s.draft? := by
    funext b
    rw [draft?, harena]
    rfl
  have hout : u.outline = s.outline := by
    funext b
    rw [outline, hdraft]
    rfl
  exact
    { charted := hout ▸ h.charted
      empty := hdraft ▸ h.empty
      waits := by rw [hout, hbody]; exact h.waits
      opens := by rw [hout, hbody]; exact h.opens
      cur := by rw [hout, hbody]; exact h.cur
      entered := by rw [hbody]; exact h.entered
      entry := by rw [hout, hbody]; exact h.entry
      behind := by rw [hbody]; exact h.behind }

theorem lt_of_mem (h : s.Mapped pending) (hb : b ∈ pending) : b < s.arena.length := by
  by_contra hle
  have := h.waits b hb
  rw [outline_eq_none s b (by omega)] at this
  cases this

theorem straight (h : s.Mapped pending) (hopen : s.done = false) (hs : s.Straight u) :
    u.Mapped pending := by
  have hout := hs.outline_eq
  refine ⟨hout ▸ h.charted, fun b d hd hb => ?_, ?_, ?_, ?_, ?_, ?_, ?_⟩
  · obtain ⟨e, he, hfunc, hterm⟩ := hs.draft?_before hd
    have hempty : b ∈ pending ∨ e.term = some .unreachable := hterm ▸ hb
    by_cases hc : b = s.body.cur
    · subst hc
      rcases hempty with hp | hdead
      · exact absurd hp h.entered
      · obtain ⟨d', hd', -, hnone⟩ := outline_eq_some_iff.mp (h.outline_cur hopen)
        rw [he] at hd'
        cases hd'
        rw [hdead] at hnone
        cases hnone
    · by_cases he' : b = s.body.entry
      · subst he'
        rcases hempty with hp | hdead
        · exact absurd hp h.behind
        · obtain ⟨⟨x, hx⟩, -⟩ := id h.entry
          obtain ⟨d', hd', hfun, -⟩ := outline_eq_some_iff.mp hx
          rw [he] at hd'
          cases hd'
          exact absurd (outline_eq_some_iff.mpr ⟨e, he, hfun, hdead⟩) (h.charted.first _ _ h.entry)
      · rw [hs.other b hc he'] at hd
        exact h.empty b d hd (by
          rw [hd] at he
          cases he
          exact hempty)
  · rw [hout, hs.func]
    exact h.waits
  · rw [hout, hs.func, hs.cur]
    exact h.opens
  · rw [hout, hs.cur, hs.func]
    exact h.cur
  · rw [hs.cur]
    exact h.entered
  · rw [hout, hs.func, hs.entry]
    exact h.entry
  · rw [hs.entry]
    exact h.behind

/-- Straight code leaves the blocks of other functions as they are. -/
theorem continues_straight (h : s.Mapped pending) (hs : s.Straight u) : s.Continues u := by
  refine .straight hs fun b d hd hne => ?_
  have hown : ∀ c x, s.outline c = some (s.body.func, x) → b ≠ c := by
    rintro c x hx rfl
    obtain ⟨e, he, hfunc, -⟩ := outline_eq_some_iff.mp hx
    rw [hd] at he
    cases he
    exact hne hfunc
  obtain ⟨x, hx⟩ := h.cur
  obtain ⟨⟨y, hy⟩, -⟩ := h.entry
  rw [hs.other b (hown _ _ hx) (hown _ _ hy), hd]

theorem grown (h : s.Mapped pending) (role : IR.Role) :
    (s.grown role).Mapped (insert s.arena.length pending) := by
  have hout : (s.grown role).outline = _ := outline_opened s s.body.func role
  have hne : ∀ b x, s.outline b = some x → b ≠ s.arena.length := by
    rintro b x hb rfl
    rw [outline_eq_none s _ le_rfl] at hb
    cases hb
  obtain ⟨⟨e, he⟩, -⟩ := id h.entry
  obtain ⟨x, hx⟩ := h.cur
  refine ⟨?_, fun b d hd hb => ?_, fun b hb => ?_, fun b hb => ?_, ?_, ?_, ?_, ?_⟩
  · rw [hout]
    exact h.charted.open (outline_eq_none s) (fun b hbn hb hp => hb (.inr hp)) (.inl (.inl rfl))
  · rw [State.grown, draft?_opened] at hd
    split at hd
    · cases hd
      rfl
    · rename_i hbn
      exact h.empty b d hd (hb.imp_left fun hb => hb.resolve_left hbn)
  · rw [hout]
    rcases hb with rfl | hb
    · exact Function.update_self ..
    · rw [Function.update_of_ne (hne b _ (h.waits b hb))]
      exact h.waits b hb
  · by_cases hnew : b = s.arena.length
    · exact .inl (.inl hnew)
    · rw [hout, Function.update_of_ne hnew] at hb
      exact (h.opens b hb).imp_left .inr
  · exact ⟨x, by rw [hout]; exact (Function.update_of_ne (hne _ _ hx) ..).trans hx⟩
  · rintro (hb | hb)
    · exact hne _ _ hx hb
    · exact h.entered hb
  · rw [hout]
    exact Outline.first_open (outline_eq_none s) h.entry
  · rintro (hb | hb)
    · exact hne _ _ he hb
    · exact h.behind hb

/-- The current block branches to pending blocks and to such as are not marked. -/
theorem closed (h : s.Mapped pending) (hopen : s.done = false) {x : IR.Term}
    (hx : x ≠ .unreachable)
    (htargets : ∀ c ∈ targets x, ∃ t, s.outline c = some (s.body.func, t) ∧
      t ≠ some .unreachable) : (s.closed x).Mapped pending := by
  have hcur := h.outline_cur hopen
  have hout := outline_closed hcur x
  refine ⟨?_, fun b d hd hb => ?_, fun b hb => ?_, fun b hb => ?_, ?_, h.entered, ?_, h.behind⟩
  · rw [hout]
    exact h.charted.close hcur hx htargets
  · rw [draft?_closed, Option.map_eq_some_iff] at hd
    obtain ⟨e, he, rfl⟩ := hd
    split at hb
    · rename_i heq
      subst heq
      rcases hb with hb | hb
      · exact absurd hb h.entered
      · cases hb
        exact absurd rfl hx
    · rw [if_neg (by assumption)]
      exact h.empty b e he hb
  · have hne : b ≠ s.body.cur := fun heq => h.entered (heq ▸ hb)
    rw [hout, Function.update_of_ne hne]
    exact h.waits b hb
  · by_cases hne : b = s.body.cur
    · exact .inr hne
    · rw [hout, Function.update_of_ne hne] at hb
      exact h.opens b hb
  · exact ⟨some x, by rw [hout]; exact Function.update_self ..⟩
  · rw [hout]
    exact (Outline.first_update hcur).mpr h.entry

theorem joined (h : s.Mapped pending)
    (hb : ∃ t, s.outline b = some (s.body.func, t) ∧ t ≠ some .unreachable) :
    (s.joined b).Mapped pending := by
  unfold State.joined
  split
  · exact h
  · rename_i hdone
    refine h.closed (by simpa using hdone) (by simp) fun c hc => ?_
    cases List.mem_singleton.mp hc
    exact hb

theorem joined_pending (h : s.Mapped pending) (hb : b ∈ pending) : (s.joined b).Mapped pending :=
  h.joined ⟨none, h.waits b hb, by simp⟩

/-- Where the current block is terminated, all open blocks are pending. -/
theorem pending_of_done (h : s.Mapped pending) (hdone : s.done = true)
    (hb : s.outline b = some (s.body.func, none)) : b ∈ pending := by
  refine (h.opens b hb).resolve_right ?_
  rintro rfl
  rw [(done_eq_false_iff_outline hb).mpr rfl] at hdone
  cases hdone

/-- A pending block to which a branch leads is entered. -/
theorem moved (h : s.Mapped (insert b pending)) (hdone : s.done = true) (hb : b ∉ pending) {a : Nat}
    (hab : s.outline.Leads a b) : (s.moved b).Mapped pending := by
  have ha : a ∉ insert b pending := by
    intro hmem
    obtain ⟨f, t, ht, -⟩ := hab
    rw [h.waits a hmem] at ht
    cases ht
  exact
    { charted := h.charted.reached hab ha
      empty := fun c d hd hc => h.empty c d hd (hc.imp_left .inr)
      waits := fun c hc => h.waits c (.inr hc)
      opens := fun c hc => (h.pending_of_done hdone hc).symm
      cur := ⟨none, h.waits b (.inl rfl)⟩
      entered := hb
      entry := h.entry
      behind := fun hc => h.behind (.inr hc) }

/-- A pending block is entered, and is marked if no branch leads to it. -/
theorem sealed (h : s.Mapped (insert b pending)) (hdone : s.done = true) (hb : b ∉ pending) :
    (s.moved b).sealed.Mapped pending ∧ s.Continues (s.moved b).sealed := by
  have hcur : (s.moved b).outline (s.moved b).body.cur = some (s.body.func, none) :=
    h.waits b (.inl rfl)
  unfold State.sealed
  split
  · rename_i hzero
    have hnone := entering_eq_zero_iff.mp hzero
    have hfirst : ¬ s.outline.First s.body.func b := fun hf =>
      h.behind (.inl (Outline.First.unique h.entry hf))
    have hout := outline_closed hcur .unreachable
    refine ⟨⟨?_, fun c d hd hc => ?_, fun c hc => ?_, fun c hc => ?_, ?_, hb, ?_,
      fun hc => h.behind (.inr hc)⟩,
      (Continues.moved s b).trans (.closed hcur _)⟩
    · rw [hout]
      exact h.charted.mark hcur hnone hfirst
    · rw [draft?_closed, Option.map_eq_some_iff] at hd
      obtain ⟨e, he, rfl⟩ := hd
      split
      · rename_i heq
        exact h.empty c e he (.inl (.inl heq.symm))
      · rename_i hne
        rw [if_neg hne] at hc
        exact h.empty c e he (hc.imp_left .inr)
    · have hne : c ≠ (s.moved b).body.cur := by
        rintro rfl
        exact hb hc
      rw [hout, Function.update_of_ne hne]
      exact h.waits c (.inr hc)
    · by_cases hne : c = (s.moved b).body.cur
      · exact .inr hne
      · rw [hout, Function.update_of_ne hne] at hc
        exact .inl ((h.pending_of_done hdone hc).resolve_left hne)
    · exact ⟨some .unreachable, by rw [hout]; exact Function.update_self ..⟩
    · rw [hout]
      exact (Outline.first_update hcur).mpr h.entry
  · rename_i hpos
    rw [entering_eq_zero_iff] at hpos
    push Not at hpos
    obtain ⟨a, ha⟩ := hpos
    exact ⟨h.moved hdone hb ha, .moved s b⟩

end Mapped

end State

end Lowering

end Augite
