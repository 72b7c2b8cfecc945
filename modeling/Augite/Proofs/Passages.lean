import Augite.Proofs.LoweringBlocks
import Augite.Proofs.Outlines

/-!
# Passages of lowering

What lowering of a statement does to the blocks. Nothing is assumed here of types: what is
lowered at all is charted statement by statement. Behind a statement the current block is
terminated exactly if the statement returns, and no branch is made to a block that was there
before. One rule for each kind of conditional or loop puts the passages of its parts together,
and says how many branches lead to the block behind it.
-/

namespace Augite

namespace Lowering

namespace State

variable {s t u : State} {P : Set Nat} {b : Nat}

/-! ### Steps of statements -/

/-- From one state lowering has come to the other with the invariant kept. -/
structure Onward (P : Set Nat) (s u : State) : Prop where
  mapped : u.Mapped P
  continues : s.Continues u

/-- The same, and the current block is open. -/
structure Ahead (P : Set Nat) (s u : State) : Prop extends Onward P s u where
  isOpen : u.done = false

theorem Onward.trans {P' : Set Nat} (h : Onward P' s t) (k : Onward P t u) :
    Onward P s u :=
  ⟨k.mapped, h.continues.trans k.continues⟩

theorem Onward.congr (h : Onward P s t) (harena : u.arena = t.arena) (hbody : u.body = t.body)
    (hfunctions : u.functions = t.functions) (hheads : u.heads = t.heads) : Onward P s u :=
  ⟨h.mapped.congr harena hbody, h.continues.trans (.of_arena harena (congrArg _ hbody)
    (congrArg _ hbody) hfunctions (hheads ▸ List.prefix_rfl))⟩

theorem Continues.outline (h : s.Continues u) {x : IR.Term}
    (hb : s.outline b = some (s.body.func, some x)) : u.outline b = some (u.body.func, some x) := by
  obtain ⟨t, ht, hx⟩ := h.grows b _ _ hb
  rw [h.func, ht, hx (by simp)]

/-- What has blocks now had some before. -/
theorem Onward.owned (h : Onward P s u) (hs : s.Mapped P) {f : Nat} {x : Option IR.Term}
    (hx : u.outline b = some (f, x)) : ∃ c y, s.outline c = some (f, y) := by
  rcases h.continues.funcs b _ hx with hfunc | ⟨y, hy⟩
  · obtain ⟨y, hy⟩ := hs.cur
    exact ⟨s.body.cur, y, hy.trans (by rw [← hfunc])⟩
  · exact ⟨b, y, hy⟩

namespace Mapped

theorem not_mem_of_le (h : s.Mapped P) (hb : s.arena.length ≤ b) : b ∉ P :=
  fun hmem => absurd (h.lt_of_mem hmem) (by omega)

theorem not_mem_insert (h : s.Mapped P) (hb : s.arena.length ≤ b) {c : Nat} (hne : b ≠ c) :
    b ∉ insert c P := by
  rintro (heq | hmem)
  · exact hne heq
  · exact h.not_mem_of_le hb hmem

theorem onward (h : s.Mapped P) : Onward P s s := ⟨h, .refl s⟩

theorem ahead (h : s.Mapped P) (hopen : s.done = false) : Ahead P s s :=
  ⟨h.onward, hopen⟩

/-- A pending block is open when it is entered. -/
theorem done_moved (h : s.Mapped P) (hb : b ∈ P) : (s.moved b).done = false :=
  (done_eq_false_iff_outline (s := s.moved b) (h.waits b hb)).mpr rfl

theorem returned (h : s.Mapped P) (hopen : s.done = false) (v : Option IR.Value) :
    Onward P s (s.closed (.ret v)) :=
  ⟨h.closed hopen (by simp) (by simp [targets]), .closed (h.outline_cur hopen) _⟩

theorem onward_moved (h : Onward (insert b P) s u) (hdone : u.done = true) (hb : b ∉ P) {a : Nat}
    (hab : s.outline.Leads a b) : Onward P s (u.moved b) :=
  ⟨h.mapped.moved hdone hb (h.continues.grows.leads hab), h.continues.trans (.moved u b)⟩

theorem done_joined (h : s.Mapped P) (b : Nat) : (s.joined b).done = true := by
  obtain ⟨x, hx⟩ := h.cur
  exact State.done_joined hx b

/-- Behind the arms of a conditional control goes on, if it comes there. -/
theorem joined_sealed (h : s.Mapped (insert b P)) (hb : b ∉ P) :
    Onward P s ((s.joined b).moved b).sealed := by
  obtain ⟨hm, hc⟩ := (h.joined_pending (.inl rfl)).sealed (h.done_joined b) hb
  exact ⟨hm, (Continues.joined h.cur b).trans hc⟩

/-- Behind the body of a loop control goes back to the test, and on where the test leads. -/
theorem loopEnd (h : s.Mapped (insert b P)) (hb : b ∉ P) {test body : Nat}
    {v : IR.Value} (htest : s.outline test = some (s.body.func, some (.condBr v body b))) :
    Onward P s ((s.joined test).moved b) := by
  have hjoined : Onward (insert b P) s (s.joined test) :=
    ⟨h.joined ⟨_, htest, by simp⟩, .joined h.cur test⟩
  exact onward_moved hjoined (h.done_joined test) hb
    ⟨_, _, htest, List.mem_cons_of_mem _ (List.mem_singleton.mpr rfl)⟩

end Mapped

namespace Ahead

theorem straight (h : Ahead P s t) (ht : t.Straight u) : Ahead P s u :=
  ⟨⟨h.mapped.straight h.isOpen ht, h.continues.trans (h.mapped.continues_straight ht)⟩,
    ht.done.trans h.isOpen⟩

theorem grown (h : Ahead P s t) (role : IR.Role) :
    Ahead (insert t.arena.length P) s (t.grown role) := by
  refine ⟨⟨h.mapped.grown role, h.continues.trans (.grown t role)⟩, ?_⟩
  have hcur := h.mapped.outline_cur h.isOpen
  have hne : t.body.cur ≠ t.arena.length := by
    intro heq
    rw [heq, outline_eq_none t _ le_rfl] at hcur
    cases hcur
  refine (done_eq_false_iff_outline (f := t.body.func) ?_).mpr rfl
  rw [State.grown, outline_opened]
  exact (Function.update_of_ne hne ..).trans hcur

/-- Control goes on to a pending block, which is entered. -/
theorem enter (h : Ahead (insert b P) s t) (hb : b ∉ P) :
    Ahead P s ((t.joined b).moved b) := by
  have hcur := h.mapped.outline_cur h.isOpen
  have hjoined : t.joined b = t.closed (.br b) := by
    unfold State.joined
    rw [h.isOpen]
    rfl
  have hm := h.mapped.joined_pending (.inl rfl)
  have hlead : (t.joined b).outline.Leads t.body.cur b := by
    rw [hjoined, outline_closed hcur]
    exact ⟨t.body.func, .br b, Function.update_self .., List.mem_singleton.mpr rfl⟩
  have hc := (Continues.joined ⟨none, hcur⟩ b).trans (.moved _ b)
  refine ⟨⟨hm.moved (h.mapped.done_joined b) hb hlead, h.continues.trans hc⟩, ?_⟩
  exact (done_eq_false_iff_outline (s := (t.joined b).moved b) (hm.waits b (.inl rfl))).mpr rfl

/-- A test leads to two pending blocks, the first of which is entered. -/
theorem loopBody {yes no : Nat} (h : Ahead (insert yes (insert no P)) s t) (v : IR.Value)
    (hyes : yes ∉ insert no P) :
    Ahead (insert no P) s (t.loopBody v yes no) ∧
      (t.loopBody v yes no).outline t.body.cur =
        some ((t.loopBody v yes no).body.func, some (.condBr v yes no)) := by
  have hcur := h.mapped.outline_cur h.isOpen
  have hclosed : (t.closed (.condBr v yes no)).Mapped (insert yes (insert no P)) := by
    refine h.mapped.closed h.isOpen (by simp) fun c hc => ⟨none, h.mapped.waits c ?_, by simp⟩
    rcases List.mem_cons.mp hc with rfl | hc
    · exact .inl rfl
    · exact .inr (.inl (List.mem_singleton.mp hc))
  have hout : (t.closed (.condBr v yes no)).outline t.body.cur =
      some (t.body.func, some (.condBr v yes no)) := by
    rw [outline_closed hcur]
    exact Function.update_self ..
  have hlead : (t.closed (.condBr v yes no)).outline.Leads t.body.cur yes :=
    ⟨t.body.func, _, hout, List.mem_cons_self⟩
  exact ⟨⟨⟨hclosed.moved (done_closed_of_outline hcur _) hyes hlead,
    h.continues.trans ((Continues.closed hcur _).trans (.moved _ _))⟩,
    hclosed.done_moved (.inl rfl)⟩, hout⟩

theorem reorder {P' : Set Nat} (h : Ahead P s u) (heq : P = P') :
    Ahead P' s u :=
  heq ▸ h

theorem self (h : Ahead P s t) : Ahead P t t := h.mapped.ahead h.isOpen

theorem entered (h : Ahead P s t) : Ahead P t.entered t.entered :=
  Mapped.ahead (h.mapped.congr rfl rfl) h.isOpen

/-- The blocks of a conditional are opened and its first arm is entered. -/
theorem ifStart (h : Ahead P s t) (v : IR.Value) :
    Ahead (insert (t.arena.length + 1) P) s (t.ifStart v) := by
  have h₂ := (h.grown .ifThen).grown .ifEnd
  simp only [length_grown] at h₂
  exact ((h₂.reorder (Set.insert_comm ..)).loopBody v
    (h.mapped.not_mem_insert le_rfl (by omega))).1

theorem ifElseStart (h : Ahead P s t) (v : IR.Value) :
    Ahead (insert (t.arena.length + 2) (insert (t.arena.length + 1) P)) s
        (t.ifElseStart v) ∧
      (t.ifElseStart v).outline.Leads t.body.cur (t.arena.length + 2) := by
  have h₃ := ((h.grown .ifThen).grown .ifEnd).grown .ifElse
  simp only [length_grown] at h₃
  have hset : insert (t.arena.length + 1 + 1)
      (insert (t.arena.length + 1) (insert t.arena.length P)) =
      insert t.arena.length (insert (t.arena.length + 2) (insert (t.arena.length + 1) P)) := by
    ext b
    simp only [Set.mem_insert_iff]
    tauto
  obtain ⟨hon, hout⟩ := (h₃.reorder hset).loopBody v (by
    rintro (heq | heq | hmem)
    · omega
    · omega
    · exact h.mapped.not_mem_of_le le_rfl hmem)
  exact ⟨hon, _, _, hout, List.mem_cons_of_mem _ (List.mem_singleton.mpr rfl)⟩

/-- Behind its first arm the second arm of a conditional is entered. -/
theorem secondArm (h : Ahead P s t) {v : IR.Value}
    (hyes : Onward (insert (t.arena.length + 2) (insert (t.arena.length + 1) P))
      (t.ifElseStart v) u) :
    Ahead (insert (t.arena.length + 1) P) (t.ifElseStart v)
      ((u.joined (t.arena.length + 1)).moved (t.arena.length + 2)) := by
  have hjoined := hyes.mapped.joined_pending (.inr (.inl rfl))
  -- The branch to the second arm is still there behind the first one.
  exact ⟨Mapped.onward_moved ⟨hjoined, hyes.continues.trans (.joined hyes.mapped.cur _)⟩
    (hyes.mapped.done_joined _) (h.mapped.not_mem_insert (by omega) (by omega)) (h.ifElseStart v).2,
    hjoined.done_moved (.inl rfl)⟩

theorem whileStart (h : Ahead P s t) :
    Ahead (insert (t.arena.length + 1) (insert (t.arena.length + 2) P)) s t.whileStart := by
  have h₃ := ((h.grown .whileCond).grown .whileBody).grown .whileEnd
  simp only [length_grown] at h₃
  have hset : insert (t.arena.length + 1 + 1)
      (insert (t.arena.length + 1) (insert t.arena.length P)) =
      insert t.arena.length (insert (t.arena.length + 1) (insert (t.arena.length + 2) P)) := by
    ext b
    simp only [Set.mem_insert_iff]
    tauto
  refine (h₃.reorder hset).enter ?_
  rintro (heq | heq | hmem)
  · omega
  · omega
  · exact h.mapped.not_mem_of_le le_rfl hmem

/-- The test of a loop leads to its body or behind the loop. -/
theorem whileBody (h : Ahead P s s) (ht : s.whileStart.Straight t) (v : IR.Value) :
    Ahead (insert (s.arena.length + 2) P) s
        (t.loopBody v (s.arena.length + 1) (s.arena.length + 2)) ∧
      (t.loopBody v (s.arena.length + 1) (s.arena.length + 2)).outline s.arena.length =
        some ((t.loopBody v (s.arena.length + 1) (s.arena.length + 2)).body.func,
          some (.condBr v (s.arena.length + 1) (s.arena.length + 2))) := by
  have hbody := (h.whileStart.straight ht).loopBody v (h.mapped.not_mem_insert (by omega) (by omega))
  rwa [ht.cur] at hbody

theorem forStart (h : Ahead P s t) :
    Ahead (insert (t.arena.length + 1) (insert (t.arena.length + 3)
      (insert (t.arena.length + 2) P))) s t.forStart := by
  have h₄ := (((h.grown .forCond).grown .forBody).grown .forStep).grown .forEnd
  simp only [length_grown] at h₄
  have hset : insert (t.arena.length + 1 + 1 + 1) (insert (t.arena.length + 1 + 1)
      (insert (t.arena.length + 1) (insert t.arena.length P))) =
      insert t.arena.length (insert (t.arena.length + 1) (insert (t.arena.length + 3)
        (insert (t.arena.length + 2) P))) := by
    ext b
    simp only [Set.mem_insert_iff]
    tauto
  refine (h₄.reorder hset).enter ?_
  rintro (heq | heq | heq | hmem)
  · omega
  · omega
  · omega
  · exact h.mapped.not_mem_of_le le_rfl hmem

theorem forBody (h : Ahead P s s) (ht : s.forStart.Straight t) (v : IR.Value) :
    Ahead (insert (s.arena.length + 3) (insert (s.arena.length + 2) P)) s
        (t.loopBody v (s.arena.length + 1) (s.arena.length + 3)) ∧
      (t.loopBody v (s.arena.length + 1) (s.arena.length + 3)).outline s.arena.length =
        some ((t.loopBody v (s.arena.length + 1) (s.arena.length + 3)).body.func,
          some (.condBr v (s.arena.length + 1) (s.arena.length + 3))) := by
  have hbody := (h.forStart.straight ht).loopBody v (by
    rintro (heq | hmem)
    · omega
    · exact h.mapped.not_mem_insert (by omega) (by omega) hmem)
  rwa [ht.cur] at hbody

end Ahead

/-! ### Branches to a block -/

theorem Straight.terms_eq (h : s.Straight u) : u.terms = s.terms := by
  refine List.ext_getElem? fun b => ?_
  have key : ∀ s : State, s.terms[b]? = ((s.draft? b).map Draft.outline).map Prod.snd := by
    intro s
    simp only [terms, List.getElem?_map, Option.map_map]
    rfl
  rw [key, key, h.outline]

theorem Straight.entering (h : s.Straight u) (b : Nat) : u.entering b = s.entering b :=
  entering_congr h.terms_eq b

theorem Continues.length_le (h : s.Continues u) : s.arena.length ≤ u.arena.length := by
  by_contra hlt
  have hb : u.arena.length < s.arena.length := by omega
  obtain ⟨x, hx, -⟩ := h.grows u.arena.length _ _
    (outline_eq_some_iff.mpr ⟨s.arena.get ⟨_, hb⟩, List.getElem?_eq_getElem hb, rfl, rfl⟩)
  rw [outline_eq_none u _ le_rfl] at hx
  cases hx

namespace Mapped

theorem isOpen_cur (h : s.Mapped P) (hopen : s.done = false) : s.IsOpen s.body.cur := by
  obtain ⟨d, hd, -, hterm⟩ := outline_eq_some_iff.mp (h.outline_cur hopen)
  exact isOpen_iff.mpr ⟨d, hd, hterm⟩

/-- No branch leads to a block that is not there. -/
theorem entering_new (h : s.Mapped P) (hb : s.arena.length ≤ b) : s.entering b = 0 := by
  refine entering_eq_zero_iff.mpr fun a hab => ?_
  obtain ⟨f, x, y, -, hget, -⟩ := h.charted.edges a b hab
  rw [outline_eq_none s b hb] at hget
  cases hget

theorem outline_sealed (h : s.Mapped (insert b P)) :
    ((s.joined b).moved b).outline ((s.joined b).moved b).body.cur =
      some ((s.joined b).body.func, none) :=
  (h.joined_pending (.inl rfl)).waits b (.inl rfl)

theorem entering_sealed (h : s.Mapped (insert b P)) (c : Nat) :
    ((s.joined b).moved b).sealed.entering c =
      s.entering c + if s.done = false ∧ c = b then 1 else 0 := by
  rw [← entering_joined h.isOpen_cur b c]
  unfold State.sealed
  split
  · obtain ⟨d, hd, -, hterm⟩ := outline_eq_some_iff.mp h.outline_sealed
    exact entering_closed (isOpen_iff.mpr ⟨d, hd, hterm⟩) .unreachable c
  · rfl

/-- The block behind a conditional is terminated exactly if no branch leads to it. -/
theorem done_sealed (h : s.Mapped (insert b P)) :
    ((s.joined b).moved b).sealed.done = decide (((s.joined b).moved b).sealed.entering b = 0) := by
  rw [h.entering_sealed, ← entering_joined h.isOpen_cur b b]
  unfold State.sealed
  split
  · rename_i hzero
    exact (done_closed_of_outline h.outline_sealed _).trans (decide_eq_true hzero).symm
  · rename_i hpos
    exact ((h.joined_pending (.inl rfl)).done_moved (.inl rfl)).trans (decide_eq_false hpos).symm

end Mapped

/-! ### Passages -/

/-- From one state lowering has come to the other with the invariant kept. The current block is
terminated if the flag says so, and no branch has been made to a block that was there. -/
structure Passage (P : Set Nat) (s u : State) (d : Bool) : Prop extends Onward P s u where
  done : u.done = d
  entering : ∀ b < s.arena.length, u.entering b = s.entering b

section

variable {d d' : Bool} {v : IR.Value}

theorem Passage.trans {P' : Set Nat} (h : Passage P' s t d')
    (k : Passage P t u d) : Passage P s u d :=
  ⟨h.toOnward.trans k.toOnward, k.done, fun b hb =>
    (k.entering b (hb.trans_le h.continues.length_le)).trans (h.entering b hb)⟩

/-- Statements in a scope of their own. -/
theorem Passage.scoped (h : Passage P s.entered u d) : Passage P s u.left d := by
  have hentered : s.Continues s.entered := .of_arena rfl rfl rfl rfl List.prefix_rfl
  have hleft : u.Continues u.left := .of_arena rfl rfl rfl rfl List.prefix_rfl
  exact ⟨⟨h.mapped.congr rfl rfl, hentered.trans (h.continues.trans hleft)⟩, h.done, h.entering⟩

theorem Passage.congr (h : Passage P s t d) (harena : u.arena = t.arena) (hbody : u.body = t.body)
    (hfunctions : u.functions = t.functions) (hheads : u.heads = t.heads) : Passage P s u d := by
  refine ⟨h.toOnward.congr harena hbody hfunctions hheads, ?_, fun b hb => ?_⟩
  · rw [← h.done, State.done, State.done, draft?, draft?, harena, hbody]
  · rw [← h.entering b hb, entering_eq, entering_eq, harena]

theorem Passage.ahead (h : Passage P s u false) : Ahead P u u := h.mapped.ahead h.done

/-- From one state lowering has come through a conditional or a loop to the block behind it, which
is new and empty. -/
structure Merge (P : Set Nat) (s u : State) (b : Nat) (role : IR.Role) (d : Bool) (k : Nat) :
    Prop extends Passage P s u d where
  cur : u.body.cur = b
  fresh : s.arena.length ≤ b
  role : u.roles[b]? = some role
  empty : ∃ x, u.draft? b = some x ∧ x.func = u.body.func ∧ x.insts = []
  count : u.entering b = k

/-- The block holds the test of a loop, which leads behind the loop to another block. -/
def Tests (s : State) (c : Nat) (role : IR.Role) (b : Nat) : Prop :=
  s.roles[c]? = some role ∧ ∃ v body, s.outline c = some (s.body.func, some (.condBr v body b))

theorem roles_loopBody (s : State) (v : IR.Value) (yes no : Nat) :
    (s.loopBody v yes no).roles = s.roles :=
  roles_closed s _

theorem roles_joined (s : State) (b : Nat) : (s.joined b).roles = s.roles := by
  unfold State.joined
  split
  · rfl
  · exact roles_closed s _

/-- The role of the last but some blocks. -/
theorem getElem?_roles {rs : List IR.Role} (h : s.roles ++ rs <+: u.roles) {k : Nat}
    (hk : k < rs.length) : u.roles[s.arena.length + k]? = rs[k]? := by
  have hlen : s.roles.length = s.arena.length := List.length_map ..
  obtain ⟨rest, hrest⟩ := h
  rw [← hrest, List.append_assoc, ← hlen, List.getElem?_append_right (Nat.le_add_right ..),
    Nat.add_sub_cancel_left, List.getElem?_append_left hk]

theorem Mapped.exists_empty (h : s.Mapped P) (hb : b ∈ P) :
    ∃ x, s.draft? b = some x ∧ x.func = s.body.func ∧ x.insts = [] := by
  obtain ⟨x, hx, hfunc, -⟩ := outline_eq_some_iff.mp (h.waits b hb)
  exact ⟨x, hx, hfunc, h.empty b x hx (.inl hb)⟩

theorem Mapped.empty_sealed (h : s.Mapped (insert b P)) :
    ∃ x, ((s.joined b).moved b).sealed.draft? b = some x ∧
      x.func = ((s.joined b).moved b).sealed.body.func ∧ x.insts = [] := by
  obtain ⟨x, hx, hfunc, hempty⟩ := (h.joined_pending (.inl rfl)).exists_empty (.inl rfl)
  unfold State.sealed
  split
  · refine ⟨{ x with term := some .unreachable }, ?_, hfunc, hempty⟩
    have hx' : ((s.joined b).moved b).draft? b = some x := hx
    rw [draft?_closed, hx', Option.map_some]
    exact congrArg some (if_pos rfl)
  · exact ⟨x, hx, hfunc, hempty⟩

theorem cur_sealed (s : State) : s.sealed.body.cur = s.body.cur := by
  unfold State.sealed
  split <;> rfl

namespace Ahead

theorem refl (h : Ahead P s s) : Passage P s s false :=
  ⟨h.toOnward, h.isOpen, fun _ _ => rfl⟩

theorem along (h : Ahead P s s) (ht : s.Straight t) : Passage P s t false :=
  ⟨(h.straight ht).toOnward, (h.straight ht).isOpen, fun b _ => ht.entering b⟩

theorem returned (h : Ahead P s s) (v : Option IR.Value) :
    Passage P s (s.closed (.ret v)) true :=
  ⟨h.mapped.returned h.isOpen v, done_closed_of_outline (h.mapped.outline_cur h.isOpen) _,
    fun b _ => entering_closed (h.mapped.isOpen_cur h.isOpen) (.ret v) b⟩

theorem entering_loopBody (h : Ahead P s t) (v : IR.Value) (yes no b : Nat) :
    (t.loopBody v yes no).entering b =
      t.entering b + ((if b = yes then 1 else 0) + if b = no then 1 else 0) := by
  refine (entering_closed (h.mapped.isOpen_cur h.isOpen) (.condBr v yes no) b).trans ?_
  rw [targets, List.count_cons, List.count_cons, List.count_nil]
  grind

theorem entering_ifStart (h : Ahead P s s) (v : IR.Value) (b : Nat) : (s.ifStart v).entering b =
    s.entering b + ((if b = s.arena.length then 1 else 0) +
      if b = s.arena.length + 1 then 1 else 0) := by
  have hblocks := ((h.grown .ifThen).grown .ifEnd).entering_loopBody v s.arena.length
    (s.arena.length + 1) b
  rwa [entering_grown, entering_grown] at hblocks

theorem entering_ifElseStart (h : Ahead P s s) (v : IR.Value) (b : Nat) :
    (s.ifElseStart v).entering b = s.entering b + ((if b = s.arena.length then 1 else 0) +
      if b = s.arena.length + 2 then 1 else 0) := by
  have hblocks := (((h.grown .ifThen).grown .ifEnd).grown .ifElse).entering_loopBody v
    s.arena.length (s.arena.length + 2) b
  rwa [entering_grown, entering_grown, entering_grown] at hblocks

theorem entering_whileStart (h : Ahead P s s) (b : Nat) :
    s.whileStart.entering b = s.entering b + if b = s.arena.length then 1 else 0 := by
  have hblocks := ((h.grown .whileCond).grown .whileBody).grown .whileEnd
  have hjoined := entering_joined hblocks.mapped.isOpen_cur s.arena.length b
  simp only [entering_grown, hblocks.isOpen, true_and] at hjoined
  exact hjoined

theorem entering_forStart (h : Ahead P s s) (b : Nat) :
    s.forStart.entering b = s.entering b + if b = s.arena.length then 1 else 0 := by
  have hblocks := (((h.grown .forCond).grown .forBody).grown .forStep).grown .forEnd
  have hjoined := entering_joined hblocks.mapped.isOpen_cur s.arena.length b
  simp only [entering_grown, hblocks.isOpen, true_and] at hjoined
  exact hjoined

/-- A conditional with one arm. -/
theorem branch (h : Ahead P s s)
    (harm : Passage (insert (s.arena.length + 1) P) (s.ifStart v) t d) :
    Merge P s ((t.joined (s.arena.length + 1)).moved (s.arena.length + 1)).sealed
      (s.arena.length + 1) .ifEnd false (if d then 1 else 2) := by
  have hstart := h.ifStart v
  have hend := harm.mapped.joined_sealed (h.mapped.not_mem_of_le (Nat.le_succ _))
  have hlen : (s.ifStart v).arena.length = s.arena.length + 2 := by
    simp [State.ifStart, State.moved, State.closed]
  have hcount (b : Nat) (hb : b < s.arena.length + 2) :=
    (harm.mapped.entering_sealed b).trans (congrArg (· + _) (harm.entering b (hlen ▸ hb)))
  simp only [harm.done, h.entering_ifStart] at hcount
  have hmerge : ((t.joined (s.arena.length + 1)).moved (s.arena.length + 1)).sealed.entering
      (s.arena.length + 1) = if d then 1 else 2 := by
    rw [hcount _ (by omega), h.mapped.entering_new (Nat.le_succ _)]
    cases d <;> simp
  have hroles : (s.ifStart v).roles = s.roles ++ [.ifThen, .ifEnd] := by
    refine (roles_closed _ _).trans ?_
    rw [roles_grown, roles_grown, List.append_assoc]
    rfl
  refine ⟨⟨hstart.toOnward.trans (harm.toOnward.trans hend), ?_, fun b hb => ?_⟩, cur_sealed _,
    Nat.le_succ _, getElem?_roles (hroles ▸ (harm.continues.trans hend.continues).roles)
      Nat.one_lt_two, harm.mapped.empty_sealed, hmerge⟩
  · rw [harm.mapped.done_sealed, hmerge]
    cases d <;> rfl
  · rw [hcount b (by omega)]
    split_ifs <;> omega

/-- A conditional with two arms. -/
theorem branchElse (h : Ahead P s s)
    (hyes : Passage (insert (s.arena.length + 2) (insert (s.arena.length + 1) P))
      (s.ifElseStart v) t d)
    (hno : Passage (insert (s.arena.length + 1) P)
      ((t.joined (s.arena.length + 1)).moved (s.arena.length + 2)) u d') :
    Merge P s ((u.joined (s.arena.length + 1)).moved (s.arena.length + 1)).sealed
      (s.arena.length + 1) .ifEnd (d && d') ((if d then 0 else 1) + if d' then 0 else 1) := by
  obtain ⟨hstart, -⟩ := h.ifElseStart v
  have hsecond := h.secondArm hyes.toOnward
  have hend := hno.mapped.joined_sealed (h.mapped.not_mem_of_le (Nat.le_succ _))
  have hlen : (s.ifElseStart v).arena.length = s.arena.length + 3 := by
    simp [State.ifElseStart, State.moved, State.closed]
  have hlen' := hsecond.continues.length_le
  have hmiddle (b : Nat) : ((t.joined (s.arena.length + 1)).moved (s.arena.length + 2)).entering b =
      t.entering b + if t.done = false ∧ b = s.arena.length + 1 then 1 else 0 :=
    entering_joined hyes.mapped.isOpen_cur _ b
  have hcount (b : Nat) (hb : b < s.arena.length + 3) :=
    (hno.mapped.entering_sealed b).trans (congrArg (· + _) (hno.entering b (by omega)))
  simp only [hno.done, hmiddle, hyes.done] at hcount
  have hmerge : ((u.joined (s.arena.length + 1)).moved (s.arena.length + 1)).sealed.entering
      (s.arena.length + 1) = (if d then 0 else 1) + if d' then 0 else 1 := by
    rw [hcount _ (by omega), hyes.entering _ (by omega), h.entering_ifElseStart,
      h.mapped.entering_new (Nat.le_succ _)]
    cases d <;> cases d' <;> simp
  have hroles : (s.ifElseStart v).roles = s.roles ++ [.ifThen, .ifEnd, .ifElse] := by
    refine (roles_closed _ _).trans ?_
    rw [roles_grown, roles_grown, roles_grown, List.append_assoc, List.append_assoc]
    rfl
  have hon := hsecond.toOnward.trans (hno.toOnward.trans hend)
  refine ⟨⟨hstart.toOnward.trans hon, ?_, fun b hb => ?_⟩, cur_sealed _, Nat.le_succ _,
    getElem?_roles (hroles ▸ hon.continues.roles) (by decide), hno.mapped.empty_sealed, hmerge⟩
  · rw [hno.mapped.done_sealed, hmerge]
    cases d <;> cases d' <;> rfl
  · rw [hcount b (by omega), hyes.entering b (by omega), h.entering_ifElseStart]
    split_ifs <;> omega

/-- A loop. -/
theorem whileLoop (h : Ahead P s s) (ht : s.whileStart.Straight t)
    (hbody : Passage (insert (s.arena.length + 2) P)
      (t.loopBody v (s.arena.length + 1) (s.arena.length + 2)) u d) :
    Merge P s ((u.joined s.arena.length).moved (s.arena.length + 2)) (s.arena.length + 2)
        .whileEnd false 1 ∧
      ((u.joined s.arena.length).moved (s.arena.length + 2)).Tests s.arena.length .whileCond
        (s.arena.length + 2) := by
  obtain ⟨hloop, hout⟩ := h.whileBody ht v
  have htest := hbody.continues.outline hout
  have hback : (u.joined s.arena.length).Mapped (insert (s.arena.length + 2) P) :=
    hbody.mapped.joined ⟨_, htest, by simp⟩
  have hend := hbody.mapped.loopEnd (h.mapped.not_mem_of_le (by omega)) htest
  have hlen := hloop.mapped.lt_of_mem (.inl rfl)
  have hcount (b : Nat) (hb : b < s.arena.length + 3) :=
    (entering_joined hbody.mapped.isOpen_cur s.arena.length b).trans
      (congrArg (· + _) (hbody.entering b (by omega)))
  simp only [(h.whileStart.straight ht).entering_loopBody, ht.entering, h.entering_whileStart]
    at hcount
  have hroles : s.roles ++ [.whileCond, .whileBody, .whileEnd] <+:
      ((u.joined s.arena.length).moved (s.arena.length + 2)).roles := by
    refine List.IsPrefix.trans ?_ (hbody.continues.trans hend.continues).roles
    have hstart : s.whileStart.roles = s.roles ++ [.whileCond, .whileBody, .whileEnd] := by
      refine (roles_joined _ _).trans ?_
      rw [roles_grown, roles_grown, roles_grown, List.append_assoc, List.append_assoc]
      rfl
    rw [roles_loopBody, ht.roles, hstart]
  refine ⟨⟨⟨hloop.toOnward.trans (hbody.toOnward.trans hend), hback.done_moved (.inl rfl),
    fun b hb => ?_⟩, rfl, Nat.le_add_right .., getElem?_roles hroles (by decide),
    hback.exists_empty (.inl rfl), ?_⟩, getElem?_roles hroles (k := 0) (by decide), _, _,
    hend.continues.outline htest⟩
  · refine (hcount b (by omega)).trans ?_
    split_ifs <;> omega
  · refine (hcount _ (by omega)).trans ?_
    rw [h.mapped.entering_new (by omega)]
    simp

/-- The roles of the blocks of a counting loop. -/
theorem roles_forBody (ht : s.forStart.Straight t) (yes no : Nat) :
    (t.loopBody v yes no).roles = s.roles ++ [.forCond, .forBody, .forStep, .forEnd] := by
  have hstart : s.forStart.roles = s.roles ++ [.forCond, .forBody, .forStep, .forEnd] := by
    refine (roles_joined _ _).trans ?_
    rw [roles_grown, roles_grown, roles_grown, roles_grown, List.append_assoc, List.append_assoc,
      List.append_assoc]
    rfl
  rw [roles_loopBody, ht.roles, hstart]

/-- A counting loop up to its step: branches lead to the step exactly if the body does not
always return, and one leads behind the loop. -/
theorem forStep (h : Ahead P s s) (ht : s.forStart.Straight t)
    (hbody : Passage (insert (s.arena.length + 3) (insert (s.arena.length + 2) P))
      (t.loopBody v (s.arena.length + 1) (s.arena.length + 3)) u d) (b : Nat)
    (hb : b < s.arena.length + 4) : (u.joined (s.arena.length + 2)).entering b = s.entering b +
      (if b = s.arena.length then 1 else 0) +
      ((if b = s.arena.length + 1 then 1 else 0) + if b = s.arena.length + 3 then 1 else 0) +
      if d = false ∧ b = s.arena.length + 2 then 1 else 0 := by
  have hlen := (h.forBody ht v).1.mapped.lt_of_mem (.inl rfl)
  rw [entering_joined hbody.mapped.isOpen_cur, hbody.done, hbody.entering b (by omega),
    (h.forStart.straight ht).entering_loopBody, ht.entering, h.entering_forStart]

theorem entering_step (h : Ahead P s s) (ht : s.forStart.Straight t)
    (hbody : Passage (insert (s.arena.length + 3) (insert (s.arena.length + 2) P))
      (t.loopBody v (s.arena.length + 1) (s.arena.length + 3)) u d) :
    (u.joined (s.arena.length + 2)).entering (s.arena.length + 2) = 0 ↔ d = true := by
  rw [h.forStep ht hbody _ (by omega), h.mapped.entering_new (by omega)]
  cases d <;> simp

/-- A counting loop whose step is left out. -/
theorem forOnce (h : Ahead P s s) (ht : s.forStart.Straight t)
    (hbody : Passage (insert (s.arena.length + 3) (insert (s.arena.length + 2) P))
      (t.loopBody v (s.arena.length + 1) (s.arena.length + 3)) u true) :
    Merge P s ((((u.joined (s.arena.length + 2)).moved (s.arena.length + 2)).closed
        .unreachable).moved (s.arena.length + 3)) (s.arena.length + 3) .forEnd false 1 ∧
      ((((u.joined (s.arena.length + 2)).moved (s.arena.length + 2)).closed .unreachable).moved
        (s.arena.length + 3)).Tests s.arena.length .forCond (s.arena.length + 3) := by
  obtain ⟨hloop, hout⟩ := h.forBody ht v
  have hmapped := hbody.mapped
  rw [Set.insert_comm] at hmapped
  obtain ⟨hmark, hcmark⟩ := (hmapped.joined_pending (.inl rfl)).sealed (hmapped.done_joined _)
    (h.mapped.not_mem_insert (by omega) (by omega))
  have hsealed : ((u.joined (s.arena.length + 2)).moved (s.arena.length + 2)).sealed =
      ((u.joined (s.arena.length + 2)).moved (s.arena.length + 2)).closed .unreachable :=
    if_pos ((h.entering_step ht hbody).mpr rfl)
  have hcount (b : Nat) := hmapped.entering_sealed b
  rw [hsealed] at hmark hcmark hcount
  have hend : Onward P u _ := Mapped.onward_moved
    ⟨hmark, (Continues.joined hmapped.cur _).trans hcmark⟩
    (done_closed_of_outline hmapped.outline_sealed _) (h.mapped.not_mem_of_le (by omega))
    ⟨_, _, hbody.continues.outline hout, List.mem_cons_of_mem _ (List.mem_singleton.mpr rfl)⟩
  have hstep (b : Nat) (hb : b < s.arena.length + 4) := h.forStep ht hbody b hb
  simp only [entering_joined hmapped.isOpen_cur] at hstep
  have hroles := roles_forBody ht _ _ ▸ (hbody.continues.trans hend.continues).roles
  refine ⟨⟨⟨hloop.toOnward.trans (hbody.toOnward.trans hend), hmark.done_moved (.inl rfl),
    fun b hb => ?_⟩, rfl, Nat.le_add_right .., getElem?_roles hroles (by decide),
    hmark.exists_empty (.inl rfl), ?_⟩, getElem?_roles hroles (k := 0) (by decide), _, _,
    hend.continues.outline (hbody.continues.outline hout)⟩
  · refine (hcount b).trans ((hstep b (by omega)).trans ?_)
    split_ifs <;> omega
  · refine (hcount _).trans ((hstep _ (by omega)).trans ?_)
    rw [h.mapped.entering_new (by omega)]
    simp

/-- The step of a counting loop is entered. -/
theorem stepStart (h : Ahead P s s)
    (hbody : Passage (insert (s.arena.length + 3) (insert (s.arena.length + 2) P))
      (t.loopBody v (s.arena.length + 1) (s.arena.length + 3)) u false) :
    Ahead (insert (s.arena.length + 3) P) u
      ((u.joined (s.arena.length + 2)).moved (s.arena.length + 2)) := by
  have hmapped := hbody.mapped
  rw [Set.insert_comm] at hmapped
  exact Ahead.enter ⟨hmapped.onward, hbody.done⟩ (h.mapped.not_mem_insert (by omega) (by omega))

/-- A counting loop with its step. -/
theorem forLoop {w : State} (h : Ahead P s s) (ht : s.forStart.Straight t)
    (hbody : Passage (insert (s.arena.length + 3) (insert (s.arena.length + 2) P))
      (t.loopBody v (s.arena.length + 1) (s.arena.length + 3)) u false)
    (hw : ((u.joined (s.arena.length + 2)).moved (s.arena.length + 2)).Straight w) :
    Merge P s ((w.joined s.arena.length).moved (s.arena.length + 3)) (s.arena.length + 3)
        .forEnd false 1 ∧
      ((w.joined s.arena.length).moved (s.arena.length + 3)).Tests s.arena.length .forCond
        (s.arena.length + 3) := by
  obtain ⟨hloop, hout⟩ := h.forBody ht v
  have hahead := (h.stepStart hbody).straight hw
  have htest := hahead.continues.outline (hbody.continues.outline hout)
  have hback : (w.joined s.arena.length).Mapped (insert (s.arena.length + 3) P) :=
    hahead.mapped.joined ⟨_, htest, by simp⟩
  have hend := hahead.mapped.loopEnd (h.mapped.not_mem_of_le (by omega)) htest
  have hcount (b : Nat) (hb : b < s.arena.length + 4) :=
    (entering_joined hahead.mapped.isOpen_cur s.arena.length b).trans
      (congrArg (· + _) ((hw.entering b).trans (h.forStep ht hbody b hb)))
  have hon := hbody.toOnward.trans (hahead.toOnward.trans hend)
  have hroles := roles_forBody ht _ _ ▸ hon.continues.roles
  refine ⟨⟨⟨hloop.toOnward.trans hon, hback.done_moved (.inl rfl), fun b hb => ?_⟩, rfl,
    Nat.le_add_right .., getElem?_roles hroles (by decide), hback.exists_empty (.inl rfl), ?_⟩,
    getElem?_roles hroles (k := 0) (by decide), _, _, hend.continues.outline htest⟩
  · refine (hcount b (by omega)).trans ?_
    split_ifs <;> omega
  · refine (hcount _ (by omega)).trans ?_
    rw [h.mapped.entering_new (by omega)]
    simp

end Ahead

end

end State

end Lowering

end Augite
