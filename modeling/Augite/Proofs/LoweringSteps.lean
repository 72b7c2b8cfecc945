import Augite.Proofs.LoweringInvariant

/-!
# Steps keep the invariant

Each step of lowering, taken where it may be taken, leads from a good state to a good state
that has grown out of it.
-/

namespace Augite.Lowering.State

/-- The instructions of the current block. -/
def curInsts (s : State) : List IR.Inst := ((s.draft? s.body.cur).map Draft.insts).getD []

/-- A sound state with a function under construction. -/
structure Good (s : State) : Prop where
  sound : s.Sound
  seated : s.Seated

/-- The value may be an operand of what is emitted next. -/
def Usable (s : State) (v : IR.Value) : Prop := s.Operand s.body.func s.curInsts v

section

variable {s u : State}

theorem curInsts_of_draft? {d : Draft} (h : s.draft? s.body.cur = some d) : s.curInsts = d.insts := by
  rw [curInsts, h]
  rfl

theorem term_of_done {d : Draft} (h : s.draft? s.body.cur = some d) (hopen : s.done = false) :
    d.term = none := by
  unfold done at hopen
  rw [h] at hopen
  simpa using hopen

/-- Whatever leaves blocks and the function under construction alone keeps a state good. -/
theorem Good.congr (hs : s.Good) (harena : u.arena = s.arena) (hbody : u.body = s.body)
    (hg : s.Grows u) : u.Good := by
  have hdraft : ∀ b, u.draft? b = s.draft? b := fun b => by rw [draft?, harena]; rfl
  refine ⟨hs.sound.congr harena hg, ?_⟩
  obtain ⟨hcur, hentry, hfirst⟩ := hs.seated
  refine ⟨?_, ?_, ?_⟩
  · rw [hbody, hdraft]
    exact hcur
  · rw [hbody, hdraft]
    exact hentry
  · intro c d hc hd
    rw [hbody] at hc ⊢
    exact hfirst c d hc (hdraft c ▸ hd)

/-- The blocks are the same, and the tables have got longer. -/
theorem Grows.of_arena (harena : u.arena = s.arena) (hstructs : u.structs = s.structs)
    (hglobals : s.globals <+: u.globals) (hheads : s.heads <+: u.heads)
    (hnext : u.nextId = s.nextId) : s.Grows u := by
  refine ⟨fun b d hd => ⟨d, ?_, .refl d⟩, hstructs, hglobals, hheads, hnext.ge⟩
  rw [draft?, harena]
  exact hd

/-! ### Instructions -/

theorem grows_emitted (hopen : s.done = false) {op : IR.Op} (hop : op.isAlloca = false) :
    s.Grows (s.emitted op) := by
  refine ⟨fun b d hd => ?_, rfl, List.prefix_rfl, List.prefix_rfl, Nat.le_succ _⟩
  rw [draft?_emitted, hd]
  refine ⟨_, rfl, ?_⟩
  dsimp only
  split
  · rename_i hb
    refine ⟨rfl, rfl, ?_, ?_, fun hterm => ?_⟩
    · simp [Draft.allocas, nextInst, hop]
    · simp [Draft.code, nextInst, hop]
    · subst hb
      exact absurd (term_of_done hd hopen) hterm
  · exact .refl d

theorem Good.emitted (hs : s.Good) (hopen : s.done = false) {op : IR.Op}
    (hop : op.isAlloca = false) (hok : s.InstOk s.body.func s.curInsts op) :
    (s.emitted op).Good := by
  obtain ⟨d, hd, hfunc⟩ := hs.seated.cur
  rw [curInsts_of_draft? hd, ← hfunc] at hok
  have hlayout := hs.sound.layout _ d hd
  have hdraft : ∀ b, (s.emitted op).draft? b =
      if s.body.cur = b then some { d with insts := d.insts ++ s.nextInst op :: [] }
      else s.draft? b := by
    intro b
    rw [draft?_emitted]
    split
    · rename_i hb
      subst hb
      rw [hd]
      rfl
    · rw [Option.map_id']
  have hallocas : Draft.allocas { d with insts := d.insts ++ s.nextInst op :: [] } = d.allocas := by
    simp [Draft.allocas, nextInst, hop]
  refine ⟨hs.sound.insert hd (by simp) rfl hdraft rfl rfl (grows_emitted hopen hop) ?_ ?_ hok, ?_⟩
  · rw [hallocas]
    simp only [Draft.code, nextInst, List.filter_append, List.filter_cons, hop]
    rw [hlayout]
    simp [Draft.allocas, Draft.code, List.filter_filter]
  · rw [hallocas]
    exact fun hne c e hc he => hs.sound.homes _ d hd hne c e hc he
  · refine ⟨⟨{ d with insts := d.insts ++ s.nextInst op :: [] }, ?_, hfunc⟩, ?_, ?_⟩
    · rw [hdraft]
      exact if_pos rfl
    · obtain ⟨e, he, hef, hlen⟩ := hs.seated.entry
      change ∃ d', (s.emitted op).draft? s.body.entry = some d' ∧ _ ∧ _ = s.body.slots
      rw [hdraft]
      split
      · rename_i hb
        rw [← hb, hd] at he
        cases he
        exact ⟨_, rfl, hef, by rw [hallocas]; exact hlen⟩
      · exact ⟨e, he, hef, hlen⟩
    · intro c e hc he
      rw [hdraft] at he
      split at he
      · rename_i hb
        cases he
        exact hs.seated.first c d hc (hb ▸ hd)
      · exact hs.seated.first c e hc he

theorem done_emitted (s : State) (op : IR.Op) : (s.emitted op).done = s.done := by
  unfold done
  rw [draft?_emitted]
  change ((Option.map _ (s.draft? s.body.cur)).bind Draft.term).isSome = _
  rcases s.draft? s.body.cur with _ | d
  · rfl
  · simp only [Option.map_some, Option.bind_some]
    split <;> rfl

theorem curInsts_emitted (hs : s.Seated) (op : IR.Op) :
    (s.emitted op).curInsts = s.curInsts ++ [s.nextInst op] := by
  obtain ⟨d, hd, -⟩ := hs.cur
  rw [curInsts_of_draft? hd]
  refine curInsts_of_draft? (d := { d with insts := d.insts ++ [s.nextInst op] }) ?_
  change (s.emitted op).draft? s.body.cur = _
  rw [draft?_emitted, hd]
  simp

/-- What could be an operand still can. -/
theorem Usable.emitted {v : IR.Value} (h : s.Usable v) (hs : s.Seated) (hopen : s.done = false)
    {op : IR.Op} (hop : op.isAlloca = false) : (s.emitted op).Usable v := by
  have hsub : s.curInsts ⊆ (s.emitted op).curInsts := by
    rw [curInsts_emitted hs]
    exact List.subset_append_left _ _
  exact Operand.mono h (grows_emitted hopen hop) hsub

/-! ### Terminators -/

theorem grows_closed (hopen : s.done = false) (t : IR.Term) : s.Grows (s.closed t) := by
  refine ⟨fun b d hd => ?_, rfl, List.prefix_rfl, List.prefix_rfl, le_rfl⟩
  rw [draft?_closed, hd]
  refine ⟨_, rfl, ?_⟩
  dsimp only
  split
  · rename_i hb
    subst hb
    exact ⟨rfl, rfl, List.prefix_rfl, List.prefix_rfl,
      fun hterm => absurd (term_of_done hd hopen) hterm⟩
  · exact .refl d

/-- Blocks that differ in terminators only leave the function where it was. -/
theorem Seated.closed (hs : s.Seated) (t : IR.Term) : (s.closed t).Seated := by
  have hdraft : ∀ b d, s.draft? b = some d → ∃ e, (s.closed t).draft? b = some e ∧
      e.func = d.func ∧ e.allocas = d.allocas := by
    intro b d hd
    rw [draft?_closed, hd]
    refine ⟨_, rfl, ?_⟩
    dsimp only
    split <;> exact ⟨rfl, rfl⟩
  obtain ⟨⟨d, hd, hf⟩, ⟨e, he, hef, hlen⟩, hfirst⟩ := hs
  refine ⟨?_, ?_, ?_⟩
  · obtain ⟨d', hd', hf', -⟩ := hdraft _ d hd
    exact ⟨d', hd', hf'.trans hf⟩
  · obtain ⟨e', he', hef', hal⟩ := hdraft _ e he
    exact ⟨e', he', hef'.trans hef, by rw [hal]; exact hlen⟩
  · intro c d hc hd
    rw [draft?_closed, Option.map_eq_some_iff] at hd
    obtain ⟨e, he, rfl⟩ := hd
    have := hfirst c e hc he
    split <;> exact this

theorem Good.closed (hs : s.Good) (hopen : s.done = false) {t : IR.Term}
    (hok : s.TermOk s.body.func s.curInsts t) : (s.closed t).Good := by
  refine ⟨hs.sound.closed (grows_closed hopen t) fun d hd => ?_, hs.seated.closed t⟩
  obtain ⟨e, he, hfunc⟩ := hs.seated.cur
  rw [hd] at he
  cases he
  rw [curInsts_of_draft? hd, ← hfunc] at hok
  exact hok

/-! ### Blocks -/

theorem grows_opened (s : State) (func : Nat) (role : IR.Role) : s.Grows (s.opened func role) := by
  refine ⟨fun b d hd => ⟨d, ?_, .refl d⟩, rfl, List.prefix_rfl, List.prefix_rfl, le_rfl⟩
  have := lt_of_draft? hd
  rw [draft?_opened, if_neg (by omega)]
  exact hd

theorem Good.grown (hs : s.Good) (role : IR.Role) : (s.grown role).Good := by
  refine ⟨hs.sound.opened (grows_opened s _ role), ?_⟩
  have hdraft : ∀ b d, s.draft? b = some d → (s.grown role).draft? b = some d := by
    intro b d hd
    have := lt_of_draft? hd
    rw [State.grown, draft?_opened, if_neg (by omega)]
    exact hd
  obtain ⟨⟨d, hd, hf⟩, ⟨e, he, hef, hlen⟩, hfirst⟩ := hs.seated
  refine ⟨⟨d, hdraft _ d hd, hf⟩, ⟨e, hdraft _ e he, hef, hlen⟩, ?_⟩
  intro c d' hc hd'
  rw [State.grown, draft?_opened] at hd'
  split at hd'
  · have := lt_of_draft? he
    change c < s.body.entry at hc
    omega
  · exact hfirst c d' hc hd'

/-- The block that has just been opened. -/
theorem draft?_grown (s : State) (role : IR.Role) :
    (s.grown role).draft? s.arena.length = some { func := s.body.func, role } := by
  rw [grown, draft?_opened, if_pos rfl]

theorem Good.moved (hs : s.Good) {b : Nat} {d : Draft} (hd : s.draft? b = some d)
    (hf : d.func = s.body.func) : (s.moved b).Good :=
  ⟨hs.sound.congr rfl (.of_arena rfl rfl List.prefix_rfl List.prefix_rfl rfl),
    ⟨d, hd, hf⟩, hs.seated.entry, hs.seated.first⟩

theorem grows_moved (s : State) (b : Nat) : s.Grows (s.moved b) :=
  .of_arena rfl rfl List.prefix_rfl List.prefix_rfl rfl

/-! ### Stack slots -/

section

variable (name : Text) (t : IR.Typ)

/-- A stack slot goes behind the others and before the code. -/
theorem draft?_reserved_of_good (hs : s.Good) {d : Draft} (hd : s.draft? s.body.entry = some d) :
    (s.reserved name t).draft? s.body.entry = some { d with
      insts := d.allocas ++ s.nextInst (.alloca (s.slotName name) t) :: d.code } := by
  obtain ⟨e, he, -, hlen⟩ := hs.seated.entry
  rw [hd] at he
  cases he
  rw [draft?_reserved, hd]
  simp only [Option.map_some, if_true]
  have hlayout := hs.sound.layout _ d hd
  rw [hlayout, ← hlen, List.take_left, List.drop_left]

theorem allocas_insert (d : Draft) (i : IR.Inst) (hi : i.op.isAlloca = true) :
    Draft.allocas { d with insts := d.allocas ++ i :: d.code } = d.allocas ++ [i] := by
  simp [Draft.allocas, Draft.code, List.filter_filter, hi]

theorem code_insert (d : Draft) (i : IR.Inst) (hi : i.op.isAlloca = true) :
    Draft.code { d with insts := d.allocas ++ i :: d.code } = d.code := by
  simp [Draft.allocas, Draft.code, List.filter_filter, hi]

theorem draft?_reserved_ne {b : Nat} (hb : s.body.entry ≠ b) :
    (s.reserved name t).draft? b = s.draft? b := by
  rw [draft?_reserved]
  simp [hb]

theorem grows_reserved (hs : s.Good) : s.Grows (s.reserved name t) := by
  refine ⟨fun b d hd => ?_, rfl, List.prefix_rfl, List.prefix_rfl, Nat.le_succ _⟩
  by_cases hb : s.body.entry = b
  · subst hb
    refine ⟨_, draft?_reserved_of_good name t hs hd, rfl, rfl, ?_, ?_, fun _ => ⟨rfl, ?_⟩⟩
    · rw [allocas_insert _ _ rfl]
      exact List.prefix_append _ _
    · rw [code_insert _ _ rfl]
    · exact code_insert _ _ rfl
  · exact ⟨d, by rw [draft?_reserved_ne name t hb]; exact hd, .refl d⟩

theorem Good.reserved (hs : s.Good) (ht : t ≠ .void) : (s.reserved name t).Good := by
  obtain ⟨d, hd, hfunc, hlen⟩ := hs.seated.entry
  have hnew := draft?_reserved_of_good name t hs hd
  have hdrafts : ∀ b, (s.reserved name t).draft? b = if s.body.entry = b then
      some { d with insts := d.allocas ++ s.nextInst (.alloca (s.slotName name) t) :: d.code }
      else s.draft? b := by
    intro b
    split
    · rename_i hb
      subst hb
      exact hnew
    · rename_i hb
      exact draft?_reserved_ne name t hb
  refine ⟨hs.sound.insert hd (hs.sound.layout _ d hd) rfl hdrafts rfl rfl (grows_reserved name t hs)
    ?_ ?_ ⟨ht, nofun⟩, ?_⟩
  · rw [allocas_insert _ _ rfl, code_insert _ _ rfl]
    simp
  · intro _ c e hc he
    rw [hfunc]
    exact hs.seated.first c e hc he
  · refine ⟨?_, ?_, ?_⟩
    · obtain ⟨e, he, hef⟩ := hs.seated.cur
      change ∃ d', (s.reserved name t).draft? s.body.cur = some d' ∧ d'.func = s.body.func
      rw [hdrafts]
      split
      · exact ⟨_, rfl, hfunc⟩
      · exact ⟨e, he, hef⟩
    · refine ⟨_, hnew, hfunc, ?_⟩
      rw [allocas_insert _ _ rfl]
      simpa [State.reserved] using hlen
    · intro c e hc he
      rw [hdrafts] at he
      split at he
      · rename_i hb
        change c < s.body.entry at hc
        omega
      · exact hs.seated.first c e hc he

/-- The address of a stack slot can be used anywhere in its function. -/
theorem available_reserved (hs : s.Good) (pre : List IR.Inst) :
    (s.reserved name t).Available s.body.func pre
      (s.nextInst (.alloca (s.slotName name) t)).value := by
  obtain ⟨d, hd, hfunc, -⟩ := hs.seated.entry
  exact .inr ⟨s.body.entry, _, draft?_reserved_of_good name t hs hd, hfunc, _, by simp, rfl, rfl⟩

theorem curInsts_reserved (hs : s.Good) : s.curInsts ⊆ (s.reserved name t).curInsts := by
  obtain ⟨d, hd, -⟩ := hs.seated.cur
  obtain ⟨e, he, hde⟩ := (grows_reserved name t hs).drafts _ d hd
  rw [curInsts_of_draft? hd, curInsts_of_draft? (s := s.reserved name t) he]
  exact fun i hi => hde.mem hi

end

end

end Augite.Lowering.State
