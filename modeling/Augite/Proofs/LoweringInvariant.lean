import Augite.Proofs.LoweringRuns
import Augite.Proofs.IRTyping

/-!
# What holds of the code under construction

At every moment of lowering the instructions emitted so far are well typed, their numbers
are distinct, and their operands are at hand: constants, globals and functions that there
are, parameters, earlier results of the same block, and the stack slots of the function,
which stand at the head of its first block. Blocks only grow, and not once they are
terminated.
-/

namespace Augite

def IR.Op.isAlloca : IR.Op → Bool
  | .alloca _ _ => true
  | _ => false

namespace Lowering

/-! ### Drafts -/

namespace Draft

/-- The stack slots of a block. -/
def allocas (d : Draft) : List IR.Inst := d.insts.filter fun i => i.op.isAlloca

/-- The instructions of a block other than stack slots. -/
def code (d : Draft) : List IR.Inst := d.insts.filter fun i => !i.op.isAlloca

theorem mem_insts_iff {d : Draft} {i : IR.Inst} : i ∈ d.insts ↔ i ∈ d.allocas ∨ i ∈ d.code := by
  cases h : i.op.isAlloca <;> simp [allocas, code, h]

/-- The later state of a block: a block that is terminated gets stack slots only. -/
structure Grows (d e : Draft) : Prop where
  func : e.func = d.func
  role : e.role = d.role
  allocas : d.allocas <+: e.allocas
  code : d.code <+: e.code
  closed : d.term ≠ none → e.term = d.term ∧ e.code = d.code

theorem Grows.refl (d : Draft) : d.Grows d :=
  ⟨rfl, rfl, List.prefix_rfl, List.prefix_rfl, fun _ => ⟨rfl, rfl⟩⟩

theorem Grows.trans {d e f : Draft} (h : d.Grows e) (k : e.Grows f) : d.Grows f where
  func := k.func.trans h.func
  role := k.role.trans h.role
  allocas := h.allocas.trans k.allocas
  code := h.code.trans k.code
  closed hd := by
    obtain ⟨hterm, hcode⟩ := h.closed hd
    obtain ⟨hterm', hcode'⟩ := k.closed (hterm ▸ hd)
    exact ⟨hterm'.trans hterm, hcode'.trans hcode⟩

theorem Grows.mem {d e : Draft} (h : d.Grows e) {i : IR.Inst} (hi : i ∈ d.insts) : i ∈ e.insts := by
  rw [mem_insts_iff] at hi ⊢
  exact hi.imp (h.allocas.subset ·) (h.code.subset ·)

end Draft

/-- A change of one element of a list that a function does not see. -/
theorem map_modify_of_eq {α β : Type} (l : List α) (b : Nat) (f : α → α) (g : α → β)
    (h : ∀ a, g (f a) = g a) : (l.modify b f).map g = l.map g := by
  refine List.ext_getElem? fun i => ?_
  simp only [List.getElem?_map, List.getElem?_modify]
  rcases l[i]? with _ | a
  · rfl
  · simp only [Option.map_eq_map, Option.map_some, Option.some.injEq]
    split
    · exact h a
    · rfl

namespace State

/-! ### Blocks of a state -/

/-- The roles of the blocks. -/
def roles (s : State) : List IR.Role := s.arena.map Draft.role

theorem roles_eq_some_iff {s : State} {b : Nat} {r : IR.Role} :
    s.roles[b]? = some r ↔ ∃ d, s.draft? b = some d ∧ d.role = r := by
  simp [roles, draft?, List.getElem?_map]

section

variable (s : State) (b : Nat)

theorem draft?_emitted (op : IR.Op) :
    (s.emitted op).draft? b = (s.draft? b).map fun d =>
      if s.body.cur = b then { d with insts := d.insts ++ [s.nextInst op] } else d := by
  simp only [draft?, emitted, List.getElem?_modify]
  rfl

theorem draft?_closed (t : IR.Term) :
    (s.closed t).draft? b = (s.draft? b).map fun d =>
      if s.body.cur = b then { d with term := some t } else d := by
  simp only [draft?, closed, List.getElem?_modify]
  rfl

theorem draft?_reserved (name : Text) (t : IR.Typ) :
    (s.reserved name t).draft? b = (s.draft? b).map fun d =>
      if s.body.entry = b then
        { d with
          insts := d.insts.take s.body.slots ++ s.nextInst (.alloca (s.slotName name) t) ::
            d.insts.drop s.body.slots }
      else d := by
  simp only [draft?, reserved, List.getElem?_modify]
  rfl

theorem draft?_opened (func : Nat) (role : IR.Role) :
    (s.opened func role).draft? b =
      if b = s.arena.length then some { func, role } else s.draft? b := by
  simp only [draft?, opened, List.getElem?_append]
  split
  · rw [if_neg (by omega)]
  · split
    · rename_i h
      simp [h]
    · rw [List.getElem?_eq_none (by simp; omega), List.getElem?_eq_none (by omega)]

theorem lt_of_draft? {s : State} {b : Nat} {d : Draft} (h : s.draft? b = some d) :
    b < s.arena.length :=
  (List.getElem?_eq_some_iff.mp h).1

end

/-! ### Operands -/

/-- In a function, behind some instructions of a block, the value may be an operand. -/
def Available (s : State) (func : Nat) (pre : List IR.Inst) : IR.Value → Prop
  | .const _ => True
  | .global i t => ∃ g, s.globals[i]? = some g ∧ g.init.type = t
  | .chars i n => ∃ g t, s.globals[i]? = some g ∧ g.init = .chars t ∧ t.length = n
  | .func i t => ∃ h, s.heads[i]? = some h ∧ h.type = t
  | .param f i t => f = func ∧ ∃ h p, s.heads[func]? = some h ∧ h.params[i]? = some p ∧ p.2 = t
  | .result id t =>
    (∃ i ∈ pre, i.op.yieldsValue = true ∧ i.value = .result id t) ∨
      ∃ b d, s.draft? b = some d ∧ d.func = func ∧
        ∃ i ∈ d.insts, i.op.isAlloca = true ∧ i.value = .result id t

/-- An operand: it is available and not void. -/
def Operand (s : State) (func : Nat) (pre : List IR.Inst) (v : IR.Value) : Prop :=
  s.Available func pre v ∧ v.type ≠ .void

structure InstOk (s : State) (func : Nat) (pre : List IR.Inst) (op : IR.Op) : Prop where
  typed : op.WellTyped s.structs
  operands : ∀ v ∈ op.operands, s.Operand func pre v

structure TermOk (s : State) (func : Nat) (pre : List IR.Inst) (t : IR.Term) : Prop where
  typed : ∃ h, s.heads[func]? = some h ∧ t.WellTyped h.result
  operands : ∀ v ∈ t.operands, s.Operand func pre v
  targets : ∀ b ∈ targets t, ∃ d, s.draft? b = some d ∧ d.func = func

/-! ### Growth -/

/-- The later state: blocks have grown, and tables have got longer. -/
structure Grows (s u : State) : Prop where
  drafts : ∀ b d, s.draft? b = some d → ∃ e, u.draft? b = some e ∧ d.Grows e
  structs : u.structs = s.structs
  globals : s.globals <+: u.globals
  heads : s.heads <+: u.heads
  nextId : s.nextId ≤ u.nextId

theorem Grows.refl (s : State) : s.Grows s :=
  ⟨fun _ d h => ⟨d, h, .refl d⟩, rfl, List.prefix_rfl, List.prefix_rfl, le_rfl⟩

theorem Grows.trans {s t u : State} (h : s.Grows t) (k : t.Grows u) : s.Grows u where
  drafts b d hd := by
    obtain ⟨e, he, hde⟩ := h.drafts b d hd
    obtain ⟨f, hf, hef⟩ := k.drafts b e he
    exact ⟨f, hf, hde.trans hef⟩
  structs := k.structs.trans h.structs
  globals := h.globals.trans k.globals
  heads := h.heads.trans k.heads
  nextId := h.nextId.trans k.nextId

theorem getElem?_of_prefix {α : Type} {l m : List α} (h : l <+: m) {i : Nat} {a : α}
    (ha : l[i]? = some a) : m[i]? = some a := by
  obtain ⟨k, rfl⟩ := h
  rw [List.getElem?_append_left (List.getElem?_eq_some_iff.mp ha).1, ha]

theorem Available.mono {s u : State} {func : Nat} {pre pre' : List IR.Inst} {v : IR.Value}
    (h : s.Available func pre v) (hg : s.Grows u) (hpre : pre ⊆ pre') :
    u.Available func pre' v := by
  cases v with
  | const c => trivial
  | global i t =>
    obtain ⟨g, hget, ht⟩ := h
    exact ⟨g, getElem?_of_prefix hg.globals hget, ht⟩
  | chars i n =>
    obtain ⟨g, t, hget, ht⟩ := h
    exact ⟨g, t, getElem?_of_prefix hg.globals hget, ht⟩
  | func i t =>
    obtain ⟨f, hget, ht⟩ := h
    exact ⟨f, getElem?_of_prefix hg.heads hget, ht⟩
  | param f i t =>
    obtain ⟨hf, head, p, hget, hp⟩ := h
    exact ⟨hf, head, p, getElem?_of_prefix hg.heads hget, hp⟩
  | result id t =>
    rcases h with ⟨i, hi, hv⟩ | ⟨b, d, hd, hfunc, i, hi, hv⟩
    · exact .inl ⟨i, hpre hi, hv⟩
    · obtain ⟨e, he, hde⟩ := hg.drafts b d hd
      exact .inr ⟨b, e, he, hde.func.trans hfunc, i, hde.mem hi, hv⟩

theorem Operand.mono {s u : State} {func : Nat} {pre pre' : List IR.Inst} {v : IR.Value}
    (h : s.Operand func pre v) (hg : s.Grows u) (hpre : pre ⊆ pre') : u.Operand func pre' v :=
  ⟨h.1.mono hg hpre, h.2⟩

theorem InstOk.mono {s u : State} {func : Nat} {pre pre' : List IR.Inst} {op : IR.Op}
    (h : s.InstOk func pre op) (hg : s.Grows u) (hpre : pre ⊆ pre') : u.InstOk func pre' op :=
  ⟨hg.structs ▸ h.typed, fun v hv => (h.operands v hv).mono hg hpre⟩

theorem TermOk.mono {s u : State} {func : Nat} {pre pre' : List IR.Inst} {t : IR.Term}
    (h : s.TermOk func pre t) (hg : s.Grows u) (hpre : pre ⊆ pre') : u.TermOk func pre' t where
  typed := by
    obtain ⟨head, hget, ht⟩ := h.typed
    exact ⟨head, getElem?_of_prefix hg.heads hget, ht⟩
  operands v hv := (h.operands v hv).mono hg hpre
  targets b hb := by
    obtain ⟨d, hd, hf⟩ := h.targets b hb
    obtain ⟨e, he, hde⟩ := hg.drafts b d hd
    exact ⟨e, he, hde.func.trans hf⟩

/-! ### Sound states -/

structure Sound (s : State) : Prop where
  nodup : ∀ b d, s.draft? b = some d → (d.insts.map IR.Inst.id).Nodup
  apart : ∀ b c d e, s.draft? b = some d → s.draft? c = some e →
    ∀ i ∈ d.insts, ∀ j ∈ e.insts, i.id = j.id → b = c
  below : ∀ b d, s.draft? b = some d → ∀ i ∈ d.insts, i.id < s.nextId
  layout : ∀ b d, s.draft? b = some d → d.insts = d.allocas ++ d.code
  /-- Stack slots stand in the first block of their function. -/
  homes : ∀ b d, s.draft? b = some d → d.allocas ≠ [] →
    ∀ c e, c < b → s.draft? c = some e → e.func ≠ d.func
  insts : ∀ b d, s.draft? b = some d →
    ∀ pre i post, d.insts = pre ++ i :: post → s.InstOk d.func pre i.op
  terms : ∀ b d, s.draft? b = some d → ∀ t, d.term = some t → s.TermOk d.func d.insts t

/-- The function under construction: its current block and its first block are there. -/
structure Seated (s : State) : Prop where
  cur : ∃ d, s.draft? s.body.cur = some d ∧ d.func = s.body.func
  entry : ∃ d, s.draft? s.body.entry = some d ∧ d.func = s.body.func ∧
    d.allocas.length = s.body.slots
  first : ∀ c d, c < s.body.entry → s.draft? c = some d → d.func ≠ s.body.func

/-- A split of a list with one element more. -/
theorem split_insert {α : Type} {a z pre post : List α} {i j : α}
    (h : a ++ i :: z = pre ++ j :: post) :
    (i = j ∧ pre = a) ∨ ∃ pre₀ post₀, a ++ z = pre₀ ++ j :: post₀ ∧ pre₀ ⊆ pre := by
  rcases List.append_eq_append_iff.mp h with ⟨k, rfl, hk⟩ | ⟨k, rfl, hk⟩
  · rcases k with _ | ⟨x, k⟩
    · cases hk
      exact .inl ⟨rfl, by simp⟩
    · cases hk
      refine .inr ⟨a ++ k, post, by simp, ?_⟩
      intro y hy
      rcases List.mem_append.mp hy with hy | hy
      · exact List.mem_append_left _ hy
      · exact List.mem_append_right _ (List.mem_cons_of_mem _ hy)
  · rcases k with _ | ⟨x, k⟩
    · cases hk
      exact .inl ⟨rfl, by simp⟩
    · cases hk
      exact .inr ⟨pre, k ++ z, by simp, fun _ hy => hy⟩

section

variable {s u : State}

/-- Soundness looks at blocks and at tables, which may grow. -/
theorem Sound.congr (hs : s.Sound) (harena : u.arena = s.arena) (hg : s.Grows u) : u.Sound := by
  have hdraft : ∀ b, u.draft? b = s.draft? b := fun b => by rw [draft?, harena]; rfl
  exact
    { nodup := fun b d hd => hs.nodup b d (hdraft b ▸ hd)
      apart := fun b c d e hd he => hs.apart b c d e (hdraft b ▸ hd) (hdraft c ▸ he)
      below := fun b d hd i hi => (hs.below b d (hdraft b ▸ hd) i hi).trans_le hg.nextId
      layout := fun b d hd => hs.layout b d (hdraft b ▸ hd)
      homes := fun b d hd hne c e hc he => hs.homes b d (hdraft b ▸ hd) hne c e hc (hdraft c ▸ he)
      insts := fun b d hd pre i post h =>
        (hs.insts b d (hdraft b ▸ hd) pre i post h).mono hg fun _ h => h
      terms := fun b d hd t ht => (hs.terms b d (hdraft b ▸ hd) t ht).mono hg fun _ h => h }

/-- One instruction more in one block. -/
theorem Sound.insert (hs : s.Sound) {b₀ : Nat} {d₀ d₁ : Draft} {a z : List IR.Inst} {i : IR.Inst}
    (hd : s.draft? b₀ = some d₀) (hinsts : d₀.insts = a ++ z)
    (hd₁ : d₁ = { d₀ with insts := a ++ i :: z })
    (hdrafts : ∀ b, u.draft? b = if b₀ = b then some d₁ else s.draft? b)
    (hid : i.id = s.nextId) (hnext : u.nextId = s.nextId + 1) (hg : s.Grows u)
    (hlayout : d₁.insts = d₁.allocas ++ d₁.code)
    (hhome : d₁.allocas ≠ [] → ∀ c e, c < b₀ → s.draft? c = some e → e.func ≠ d₀.func)
    (hok : s.InstOk d₀.func a i.op) : u.Sound := by
  have hmem : ∀ j, j ∈ d₁.insts ↔ j = i ∨ j ∈ d₀.insts := by
    intro j
    rw [hd₁, hinsts]
    simp only [List.mem_append, List.mem_cons]
    tauto
  have hfresh : ∀ b d, s.draft? b = some d → ∀ j ∈ d.insts, j.id ≠ i.id := by
    intro b d hb j hj heq
    have := hs.below b d hb j hj
    omega
  -- A block of the new state is the changed one or one that was there.
  have hcases : ∀ b d, u.draft? b = some d →
      (b₀ = b ∧ d = d₁) ∨ (b₀ ≠ b ∧ s.draft? b = some d) := by
    intro b d hb
    rw [hdrafts] at hb
    split at hb
    · cases hb
      exact .inl ⟨by assumption, rfl⟩
    · exact .inr ⟨by assumption, hb⟩
  have hfunc : d₁.func = d₀.func := by rw [hd₁]
  have hterm : d₁.term = d₀.term := by rw [hd₁]
  refine ⟨?_, ?_, ?_, ?_, ?_, ?_, ?_⟩
  · intro b d hb
    rcases hcases b d hb with ⟨rfl, rfl⟩ | ⟨-, hb⟩
    · have hold := hs.nodup b₀ d₀ hd
      have hperm : (d.insts.map IR.Inst.id).Perm (i.id :: d₀.insts.map IR.Inst.id) := by
        rw [hd₁, hinsts]
        simp
      rw [hperm.nodup_iff, List.nodup_cons]
      refine ⟨fun hin => ?_, hold⟩
      obtain ⟨j, hj, hjid⟩ := List.mem_map.mp hin
      exact hfresh b₀ d₀ hd j hj hjid
    · exact hs.nodup b d hb
  · intro b c d e hb hc j hj k hk hjk
    rcases hcases b d hb with ⟨rfl, rfl⟩ | ⟨-, hb⟩ <;> rcases hcases c e hc with ⟨rfl, rfl⟩ | ⟨-, hc⟩
    · rfl
    · rcases (hmem j).mp hj with rfl | hj
      · exact absurd hjk.symm (hfresh c e hc k hk)
      · exact hs.apart b₀ c d₀ e hd hc j hj k hk hjk
    · rcases (hmem k).mp hk with rfl | hk
      · exact absurd hjk (hfresh b d hb j hj)
      · exact hs.apart b b₀ d d₀ hb hd j hj k hk hjk
    · exact hs.apart b c d e hb hc j hj k hk hjk
  · intro b d hb j hj
    rcases hcases b d hb with ⟨rfl, rfl⟩ | ⟨-, hb⟩
    · rcases (hmem j).mp hj with rfl | hj
      · omega
      · have := hs.below b₀ d₀ hd j hj
        omega
    · have := hs.below b d hb j hj
      omega
  · intro b d hb
    rcases hcases b d hb with ⟨rfl, rfl⟩ | ⟨-, hb⟩
    · exact hlayout
    · exact hs.layout b d hb
  · intro b d hb hne c e hc he
    rcases hcases b d hb with ⟨rfl, rfl⟩ | ⟨hbne, hb⟩ <;>
      rcases hcases c e he with ⟨rfl, rfl⟩ | ⟨-, he⟩
    · omega
    · exact hfunc ▸ hhome hne c e hc he
    · exact hfunc ▸ hs.homes b d hb hne b₀ d₀ hc hd
    · exact hs.homes b d hb hne c e hc he
  · intro b d hb pre j post hsplit
    rcases hcases b d hb with ⟨rfl, rfl⟩ | ⟨-, hb⟩
    · rw [hfunc]
      rw [hd₁] at hsplit
      rcases split_insert hsplit with ⟨rfl, rfl⟩ | ⟨pre₀, post₀, hold, hsub⟩
      · exact hok.mono hg fun _ h => h
      · exact (hs.insts b₀ d₀ hd pre₀ j post₀ (hinsts ▸ hold)).mono hg hsub
    · exact (hs.insts b d hb pre j post hsplit).mono hg fun _ h => h
  · intro b d hb t ht
    rcases hcases b d hb with ⟨rfl, rfl⟩ | ⟨-, hb⟩
    · rw [hfunc]
      exact (hs.terms b₀ d₀ hd t (hterm ▸ ht)).mono hg fun j hj => (hmem j).mpr (.inr hj)
    · exact (hs.terms b d hb t ht).mono hg fun _ h => h

/-- One block more. -/
theorem Sound.opened (hs : s.Sound) {func : Nat} {role : IR.Role} (hg : s.Grows (s.opened func role)) :
    (s.opened func role).Sound := by
  -- A block of the new state is the empty one or one that was there.
  have hcases : ∀ b d, (s.opened func role).draft? b = some d →
      (b = s.arena.length ∧ d = { func, role }) ∨ s.draft? b = some d := by
    intro b d hb
    rw [draft?_opened] at hb
    split at hb
    · cases hb
      exact .inl ⟨by assumption, rfl⟩
    · exact .inr hb
  refine ⟨?_, ?_, ?_, ?_, ?_, ?_, ?_⟩
  · intro b d hb
    rcases hcases b d hb with ⟨rfl, rfl⟩ | hb
    · exact .nil
    · exact hs.nodup b d hb
  · intro b c d e hb hc i hi j hj
    rcases hcases b d hb with ⟨rfl, rfl⟩ | hb <;> rcases hcases c e hc with ⟨rfl, rfl⟩ | hc
    · cases hi
    · cases hi
    · cases hj
    · exact hs.apart b c d e hb hc i hi j hj
  · intro b d hb i hi
    rcases hcases b d hb with ⟨rfl, rfl⟩ | hb
    · cases hi
    · exact hs.below b d hb i hi
  · intro b d hb
    rcases hcases b d hb with ⟨rfl, rfl⟩ | hb
    · rfl
    · exact hs.layout b d hb
  · intro b d hb hne c e hc he
    rcases hcases b d hb with ⟨rfl, rfl⟩ | hb
    · exact absurd rfl hne
    · rcases hcases c e he with ⟨rfl, rfl⟩ | he
      · have := lt_of_draft? hb
        omega
      · exact hs.homes b d hb hne c e hc he
  · intro b d hb pre i post hsplit
    rcases hcases b d hb with ⟨rfl, rfl⟩ | hb
    · simp at hsplit
    · exact (hs.insts b d hb pre i post hsplit).mono hg fun _ h => h
  · intro b d hb t ht
    rcases hcases b d hb with ⟨rfl, rfl⟩ | hb
    · cases ht
    · exact (hs.terms b d hb t ht).mono hg fun _ h => h

/-- A terminator for a block. -/
theorem Sound.closed (hs : s.Sound) {t : IR.Term} (hg : s.Grows (s.closed t))
    (hok : ∀ d, s.draft? s.body.cur = some d → s.TermOk d.func d.insts t) : (s.closed t).Sound := by
  -- A block of the new state has the instructions it had.
  have hcases : ∀ b d, (s.closed t).draft? b = some d → ∃ e, s.draft? b = some e ∧
      d.func = e.func ∧ d.insts = e.insts ∧
      (d.term = e.term ∨ (d.term = some t ∧ s.body.cur = b)) := by
    intro b d hb
    rw [draft?_closed, Option.map_eq_some_iff] at hb
    obtain ⟨e, he, rfl⟩ := hb
    split
    · exact ⟨e, he, rfl, rfl, .inr ⟨rfl, by assumption⟩⟩
    · exact ⟨e, he, rfl, rfl, .inl rfl⟩
  refine ⟨?_, ?_, ?_, ?_, ?_, ?_, ?_⟩
  · intro b d hb
    obtain ⟨e, he, -, hi, -⟩ := hcases b d hb
    exact hi ▸ hs.nodup b e he
  · intro b c d d' hb hc i hi j hj
    obtain ⟨e, he, -, hei, -⟩ := hcases b d hb
    obtain ⟨e', he', -, hei', -⟩ := hcases c d' hc
    exact hs.apart b c e e' he he' i (hei ▸ hi) j (hei' ▸ hj)
  · intro b d hb i hi
    obtain ⟨e, he, -, hei, -⟩ := hcases b d hb
    exact hs.below b e he i (hei ▸ hi)
  · intro b d hb
    obtain ⟨e, he, -, hei, -⟩ := hcases b d hb
    have := hs.layout b e he
    unfold Draft.allocas Draft.code at this ⊢
    rw [hei]
    exact this
  · intro b d hb hne c d' hc hd'
    obtain ⟨e, he, hf, hei, -⟩ := hcases b d hb
    obtain ⟨e', he', hf', -, -⟩ := hcases c d' hd'
    rw [hf, hf']
    refine hs.homes b e he ?_ c e' hc he'
    unfold Draft.allocas at hne ⊢
    rw [← hei]
    exact hne
  · intro b d hb pre i post hsplit
    obtain ⟨e, he, hf, hei, -⟩ := hcases b d hb
    rw [hf]
    exact (hs.insts b e he pre i post (hei ▸ hsplit)).mono hg fun _ h => h
  · intro b d hb t' ht'
    obtain ⟨e, he, hf, hei, hterm⟩ := hcases b d hb
    rw [hf, hei]
    rcases hterm with hterm | ⟨hterm, rfl⟩
    · exact (hs.terms b e he t' (hterm ▸ ht')).mono hg fun _ h => h
    · obtain rfl : t' = t := by
        rw [hterm] at ht'
        exact (Option.some.inj ht').symm
      exact (hok e he).mono hg fun _ h => h

end

end State

end Lowering

end Augite
