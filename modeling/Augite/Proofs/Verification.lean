import Augite.Proofs.FlowPaths
import Augite.IR.Verify

/-!
# Verification decides well-formedness

Well-formedness of a function is said along paths: on every path of blocks from the entry,
whatever an instruction or terminator uses has been defined strictly earlier on that path.
Verification passes a module, in which no two instructions have one number, exactly if each
function with blocks is well formed.
-/

namespace Augite.IR

theorem bind_eq_ok_iff {ε α β : Type} {x : Except ε α} {g : α → Except ε β} {b : β} :
    x >>= g = .ok b ↔ ∃ a, x = .ok a ∧ g a = .ok b := by
  cases x with
  | error e => simp [bind, Except.bind]
  | ok a => simp [bind, Except.bind]

theorem bind_unit_eq_ok_iff {ε β : Type} {x : Except ε Unit} {g : Unit → Except ε β} {b : β} :
    x >>= g = .ok b ↔ x = .ok () ∧ g () = .ok b :=
  bind_eq_ok_iff.trans ⟨fun ⟨_, h⟩ => h, fun h => ⟨(), h⟩⟩

/-- The instruction with a given number yields a value and stands behind `k` others. -/
def Block.Defines (b : Block) (id k : Nat) : Prop :=
  ∃ i, b.insts[k]? = some i ∧ i.id = id ∧ i.op.yieldsValue = true

namespace Func

/-- A branch leads from the block at one place to the block at another. -/
def Edge (f : Func) (i j : Nat) : Prop :=
  ∃ b t targets id, f.blocks[i]? = some b ∧ b.term = some t ∧ t.targets? = some targets ∧
    id ∈ targets ∧ f.blockIndex? id = some j

/-- A path of blocks from the entry to the block at a place; the places passed before it
come latest first. -/
inductive Trace (f : Func) : List Nat → Nat → Prop
  | entry : Trace f [] 0
  | step {before : List Nat} {i j : Nat} : Trace f before i → f.Edge i j → Trace f (i :: before) j

/-- An operand can be used behind `ii` instructions of the block at `bi`, which has been
reached through the blocks `before`: a parameter is one of the function, a result has been
defined further up in the block or in a block passed before. -/
def Available (f : Func) (fi : Nat) (before : List Nat) (bi ii : Nat) : Value → Prop
  | .param g i _ => g = fi ∧ i < f.params.length
  | .result id _ =>
    (∃ b k, f.blocks[bi]? = some b ∧ b.Defines id k ∧ k < ii) ∨
      ∃ j ∈ before, ∃ b k, f.blocks[j]? = some b ∧ b.Defines id k
  | _ => True

/-- A function that returns nothing is void, and a value returned is not void and has the
function's result type. -/
def MayReturn (f : Func) : Option Value → Prop
  | none => f.result = .void
  | some v => v.type ≠ .void ∧ v.type = f.result

/-- A block ends with a known terminator, which returns what the function is to return or
branches to blocks of the function. -/
structure EndsWell (f : Func) (b : Block) : Prop where
  terminated : ∃ t, b.term = some t ∧ t ≠ .switch
  returns : ∀ v, b.term = some (.ret v) → f.MayReturn v
  inside : ∀ t targets, b.term = some t → t.targets? = some targets →
    ∀ id ∈ targets, ∃ c ∈ f.blocks, c.id = id

/-- Whatever a block reached through the blocks `before` uses is available there. -/
structure UsesWell (f : Func) (fi : Nat) (before : List Nat) (bi : Nat) (b : Block) : Prop where
  supported : ∀ i ∈ b.insts, i.op.operands? ≠ none
  insts : ∀ k i vs, b.insts[k]? = some i → i.op.operands? = some vs →
    ∀ v ∈ vs, f.Available fi before bi k v
  term : ∀ t, b.term = some t → ∀ v ∈ t.operands, f.Available fi before bi b.insts.length v

/-- A function at a given place of its module is well formed. -/
structure WellFormed (f : Func) (fi : Nat) : Prop where
  ends : ∀ b ∈ f.blocks, f.EndsWell b
  uses : ∀ before bi b, f.Trace before bi → f.blocks[bi]? = some b → f.UsesWell fi before bi b

def insts (f : Func) : List Inst := f.blocks.flatMap Block.insts

/-! ### The flow graph -/

/-- The places of the blocks to which a block branches. -/
def exits (f : Func) (b : Block) : List Nat :=
  ((b.term.bind Term.targets?).getD []).filterMap f.blockIndex?

def graph (f : Func) : Flow := f.blocks.map f.exits

variable {f : Func}

theorem blockIndex?_eq_some_lt {id j : Nat} (h : f.blockIndex? id = some j) :
    j < f.blocks.length :=
  (List.findIdx?_eq_some_iff_findIdx_eq.mp h).1

theorem exists_blockIndex?_iff {id : Nat} :
    (∃ j, f.blockIndex? id = some j) ↔ ∃ c ∈ f.blocks, c.id = id := by
  rw [← Option.isSome_iff_exists, blockIndex?, List.findIdx?_isSome, List.any_eq_true]
  simp

theorem mem_successors_graph_iff {i j : Nat} : j ∈ f.graph.successors i ↔ f.Edge i j := by
  unfold Flow.successors graph Edge
  rw [List.getElem?_map]
  rcases hb : f.blocks[i]? with _ | b
  · simp
  · rcases ht : b.term with _ | t
    · simp [exits, ht]
    · rcases hts : t.targets? with _ | targets
      · simp [exits, ht, hts]
      · simp [exits, ht, hts]

theorem graph_closed : f.graph.Closed := by
  intro b c hc
  obtain ⟨_, _, _, _, _, _, _, _, hj⟩ := mem_successors_graph_iff.mp hc
  simpa [graph] using blockIndex?_eq_some_lt hj

theorem path_graph_iff {before : List Nat} {b : Nat} : f.graph.Path before b ↔ f.Trace before b := by
  constructor
  · intro h
    induction h with
    | entry => exact .entry
    | step _ hc ih => exact ih.step (mem_successors_graph_iff.mp hc)
  · intro h
    induction h with
    | entry => exact .entry
    | step _ hc ih => exact ih.step (mem_successors_graph_iff.mpr hc)

/-! ### Terminators -/

theorem checkReturn_eq_ok_iff {bi : Nat} {v : Option Value} :
    f.checkReturn bi v = .ok () ↔ f.MayReturn v := by
  unfold checkReturn MayReturn
  cases v with
  | none => split <;> simp_all
  | some v =>
    simp only
    split
    · simp_all
    · split <;> simp_all

theorem targetIndices_eq_ok_iff {bi : Nat} {t : Term} {js : List Nat} :
    f.targetIndices bi t = .ok js ↔
      ∃ targets, t.targets? = some targets ∧ (∀ id ∈ targets, ∃ c ∈ f.blocks, c.id = id) ∧
        js = targets.filterMap f.blockIndex? := by
  unfold targetIndices
  rcases t.targets? with _ | targets
  · simp
  · simp only [Option.some.injEq, exists_eq_left']
    induction targets generalizing js with
    | nil => simp [pure, Except.pure, eq_comm]
    | cons id targets ih =>
      rw [List.mapM_cons, bind_eq_ok_iff, List.forall_mem_cons, ← exists_blockIndex?_iff,
        List.filterMap_cons]
      rcases f.blockIndex? id with _ | j
      · simp
      · simp only [Except.ok.injEq, exists_eq_left', Option.some.injEq, exists_eq', true_and,
          bind_eq_ok_iff, ih, pure, Except.pure]
        constructor
        · rintro ⟨_, ⟨hall, rfl⟩, rfl⟩
          exact ⟨hall, rfl⟩
        · rintro ⟨hall, rfl⟩
          exact ⟨_, ⟨hall, rfl⟩, rfl⟩

theorem successorsOf_eq_ok {bi : Nat} {b : Block} {t : Term} {js : List Nat}
    (ht : b.term = some t) : f.successorsOf bi b = .ok js ↔
      (∀ v, t = .ret v → f.MayReturn v) ∧ f.targetIndices bi t = .ok js := by
  unfold successorsOf
  rw [ht]
  cases t with
  | ret v => simp [bind_unit_eq_ok_iff, checkReturn_eq_ok_iff]
  | _ => simp

theorem targets?_isSome_iff {t : Term} : (∃ targets, t.targets? = some targets) ↔ t ≠ .switch := by
  cases t <;> simp [Term.targets?]

theorem successorsOf_eq_ok_iff {bi : Nat} {b : Block} {js : List Nat} :
    f.successorsOf bi b = .ok js ↔ f.EndsWell b ∧ js = f.exits b := by
  rcases ht : b.term with _ | t
  · refine ⟨fun h => ?_, fun h => ?_⟩
    · rw [successorsOf, ht] at h
      cases h
    · obtain ⟨t, ht', _⟩ := h.1.terminated
      rw [ht] at ht'
      cases ht'
  · rw [successorsOf_eq_ok ht, targetIndices_eq_ok_iff]
    constructor
    · rintro ⟨hret, targets, htargets, hinside, rfl⟩
      refine ⟨⟨⟨t, ht, targets?_isSome_iff.mp ⟨_, htargets⟩⟩, fun v hv => ?_, ?_⟩, ?_⟩
      · exact hret v (by rw [ht] at hv; exact Option.some.inj hv)
      · intro t' targets' ht' htargets'
        rw [ht] at ht'
        cases ht'
        rw [htargets] at htargets'
        cases htargets'
        exact hinside
      · simp [exits, ht, htargets]
    · rintro ⟨hends, rfl⟩
      obtain ⟨t', ht', hknown⟩ := hends.terminated
      rw [ht] at ht'
      cases ht'
      obtain ⟨targets, htargets⟩ := targets?_isSome_iff.mpr hknown
      refine ⟨fun v hv => hends.returns v (by rw [ht, hv]), targets, htargets, ?_, ?_⟩
      · exact hends.inside t targets ht htargets
      · simp [exits, ht, htargets]

theorem flowFrom_eq_ok_iff {bi : Nat} {bs : List Block} {g : Flow} :
    f.flowFrom bi bs = .ok g ↔ (∀ b ∈ bs, f.EndsWell b) ∧ g = bs.map f.exits := by
  induction bs generalizing bi g with
  | nil => simp [flowFrom, eq_comm]
  | cons b bs ih =>
    rw [flowFrom, bind_eq_ok_iff]
    simp only [bind_eq_ok_iff, successorsOf_eq_ok_iff, ih, List.forall_mem_cons, List.map_cons]
    constructor
    · rintro ⟨_, ⟨hb, rfl⟩, _, ⟨hbs, rfl⟩, h⟩
      cases h
      exact ⟨⟨hb, hbs⟩, rfl⟩
    · rintro ⟨⟨hb, hbs⟩, rfl⟩
      exact ⟨_, ⟨hb, rfl⟩, _, ⟨hbs, rfl⟩, rfl⟩

/-! ### Definitions -/

/-- No two instructions that yield values have one number. -/
def Unambiguous (f : Func) : Prop :=
  ∀ (id i j k l : Nat) (a b : Block), f.blocks[i]? = some a → a.Defines id k →
    f.blocks[j]? = some b → b.Defines id l → i = j ∧ k = l

theorem findIdx?_eq_some {b : Block} {id k : Nat}
    (h : b.insts.findIdx? (fun i => i.id == id && i.op.yieldsValue) = some k) :
    b.Defines id k := by
  obtain ⟨hlt, hp, _⟩ := List.findIdx?_eq_some_iff_getElem.mp h
  simp only [Bool.and_eq_true, beq_iff_eq] at hp
  exact ⟨_, List.getElem?_eq_getElem hlt, hp⟩

theorem findIdx?_eq_none {b : Block} {id k : Nat}
    (h : b.insts.findIdx? (fun i => i.id == id && i.op.yieldsValue) = none) :
    ¬ b.Defines id k := by
  rintro ⟨i, hi, hid, hv⟩
  have := List.findIdx?_eq_none_iff.mp h i (List.mem_of_getElem? hi)
  simp [hid, hv] at this

theorem siteFrom_eq_some {id bi : Nat} {bs : List Block} {s : Site}
    (h : siteFrom id bi bs = some s) :
    ∃ j b k, bs[j]? = some b ∧ b.Defines id k ∧ s = ⟨bi + j, k + 1⟩ := by
  induction bs generalizing bi with
  | nil => cases h
  | cons b bs ih =>
    rw [siteFrom] at h
    split at h
    · rename_i k hk
      cases h
      exact ⟨0, b, k, rfl, findIdx?_eq_some hk, rfl⟩
    · obtain ⟨j, c, k, hc, hdef, rfl⟩ := ih h
      exact ⟨j + 1, c, k, hc, hdef, by simp; omega⟩

theorem siteFrom_eq_none {id bi : Nat} {bs : List Block} (h : siteFrom id bi bs = none) {j k : Nat}
    {b : Block} (hb : bs[j]? = some b) : ¬ b.Defines id k := by
  induction bs generalizing bi j with
  | nil => cases hb
  | cons c bs ih =>
    rw [siteFrom] at h
    split at h
    · cases h
    · rename_i hnone
      cases j with
      | zero =>
        cases hb
        exact findIdx?_eq_none hnone
      | succ j => exact ih h hb

theorem siteFrom_eq_some_iff (hf : f.Unambiguous) {id : Nat} {s : Site} :
    siteFrom id 0 f.blocks = some s ↔
      ∃ j b k, f.blocks[j]? = some b ∧ b.Defines id k ∧ s = ⟨j, k + 1⟩ := by
  constructor
  · intro h
    simpa using siteFrom_eq_some h
  · rintro ⟨j, b, k, hb, hdef, rfl⟩
    rcases h : siteFrom id 0 f.blocks with _ | s
    · exact absurd hdef (siteFrom_eq_none h hb)
    · obtain ⟨j', b', k', hb', hdef', rfl⟩ := siteFrom_eq_some h
      obtain ⟨rfl, rfl⟩ := hf id j j' k k' b b' hb hdef hb' hdef'
      simp

/-! ### Operands -/

/-- A definition is seen from a use exactly if on every path to the use it comes first. -/
theorem seen_iff {j k bi ii : Nat} (h0 : f.blocks ≠ []) (hreach : ∃ before, f.Trace before bi) :
    (if j = bi then k < ii else f.graph.dominators.marks bi j = true) ↔
      ∀ before, f.Trace before bi → (j = bi ∧ k < ii) ∨ j ∈ before := by
  have hlength : 0 < f.graph.length := by
    simpa [graph] using List.length_pos_iff.mpr h0
  split
  · rename_i hj
    constructor
    · intro hk before _
      exact .inl ⟨hj, hk⟩
    · intro h
      obtain ⟨_, htrace⟩ := hreach
      obtain ⟨before, hfirst, hnot⟩ := (path_graph_iff.mpr htrace).exists_first
      rcases h before (path_graph_iff.mp hfirst) with h | h
      · exact h.2
      · exact absurd (hj ▸ h) hnot
  · rename_i hj
    simp only [← path_graph_iff] at hreach
    rw [Flow.marks_dominators_iff graph_closed hlength hreach]
    constructor
    · intro h before htrace
      exact .inr (List.mem_of_ne_of_mem hj (h before (path_graph_iff.mpr htrace)))
    · intro h before hpath
      rcases h before (path_graph_iff.mp hpath) with h | h
      · exact absurd h.1 hj
      · exact List.mem_cons_of_mem _ h

theorem available_result_iff (hf : f.Unambiguous) {fi bi ii j k id : Nat} {t : Typ} {b : Block}
    {before : List Nat} (hb : f.blocks[j]? = some b) (hdef : b.Defines id k) :
    f.Available fi before bi ii (.result id t) ↔ (j = bi ∧ k < ii) ∨ j ∈ before := by
  unfold Available
  constructor
  · rintro (⟨c, l, hc, hdef', hlt⟩ | ⟨i, hi, c, l, hc, hdef'⟩)
    · obtain ⟨rfl, rfl⟩ := hf id j bi k l b c hb hdef hc hdef'
      exact .inl ⟨rfl, hlt⟩
    · obtain ⟨rfl, rfl⟩ := hf id j i k l b c hb hdef hc hdef'
      exact .inr hi
  · rintro (⟨rfl, hlt⟩ | hj)
    · exact .inl ⟨b, k, hb, hdef, hlt⟩
    · exact .inr ⟨j, hj, b, k, hb, hdef⟩

theorem Trace.entry_mem {before : List Nat} {bi : Nat} (h : f.Trace before bi) :
    0 ∈ bi :: before := by
  induction h with
  | entry => exact List.mem_cons_self
  | step _ _ ih => exact List.mem_cons_of_mem _ ih

theorem marks_entry (h0 : f.blocks ≠ []) {bi : Nat} (hreach : ∃ before, f.Trace before bi) :
    f.graph.dominators.marks bi 0 = true := by
  simp only [← path_graph_iff] at hreach
  have hlength : 0 < f.graph.length := by simpa [graph] using List.length_pos_iff.mpr h0
  rw [Flow.marks_dominators_iff graph_closed hlength hreach]
  exact fun before hpath => (path_graph_iff.mp hpath).entry_mem

theorem checkOperand_eq_ok_iff (hf : f.Unambiguous) (h0 : f.blocks ≠ []) {fi bi ii : Nat}
    (hreach : ∃ before, f.Trace before bi) {opcode : Text} {v : Value} :
    f.checkOperand fi f.graph.dominators opcode bi ii v = .ok () ↔
      ∀ before, f.Trace before bi → f.Available fi before bi ii v := by
  obtain ⟨before, htrace⟩ := hreach
  cases v with
  | param g i t =>
    have hparam : f.checkOperand fi f.graph.dominators opcode bi ii (.param g i t) = .ok () ↔
        g = fi ∧ i < f.params.length := by
      by_cases h : g = fi ∧ i < f.params.length
      · simp [checkOperand, Value.isLocal, site?, h, marks_entry h0 ⟨before, htrace⟩]
      · simp [checkOperand, Value.isLocal, site?, h]
    rw [hparam]
    exact ⟨fun h _ _ => h, fun h => h before htrace⟩
  | result id t =>
    rcases hsite : siteFrom id 0 f.blocks with _ | s
    · have hcheck : f.checkOperand fi f.graph.dominators opcode bi ii (.result id t) ≠ .ok () := by
        simp [checkOperand, Value.isLocal, site?, hsite]
      refine ⟨fun h => absurd h hcheck, fun h => ?_⟩
      rcases h before htrace with ⟨b, k, hb, hdef, _⟩ | ⟨j, _, b, k, hb, hdef⟩
      · exact absurd hdef (siteFrom_eq_none hsite hb)
      · exact absurd hdef (siteFrom_eq_none hsite hb)
    · obtain ⟨j, b, k, hb, hdef, rfl⟩ := (siteFrom_eq_some_iff hf).mp hsite
      simp only [available_result_iff hf hb hdef, ← seen_iff h0 ⟨before, htrace⟩]
      by_cases hj : j = bi
      · simp [checkOperand, Value.isLocal, site?, hsite, hj]
      · simp [checkOperand, Value.isLocal, site?, hsite, hj]
  | _ => simp [checkOperand, Value.isLocal, Available]

/-! ### Blocks -/

theorem forM_eq_ok_iff {ε α : Type} {g : α → Except ε Unit} {xs : List α} :
    xs.forM g = .ok () ↔ ∀ x ∈ xs, g x = .ok () := by
  induction xs with
  | nil => simp [pure, Except.pure]
  | cons x xs ih =>
    change (g x >>= fun _ => xs.forM g) = .ok () ↔ _
    rw [bind_unit_eq_ok_iff, ih, List.forall_mem_cons]

section Checks

variable {fi bi ii : Nat} (hf : f.Unambiguous) (h0 : f.blocks ≠ [])
  (hreach : ∃ before, f.Trace before bi)

include hf h0 hreach

theorem checkOperands_eq_ok_iff {opcode : Text} {vs : List Value} :
    f.checkOperands fi f.graph.dominators opcode bi ii vs = .ok () ↔
      ∀ before, f.Trace before bi → ∀ v ∈ vs, f.Available fi before bi ii v := by
  rw [checkOperands, forM_eq_ok_iff]
  simp only [checkOperand_eq_ok_iff hf h0 hreach]
  exact ⟨fun h before ht v hv => h v hv before ht, fun h v hv before ht => h before ht v hv⟩

theorem checkInsts_eq_ok_iff {is : List Inst} :
    f.checkInsts fi f.graph.dominators bi ii is = .ok () ↔
      (∀ i ∈ is, i.op.operands? ≠ none) ∧
        ∀ before, f.Trace before bi → ∀ k i vs, is[k]? = some i → i.op.operands? = some vs →
          ∀ v ∈ vs, f.Available fi before bi (ii + k) v := by
  induction is generalizing ii with
  | nil => simp [checkInsts]
  | cons i is ih =>
    rw [checkInsts]
    rcases hop : i.op.operands? with _ | vs
    · simp [hop, bind, Except.bind, throw, throwThe, MonadExceptOf.throw]
    · rw [bind_unit_eq_ok_iff, checkOperands_eq_ok_iff hf h0 hreach, ih, List.forall_mem_cons]
      constructor
      · rintro ⟨hhead, hsupported, htail⟩
        refine ⟨⟨by simp [hop], hsupported⟩, fun before ht k => ?_⟩
        cases k with
        | zero =>
          intro i' vs' hi hvs
          cases hi
          rw [hop] at hvs
          cases hvs
          exact hhead before ht
        | succ k =>
          have := htail before ht k
          rwa [Nat.add_right_comm] at this
      · rintro ⟨⟨_, hsupported⟩, h⟩
        refine ⟨fun before ht => h before ht 0 i vs rfl hop, hsupported, fun before ht k => ?_⟩
        have := h before ht (k + 1)
        rwa [← Nat.add_assoc, Nat.add_right_comm] at this

theorem checkBlock_eq_ok_iff {b : Block} :
    f.checkBlock fi f.graph.dominators bi b = .ok () ↔
      ∀ before, f.Trace before bi → f.UsesWell fi before bi b := by
  have hcheck : f.checkBlock fi f.graph.dominators bi b = .ok () ↔
      f.checkInsts fi f.graph.dominators bi 0 b.insts = .ok () ∧
        ∀ t, b.term = some t →
          f.checkOperands fi f.graph.dominators t.opcode bi b.insts.length t.operands = .ok () := by
    rw [checkBlock, bind_unit_eq_ok_iff]
    rcases b.term with _ | t <;> simp [pure, Except.pure]
  rw [hcheck, checkInsts_eq_ok_iff hf h0 hreach]
  simp only [checkOperands_eq_ok_iff hf h0 hreach, zero_add]
  constructor
  · rintro ⟨⟨hsupported, hinsts⟩, hterm⟩ before ht
    exact ⟨hsupported, hinsts before ht, fun t hb => hterm t hb before ht⟩
  · intro h
    obtain ⟨before, ht⟩ := hreach
    exact ⟨⟨(h before ht).supported, fun before ht => (h before ht).insts⟩,
      fun t hb before ht => (h before ht).term t hb⟩

end Checks

theorem checkBlocks_eq_ok_iff {fi bi n : Nat} {dom : Flow.Table n} {reached : List Nat}
    {bs : List Block} :
    f.checkBlocks fi dom reached bi bs = .ok () ↔
      ∀ j b, bs[j]? = some b → bi + j ∈ reached → f.checkBlock fi dom (bi + j) b = .ok () := by
  induction bs generalizing bi with
  | nil => simp [checkBlocks]
  | cons b bs ih =>
    have hcons : f.checkBlocks fi dom reached bi (b :: bs) = .ok () ↔
        (bi ∈ reached → f.checkBlock fi dom bi b = .ok ()) ∧
          f.checkBlocks fi dom reached (bi + 1) bs = .ok () := by
      rw [checkBlocks]
      split
      · rename_i hmem
        simp [bind_unit_eq_ok_iff, List.contains_iff_mem.mp hmem]
      · rename_i hmem
        simp [show bi ∉ reached from fun h => hmem (List.contains_iff_mem.mpr h)]
    rw [hcons, ih]
    constructor
    · rintro ⟨hb, hbs⟩ j
      cases j with
      | zero =>
        intro c hc
        cases hc
        exact hb
      | succ j =>
        have := hbs j
        rwa [Nat.add_right_comm] at this
    · intro h
      refine ⟨h 0 b rfl, fun j => ?_⟩
      have := h (j + 1)
      rwa [← Nat.add_assoc, Nat.add_right_comm] at this

/-- A function with blocks passes exactly if it is well formed. -/
theorem verify_eq_ok_iff (hf : f.Unambiguous) (h0 : f.blocks ≠ []) {fi : Nat} :
    f.verify fi = .ok () ↔ f.WellFormed fi := by
  have hgraph : ∀ g, f.flow = .ok g ↔ (∀ b ∈ f.blocks, f.EndsWell b) ∧ g = f.graph :=
    fun g => flowFrom_eq_ok_iff
  have hreached : ∀ bi, bi ∈ f.graph.reachable ↔ ∃ before, f.Trace before bi := by
    intro bi
    simp only [Flow.mem_reachable_iff graph_closed, path_graph_iff]
  have hempty : f.blocks.isEmpty = false := by simpa using h0
  rw [verify, hempty]
  simp only [Bool.false_eq_true, if_false, bind_eq_ok_iff, hgraph, checkBlocks_eq_ok_iff, zero_add]
  constructor
  · rintro ⟨g, ⟨hends, rfl⟩, hblocks⟩
    refine ⟨hends, fun before bi b ht hb => ?_⟩
    exact (checkBlock_eq_ok_iff hf h0 ⟨before, ht⟩).mp
      (hblocks bi b hb ((hreached bi).mpr ⟨before, ht⟩)) before ht
  · intro h
    refine ⟨f.graph, ⟨h.ends, rfl⟩, fun bi b hb hreach => ?_⟩
    exact (checkBlock_eq_ok_iff hf h0 ((hreached bi).mp hreach)).mpr
      fun before ht => h.uses before bi b ht hb

theorem unambiguous_of_nodup (h : (f.insts.map Inst.id).Nodup) : f.Unambiguous := by
  rw [insts, List.map_flatMap, List.nodup_flatMap] at h
  obtain ⟨hblocks, hpairs⟩ := h
  have hid : ∀ {b : Block} {id k : Nat}, b.Defines id k → (b.insts.map Inst.id)[k]? = some id := by
    rintro b id k ⟨i, hi, hid, _⟩
    simp [hi, hid]
  rintro id i j k l a b ha hka hb hlb
  by_cases hij : i = j
  · subst hij
    obtain rfl := Option.some.inj (ha.symm.trans hb)
    refine ⟨rfl, ?_⟩
    have hnodup := hblocks a (List.mem_of_getElem? ha)
    have hk : k < (a.insts.map Inst.id).length := (List.getElem?_eq_some_iff.mp (hid hka)).1
    exact (List.getElem?_inj hk hnodup).mp ((hid hka).trans (hid hlb).symm)
  · have hdisjoint : ∀ {i j : Nat} {a b : Block}, i < j → f.blocks[i]? = some a →
        f.blocks[j]? = some b → List.Disjoint (a.insts.map Inst.id) (b.insts.map Inst.id) := by
      intro i j a b hlt ha hb
      obtain ⟨hi, rfl⟩ := List.getElem?_eq_some_iff.mp ha
      obtain ⟨hj, rfl⟩ := List.getElem?_eq_some_iff.mp hb
      exact List.pairwise_iff_getElem.mp hpairs i j hi hj hlt
    have hma := List.mem_of_getElem? (hid hka)
    have hmb := List.mem_of_getElem? (hid hlb)
    rcases Nat.lt_or_gt_of_ne hij with hlt | hlt
    · exact absurd hmb (hdisjoint hlt ha hb hma)
    · exact absurd hma (hdisjoint hlt hb ha hmb)

end Func

/-! ### Modules -/

/-- Each instruction occurs at one place of the module: no two have one number. -/
def Module.InstsDistinct (m : Module) : Prop := ((m.funcs.flatMap Func.insts).map Inst.id).Nodup

instance (m : Module) : Decidable m.InstsDistinct := inferInstanceAs (Decidable (List.Nodup _))

theorem Module.InstsDistinct.unambiguous {m : Module} (h : m.InstsDistinct) {f : Func}
    (hf : f ∈ m.funcs) : f.Unambiguous := by
  rw [InstsDistinct, List.map_flatMap, List.nodup_flatMap] at h
  exact Func.unambiguous_of_nodup (h.1 f hf)

theorem verifyFrom_eq_ok_iff {fi : Nat} {fs : List Func} :
    verifyFrom fi fs = .ok () ↔ ∀ (j : Nat) (f : Func), fs[j]? = some f → f.verify (fi + j) = .ok () := by
  induction fs generalizing fi with
  | nil => simp [verifyFrom]
  | cons f fs ih =>
    have hhead : (f.verify fi).mapError (fun flaw => (f.name, flaw)) = .ok () ↔
        f.verify fi = .ok () := by
      cases f.verify fi <;> simp [Except.mapError]
    rw [verifyFrom, bind_unit_eq_ok_iff, hhead, ih]
    constructor
    · rintro ⟨hf, hfs⟩ j
      cases j with
      | zero =>
        intro c hc
        cases hc
        exact hf
      | succ j =>
        have := hfs j
        rwa [Nat.add_right_comm] at this
    · intro h
      refine ⟨h 0 f rfl, fun j => ?_⟩
      have := h (j + 1)
      rwa [← Nat.add_assoc, Nat.add_right_comm] at this

/-- Verification passes a module in which each instruction occurs at one place exactly if
each of its functions with blocks is well formed. -/
theorem Module.verify_eq_ok_iff_wellFormed (m : Module) (h : m.InstsDistinct) :
    m.verify = .ok () ↔
      ∀ (fi : Nat) (f : Func), m.funcs[fi]? = some f → f.blocks ≠ [] → f.WellFormed fi := by
  rw [verify, verifyFrom_eq_ok_iff]
  simp only [zero_add]
  constructor
  · intro hall fi f hf h0
    exact (Func.verify_eq_ok_iff (h.unambiguous (List.mem_of_getElem? hf)) h0).mp (hall fi f hf)
  · intro hall fi f hf
    by_cases h0 : f.blocks = []
    · simp [Func.verify, h0]
    · exact (Func.verify_eq_ok_iff (h.unambiguous (List.mem_of_getElem? hf)) h0).mpr
        (hall fi f hf h0)

/-- A function that counts its argument down in a loop, next to an external one. -/
def countdown : Module :=
  { funcs :=
      [{ name := "puts", params := [([], .i8ptr)], result := .i32 },
        { name := "count", params := [("n", .i64)], result := .i64,
          blocks :=
            [{ id := 0, role := .entry, term := some (.br 1),
                insts := [⟨0, .alloca "n.addr" .i64⟩,
                  ⟨1, .store (.param 1 0 .i64) (.result 0 (.pointer .i64))⟩] },
              { id := 1, role := .whileCond,
                term := some (.condBr (.result 3 .i1) 2 3),
                insts := [⟨2, .load .i64 (.result 0 (.pointer .i64))⟩,
                  ⟨3, .icmp .sgt (.result 2 .i64) (.int 64 0)⟩] },
              { id := 2, role := .whileBody, term := some (.br 1),
                insts := [⟨4, .arith .sub (.result 2 .i64) (.int 64 1)⟩,
                  ⟨5, .store (.result 4 .i64) (.result 0 (.pointer .i64))⟩] },
              { id := 3, role := .whileEnd, term := some (.ret (some (.result 2 .i64))),
                insts := [] }] }] }

theorem countdown_wellFormed :
    countdown.InstsDistinct ∧ countdown.verify = .ok () ∧
      ∀ (fi : Nat) (f : Func), countdown.funcs[fi]? = some f → f.blocks ≠ [] → f.WellFormed fi := by
  have hdistinct : countdown.InstsDistinct := by decide
  have hverify : countdown.verify = .ok () := by cbv
  exact ⟨hdistinct, hverify, (Module.verify_eq_ok_iff_wellFormed countdown hdistinct).mp hverify⟩

end Augite.IR
