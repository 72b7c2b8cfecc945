import Augite.Proofs.AnalysisErrors
import Augite.Proofs.LoweredProgram
import Augite.Proofs.ParsedShape
import Augite.Proofs.Verification
import Augite.Compile

/-!
# The module of a lowered program

A program that was read, is orderly and was found correct is lowered to a module that
verification passes and that is well typed. Analysis refuses programs that were read with
semantic errors only.
-/

namespace Augite

/-- The number of conversions of ints to floats in a module. -/
def IR.Module.conversions (m : IR.Module) : Nat :=
  (m.funcs.map fun f => (f.blocks.map fun b => Lowering.conversionsIn b.insts).sum).sum

namespace Lowering

open IR (Block Func Inst Value)

/-! ### Blocks of a function -/

/-- A draft as a block. -/
def Draft.block (d : Draft) (id : Nat) : Block :=
  { id, role := d.role, insts := d.insts, term := d.term }

theorem mem_blocksFrom_iff {func id : Nat} {ds : List Draft} {b : Block} :
    b ∈ blocksFrom func id ds ↔
      ∃ (k : Nat) (d : Draft), ds[k]? = some d ∧ d.func = func ∧ b = d.block (id + k) := by
  induction ds generalizing id with
  | nil => simp [blocksFrom]
  | cons d ds ih =>
    have htail : b ∈ blocksFrom func (id + 1) ds ↔
        ∃ k e, (d :: ds)[k + 1]? = some e ∧ e.func = func ∧ b = e.block (id + (k + 1)) := by
      rw [ih]
      simp only [List.getElem?_cons_succ, Nat.add_assoc, Nat.add_comm 1]
    have hhead : (d.func = func ∧ b = d.block id) ↔
        ∃ e, (d :: ds)[0]? = some e ∧ e.func = func ∧ b = e.block (id + 0) := by
      simp
    have hmem : b ∈ blocksFrom func id (d :: ds) ↔
        (d.func = func ∧ b = d.block id) ∨ b ∈ blocksFrom func (id + 1) ds := by
      rw [blocksFrom]
      by_cases h : d.func = func
      · simp [h, Draft.block]
      · simp [h]
    rw [hmem, hhead, htail]
    constructor
    · rintro (⟨e, he⟩ | ⟨k, e, he⟩)
      · exact ⟨0, e, he⟩
      · exact ⟨k + 1, e, he⟩
    · rintro ⟨_ | k, e, he⟩
      · exact .inl ⟨e, he⟩
      · exact .inr ⟨k, e, he⟩

/-- Blocks stand in the order of their numbers. -/
theorem pairwise_blocksFrom (func id : Nat) (ds : List Draft) :
    (blocksFrom func id ds).Pairwise fun a b => a.id < b.id := by
  induction ds generalizing id with
  | nil => exact .nil
  | cons d ds ih =>
    rw [blocksFrom]
    split
    · refine .cons (fun b hb => ?_) (ih (id + 1))
      obtain ⟨k, e, -, -, rfl⟩ := mem_blocksFrom_iff.mp hb
      simp only [Draft.block]
      omega
    · exact ih (id + 1)

theorem flatMap_range_single {α : Type} {n k : Nat} (hk : k < n) (x : α) :
    ((List.range n).flatMap fun i => if k = i then [x] else []) = [x] := by
  induction n with
  | zero => cases hk
  | succ n ih =>
    rw [List.range_succ, List.flatMap_append, List.flatMap_singleton]
    by_cases hkn : k = n
    · have hnone : ((List.range n).flatMap fun i => if k = i then [x] else []) = [] := by
        rw [List.flatMap_eq_nil_iff]
        intro i hi
        have := List.mem_range.mp hi
        exact if_neg (by omega)
      rw [hnone, if_pos hkn, List.nil_append]
    · rw [ih (by omega), if_neg hkn, List.append_nil]

/-- Each draft is a block of one function. -/
theorem perm_blocksFrom {n : Nat} {ds : List Draft} (h : ∀ d ∈ ds, d.func < n) (id : Nat) :
    ((List.range n).flatMap fun i => blocksFrom i id ds).Perm
      (ds.mapIdx fun k d => d.block (id + k)) := by
  induction ds generalizing id with
  | nil => simp [blocksFrom]
  | cons d ds ih =>
    have hcons : (fun i => blocksFrom i id (d :: ds)) = fun i =>
        (if d.func = i then [d.block id] else []) ++ blocksFrom i (id + 1) ds := by
      funext i
      rw [blocksFrom]
      split <;> rfl
    have hshift : (fun k (e : Draft) => e.block (id + (k + 1))) = fun k e => e.block (id + 1 + k) := by
      funext k e
      rw [Nat.add_assoc, Nat.add_comm 1]
    rw [hcons, List.mapIdx_cons, hshift]
    refine (List.flatMap_append_perm _ _ _).symm.trans ?_
    rw [flatMap_range_single (h d List.mem_cons_self)]
    exact (ih (fun e he => h e (List.mem_cons_of_mem _ he)) (id + 1)).cons _

namespace State

variable {s : State}

theorem mem_blocks_iff {func : Nat} {b : Block} :
    b ∈ blocksFrom func 0 s.arena ↔
      ∃ (k : Nat) (d : Draft), s.draft? k = some d ∧ d.func = func ∧ b = d.block k := by
  rw [mem_blocksFrom_iff]
  simp only [Nat.zero_add]
  rfl

theorem module_funcs (s : State) (fi : Nat) :
    s.module.funcs[fi]? = (s.heads[fi]?).map fun h => { h with blocks := blocksFrom fi 0 s.arena } := by
  simp [module, List.getElem?_mapIdx]

/-- A function of the module is one of the heads with its blocks. -/
theorem exists_head {fi : Nat} {f : Func} (h : s.module.funcs[fi]? = some f) :
    ∃ head, s.heads[fi]? = some head ∧ f = { head with blocks := blocksFrom fi 0 s.arena } := by
  rw [module_funcs, Option.map_eq_some_iff] at h
  obtain ⟨head, hhead, rfl⟩ := h
  exact ⟨head, hhead, rfl⟩

theorem exists_term (hclosed : ∀ b, ¬ s.IsOpen b) {b : Nat} {d : Draft}
    (hd : s.draft? b = some d) : ∃ t, d.term = some t := by
  rcases h : d.term with _ | t
  · exact absurd (isOpen_iff.mpr ⟨d, hd, h⟩) (hclosed b)
  · exact ⟨t, rfl⟩

theorem yieldsValue_of_isAlloca {op : IR.Op} (h : op.isAlloca = true) : op.yieldsValue = true := by
  cases op <;> first | rfl | cases h

/-! ### Verification -/

section

variable {fi : Nat} {f : Func}

/-- Stack slots stand in the first block of their function. -/
theorem index_of_alloca (hs : s.Sound) (hf : s.module.funcs[fi]? = some f) {j : Nat} {b : Block}
    (hb : f.blocks[j]? = some b) {i : Inst} (hi : i ∈ b.insts) (hslot : i.op.isAlloca = true) :
    j = 0 := by
  obtain ⟨head, -, rfl⟩ := exists_head hf
  by_contra hj
  obtain ⟨hlt, hget⟩ := List.getElem?_eq_some_iff.mp hb
  obtain ⟨c, d, hd, hfunc, rfl⟩ := mem_blocks_iff.mp (List.mem_of_getElem? hb)
  have hpos : 0 < (blocksFrom fi 0 s.arena).length := Nat.zero_lt_of_lt hlt
  have hfirst : (blocksFrom fi 0 s.arena)[0] ∈ blocksFrom fi 0 s.arena := List.getElem_mem hpos
  obtain ⟨c₀, d₀, hd₀, hfunc₀, hblock₀⟩ := mem_blocks_iff.mp hfirst
  have horder := List.pairwise_iff_getElem.mp (pairwise_blocksFrom fi 0 s.arena) 0 j
    hpos hlt (Nat.pos_of_ne_zero hj)
  rw [hget, hblock₀] at horder
  have hallocas : d.allocas ≠ [] := List.ne_nil_of_mem (List.mem_filter.mpr ⟨hi, hslot⟩)
  exact hs.homes c d hd hallocas c₀ d₀ horder hd₀ (hfunc₀.trans hfunc.symm)

/-- What was at hand when code was emitted is available on every path. -/
theorem available_of_sound (hs : s.Sound) (hf : s.module.funcs[fi]? = some f) {before : List Nat}
    {bi ii : Nat} {b : Block} (ht : f.Trace before bi) (hb : f.blocks[bi]? = some b)
    (hslots : ∀ k i, b.insts[k]? = some i → i.op.isAlloca = true → k < ii) {v : Value}
    (hv : s.Available fi (b.insts.take ii) v) : f.Available fi before bi ii v := by
  cases v with
  | param g i t =>
    obtain ⟨head, hhead, rfl⟩ := exists_head hf
    obtain ⟨hg, h, p, hget, hp, -⟩ := hv
    obtain rfl := Option.some.inj (hhead.symm.trans hget)
    exact ⟨hg, (List.getElem?_eq_some_iff.mp hp).1⟩
  | result id t =>
    rcases hv with ⟨i, hi, hyields, hvalue⟩ | ⟨c, d, hd, hfunc, i, hi, hslot, hvalue⟩
    · obtain ⟨k, hk⟩ := List.mem_iff_getElem?.mp hi
      have hlt : k < ii := by
        have := (List.getElem?_eq_some_iff.mp hk).1
        simp only [List.length_take] at this
        omega
      rw [List.getElem?_take_of_lt hlt] at hk
      exact .inl ⟨b, k, hb, ⟨i, hk, (Value.result.inj hvalue).1, hyields⟩, hlt⟩
    · have hmem : d.block c ∈ f.blocks := by
        obtain ⟨head, -, rfl⟩ := exists_head hf
        exact mem_blocks_iff.mpr ⟨c, d, hd, hfunc, rfl⟩
      obtain ⟨j, hj⟩ := List.mem_iff_getElem?.mp hmem
      obtain rfl := index_of_alloca hs hf hj hi hslot
      obtain ⟨k, hk⟩ := List.mem_iff_getElem?.mp hi
      have hdef : (d.block c).Defines id k :=
        ⟨i, hk, (Value.result.inj hvalue).1, yieldsValue_of_isAlloca hslot⟩
      rcases List.mem_cons.mp ht.entry_mem with rfl | h0
      · obtain rfl := Option.some.inj (hb.symm.trans hj)
        exact .inl ⟨_, k, hj, hdef, hslots k i hk hslot⟩
      · exact .inr ⟨0, h0, _, k, hj, hdef⟩
  | _ => trivial

/-- Stack slots stand ahead of all other code of their block. -/
theorem lt_of_isAlloca {d : Draft} (hd : d.insts = d.allocas ++ d.code) {k l : Nat} {i j : Inst}
    (hi : d.insts[k]? = some i) (hcode : i.op.isAlloca = false)
    (hj : d.insts[l]? = some j) (hslot : j.op.isAlloca = true) : l < k := by
  have hk : d.allocas.length ≤ k := by
    by_contra hlt
    rw [hd, List.getElem?_append_left (Nat.lt_of_not_le hlt)] at hi
    have hmem := List.mem_of_getElem? hi
    simp only [Draft.allocas, List.mem_filter, hcode] at hmem
    exact absurd hmem.2 Bool.false_ne_true
  have hl : l < d.allocas.length := by
    by_contra hle
    rw [hd, List.getElem?_append_right (Nat.le_of_not_lt hle)] at hj
    have hmem := List.mem_of_getElem? hj
    simp only [Draft.code, List.mem_filter, hslot] at hmem
    exact absurd hmem.2 Bool.false_ne_true
  exact Nat.lt_of_lt_of_le hl hk

theorem operands?_eq_some_of_wellTyped {op : IR.Op} {structs : List (Text × List IR.Typ)}
    (h : op.WellTyped structs) : op.operands? = some op.operands := by
  cases op <;> first | rfl | exact h.elim

theorem usesWell_of_sound (hs : s.Sound) (hf : s.module.funcs[fi]? = some f) {before : List Nat}
    {bi : Nat} {b : Block} (ht : f.Trace before bi) (hb : f.blocks[bi]? = some b) :
    f.UsesWell fi before bi b := by
  obtain ⟨c, d, hd, rfl, rfl⟩ : ∃ c d, s.draft? c = some d ∧ d.func = fi ∧ b = d.block c := by
    obtain ⟨head, -, rfl⟩ := exists_head hf
    exact mem_blocks_iff.mp (List.mem_of_getElem? hb)
  have hsplit : ∀ k i, d.insts[k]? = some i → s.InstOk d.func (d.insts.take k) i.op := by
    intro k i hk
    obtain ⟨hlt, hget⟩ := List.getElem?_eq_some_iff.mp hk
    refine hs.insts c d hd _ i (d.insts.drop (k + 1)) ?_
    rw [← hget, List.cons_getElem_drop_succ, List.take_append_drop]
  refine ⟨fun i hi => ?_, fun k i vs hk hvs v hv => ?_, fun t hterm v hv => ?_⟩
  · obtain ⟨k, hk⟩ := List.mem_iff_getElem?.mp hi
    rw [operands?_eq_some_of_wellTyped (hsplit k i hk).typed]
    exact Option.some_ne_none _
  · have hok := hsplit k i hk
    rw [operands?_eq_some_of_wellTyped hok.typed] at hvs
    obtain rfl := Option.some.inj hvs
    refine available_of_sound hs hf ht hb (fun l j hl hslot => ?_) (hok.operands v hv).1
    -- A stack slot has no operands, so that the instruction stands behind all of them.
    have hcode : i.op.isAlloca = false := by
      cases hop : i.op with
      | alloca name t =>
        rw [hop] at hv
        cases hv
      | _ => rfl
    exact lt_of_isAlloca (hs.layout c d hd) hk hcode hl hslot
  · refine available_of_sound hs hf ht hb (fun k i hk _ => ?_) ?_
    · exact (List.getElem?_eq_some_iff.mp hk).1
    · have hop := (hs.terms c d hd t hterm).operands v hv
      simpa [Draft.block] using hop.1

theorem endsWell_of_sound (hs : s.Sound) (hclosed : ∀ b, ¬ s.IsOpen b)
    (hf : s.module.funcs[fi]? = some f) {b : Block} (hb : b ∈ f.blocks) : f.EndsWell b := by
  obtain ⟨head, hhead, rfl⟩ := exists_head hf
  obtain ⟨c, d, hd, rfl, rfl⟩ := mem_blocks_iff.mp hb
  obtain ⟨t, hterm⟩ := exists_term hclosed hd
  obtain ⟨⟨h, hget, htyped⟩, hoperands, htargets⟩ := hs.terms c d hd t hterm
  obtain rfl := Option.some.inj (hhead.symm.trans hget)
  refine ⟨⟨t, hterm, ?_⟩, fun v hv => ?_, fun x targets hx hts id hid => ?_⟩
  · rintro rfl
    exact htyped
  · obtain rfl := Option.some.inj (hterm.symm.trans hv)
    cases v with
    | none => exact htyped
    | some v => exact ⟨(hoperands v (by simp [IR.Term.operands])).2, htyped⟩
  · obtain rfl := Option.some.inj (hterm.symm.trans hx)
    have hmem : id ∈ State.targets t := by
      cases t <;> cases hts <;> exact hid
    obtain ⟨e, he, hfunc⟩ := htargets id hmem
    exact ⟨e.block id, mem_blocks_iff.mpr ⟨id, e, he, hfunc, rfl⟩, rfl⟩

theorem unambiguous_of_sound (hs : s.Sound) (hf : s.module.funcs[fi]? = some f) :
    f.Unambiguous := by
  obtain ⟨head, hhead, rfl⟩ := exists_head hf
  refine Func.unambiguous_of_nodup ?_
  rw [Func.insts, List.map_flatMap, List.nodup_flatMap]
  constructor
  · intro b hb
    obtain ⟨c, d, hd, -, rfl⟩ := mem_blocks_iff.mp hb
    exact hs.nodup c d hd
  · refine (pairwise_blocksFrom fi 0 s.arena).imp_of_mem fun {a b} ha hb hlt => ?_
    obtain ⟨c, d, hd, -, rfl⟩ := mem_blocks_iff.mp ha
    obtain ⟨c', d', hd', -, rfl⟩ := mem_blocks_iff.mp hb
    intro id hid hid'
    obtain ⟨i, hi, rfl⟩ := List.mem_map.mp hid
    obtain ⟨j, hj, hji⟩ := List.mem_map.mp hid'
    exact absurd (hs.apart c c' d d' hd hd' i hi j hj hji.symm) (Nat.ne_of_lt hlt)

end

/-- Verification passes the module of a sound state in which no block is open. -/
theorem verify_module (hs : s.Sound) (hclosed : ∀ b, ¬ s.IsOpen b) :
    s.module.verify = .ok () := by
  rw [IR.Module.verify, IR.verifyFrom_eq_ok_iff]
  intro fi f hf
  rw [Nat.zero_add]
  by_cases h0 : f.blocks = []
  · simp [Func.verify, h0]
  · rw [Func.verify_eq_ok_iff (unambiguous_of_sound hs hf) h0]
    exact ⟨fun b hb => endsWell_of_sound hs hclosed hf hb,
      fun before bi b ht hb => usesWell_of_sound hs hf ht hb⟩

/-! ### Typing -/

section

variable {fi : Nat} {f : Func}

theorem refersTo_of_available (hf : s.module.funcs[fi]? = some f) {pre : List Inst}
    (hpre : ∃ b ∈ f.blocks, pre ⊆ b.insts) {v : Value} (hv : s.Available fi pre v) :
    v.RefersTo s.module fi f := by
  obtain ⟨head, hhead, rfl⟩ := exists_head hf
  cases v with
  | const c => trivial
  | global i t => exact hv
  | chars i n => exact hv
  | func i t =>
    obtain ⟨h, hget, ht⟩ := hv
    exact ⟨{ h with blocks := blocksFrom i 0 s.arena }, by rw [module_funcs, hget]; rfl, ht⟩
  | param g i t =>
    obtain ⟨hg, h, p, hget, hp, ht⟩ := hv
    obtain rfl := Option.some.inj (hhead.symm.trans hget)
    exact ⟨hg, p, hp, ht⟩
  | result id t =>
    rcases hv with ⟨i, hi, hyields, hvalue⟩ | ⟨c, d, hd, hfunc, i, hi, hslot, hvalue⟩
    · obtain ⟨b, hb, hsub⟩ := hpre
      exact ⟨b, hb, i, hsub hi, hyields, hvalue⟩
    · exact ⟨d.block c, mem_blocks_iff.mpr ⟨c, d, hd, hfunc, rfl⟩, i, hi,
        yieldsValue_of_isAlloca hslot, hvalue⟩

theorem block_wellTyped (hs : s.Sound) (hclosed : ∀ b, ¬ s.IsOpen b)
    (hf : s.module.funcs[fi]? = some f) {b : Block} (hb : b ∈ f.blocks) :
    b.WellTyped s.module fi f := by
  have hhead := exists_head hf
  obtain ⟨c, d, hd, hfunc, rfl⟩ : ∃ c d, s.draft? c = some d ∧ d.func = fi ∧ b = d.block c := by
    obtain ⟨head, -, rfl⟩ := hhead
    exact mem_blocks_iff.mp hb
  subst hfunc
  refine ⟨fun i hi => ?_, ?_⟩
  · obtain ⟨pre, post, hsplit⟩ := List.append_of_mem hi
    have hok := hs.insts c d hd pre i post hsplit
    refine ⟨hok.typed, fun v hv => ⟨?_, (hok.operands v hv).2⟩⟩
    refine refersTo_of_available hf ⟨_, hb, ?_⟩ (hok.operands v hv).1
    rw [hsplit]
    exact List.subset_append_left _ _
  · obtain ⟨t, hterm⟩ := exists_term hclosed hd
    obtain ⟨⟨h, hget, htyped⟩, hoperands, -⟩ := hs.terms c d hd t hterm
    refine ⟨t, hterm, ?_, fun v hv => ⟨?_, (hoperands v hv).2⟩⟩
    · obtain ⟨head, hhead, rfl⟩ := hhead
      obtain rfl := Option.some.inj (hhead.symm.trans hget)
      exact htyped
    · exact refersTo_of_available hf ⟨_, hb, List.Subset.refl _⟩ (hoperands v hv).1

end

/-- The module of a sound state in which no block is open is well typed. -/
theorem module_wellTyped (hs : s.Sound) (hclosed : ∀ b, ¬ s.IsOpen b)
    (hnames : (s.heads.map Func.name).Nodup) : s.module.WellTyped where
  blocks _ _ hf _ hb := block_wellTyped hs hclosed hf hb
  names := by
    have : s.module.funcs.map Func.name = s.heads.map Func.name := by
      refine List.ext_getElem? fun i => ?_
      simp only [List.getElem?_map, module_funcs, Option.map_map]
      rfl
    rw [this]
    exact hnames

/-- The blocks of a module are those of the arena, each of which belongs to a function. -/
theorem perm_module_blocks (h : ∀ d ∈ s.arena, d.func < s.heads.length) :
    (s.module.funcs.flatMap Func.blocks).Perm (s.arena.mapIdx fun k d => d.block k) := by
  have hfuncs : s.module.funcs.map Func.blocks =
      (List.range s.heads.length).map fun i => blocksFrom i 0 s.arena := by
    refine List.ext_getElem? fun i => ?_
    simp only [List.getElem?_map, module_funcs, Option.map_map]
    by_cases hi : i < s.heads.length
    · rw [List.getElem?_eq_getElem hi, List.getElem?_range hi]
      rfl
    · rw [List.getElem?_eq_none (by omega), List.getElem?_eq_none (by simp; omega)]
      rfl
  have hperm := perm_blocksFrom h 0
  simp only [Nat.zero_add] at hperm
  rwa [List.flatMap_def, ← hfuncs, ← List.flatMap_def] at hperm

/-- The conversions of a module are those of all its blocks. -/
theorem module_conversions (hs : s.Sound) (hclosed : ∀ b, ¬ s.IsOpen b) :
    s.module.conversions = s.conversions := by
  have hfuncs : ∀ d ∈ s.arena, d.func < s.heads.length := by
    intro d hmem
    obtain ⟨c, hd⟩ := List.mem_iff_getElem?.mp hmem
    obtain ⟨t, hterm⟩ := exists_term hclosed hd
    obtain ⟨h, hget, -⟩ := (hs.terms c d hd t hterm).typed
    exact (List.getElem?_eq_some_iff.mp hget).1
  have hperm := ((perm_module_blocks hfuncs).map fun b => conversionsIn b.insts).sum_eq
  rw [List.map_flatMap, List.flatMap_def, List.sum_flatten, List.map_map] at hperm
  refine hperm.trans (congrArg List.sum ?_)
  refine List.ext_getElem? fun i => ?_
  simp only [List.getElem?_map, List.getElem?_mapIdx, Option.map_map]
  rfl

end State

end Lowering

open Lowering in
/-- A program that was found correct in a fresh context is lowered, if it is orderly. -/
theorem Program.Certified.lowers {p p' : Program} {ctx : Context} (h : Certified p ctx p')
    (hp : ∀ n ∈ p.body, n.IsItem) (ho : p.orderly = true) :
    ∃ s p'', p'.lower ctx = (.ok s.module, s.ctx, p'') ∧
      Complete ctx s (Node.itemsWidenings ctx p'.body) := by
  have hshape : ∀ n ∈ p'.body, n.IsItem := Node.isItem_of_bare h.bare hp
  have ho' : p'.orderly = true := (Program.orderly_of_bare h.bare).trans ho
  obtain ⟨body, s, hrun, hs⟩ := program_lowered h.sound hshape h.names h.checked ho'
  refine ⟨s, { p' with body }, ?_, hs⟩
  unfold lower
  rw [h.certified]
  simp only [ne_eq, not_true_eq_false, if_false, hrun]
  rfl

/-- A program with a function, a loop and four ints taken for floats. -/
def averaging : Text :=
  "def mean(total: float, n: int) -> float \x7b if (n == 0) \x7b return 0; \x7d " ++
  "return total / n; \x7d sum: float = 0; for (i: int = 1; i <= 4; i = i + 1) " ++
  "\x7b sum = sum + i; \x7d print(mean(sum, 4));"

theorem averaging_certified : ∃ p ctx p', Program.parse 0 averaging = .ok p ∧ p.orderly = true ∧
    p.analyse {} = (.ok (), ctx, p') ∧ Node.itemsWidenings ctx p'.body = 4 := by
  have hok : (match Program.parse 0 averaging with
      | .ok p =>
        p.orderly && (p.analyse {}).1.isOk &&
          Node.itemsWidenings (p.analyse {}).2.1 (p.analyse {}).2.2.body == 4
      | .error _ => false) = true := by decide +kernel
  rcases hp : Program.parse 0 averaging with e | p
  · rw [hp] at hok
    cases hok
  · simp only [hp, Bool.and_eq_true, beq_iff_eq] at hok
    obtain ⟨⟨ho, hanalysed⟩, hcount⟩ := hok
    rcases hrun : p.analyse {} with ⟨_ | ⟨⟨⟩⟩, ctx, p'⟩
    · rw [hrun] at hanalysed
      cases hanalysed
    · rw [hrun] at hcount
      exact ⟨p, ctx, p', rfl, ho, hrun, hcount⟩

open Lowering in
/-- No program that was read makes analysis fail internally. One that is orderly and was
found correct is lowered, and verification passes its module. -/
theorem Program.lower_verify_of_parse {key : Nat} {source : Text} {p : Program}
    (h : Program.parse key source = .ok p) :
    (∀ ctx e, (p.analyse ctx).1 = .error e → Analysis.IsSemantic e) ∧
    (p.orderly = true → ∀ ctx p', p.analyse {} = (.ok (), ctx, p') →
      ∃ m ctx' p'', p'.lower ctx = (.ok m, ctx', p'') ∧ m.verify = .ok ()) := by
  have hp := Program.parse_isItem h
  refine ⟨fun ctx e he => Program.analyse_error hp ctx he, fun ho ctx p' hrun => ?_⟩
  obtain ⟨s, p'', hlower, hs⟩ := (Program.analyse_certified hp hrun).lowers hp ho
  exact ⟨s.module, s.ctx, p'', hlower, State.verify_module hs.sound hs.closed⟩

theorem averaging_lower_verify : ∃ p ctx p' m ctx' p'', Program.parse 0 averaging = .ok p ∧
    p.orderly = true ∧ p.analyse {} = (.ok (), ctx, p') ∧ p'.lower ctx = (.ok m, ctx', p'') ∧
    m.verify = .ok () := by
  obtain ⟨p, ctx, p', hp, ho, hrun, -⟩ := averaging_certified
  obtain ⟨m, ctx', p'', hlower, hverify⟩ :=
    (Program.lower_verify_of_parse hp).2 ho ctx p' hrun
  exact ⟨p, ctx, p', m, ctx', p'', hp, ho, hrun, hlower, hverify⟩

open Lowering in
/-- An orderly program that was read and found correct is lowered to a well typed module,
whose structures are the classes of the program. It converts ints to floats as often as the
program takes an int for a float. The value of an expression has the type that the
expression is annotated with. -/
theorem Program.lower_wellTyped_of_parse {key : Nat} {source : Text} {p p' : Program}
    {ctx : Context} (h : Program.parse key source = .ok p) (ho : p.orderly = true)
    (hrun : p.analyse {} = (.ok (), ctx, p')) :
    ∃ m ctx' p'', p'.lower ctx = (.ok m, ctx', p'') ∧ m.WellTyped ∧
      m.structs = ctx.classes.map ClassDef.ir ∧
      m.conversions = Node.itemsWidenings ctx p'.body ∧
      ∀ (Γ : Environment) (x : Node) (t : Ty) (s : State),
        Typing.HasType ctx Γ x t → Ready ctx s → Linked ctx Γ s →
        ∃ v u, (Emit.expr x).run s = (.ok v, u) ∧ v.type = x.type.ir ∧
          u.conversions = s.conversions + x.widenings ctx := by
  have hp := Program.parse_isItem h
  have hc := Program.analyse_certified hp hrun
  obtain ⟨s, p'', hlower, hs⟩ := hc.lowers hp ho
  refine ⟨s.module, s.ctx, p'', hlower,
    State.module_wellTyped hs.sound hs.closed hs.stocked.names, hs.stocked.structs,
    (State.module_conversions hs.sound hs.closed).trans hs.count, fun Γ x t u hx hu hlink => ?_⟩
  obtain ⟨v, w, hexpr, hy⟩ := expr_yields hc.sound hx hu hlink
  exact ⟨v, w, hexpr, hx.type_eq ▸ hy.type, hy.count⟩

theorem averaging_lower_wellTyped : ∃ p ctx p' m ctx' p'', Program.parse 0 averaging = .ok p ∧
    p.orderly = true ∧ p.analyse {} = (.ok (), ctx, p') ∧ p'.lower ctx = (.ok m, ctx', p'') ∧
    m.WellTyped ∧ m.conversions = 4 := by
  obtain ⟨p, ctx, p', hp, ho, hrun, hcount⟩ := averaging_certified
  obtain ⟨m, ctx', p'', hlower, htyped, -, hconv, -⟩ :=
    Program.lower_wellTyped_of_parse hp ho hrun
  exact ⟨p, ctx, p', m, ctx', p'', hp, ho, hrun, hlower, htyped, hconv.trans hcount⟩

end Augite
