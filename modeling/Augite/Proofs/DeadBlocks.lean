import Augite.Proofs.LoweredModule

/-!
# Dead blocks

The blocks that lowering marks as unreachable are those that no path from the first block of
their function comes to, and there is no code in them.
-/

namespace Augite

namespace Lowering

open Relation (ReflTransGen)

/-- Where lowering of a correct program ends, every block is charted, and those with blocks
are the functions of the program and the entry point. -/
theorem program_mapped {u : State} {F : Context} (hF : F.Sound) {ns ns' : List Node}
    (hshape : ∀ n ∈ ns, n.IsItem) (hnames : F.funcs.names = Node.functionNames ns)
    (hn : Typing.CheckedItems F 0 {} ns) (hrun : (program ns).run { ctx := F } = (.ok ns', u)) :
    u.Mapped ∅ ∧ ns.filterMap Node.head? ++ [mainHead] <+: u.heads ∧
      ∀ b x, u.outline b = some x → x.1 ≤ (ns.filterMap Node.head?).length := by
  have hnodup : (Node.functionNames ns).Nodup := hnames ▸ hF.names
  rw [program_run hF hn] at hrun
  simp only [Pass.bind_ok_iff, emit_ok_iff] at hrun
  obtain ⟨body, s, hitems, _, t, hfinish, _, _, hchange, hret⟩ := hrun
  cases hchange
  cases hret
  obtain ⟨-, hs, hheads, hfuncs⟩ := items_lowers hshape hnodup (startState_paced F hnodup) hitems
  have hmain := finishMain_onward hs hfinish
  refine ⟨hmain.mapped.congr rfl rfl, ?_, fun b x hx => ?_⟩
  · rw [startState_eq] at hheads
    exact hheads.trans hmain.continues.heads
  · obtain ⟨c, y, hc⟩ := hmain.owned hs hx
    rcases hfuncs c _ hc with ⟨name, hname, hfunc⟩ | ⟨e, z, he⟩
    · exact hfunc ▸ (startState_funcOf_lt F hnodup hname).le
    · exact (startState_owner F he).le

/-! ### The module -/

namespace State

open IR (Block Func)

variable {s : State} {fi : Nat} {f : Func}

theorem blockIndex?_of_draft? (hf : s.module.funcs[fi]? = some f) {c : Nat} {d : Draft}
    (hd : s.draft? c = some d) (hfunc : d.func = fi) :
    ∃ j, f.blockIndex? c = some j ∧ f.blocks[j]? = some (d.block c) := by
  obtain ⟨head, -, rfl⟩ := exists_head hf
  have hmem : d.block c ∈ blocksFrom fi 0 s.arena := mem_blocks_iff.mpr ⟨c, d, hd, hfunc, rfl⟩
  obtain ⟨j, hj⟩ := (Func.exists_blockIndex?_iff
    (f := { head with blocks := blocksFrom fi 0 s.arena })).mpr ⟨_, hmem, rfl⟩
  refine ⟨j, hj, ?_⟩
  obtain ⟨hlt, hid, -⟩ := List.findIdx?_eq_some_iff_getElem.mp hj
  obtain ⟨c', d', hd', -, hblock⟩ := mem_blocks_iff.mp (List.getElem_mem hlt)
  rw [hblock] at hid
  obtain rfl : c' = c := by simpa [Draft.block] using hid
  rw [hd] at hd'
  cases hd'
  rw [List.getElem?_eq_getElem hlt, hblock]

theorem blockIndex?_of_getElem? (hf : s.module.funcs[fi]? = some f) {i : Nat} {b : Block}
    (hb : f.blocks[i]? = some b) : f.blockIndex? b.id = some i := by
  obtain ⟨head, -, rfl⟩ := exists_head hf
  obtain ⟨hlt, hget⟩ := List.getElem?_eq_some_iff.mp hb
  refine List.findIdx?_eq_some_iff_getElem.mpr ⟨hlt, by simp [hget], fun j hj => ?_⟩
  have horder := List.pairwise_iff_getElem.mp (pairwise_blocksFrom fi 0 s.arena) j i
    (Nat.lt_trans hj hlt) hlt hj
  rw [hget] at horder
  simp only [beq_iff_eq]
  exact Nat.ne_of_lt horder

theorem exists_draft (hf : s.module.funcs[fi]? = some f) {i : Nat} {b : Block}
    (hb : f.blocks[i]? = some b) : ∃ c d, s.draft? c = some d ∧ d.func = fi ∧ b = d.block c := by
  obtain ⟨head, -, rfl⟩ := exists_head hf
  exact mem_blocks_iff.mp (List.mem_of_getElem? hb)

theorem first_iff (hf : s.module.funcs[fi]? = some f) {c : Nat} :
    s.outline.First fi c ↔ f.blockIndex? c = some 0 := by
  -- The first block of the module's function is the first one in the arena.
  have hzero : ∀ c, f.blockIndex? c = some 0 → s.outline.First fi c := by
    intro c hc
    obtain ⟨hlt, hid, -⟩ := List.findIdx?_eq_some_iff_getElem.mp hc
    obtain ⟨c', d, hd, hfunc, hblock⟩ := exists_draft hf (List.getElem?_eq_getElem hlt)
    rw [hblock] at hid
    obtain rfl : c' = c := by simpa [Draft.block] using hid
    refine ⟨⟨d.term, outline_eq_some_iff.mpr ⟨d, hd, hfunc, rfl⟩⟩, fun e x he hx => ?_⟩
    obtain ⟨d', hd', hfunc', -⟩ := outline_eq_some_iff.mp hx
    obtain ⟨j, hj, hget⟩ := blockIndex?_of_draft? hf hd' hfunc'
    obtain ⟨hlt', hget⟩ := List.getElem?_eq_some_iff.mp hget
    rcases Nat.eq_zero_or_pos j with rfl | hpos
    · rw [hblock] at hget
      have : c' = e := congrArg Block.id hget
      omega
    · obtain ⟨head, -, rfl⟩ := exists_head hf
      have horder := List.pairwise_iff_getElem.mp (pairwise_blocksFrom fi 0 s.arena) 0 j hlt hlt' hpos
      rw [hblock, hget] at horder
      simp only [Draft.block] at horder
      omega
  refine ⟨fun hfirst => ?_, hzero c⟩
  obtain ⟨⟨x, hx⟩, -⟩ := id hfirst
  obtain ⟨d, hd, hfunc, -⟩ := outline_eq_some_iff.mp hx
  obtain ⟨j, -, hget⟩ := blockIndex?_of_draft? hf hd hfunc
  have hlt : 0 < f.blocks.length := Nat.zero_lt_of_lt (List.getElem?_eq_some_iff.mp hget).1
  have hindex := blockIndex?_of_getElem? hf (List.getElem?_eq_getElem hlt)
  rw [Outline.First.unique hfirst (hzero _ hindex)]
  exact hindex

/-- The branches of a function in the arena are those in the module. -/
theorem edge_iff (hf : s.module.funcs[fi]? = some f) {a b i j : Nat} {d : Draft}
    (ha : s.draft? a = some d) (hfunc : d.func = fi) (hi : f.blockIndex? a = some i)
    (hj : f.blockIndex? b = some j) : f.Edge i j ↔ s.outline.Leads a b := by
  obtain ⟨i', hi', hget⟩ := blockIndex?_of_draft? hf ha hfunc
  obtain rfl := Option.some.inj (hi.symm.trans hi')
  constructor
  · rintro ⟨b', t, targets, id, hb', hterm, htargets, hid, hidj⟩
    rw [hget] at hb'
    cases hb'
    obtain ⟨hlt, hbid, -⟩ := List.findIdx?_eq_some_iff_getElem.mp hj
    obtain ⟨_, hidid, -⟩ := List.findIdx?_eq_some_iff_getElem.mp hidj
    obtain rfl : b = id := (beq_iff_eq.mp hbid).symm.trans (beq_iff_eq.mp hidid)
    refine ⟨d.func, t, outline_eq_some_iff.mpr ⟨d, ha, rfl, hterm⟩, ?_⟩
    cases t <;> cases htargets <;> exact hid
  · rintro ⟨g, t, ht, hb⟩
    obtain ⟨d', hd', -, hterm⟩ := outline_eq_some_iff.mp ht
    rw [ha] at hd'
    cases hd'
    refine ⟨d.block a, t, State.targets t, b, hget, hterm, ?_, hb, hj⟩
    cases t <;> first | rfl | cases hb

theorem trace_of_reaches (hs : s.outline.Charted ∅) (hf : s.module.funcs[fi]? = some f) {e b : Nat}
    (he : s.outline.First fi e) (h : ReflTransGen s.outline.Leads e b) :
    ∃ before j d, f.Trace before j ∧ f.blockIndex? b = some j ∧ s.draft? b = some d ∧
      d.func = fi := by
  induction h with
  | refl =>
    obtain ⟨⟨x, hx⟩, -⟩ := id he
    obtain ⟨d, hd, hfunc, -⟩ := outline_eq_some_iff.mp hx
    exact ⟨[], 0, d, .entry, (first_iff hf).mp he, hd, hfunc⟩
  | @tail a b _ hab ih =>
    obtain ⟨before, i, d, htrace, hi, hd, hfunc⟩ := ih
    obtain ⟨g, x, y, ha, hb, -⟩ := hs.edges a b hab
    obtain ⟨d', hd', hfunc', -⟩ := outline_eq_some_iff.mp ha
    rw [hd] at hd'
    cases hd'
    obtain ⟨d'', hd'', hfunc'', -⟩ := outline_eq_some_iff.mp hb
    have hbf : d''.func = fi := hfunc''.trans (hfunc'.symm.trans hfunc)
    obtain ⟨j, hj, -⟩ := blockIndex?_of_draft? hf hd'' hbf
    exact ⟨i :: before, j, d'', htrace.step ((edge_iff hf hd hfunc hi hj).mpr hab), hj, hd'', hbf⟩

theorem not_trace_of_unreachable (hs : s.outline.Charted ∅) (hf : s.module.funcs[fi]? = some f)
    {i : Nat} {b : Block} (hb : f.blocks[i]? = some b) (hterm : b.term = some .unreachable)
    {before : List Nat} : ¬ f.Trace before i := by
  obtain ⟨c, d, hd, hfunc, rfl⟩ := exists_draft hf hb
  have hout : s.outline c = some (fi, some .unreachable) :=
    outline_eq_some_iff.mpr ⟨d, hd, hfunc, hterm⟩
  have hc := blockIndex?_of_getElem? hf hb
  intro htrace
  cases htrace with
  | entry => exact hs.first fi c ((first_iff hf).mpr hc) hout
  | @step _ k _ _ hedge =>
    obtain ⟨a, _, _, _, ha, -⟩ := id hedge
    obtain ⟨c', d', hd', hfunc', rfl⟩ := exists_draft hf ha
    have hlead := (edge_iff hf hd' hfunc' (blockIndex?_of_getElem? hf ha) hc).mp hedge
    obtain ⟨g, x, y, -, hy, hne⟩ := hs.edges c' c hlead
    rw [hout] at hy
    cases hy
    exact hne rfl

theorem unreachable_iff (hs : s.outline.Charted ∅) (hf : s.module.funcs[fi]? = some f) {i : Nat}
    {b : Block} (hb : f.blocks[i]? = some b) :
    b.term = some .unreachable ↔ ¬ ∃ before, f.Trace before i := by
  constructor
  · rintro hterm ⟨before, htrace⟩
    exact not_trace_of_unreachable hs hf hb hterm htrace
  · intro hnone
    obtain ⟨c, d, hd, hfunc, rfl⟩ := exists_draft hf hb
    rcases hs.live c fi d.term (outline_eq_some_iff.mpr ⟨d, hd, hfunc, rfl⟩) (fun h => h) with
      hdead | ⟨e, he, hreach⟩
    · exact hdead
    · obtain ⟨before, j, _, htrace, hj, -⟩ := trace_of_reaches hs hf he hreach
      have hi : f.blockIndex? c = some i := blockIndex?_of_getElem? hf hb
      obtain rfl := Option.some.inj (hj.symm.trans hi)
      exact absurd ⟨before, htrace⟩ hnone

end State

end Lowering

theorem Program.Certified.run_of_lower {p p' p'' : Program} {ctx ctx' : Context} {m : IR.Module}
    (hc : Certified p ctx p') (hlower : p'.lower ctx = (.ok m, ctx', p'')) :
    ∃ s, (Lowering.program p'.body).run { ctx } = (.ok p''.body, s) ∧ m = s.module := by
  unfold Program.lower at hlower
  rw [hc.certified] at hlower
  simp only [ne_eq, not_true_eq_false, if_false] at hlower
  rcases hr : (Lowering.program p'.body).run { ctx } with ⟨e | body, s⟩
  · rw [hr] at hlower
    cases hlower
  rw [hr] at hlower
  cases hlower
  exact ⟨s, rfl, rfl⟩

/-- The state in which lowering of a correct program ends. -/
theorem Program.Certified.lowered {p p' p'' : Program} {ctx ctx' : Context} {m : IR.Module}
    (hc : Certified p ctx p') (hp : ∀ n ∈ p.body, n.IsItem)
    (hlower : p'.lower ctx = (.ok m, ctx', p'')) :
    ∃ s : Lowering.State, m = s.module ∧ s.Mapped ∅ ∧
      p'.body.filterMap Node.head? ++ [Lowering.mainHead] <+: s.heads ∧
      ∀ b x, s.outline b = some x → x.1 ≤ (p'.body.filterMap Node.head?).length := by
  obtain ⟨s, hr, rfl⟩ := hc.run_of_lower hlower
  exact ⟨s, rfl, Lowering.program_mapped hc.sound (Node.isItem_of_bare hc.bare hp) hc.names
    hc.checked hr⟩

/-- In the module of a correct program the blocks marked as unreachable are those that no
path from the first block of their function comes to, and there is no code in them. -/
theorem Program.lower_unreachable_iff {key : Nat} {source : Text} {p p' p'' : Program}
    {ctx ctx' : Context} {m : IR.Module} (h : Program.parse key source = .ok p)
    (hrun : p.analyse {} = (.ok (), ctx, p')) (hlower : p'.lower ctx = (.ok m, ctx', p'')) :
    ∀ f ∈ m.funcs, ∀ i b, f.blocks[i]? = some b →
      (b.term = some .unreachable ↔ ¬ ∃ before, f.Trace before i) ∧
        (b.term = some .unreachable → b.insts = []) := by
  have hp := Program.parse_isItem h
  obtain ⟨s, rfl, hs, -⟩ := (Program.analyse_certified hp hrun).lowered hp hlower
  intro f hf i b hb
  obtain ⟨fi, hfi⟩ := List.mem_iff_getElem?.mp hf
  refine ⟨Lowering.State.unreachable_iff hs.charted hfi hb, fun hterm => ?_⟩
  obtain ⟨c, d, hd, -, rfl⟩ := Lowering.State.exists_draft hfi hb
  exact hs.empty c d hd (.inr hterm)

/-- A function whose two arms return and a loop that never comes to its step. -/
def choosing : Text :=
  "def sign(n: int) -> int \x7b for (i: int = 0; i < n; i = i + 1) \x7b return 1; \x7d " ++
  "if (n == 0) \x7b return 0; \x7d else \x7b return 2; \x7d \x7d print(sign(3));"

theorem choosing_lower_unreachable : ∃ p ctx p' m ctx' p'', Program.parse 0 choosing = .ok p ∧
    p.analyse {} = (.ok (), ctx, p') ∧ p'.lower ctx = (.ok m, ctx', p'') ∧
    ∃ f ∈ m.funcs, ∃ i b, f.blocks[i]? = some b ∧ b.term = some .unreachable ∧
      (¬ ∃ before, f.Trace before i) ∧ b.insts = [] := by
  have hok : ((Program.parse 0 choosing).toOption.any fun p =>
      (p.analyse {}).1.isOk &&
        ((p.analyse {}).2.2.lower (p.analyse {}).2.1).1.toOption.any fun m =>
          m.funcs.any fun f => f.blocks.any fun b => b.term == some .unreachable) = true := by
    decide +kernel
  rcases hp : Program.parse 0 choosing with e | p
  · rw [hp] at hok
    cases hok
  simp only [hp, Except.toOption, Option.any_some, Bool.and_eq_true] at hok
  rcases hrun : p.analyse {} with ⟨_ | ⟨⟨⟩⟩, ctx, p'⟩
  · rw [hrun] at hok
    cases hok.1
  simp only [hrun] at hok
  rcases hlower : p'.lower ctx with ⟨_ | m, ctx', p''⟩
  · rw [hlower] at hok
    cases hok.2
  simp only [hlower, Option.any_some, List.any_eq_true, beq_iff_eq] at hok
  obtain ⟨-, f, hf, b, hb, hterm⟩ := hok
  obtain ⟨i, hi⟩ := List.mem_iff_getElem?.mp hb
  obtain ⟨hiff, hempty⟩ := Program.lower_unreachable_iff hp hrun hlower f hf i b hi
  exact ⟨p, ctx, p', m, ctx', p'', rfl, hrun, hlower, f, hf, i, b, hi, hterm, hiff.mp hterm,
    hempty hterm⟩

end Augite
