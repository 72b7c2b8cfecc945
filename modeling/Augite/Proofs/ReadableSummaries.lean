import Augite.Snapshot
import Augite.Proofs.DeadBlocks
import Augite.Proofs.ReadableDumps
import Augite.Proofs.Verification

/-!
# Summaries that can be read

The summary of a verified module stands on one line, is read back as it was, and matches itself. Its keys are
the names of the functions that have blocks, which are distinct, and the opcodes of
instructions and terminators that verification knows.
-/

namespace Augite

open Datum (Written)
open Datum.Lexer (IsSymbol)

namespace IR

/-! ### Opcodes -/

/-- A word that can stand as a key beside the number of blocks. -/
def IsKey (w : Text) : Prop := IsSymbol w ∧ w ≠ Text.ofString "blocks"

theorem isKey_of_check {w : Text} (h : (Datum.symbolCheck w && w != Text.ofString "blocks") = true) :
    IsKey w := by
  rw [Bool.and_eq_true, bne_iff_ne] at h
  exact ⟨Datum.isSymbol_of_check h.1, h.2⟩

theorem Op.isKey_opcode {op : Op} (h : op.operands? ≠ none) : IsKey op.opcode := by
  cases op with
  | arith w x y => cases w <;> exact isKey_of_check rfl
  | fneg | phi => exact absurd rfl h
  | _ => exact isKey_of_check rfl

theorem Term.isKey_opcode {t : Term} (h : t ≠ .switch) : IsKey t.opcode := by
  cases t with
  | switch => exact absurd rfl h
  | _ => exact isKey_of_check rfl

/-- A block of instructions that verification knows, with a terminator that it knows. -/
structure Block.IsKnown (b : Block) : Prop where
  insts : ∀ i ∈ b.insts, i.op.operands? ≠ none
  term : ∃ t, b.term = some t ∧ t ≠ .switch

theorem Block.IsKnown.isKey {b : Block} (h : b.IsKnown) : ∀ w ∈ b.opcodes, IsKey w := by
  intro w hw
  obtain ⟨t, ht, hknown⟩ := h.term
  rw [opcodes, ht, Option.map_some, Option.toList_some] at hw
  rcases List.mem_append.mp hw with hw | hw
  · obtain ⟨i, hi, rfl⟩ := List.mem_map.mp hw
    exact Op.isKey_opcode (h.insts i hi)
  · rw [List.mem_singleton.mp hw]
    exact Term.isKey_opcode hknown

theorem Func.length_blocks_le {f : Func} (h : ∀ b ∈ f.blocks, b.IsKnown) :
    f.blocks.length ≤ f.opcodes.length := by
  have hall : ∀ bs : List Block, (∀ b ∈ bs, b.IsKnown) →
      bs.length ≤ (bs.flatMap Block.opcodes).length := by
    intro bs hbs
    induction bs with
    | nil => rfl
    | cons b bs ih =>
      obtain ⟨hb, htail⟩ := List.forall_mem_cons.mp hbs
      obtain ⟨t, ht, -⟩ := hb.term
      have hone : 1 ≤ b.opcodes.length := by simp [Block.opcodes, ht]
      have := ih htail
      rw [List.flatMap_cons, List.length_append, List.length_cons]
      omega
  exact hall f.blocks h

/-! ### Summaries -/

theorem nodup_eraseDups (ws : List Text) : ws.eraseDups.Nodup := by
  cases ws with
  | nil => simp
  | cons w ws =>
    rw [List.eraseDups_cons, List.nodup_cons]
    refine ⟨?_, nodup_eraseDups (ws.filter fun v => !v == w)⟩
    simp [List.mem_eraseDups]
termination_by ws.length
decreasing_by exact Nat.lt_succ_of_le (List.length_filter_le _ _)

theorem written_count {n : Nat} (h : n < 2 ^ 63) :
    Written (Datum.number (Text.decimal n)).render [.number (Text.decimal n)] ∧
      (Datum.number (Text.decimal n)).accepts (.number (Text.decimal n)) = true := by
  have hsmall : n < 10 ^ 20 := h.trans (by decide)
  have hn : (Text.decimal n).IsNumeral 300 := Text.isNumeral_decimal (by decide)
    (hsmall.trans (pow_lt_pow_right₀ (by decide) (by decide)))
  exact ⟨Datum.written_numeral hn, Datum.sameNumber_self hn⟩

/-- A map whose keys are distinct symbols is read back as it was if its values are. -/
theorem written_record {es : List (Text × Datum)} (hkeys : (es.map Prod.fst).Nodup)
    (h : ∀ e ∈ es, IsSymbol e.1 ∧ Written e.2.render [e.2] ∧ e.2.accepts e.2 = true) :
    Written (Datum.map es).render [.map es] ∧ (Datum.map es).accepts (.map es) = true :=
  ⟨Datum.written_map fun e he => ⟨Datum.Lexer.spells_symbol (h e he).1, (h e he).2.1⟩,
    Datum.accepts_map hkeys fun e he => (h e he).2.2⟩

theorem Func.written_summary {f : Func} (h : ∀ b ∈ f.blocks, b.IsKnown)
    (hsmall : f.opcodes.length < 2 ^ 63) :
    Written f.summary.render [f.summary] ∧ f.summary.accepts f.summary = true := by
  have hperm := List.mergeSort_perm f.opcodeCounts fun a b => !Text.before b.1 a.1
  have hword : ∀ w ∈ f.opcodes, IsKey w := by
    intro w hw
    obtain ⟨b, hb, hw⟩ := List.mem_flatMap.mp hw
    exact (h b hb).isKey w hw
  have hcount : ∀ e ∈ f.opcodeCounts, e.1 ∈ f.opcodes ∧ e.2 < 2 ^ 63 := by
    intro e he
    obtain ⟨w, hw, rfl⟩ := List.mem_map.mp he
    exact ⟨List.mem_eraseDups.mp hw, Nat.lt_of_le_of_lt List.count_le_length hsmall⟩
  have hkeys : (f.opcodeCounts.map Prod.fst).Nodup := by
    rw [opcodeCounts, List.map_map]
    exact (List.map_id _).symm ▸ nodup_eraseDups f.opcodes
  apply written_record
  · rw [List.map_cons, List.map_map, List.nodup_cons]
    refine ⟨fun hmem => ?_, (hperm.map Prod.fst).nodup_iff.mpr hkeys⟩
    obtain ⟨e, he, heq⟩ := List.mem_map.mp hmem
    exact (hword _ (hcount e (hperm.mem_iff.mp he)).1).2 heq
  · refine List.forall_mem_cons.mpr ⟨⟨Datum.isSymbol_of_check rfl, written_count ?_⟩, fun e he => ?_⟩
    · exact Nat.lt_of_le_of_lt (length_blocks_le h) hsmall
    · obtain ⟨e', he', rfl⟩ := List.mem_map.mp he
      obtain ⟨hw, hn⟩ := hcount e' (hperm.mem_iff.mp he')
      exact ⟨(hword _ hw).1, written_count hn⟩

theorem Module.read_summary {m : Module}
    (hnames : ((m.funcs.filter fun f => !f.blocks.isEmpty).map Func.name).Nodup)
    (hsymbol : ∀ f ∈ m.funcs, f.blocks ≠ [] → IsSymbol f.name)
    (hknown : ∀ f ∈ m.funcs, ∀ b ∈ f.blocks, b.IsKnown)
    (hsmall : ∀ f ∈ m.funcs, f.opcodes.length < 2 ^ 63) :
    Datum.read m.summary.render = .ok m.summary ∧ m.summary.accepts m.summary = true ∧
      byte '\n' ∉ m.summary.render := by
  have hkeys : (((m.funcs.filter fun f => !f.blocks.isEmpty).map fun f =>
      (f.name, f.summary)).map Prod.fst).Nodup := by
    rw [List.map_map]
    exact hnames
  have hw := written_record hkeys fun e he => by
    obtain ⟨f, hf, rfl⟩ := List.mem_map.mp he
    obtain ⟨hf, hblocks⟩ := List.mem_filter.mp hf
    exact ⟨hsymbol f hf (by simpa using hblocks), (Func.written_summary (hknown f hf) (hsmall f hf))⟩
  obtain ⟨ts, hts, -⟩ := hw.1.derives
  exact ⟨Datum.read_of_written hw.1, hw.2, hts.line⟩

/-! ### Verified modules -/

theorem Func.known_of_checkInsts {f : Func} {fi n bi ii : Nat} {dom : Flow.Table n} {is : List Inst}
    (h : f.checkInsts fi dom bi ii is = .ok ()) : ∀ i ∈ is, i.op.operands? ≠ none := by
  induction is generalizing ii with
  | nil => exact List.forall_mem_nil _
  | cons i is ih =>
    rw [checkInsts] at h
    rcases hop : i.op.operands? with _ | vs
    · rw [hop] at h
      cases h
    · rw [hop, bind_unit_eq_ok_iff] at h
      exact List.forall_mem_cons.mpr ⟨by simp [hop], ih h.2⟩

/-- In a verified function what a path comes to is known, and so are all terminators. -/
theorem Func.known_of_verify {f : Func} {fi : Nat} (h : f.verify fi = .ok ()) (h0 : f.blocks ≠ [])
    {i : Nat} {b : Block} (hb : f.blocks[i]? = some b) :
    (∃ t, b.term = some t ∧ t ≠ .switch) ∧
      ((∃ before, f.Trace before i) → ∀ j ∈ b.insts, j.op.operands? ≠ none) := by
  have hempty : f.blocks.isEmpty = false := by simpa using h0
  rw [verify, hempty] at h
  simp only [Bool.false_eq_true, if_false, bind_eq_ok_iff, checkBlocks_eq_ok_iff, zero_add] at h
  obtain ⟨g, hflow, hblocks⟩ := h
  obtain ⟨hends, rfl⟩ := flowFrom_eq_ok_iff.mp hflow
  refine ⟨(hends b (List.mem_of_getElem? hb)).terminated, fun hreach => ?_⟩
  have hmem : i ∈ f.graph.reachable := by
    rw [Flow.mem_reachable_iff graph_closed]
    simpa only [path_graph_iff] using hreach
  have hcheck := hblocks i b hb hmem
  rw [checkBlock, bind_unit_eq_ok_iff] at hcheck
  exact known_of_checkInsts hcheck.1

end IR

/-! ### Compiled programs -/

theorem Node.functionNames_bareAll (ns : List Node) :
    functionNames (bareAll ns) = functionNames ns := by
  induction ns with
  | nil => rfl
  | cons n ns ih =>
    cases n with
    | funcDef m name params result body => exact congrArg (name :: ·) ih
    | ret m x => cases x <;> exact ih
    | branch m merge test yes no => cases no <;> exact ih
    | _ => exact ih

theorem Node.ItemsLegible.isName {libs : List Library} {ns : List Node} (h : ItemsLegible libs ns) :
    ∀ name ∈ functionNames ns, name.IsName := by
  induction ns generalizing libs with
  | nil => exact List.forall_mem_nil _
  | cons n ns ih =>
    obtain ⟨-, hn, hns⟩ := h
    cases n with
    | funcDef m name params result body => exact List.forall_mem_cons.mpr ⟨hn.1, ih hns⟩
    | _ => exact ih hns

/-- Of the functions of a module those that have blocks come from the heads that lowering
starts with. -/
theorem Lowering.State.filter_module (s : State) {hs : List IR.Func} (hheads : hs <+: s.heads)
    (hfuncs : ∀ b x, s.outline b = some x → x.1 < hs.length) :
    ((s.module.funcs.filter fun f => !f.blocks.isEmpty).map IR.Func.name).Sublist
      (hs.map IR.Func.name) := by
  obtain ⟨rest, hrest⟩ := hheads
  have hblocks : ∀ i, hs.length ≤ i → blocksFrom i 0 s.arena = [] := by
    intro i hi
    rw [List.eq_nil_iff_forall_not_mem]
    intro b hb
    obtain ⟨c, d, hd, hfunc, -⟩ := mem_blocks_iff.mp hb
    have := hfuncs c _ (outline_eq_some_iff.mpr ⟨d, hd, hfunc, rfl⟩)
    omega
  have hsplit : s.module.funcs =
      hs.mapIdx (fun i f => { f with blocks := blocksFrom i 0 s.arena }) ++
        rest.map fun f => { f with blocks := [] } := by
    change s.heads.mapIdx _ = _
    rw [← hrest, List.mapIdx_append]
    congr 1
    rw [List.mapIdx_eq_iff]
    intro i
    rw [List.getElem?_map]
    cases rest[i]? <;> simp [hblocks (i + hs.length) (by omega)]
  have hrestNil : (rest.map fun f => { f with blocks := [] }).filter
      (fun f : IR.Func => !f.blocks.isEmpty) = [] := by
    rw [List.filter_eq_nil_iff]
    intro f hf
    obtain ⟨g, -, rfl⟩ := List.mem_map.mp hf
    simp
  have hnames : (hs.mapIdx fun i f => { f with blocks := blocksFrom i 0 s.arena }).map IR.Func.name =
      hs.map IR.Func.name := by
    apply List.ext_getElem?
    intro i
    cases h : hs[i]? <;> simp [h]
  rw [hsplit, List.filter_append, hrestNil, List.append_nil, ← hnames]
  exact List.filter_sublist.map _

/-- What compilation of a program comes from. -/
theorem Program.compile_ok {p : Program} {m : IR.Module} (h : p.compile.1 = .ok m) :
    ∃ ctx p' ctx' p'', p.analyse {} = (.ok (), ctx, p') ∧ p'.lower ctx = (.ok m, ctx', p'') ∧
      m.verify = .ok () := by
  unfold compile at h
  rcases hrun : p.analyse {} with ⟨e | _, ctx, p'⟩ <;> rw [hrun] at h
  · cases h
  rcases hlower : p'.lower ctx with ⟨e | m', ctx', p''⟩ <;> simp only [hlower] at h
  · cases h
  rcases hcheck : m'.check with e | _ <;> simp only [hcheck] at h <;> cases h
  refine ⟨ctx, p', ctx', p'', rfl, hlower, ?_⟩
  unfold IR.Module.check at hcheck
  rcases hverify : m.verify with e | _
  · rw [hverify] at hcheck
    cases hcheck
  · rfl

/-- Each block of a compiled module is known. -/
theorem Lowering.State.isKnown {s : State} (hs : s.Mapped ∅) (hverify : s.module.verify = .ok ())
    {f : IR.Func} (hf : f ∈ s.module.funcs) : ∀ b ∈ f.blocks, b.IsKnown := by
  intro b hb
  obtain ⟨fi, hfi⟩ := List.mem_iff_getElem?.mp hf
  obtain ⟨i, hi⟩ := List.mem_iff_getElem?.mp hb
  have hfunc : f.verify fi = .ok () := by
    have := IR.verifyFrom_eq_ok_iff.mp hverify fi f hfi
    rwa [Nat.zero_add] at this
  obtain ⟨hterm, hinsts⟩ := IR.Func.known_of_verify hfunc (List.ne_nil_of_mem hb) hi
  refine ⟨?_, hterm⟩
  by_cases hreach : ∃ before, f.Trace before i
  · exact hinsts hreach
  · -- What no path comes to has no instructions at all.
    have hdead := (unreachable_iff hs.charted hfi hi).mpr hreach
    obtain ⟨c, d, hd, -, rfl⟩ := exists_draft hfi hi
    have hnil : (d.block c).insts = [] := hs.empty c d hd (.inr hdead)
    rw [hnil]
    exact List.forall_mem_nil _

theorem Program.read_summary {key : Nat} {source : Text} {p : Program} {m : IR.Module}
    (h : Program.parse key source = .ok p) (hm : p.compile.1 = .ok m)
    (hsmall : ∀ f ∈ m.funcs, f.opcodes.length < 2 ^ 63) :
    Datum.read m.summary.render = .ok m.summary ∧ m.summary.accepts m.summary = true ∧
      byte '\n' ∉ m.summary.render := by
  have hp := Program.parse_isItem h
  obtain ⟨ctx, p', ctx', p'', hrun, hlower, hverify⟩ := Program.compile_ok hm
  have hc := Program.analyse_certified hp hrun
  obtain ⟨s, rfl, hs, hheads, hfuncs⟩ := hc.lowered hp hlower
  have hsub := s.filter_module hheads fun b x hx => by
    have := hfuncs b x hx
    simp only [List.length_append, List.length_singleton]
    omega
  have hnames : (p'.body.filterMap Node.head? ++ [Lowering.mainHead]).map IR.Func.name =
      ctx.funcs.names ++ [Text.ofString "main"] := by
    rw [List.map_append, Lowering.map_name_heads, hc.names]
    rfl
  have hall : ∀ name ∈ ctx.funcs.names, name.IsName := by
    rw [hc.names, ← Node.functionNames_bareAll, hc.bare, Node.functionNames_bareAll]
    exact (Program.parse_legible h).isName
  refine IR.Module.read_summary ?_ (fun f hf h0 => ?_) (fun f hf => s.isKnown hs hverify hf) hsmall
  · have hstart := (Lowering.startState_stocked hc.sound hc.names hc.checked).names
    rw [Lowering.startState_eq] at hstart
    exact hsub.nodup hstart
  · have hmem := hsub.subset (List.mem_map.mpr ⟨f, List.mem_filter.mpr ⟨hf, by simpa using h0⟩, rfl⟩)
    rw [hnames, List.mem_append, List.mem_singleton] at hmem
    rcases hmem with hmem | hmem
    · exact Datum.isSymbol_of_isName (hall _ hmem)
    · rw [hmem]
      exact Datum.isSymbol_of_check rfl

end Augite
