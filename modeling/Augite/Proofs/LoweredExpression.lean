import Augite.Proofs.LoweringBlocks
import Augite.Proofs.LoweringTables
import Augite.Proofs.Operators
import Augite.Proofs.Widening

/-!
# Lowering of typed expressions

A well typed expression is lowered without an error. Its code is well typed, its value has
the representation of the expression's type, and an int is converted exactly where it is
taken for a float.
-/

namespace Augite

namespace Emit

/-- The instruction for a binary operator, once both operands have been converted. -/
def operate (pos : Position) (op : BinaryOp) (lt rt : Ty) (l r : IR.Value) : Emit IR.Value :=
  let t := BinaryOp.operandType lt rt
  if op = .and then inst (.arith .and l r)
  else if op = .or then inst (.arith .or l r)
  else if op.isComparison then compare op t l r
  else
    match (if t = .float then op.floatArith? else op.intArith?) with
    | some a => inst (.arith a l r)
    | none => fail pos (.noInstruction op lt rt)

theorem binary_eq (pos : Position) (op : BinaryOp) (lt rt : Ty) (l r : IR.Value) :
    binary pos op lt rt l r = (do
      let l ← convert l lt (BinaryOp.operandType lt rt)
      let r ← convert r rt (BinaryOp.operandType lt rt)
      operate pos op lt rt l r) := rfl

section

variable (op : BinaryOp) (l r : IR.Value)

theorem compare_float : compare op .float l r = inst (.fcmp op.floatTest l r) := rfl

theorem compare_int : compare op .int l r = inst (.icmp op.intTest l r) := rfl

theorem compare_char : compare op .char l r = inst (.icmp op.charTest l r) := rfl

theorem compare_bool : compare op .bool l r = inst (.icmp op.intTest l r) := rfl

theorem compare_string : compare op .string l r = (do
    let order ← inst (.call (← comparer) [l, r])
    inst (.icmp op.intTest order (.int 32 0))) := rfl

end

theorem operate_comparison {pos : Position} {op : BinaryOp} {lt rt : Ty} {l r : IR.Value}
    (h : op.isComparison = true) :
    operate pos op lt rt l r = compare op (BinaryOp.operandType lt rt) l r := by
  cases op <;> cases h <;> rfl

end Emit

/-- Both operands may be converted to the type that the operator works on. -/
theorem BinaryOp.Form.operands {op : BinaryOp} {lt rt t : Ty} (h : op.Form lt rt t) :
    let T := BinaryOp.operandType lt rt
    (T = lt ∨ (T = .float ∧ lt = .int)) ∧ (T = rt ∨ (T = .float ∧ rt = .int)) ∧ T.ir ≠ .void := by
  have hfloat : lt.IsNumeric → rt.IsNumeric → lt = .float ∨ rt = .float →
      let T := BinaryOp.operandType lt rt
      (T = lt ∨ (T = .float ∧ lt = .int)) ∧ (T = rt ∨ (T = .float ∧ rt = .int)) ∧ T.ir ≠ .void := by
    intro hl hr hf
    have hT : BinaryOp.operandType lt rt = .float := if_pos hf
    simp only [hT, true_and]
    exact ⟨hl.symm.imp_left Eq.symm, hr.symm.imp_left Eq.symm, nofun⟩
  cases h with
  | floatArith _ hl hr hf => exact hfloat hl hr hf
  | floatTest _ hl hr hf => exact hfloat hl hr hf
  | intArith | intTest | charTest | boolTest | stringTest | logic =>
    exact ⟨.inl rfl, .inl rfl, nofun⟩

namespace Lowering

open State Typing

/-! ### What the emission of values leaves alone -/

/-- Code has been emitted into the current block, and nothing else has changed but tables. -/
structure Emits (s u : State) : Prop where
  body : u.body = s.body
  slots : u.slots = s.slots
  globalSlots : u.globalSlots = s.globalSlots
  terms : u.terms = s.terms
  allocas : ∀ b, u.allocas? b = s.allocas? b
  insts : s.curInsts <+: u.curInsts
  grows : s.Grows u

namespace Emits

variable {s t u : State}

theorem refl (s : State) : Emits s s :=
  ⟨rfl, rfl, rfl, rfl, fun _ => rfl, List.prefix_rfl, .refl s⟩

theorem trans (h : Emits s t) (k : Emits t u) : Emits s u :=
  ⟨k.body.trans h.body, k.slots.trans h.slots, k.globalSlots.trans h.globalSlots,
    k.terms.trans h.terms, fun b => (k.allocas b).trans (h.allocas b), h.insts.trans k.insts, h.grows.trans k.grows⟩

theorem of_tabled (h : Tabled s u) : Emits s u := by
  refine ⟨h.body, h.slots, h.globalSlots, ?_, fun b => ?_, ?_, h.grows⟩
  · rw [State.terms, h.arena]
    rfl
  · rw [allocas?, draft?, h.arena]
    rfl
  · have : u.curInsts = s.curInsts := by
      rw [curInsts, curInsts, draft?, draft?, h.arena, h.body]
    rw [this]

theorem of_emitted (hs : s.Seated) (hopen : s.done = false) {op : IR.Op}
    (hop : op.isAlloca = false) : Emits s (s.emitted op) := by
  refine ⟨rfl, rfl, rfl, terms_emitted s op, fun b => allocas?_emitted hop, ?_,
    grows_emitted hopen hop⟩
  rw [curInsts_emitted hs]
  exact List.prefix_append _ _

theorem usable (h : Emits s u) {v : IR.Value} (hv : s.Usable v) : u.Usable v := by
  unfold Usable
  rw [h.body]
  exact Operand.mono hv h.grows h.insts.subset

theorem done (h : Emits s u) : u.done = s.done := by
  rw [done_eq, done_eq, h.terms, h.body]

end Emits

/-! ### Storage in step with declarations -/

/-- The stack slot of a declared variable. -/
structure LocalSlot (F : Context) (s : State) (d : Declaration) (slot : Slot) : Prop where
  type : slot.type = d.type
  inUse : d.type.InUse F
  storage : ∃ id, slot.storage = .result id (.pointer d.type.ir)
  available : s.Available s.body.func [] slot.storage

/-- The global variable of a variable declared in the module. -/
structure GlobalSlot (F : Context) (s : State) (d : Declaration) (slot : Slot) : Prop where
  type : slot.type = d.type
  inUse : d.type.InUse F
  storage : ∃ i, slot.storage = .global i d.type.ir
  available : s.Available s.body.func [] slot.storage

/-- Storage is in step with the declarations that are visible. -/
structure Linked (F : Context) (Γ : Environment) (s : State) : Prop where
  slots : Scopes.Matches (LocalSlot F s) (GlobalSlot F s) Γ s.slots
  globals : s.globalSlots = s.slots.module.map fun e => (e.1, e.2.storage)

theorem Linked.slots_of_grows {F : Context} {Γ : Environment} {s u : State} (h : Linked F Γ s)
    (hg : s.Grows u) (hfunc : u.body.func = s.body.func) :
    Scopes.Matches (LocalSlot F u) (GlobalSlot F u) Γ s.slots := by
  refine h.slots.imp (fun d slot hd => ?_) fun d slot hd => ?_
  · exact ⟨hd.type, hd.inUse, hd.storage, hfunc ▸ hd.available.mono hg fun _ h => h⟩
  · exact ⟨hd.type, hd.inUse, hd.storage, hfunc ▸ hd.available.mono hg fun _ h => h⟩

theorem Linked.mono {F : Context} {Γ : Environment} {s u : State} (h : Linked F Γ s)
    (hg : s.Grows u) (hslots : u.slots = s.slots) (hglobals : u.globalSlots = s.globalSlots)
    (hfunc : u.body.func = s.body.func) : Linked F Γ u := by
  refine ⟨?_, by rw [hglobals, hslots]; exact h.globals⟩
  rw [hslots]
  exact h.slots_of_grows hg hfunc

theorem Emits.linked {F : Context} {Γ : Environment} {s u : State} (h : Emits s u)
    (hs : Linked F Γ s) : Linked F Γ u :=
  hs.mono h.grows h.slots h.globalSlots (by rw [h.body])

theorem lookup_map_storage (f : Frame Slot) (name : Text) :
    (f.map fun e => (e.1, e.2.storage)).lookup name = (f.lookup name).map Slot.storage := by
  induction f with
  | nil => rfl
  | cons e f ih =>
    obtain ⟨n, slot⟩ := e
    rw [List.map_cons, Frame.lookup_cons, Frame.lookup_cons, ih]
    split <;> rfl

/-- The storage of a variable that is used. -/
theorem storage_run {F : Context} {Γ : Environment} {s : State} (hs : Linked F Γ s) {m : Mark}
    {name : Text} {d : Declaration} (hm : m.Uses Γ name d) (pos : Position) :
    ∃ v, (Emit.storage pos name m.isGlobal).run s = (.ok v, s) ∧
      v.type = .pointer d.type.ir ∧ s.Usable v ∧ d.type.InUse F := by
  obtain ⟨k, hk, hglobal⟩ := hm.found
  obtain ⟨slot, hslot, houter, hinner⟩ := hs.slots.resolve_some hk
  by_cases h1 : k = 1
  · subst h1
    obtain ⟨-, huse, ⟨i, hi⟩, hav⟩ := houter rfl
    have htype : slot.storage.type = .pointer d.type.ir := by
      rw [hi]
      rfl
    refine ⟨slot.storage, ?_, htype, ⟨hav.mono (.refl s) (List.nil_subset _), ?_⟩, huse⟩
    swap
    · rw [htype]
      exact IR.Typ.noConfusion
    have hlookup : s.globalSlots.lookup name = some slot.storage := by
      rw [hs.globals, lookup_map_storage, Scopes.resolveIn_outer hslot]
      rfl
    simp only [Emit.storage, Pass.run_bind, Pass.run_state, hglobal, beq_self_eq_true, if_true,
      hlookup]
    rfl
  · obtain ⟨-, huse, ⟨i, hi⟩, hav⟩ := hinner h1
    have htype : slot.storage.type = .pointer d.type.ir := by
      rw [hi]
      rfl
    refine ⟨slot.storage, ?_, htype, ⟨hav.mono (.refl s) (List.nil_subset _), ?_⟩, huse⟩
    swap
    · rw [htype]
      exact IR.Typ.noConfusion
    have hlocal : m.isGlobal = false := by rw [hglobal]; simpa using h1
    have hfind : s.slots.find name = .ok slot := by
      unfold Slots.find
      rw [hslot]
    simp only [Emit.storage, Pass.run_bind, Pass.run_state, hlocal, hfind]
    rfl

/-! ### Values -/

/-- Code can be emitted. -/
structure Ready (F : Context) (s : State) : Prop where
  good : s.Good
  stocked : Stocked F s
  open_ : s.done = false

/-- A value has been emitted, and `k` conversions with it. -/
structure Yields (F : Context) (s u : State) (v : IR.Value) (t : IR.Typ) (k : Nat) : Prop where
  emits : Emits s u
  good : u.Good
  stocked : Stocked F u
  available : u.Available u.body.func u.curInsts v
  type : v.type = t
  count : u.conversions = s.conversions + k

namespace Yields

variable {F : Context} {s t u : State} {v : IR.Value} {τ : IR.Typ} {j k : Nat}

theorem usable (h : Yields F s u v τ k) (hτ : τ ≠ .void) : u.Usable v :=
  ⟨h.available, h.type ▸ hτ⟩

theorem ready (h : Yields F s u v τ k) (hs : Ready F s) : Ready F u :=
  ⟨h.good, h.stocked, h.emits.done.trans hs.open_⟩

/-- A value that is there. -/
theorem of_usable (hs : Ready F s) (hv : s.Usable v) (ht : v.type = τ) : Yields F s s v τ 0 :=
  ⟨.refl s, hs.good, hs.stocked, hv.1, ht, rfl⟩

/-- Code before the code of the value. -/
theorem after (h : Yields F t u v τ k) (he : Emits s t) (hc : t.conversions = s.conversions + j) :
    Yields F s u v τ (j + k) :=
  ⟨he.trans h.emits, h.good, h.stocked, h.available, h.type, by rw [h.count, hc, Nat.add_assoc]⟩

end Yields

section

variable {F : Context} {s : State} (hs : Ready F s)
include hs

/-- The result of an instruction. -/
theorem inst_yields (op : IR.Op) (hop : op.isAlloca = false) (hyields : op.yieldsValue = true)
    (htyped : op.WellTyped s.structs) (hoperands : ∀ v ∈ op.operands, s.Usable v) :
    Yields F s (s.emitted op) (s.nextInst op).value op.resultType (isConversion op).toNat where
  emits := .of_emitted hs.good.seated hs.open_ hop
  good := hs.good.emitted hs.open_ hop ⟨htyped, hoperands⟩
  stocked := hs.stocked.congr rfl rfl rfl rfl rfl rfl rfl List.prefix_rfl
  available := by
    refine .inl ⟨s.nextInst op, ?_, hyields, rfl⟩
    rw [curInsts_emitted hs.good.seated]
    simp
  type := rfl
  count := conversions_emitted hs.good.seated op

theorem string_yields (t : Text) :
    ∃ v u, (Emit.string t).run s = (.ok v, u) ∧ Yields F s u v .i8ptr 0 := by
  obtain ⟨i, u, hrun, htab, hstock, g, hg, hinit⟩ := string_run hs.stocked t
  refine ⟨_, u, hrun, .of_tabled htab, htab.good hs.good, hstock, ⟨g, _, hg, hinit, by simp⟩, rfl, ?_⟩
  unfold conversions
  rw [htab.arena]
  rfl

theorem external_yields {name : Text} {result : IR.Typ} {params : List IR.Typ} {variadic : Bool}
    (hh : externalHead name result params variadic ∈ Runtime.heads) :
    ∃ v u, (Emit.external name result params variadic).run s = (.ok v, u) ∧
      Yields F s u v (.pointer (.function result params variadic)) 0 := by
  obtain ⟨i, u, hrun, htab, hstock, hhead⟩ := external_run hs.stocked hh
  have htype : (externalHead name result params variadic).type =
      .function result params variadic := by
    simp [externalHead, IR.Func.type, Function.comp_def]
  refine ⟨_, u, hrun, .of_tabled htab, htab.good hs.good, hstock, ⟨_, hhead, rfl⟩, ?_, ?_⟩
  · rw [htype]
    rfl
  · unfold conversions
    rw [htab.arena]
    rfl

/-- A value converted to a type that accepts its own. -/
theorem convert_yields {v : IR.Value} {source target : Ty} (hv : s.Usable v)
    (ht : v.type = source.ir) (hacc : target = source ∨ (target = .float ∧ source = .int)) :
    ∃ w u, (Emit.convert v source target).run s = (.ok w, u) ∧
      Yields F s u w target.ir (source.widens target) := by
  unfold Emit.convert Ty.widens
  split
  · rename_i hconv
    obtain ⟨rfl, rfl⟩ := hconv
    refine ⟨_, _, rfl, ?_⟩
    exact inst_yields hs _ rfl rfl ⟨ht, rfl⟩ (by simpa [IR.Op.operands, IR.Op.operands?] using hv)
  · rename_i hconv
    refine ⟨v, s, rfl, .of_usable hs hv ?_⟩
    rcases hacc with rfl | ⟨rfl, rfl⟩
    · exact ht
    · exact absurd ⟨rfl, rfl⟩ hconv

theorem comparer_yields : ∃ v u, Emit.comparer.run s = (.ok v, u) ∧
    Yields F s u v (.pointer (.function .i32 [.i8ptr, .i8ptr] false)) 0 :=
  external_yields hs (show Runtime.comparer ∈ Runtime.heads by simp [Runtime.heads])

/-- The result of a call. -/
theorem call_yields {f : IR.Value} (vs : List IR.Value) {result : IR.Typ} {params : List IR.Typ}
    {variadic : Bool} (hf : s.Usable f) (hft : f.type = .pointer (.function result params variadic))
    (hvs : ∀ v ∈ vs, s.Usable v) (htakes : IR.Takes params variadic (vs.map IR.Value.type)) :
    Yields F s (s.emitted (.call f vs)) (s.nextInst (.call f vs)).value result 0 := by
  have hy := inst_yields hs (.call f vs) rfl rfl ⟨result, params, variadic, hft, htakes⟩ (by
    intro v hv
    rcases List.mem_cons.mp hv with rfl | hv
    · exact hf
    · exact hvs v hv)
  have hresult : (IR.Op.call f vs).resultType = result := by
    simp only [IR.Op.resultType, hft]
    rfl
  rw [hresult] at hy
  exact hy

/-! ### Operators -/

theorem compare_yields {op : BinaryOp} {t : Ty} {l r : IR.Value} (hl : s.Usable l) (hr : s.Usable r)
    (hlt : l.type = t.ir) (hrt : r.type = t.ir) (hop : op.isComparison = true)
    (ht : t = .float ∨ t = .int ∨ t = .char ∨ ((t = .bool ∨ t = .string) ∧ (op = .eq ∨ op = .ne))) :
    ∃ v u, (Emit.compare op t l r).run s = (.ok v, u) ∧ Yields F s u v .i1 0 := by
  have hoperands : ∀ v ∈ [l, r], s.Usable v := by
    intro v hv
    rcases List.mem_cons.mp hv with rfl | hv
    · exact hl
    · cases List.mem_singleton.mp hv
      exact hr
  have hsame : l.type = r.type := hlt.trans hrt.symm
  rcases ht with rfl | rfl | rfl | ⟨rfl | rfl, heq⟩
  · rw [Emit.compare_float]
    exact ⟨_, _, rfl, inst_yields hs _ rfl rfl ⟨hlt, hrt⟩ hoperands⟩
  · rw [Emit.compare_int]
    refine ⟨_, _, rfl, inst_yields hs _ rfl rfl ⟨hsame, ?_⟩ hoperands⟩
    rw [hlt]
    cases op <;> cases hop <;> first | rfl | exact .inl rfl
  · rw [Emit.compare_char]
    refine ⟨_, _, rfl, inst_yields hs _ rfl rfl ⟨hsame, ?_⟩ hoperands⟩
    rw [hlt]
    cases op <;> cases hop <;> first | rfl | exact .inr (.inl rfl)
  · rw [Emit.compare_bool]
    refine ⟨_, _, rfl, inst_yields hs _ rfl rfl ⟨hsame, ?_⟩ hoperands⟩
    rw [hlt]
    rcases heq with rfl | rfl <;> exact .inr (.inr (.inl rfl))
  · -- Strings are compared by a function, whose result is compared with zero.
    obtain ⟨f, u₁, hf, hy₁⟩ := comparer_yields hs
    have hs₁ := hy₁.ready hs
    have hy₂ := call_yields hs₁ [l, r] (hy₁.usable nofun) hy₁.type
      (fun v hv => hy₁.emits.usable (hoperands v hv))
      (by simp [IR.Takes, hlt, hrt, Ty.ir, Ty.string])
    have hy₃ := inst_yields (hy₂.ready hs₁)
      (.icmp op.intTest (u₁.nextInst (.call f [l, r])).value (.int 32 0)) rfl rfl
      ⟨hy₂.type, by
        rw [hy₂.type]
        rcases heq with rfl | rfl <;> exact .inr (.inr (.inr rfl))⟩
      (by
        intro v hv
        rcases List.mem_cons.mp hv with rfl | hv
        · exact hy₂.usable nofun
        · cases List.mem_singleton.mp hv
          exact ⟨trivial, nofun⟩)
    refine ⟨_, _, ?_, (hy₃.after hy₂.emits hy₂.count).after hy₁.emits hy₁.count⟩
    rw [Emit.compare_string, Pass.run_bind_of_ok hf]
    rfl

/-- Both operands of an operator, converted. -/
theorem operands_yield {lt rt t : Ty} {l r : IR.Value} (hl : s.Usable l) (hr : s.Usable r)
    (hlt : l.type = lt.ir) (hrt : r.type = rt.ir) (hla : t = lt ∨ (t = .float ∧ lt = .int))
    (hra : t = rt ∨ (t = .float ∧ rt = .int)) (hvoid : t.ir ≠ .void) :
    ∃ l' r' u₁ u, (Emit.convert l lt t).run s = (.ok l', u₁) ∧
      (Emit.convert r rt t).run u₁ = (.ok r', u) ∧ Ready F u ∧ Emits s u ∧ u.Usable l' ∧
      u.Usable r' ∧ l'.type = t.ir ∧ r'.type = t.ir ∧
      u.conversions = s.conversions + (lt.widens t + rt.widens t) := by
  obtain ⟨l', u₁, hrun₁, hy₁⟩ := convert_yields hs hl hlt hla
  have hs₁ := hy₁.ready hs
  obtain ⟨r', u, hrun₂, hy₂⟩ := convert_yields hs₁ (hy₁.emits.usable hr) hrt hra
  exact ⟨l', r', u₁, u, hrun₁, hrun₂, hy₂.ready hs₁, hy₁.emits.trans hy₂.emits,
    hy₂.emits.usable (hy₁.usable hvoid), hy₂.usable hvoid, hy₁.type, hy₂.type,
    by rw [hy₂.count, hy₁.count, Nat.add_assoc]⟩

theorem arith_yields {a : IR.Arith} {t : IR.Typ} {l r : IR.Value} (hfit : a.Fits t)
    (hl : s.Usable l) (hr : s.Usable r) (hlt : l.type = t) (hrt : r.type = t) :
    Yields F s (s.emitted (.arith a l r)) (s.nextInst (.arith a l r)).value t 0 := by
  have hy := inst_yields hs (.arith a l r) rfl rfl ⟨hlt.trans hrt.symm, hlt ▸ hfit⟩ (by
    intro v hv
    rcases List.mem_cons.mp hv with rfl | hv
    · exact hl
    · cases List.mem_singleton.mp hv
      exact hr)
  change Yields F s _ _ l.type 0 at hy
  rw [hlt] at hy
  exact hy

/-- An operator applied to operands that have been converted. -/
theorem operate_yields {op : BinaryOp} {lt rt t : Ty} (hform : op.Form lt rt t) {l r : IR.Value}
    (hl : s.Usable l) (hr : s.Usable r) (hlt : l.type = (BinaryOp.operandType lt rt).ir)
    (hrt : r.type = (BinaryOp.operandType lt rt).ir) (pos : Position) :
    ∃ v u, (Emit.operate pos op lt rt l r).run s = (.ok v, u) ∧ Yields F s u v t.ir 0 := by
  cases hform with
  | @floatArith a _ _ ha hln hrn hfloat =>
    have hT : BinaryOp.operandType lt rt = .float := if_pos hfloat
    have hop : Emit.operate pos op lt rt l r = Emit.inst (.arith a l r) := by
      cases op <;> cases ha <;> simp [Emit.operate, hT] <;> rfl
    rw [hT] at hlt hrt
    rw [hop]
    exact ⟨_, _, rfl, arith_yields hs (by cases op <;> cases ha <;> rfl) hl hr hlt hrt⟩
  | @intArith a ha =>
    have hop : Emit.operate pos op .int .int l r = Emit.inst (.arith a l r) := by
      cases op <;> cases ha <;> rfl
    rw [hop]
    exact ⟨_, _, rfl, arith_yields hs (by cases op <;> cases ha <;> rfl) hl hr hlt hrt⟩
  | floatTest hop hln hrn hfloat =>
    rw [Emit.operate_comparison hop]
    have hT : BinaryOp.operandType lt rt = .float := if_pos hfloat
    rw [hT] at hlt hrt ⊢
    exact compare_yields hs hl hr hlt hrt hop (.inl rfl)
  | intTest hop =>
    rw [Emit.operate_comparison hop]
    exact compare_yields hs hl hr hlt hrt hop (.inr (.inl rfl))
  | charTest hop =>
    rw [Emit.operate_comparison hop]
    exact compare_yields hs hl hr hlt hrt hop (.inr (.inr (.inl rfl)))
  | boolTest heq =>
    have hop : op.isComparison = true := by rcases heq with rfl | rfl <;> rfl
    rw [Emit.operate_comparison hop]
    exact compare_yields hs hl hr hlt hrt hop (.inr (.inr (.inr ⟨.inl rfl, heq⟩)))
  | stringTest heq =>
    have hop : op.isComparison = true := by rcases heq with rfl | rfl <;> rfl
    rw [Emit.operate_comparison hop]
    exact compare_yields hs hl hr hlt hrt hop (.inr (.inr (.inr ⟨.inr rfl, heq⟩)))
  | logic hop =>
    rcases hop with rfl | rfl
    · exact ⟨_, _, rfl, arith_yields hs rfl hl hr hlt hrt⟩
    · exact ⟨_, _, rfl, arith_yields hs rfl hl hr hlt hrt⟩

/-- An operator applied to values of the types it takes. -/
theorem binary_yields {op : BinaryOp} {lt rt t : Ty} (hform : op.Form lt rt t) {l r : IR.Value}
    (hl : s.Usable l) (hr : s.Usable r) (hlt : l.type = lt.ir) (hrt : r.type = rt.ir)
    (pos : Position) :
    ∃ v u, (Emit.binary pos op lt rt l r).run s = (.ok v, u) ∧
      Yields F s u v t.ir (lt.widens (BinaryOp.operandType lt rt) +
        rt.widens (BinaryOp.operandType lt rt)) := by
  obtain ⟨hla, hra, hvoid⟩ := hform.operands
  obtain ⟨l', r', u₁, u₂, hrun₁, hrun₂, hs₂, hem, hl', hr', hlt', hrt', hcount⟩ :=
    operands_yield hs hl hr hlt hrt hla hra hvoid
  obtain ⟨v, u, hrun, hy⟩ := operate_yields hs₂ hform hl' hr' hlt' hrt' pos
  refine ⟨v, u, ?_, hy.after hem hcount⟩
  rw [Emit.binary_eq, Pass.run_bind_of_ok hrun₁, Pass.run_bind_of_ok hrun₂]
  exact hrun

theorem unary_yields {op : UnaryOp} {t : Ty} (hform : op.Form t) {v : IR.Value} (hv : s.Usable v)
    (ht : v.type = t.ir) :
    ∃ w u, (Emit.unary op t v).run s = (.ok w, u) ∧ Yields F s u w t.ir 0 := by
  have hoperands : ∀ c : IR.Const, c.type ≠ .void → ∀ w ∈ [.const c, v], s.Usable w := by
    intro c hc w hw
    rcases List.mem_cons.mp hw with rfl | hw
    · exact ⟨trivial, hc⟩
    · cases List.mem_singleton.mp hw
      exact hv
  unfold Emit.unary
  cases hform with
  | negInt => exact ⟨_, _, rfl, inst_yields hs _ rfl rfl ⟨ht.symm, rfl⟩ (hoperands (.int 64 0) nofun)⟩
  | negFloat =>
    exact ⟨_, _, rfl, inst_yields hs _ rfl rfl ⟨ht.symm, rfl⟩
      (hoperands (.double (.zero false)) nofun)⟩
  | not =>
    have hy := inst_yields hs (.arith .xor v (.const (.bool true))) rfl rfl
      ⟨ht, by rw [ht]; rfl⟩ (by
        intro w hw
        rcases List.mem_cons.mp hw with rfl | hw
        · exact hv
        · cases List.mem_singleton.mp hw
          exact ⟨trivial, nofun⟩)
    change Yields F s _ _ v.type 0 at hy
    rw [ht] at hy
    exact ⟨_, _, rfl, hy⟩

/-! ### Members -/

theorem mapM_typeOf_run {ps : List Ty} (hps : ∀ p ∈ ps, p.InUse F) :
    (ps.mapM Emit.typeOf).run s = (.ok (ps.map Ty.ir), s) := by
  induction ps with
  | nil => rfl
  | cons p ps ih =>
    rw [List.mapM_cons, Pass.run_bind_of_ok (typeOf_run hs.stocked (.inl (hps p (by simp)))),
      Pass.run_bind_of_ok (ih fun q hq => hps q (List.mem_cons_of_mem _ hq))]
    rfl

/-- The function of a list's or graph's member. -/
theorem memberFunction_yields {t : Ty} {f : Member} (hF : F.Sound) (hform : Member.Form F t f)
    (ht : t.kind ≠ .class_) :
    ∃ v u, (Emit.memberFunction f).run s = (.ok v, u) ∧
      Yields F s u v (.pointer (.function f.result.ir (.i8ptr :: f.params.map Ty.ir) false)) 0 := by
  have hmem : Runtime.ofMember f ∈ Runtime.heads := by
    cases hform with
    | list hk hf => exact Runtime.ofMember_list_mem hk hf
    | graph hk hf => exact Runtime.ofMember_graph_mem hk hf
    | field => exact absurd rfl ht
  unfold Emit.memberFunction
  rw [Pass.run_bind_of_ok (mapM_typeOf_run hs hform.params_inUse),
    Pass.run_bind_of_ok (typeOf_run hs.stocked (hform.result_inUse hF))]
  exact external_yields hs hmem

/-- The address of a field. -/
theorem fieldAddress_yields {Γ : Environment} (hF : F.Sound) (hlink : Linked F Γ s) {a : Access}
    {d : Declaration} {f : Member} (ha : a.RefersTo F Γ d f) (hclass : d.type.kind = .class_) :
    ∃ v u, (Emit.fieldAddress a).run s = (.ok v, u) ∧
      Yields F s u v (.pointer f.result.ir) 0 := by
  obtain ⟨base, hbase, hbt, hbu, huse⟩ := storage_run hlink ha.receiver a.receiver.pos
  have hform := Member.form_of_lookup? hF huse ha.aggregate ha.member
  have htype : a.receiver.type = d.type := ha.receiver.type
  have hmember := ha.member
  generalize d.type = t at *
  cases hform with
  | list | graph => cases hclass
  | @field c i p _ hc hp heq =>
    have hlookup : s.structs.lookup c.name = some (c.fields.map fun f => f.type.ir) := by
      rw [hs.stocked.structs]
      exact Context.lookup_structs hc
    have hfield : (c.fields.map fun f => f.type.ir)[i]? = some p.type.ir := by
      rw [List.getElem?_map, hp]
      rfl
    have hft : (Emit.fieldType (.classOf c.name) i).run s = (.ok p.type.ir, s) := by
      simp only [Emit.fieldType, Pass.run_bind, Pass.run_state, Ty.classOf, hlookup,
        Option.getD_some, hfield]
      rfl
    have hrun : (Emit.fieldAddress a).run s = (.ok (s.nextInst
        (.fieldAddress (.named c.name) base [.int 32 0, .int 32 i] p.type.ir)).value, s.emitted
        (.fieldAddress (.named c.name) base [.int 32 0, .int 32 i] p.type.ir)) := by
      unfold Emit.fieldAddress
      simp only [Pass.run_bind, Pass.run_state, htype, hs.stocked.members, hmember, heq, if_true,
        hbase, typeOf_run hs.stocked (.inl huse), hft]
      rfl
    refine ⟨_, _, hrun, ?_⟩
    subst heq
    exact inst_yields hs _ rfl rfl ⟨c.name, _, i, rfl, hbt, hlookup, rfl, hfield⟩ (by
      intro v hv
      simp [IR.Op.operands, IR.Op.operands?] at hv
      rcases hv with rfl | rfl | rfl
      · exact hbu
      · exact ⟨trivial, IR.Typ.noConfusion⟩
      · exact ⟨trivial, IR.Typ.noConfusion⟩)

end

/-! ### Expressions -/

/-- Values have been emitted for parameters of given types, and `k` conversions with them. -/
structure Supplies (F : Context) (s u : State) (vs : List IR.Value) (ps : List Ty) (k : Nat) :
    Prop where
  emits : Emits s u
  ready : Ready F u
  usable : ∀ v ∈ vs, u.Usable v
  types : vs.map IR.Value.type = ps.map Ty.ir
  count : u.conversions = s.conversions + k

section

variable {F : Context} {Γ : Environment}

theorem Linked.inUse {s : State} (h : Linked F Γ s) (name : Text) (d : Declaration) (k : Nat)
    (hk : Γ.resolve? name = some (d, k)) : d.type.InUse F := by
  obtain ⟨slot, -, houter, hinner⟩ := h.slots.resolve_some hk
  by_cases h1 : k = 1
  · exact (houter h1).inUse
  · exact (hinner h1).inUse

/-- The type of what is accepted for a type in use is not void. -/
theorem ir_ne_void_of_accepts {p t : Ty} (hp : p.InUse F) (h : p.accepts t = true) :
    t.ir ≠ .void := by
  rcases eq_of_accepts h with rfl | ⟨-, rfl⟩
  · exact hp.ir_ne_void
  · exact IR.Typ.noConfusion

mutual

/-- A well typed expression is lowered. -/
theorem expr_yields (hF : F.Sound) {n : Node} {t : Ty} (hn : HasType F Γ n t) {s : State}
    (hs : Ready F s) (hlink : Linked F Γ s) :
    ∃ v u, (Emit.expr n).run s = (.ok v, u) ∧ Yields F s u v t.ir (n.widenings F) := by
  cases n with
  | int | float | char | bool =>
    cases hn
    exact ⟨_, s, rfl, .of_usable hs ⟨trivial, nofun⟩ rfl⟩
  | string =>
    cases hn
    exact string_yields hs _
  | var m name =>
    obtain ⟨d, hm, rfl⟩ := hn.of_var
    obtain ⟨v, hrun, hvt, hvu, huse⟩ := storage_run hlink hm m.pos
    refine ⟨_, s.emitted (.load d.type.ir v), ?_, inst_yields hs _ rfl rfl hvt ?_⟩
    · rw [Emit.expr, hm.type, Pass.run_bind_of_ok (typeOf_run hs.stocked (.inl huse)),
        Pass.run_bind_of_ok hrun]
      rfl
    · simpa [IR.Op.operands, IR.Op.operands?] using hvu
  | binary m op l r =>
    obtain ⟨lt, rt, hl, hr, hres, hm⟩ := hn.of_binary
    have hform := form_of_binary (hl.inUse hF hlink.inUse) (hr.inUse hF hlink.inUse) hres
    obtain ⟨lv, u₁, hrun₁, hy₁⟩ := expr_yields hF hl hs hlink
    have hs₁ := hy₁.ready hs
    obtain ⟨rv, u₂, hrun₂, hy₂⟩ := expr_yields hF hr hs₁ (hy₁.emits.linked hlink)
    obtain ⟨hls, hrs, -⟩ := scalar_of_binary hres
    have hlv := hy₁.usable (Ty.ir_ne_void_of_scalar hls)
    have hrv := hy₂.usable (Ty.ir_ne_void_of_scalar hrs)
    obtain ⟨v, u, hrun, hy⟩ := binary_yields (hy₂.ready hs₁) hform (hy₂.emits.usable hlv) hrv
      hy₁.type hy₂.type m.pos
    refine ⟨v, u, ?_, ?_⟩
    · rw [Emit.expr, Pass.run_bind_of_ok hrun₁, Pass.run_bind_of_ok hrun₂, hl.type_eq, hr.type_eq]
      exact hrun
    · rw [Node.widenings, hl.type_eq, hr.type_eq, Nat.add_assoc, Nat.add_assoc]
      exact (hy.after hy₂.emits hy₂.count).after hy₁.emits hy₁.count
  | unary m op x =>
    obtain ⟨xt, hx, hres, hm⟩ := hn.of_unary
    obtain ⟨rfl, hform⟩ := UnaryOp.form_of_resultType? hres
    obtain ⟨v, u₁, hrun₁, hy₁⟩ := expr_yields hF hx hs hlink
    have hvoid : t.ir ≠ .void := by cases hform <;> exact IR.Typ.noConfusion
    obtain ⟨w, u, hrun, hy⟩ := unary_yields (hy₁.ready hs) hform (hy₁.usable hvoid) hy₁.type
    refine ⟨w, u, ?_, hy.after hy₁.emits hy₁.count⟩
    rw [Emit.expr, Pass.run_bind_of_ok hrun₁, hm]
    exact hrun
  | call m name xs =>
    obtain ⟨sig, hsig, hxs, rfl⟩ := hn.of_call
    obtain ⟨i, h, hlookup, hhead, hparams, hresult, hvar, -⟩ := hs.stocked.functions name sig hsig
    obtain ⟨vs, u, hrun, hy⟩ := args_yield hF hxs
      (hF.params _ (FuncTable.mem_of_lookup? hsig).1) hs hlink
    have hft : (IR.Value.func i h.type).type =
        .pointer (.function sig.result.ir (sig.params.map Ty.ir) false) := by
      rw [IR.Value.type, IR.Func.type, hparams, hresult, hvar]
    have hf : u.Usable (.func i h.type) :=
      ⟨⟨h, getElem?_of_prefix hy.emits.grows.heads hhead, rfl⟩, by rw [hft]; exact IR.Typ.noConfusion⟩
    refine ⟨(u.nextInst (.call (.func i h.type) vs)).value, u.emitted (.call (.func i h.type) vs),
      ?_, ?_⟩
    · rw [Emit.expr, Pass.run_bind, Pass.run_state]
      simp only [hlookup, hs.stocked.funcs, hsig, Option.map_some, Option.getD_some]
      rw [Pass.run_bind_of_ok hrun]
      rfl
    · rw [Node.widenings, hsig]
      exact (call_yields hy.ready vs hf hft hy.usable hy.types).after hy.emits hy.count
  | dot a xs =>
    obtain ⟨d, f, ha, hxs, rfl⟩ := hn.of_dot
    obtain ⟨handle, hstore, hht, hhu, huse⟩ := storage_run hlink ha.receiver a.receiver.pos
    have hform := Member.form_of_lookup? hF huse ha.aggregate ha.member
    by_cases hclass : d.type.kind = .class_
    · -- A field is loaded from its address.
      have hmark : a.mark.isClass = true := by rw [ha.isClass, hclass]; rfl
      obtain ⟨v, u, hrun, hy⟩ := fieldAddress_yields hs hF hlink ha hclass
      have hload := inst_yields (hy.ready hs) (.load f.result.ir v) rfl rfl hy.type
        (by simpa [IR.Op.operands, IR.Op.operands?] using hy.usable IR.Typ.noConfusion)
      refine ⟨(u.nextInst (.load f.result.ir v)).value, u.emitted (.load f.result.ir v), ?_, ?_⟩
      · rw [Emit.expr, if_pos hmark, ha.type,
          Pass.run_bind_of_ok (typeOf_run hs.stocked (hform.result_inUse hF)),
          Pass.run_bind_of_ok hrun]
        rfl
      · rw [Node.widenings, if_pos hmark]
        exact hload.after hy.emits hy.count
    · -- A member of a list or graph is a function that takes the handle.
      have hmark : a.mark.isClass = false := by rw [ha.isClass]; simpa using hclass
      have hir : d.type.ir = .i8ptr := by
        have hagg := ha.aggregate
        rw [Ty.isAggregate] at hagg
        unfold Ty.ir
        generalize d.type.kind = k at *
        cases k <;> first | rfl | exact absurd rfl hclass | cases hagg
      have hload := inst_yields hs (.load .i8ptr handle) rfl rfl (hir ▸ hht)
        (by simpa [IR.Op.operands, IR.Op.operands?] using hhu)
      obtain ⟨vs, u₁, hrun₁, hy₁⟩ := args_yield hF hxs hform.params_inUse (hload.ready hs)
        (hload.emits.linked hlink)
      obtain ⟨g, u₂, hrun₂, hy₂⟩ := memberFunction_yields hy₁.ready hF hform hclass
      have hcall := call_yields (hy₂.ready hy₁.ready)
        ((s.nextInst (.load .i8ptr handle)).value :: vs) (hy₂.usable IR.Typ.noConfusion) hy₂.type
        (by
          intro v hv
          rcases List.mem_cons.mp hv with rfl | hv
          · exact hy₂.emits.usable (hy₁.emits.usable (hload.usable IR.Typ.noConfusion))
          · exact hy₂.emits.usable (hy₁.usable v hv))
        (by rw [List.map_cons, hy₁.types]; rfl)
      refine ⟨(u₂.nextInst (.call g ((s.nextInst (.load .i8ptr handle)).value :: vs))).value,
        u₂.emitted (.call g ((s.nextInst (.load .i8ptr handle)).value :: vs)), ?_, ?_⟩
      · rw [Emit.expr, if_neg (by rw [hmark]; decide), Pass.run_bind, Pass.run_state]
        simp only [ha.receiver.type, hs.stocked.members, ha.member]
        rw [Pass.run_bind_of_ok hstore, Pass.run_bind_of_ok (Emit.run_inst s _),
          Pass.run_bind_of_ok hrun₁, Pass.run_bind_of_ok hrun₂]
        rfl
      · rw [Node.widenings, if_neg (by rw [hmark]; decide), ha.receiver.type, ha.member]
        have hy := ((hcall.after hy₂.emits hy₂.count).after hy₁.emits hy₁.count).after
          hload.emits hload.count
        simpa [isConversion] using hy
  | _ => cases hn
termination_by structural n

/-- Arguments are lowered from left to right. -/
theorem args_yield (hF : F.Sound) {ps : List Ty} {xs : List Node} (hxs : HasTypes F Γ ps xs)
    (hps : ∀ p ∈ ps, p.InUse F) {s : State} (hs : Ready F s) (hlink : Linked F Γ s) :
    ∃ vs u, (Emit.args ps xs).run s = (.ok vs, u) ∧
      Supplies F s u vs ps (Node.argWidenings F ps xs) := by
  cases xs with
  | nil =>
    cases hxs
    exact ⟨[], s, rfl, .refl s, hs, nofun, rfl, rfl⟩
  | cons x xs =>
    obtain ⟨p, ps, t, rfl, hx, hacc, hxs⟩ := hxs.of_cons
    obtain ⟨v, u₁, hrun₁, hy₁⟩ := expr_yields hF hx hs hlink
    have hs₁ := hy₁.ready hs
    have hp := hps p (by simp)
    obtain ⟨w, u₂, hrun₂, hy₂⟩ := convert_yields hs₁
      (hy₁.usable (ir_ne_void_of_accepts hp hacc)) hy₁.type (eq_of_accepts hacc)
    have hem := hy₁.emits.trans hy₂.emits
    obtain ⟨vs, u, hrun, hy⟩ := args_yield hF hxs (fun q hq => hps q (List.mem_cons_of_mem _ hq))
      (hy₂.ready hs₁) (hem.linked hlink)
    refine ⟨w :: vs, u, ?_, ⟨hem.trans hy.emits, hy.ready, ?_, ?_, ?_⟩⟩
    · rw [Emit.args, Pass.run_bind_of_ok hrun₁, hx.type_eq]
      change ((Emit.convert v t p >>= _).run u₁) = _
      rw [Pass.run_bind_of_ok hrun₂]
      change ((Emit.args ps xs >>= _).run u₂) = _
      rw [Pass.run_bind_of_ok hrun]
      rfl
    · intro y hmem
      rcases List.mem_cons.mp hmem with rfl | hmem
      · exact hy.emits.usable (hy₂.usable hp.ir_ne_void)
      · exact hy.usable y hmem
    · rw [List.map_cons, List.map_cons, hy₂.type, hy.types]
    · rw [hy.count, hy₂.count, hy₁.count, Node.argWidenings, hx.type_eq]
      simp only [List.headD_cons, List.tail_cons]
      omega
termination_by structural xs

end

end

end Lowering

end Augite
