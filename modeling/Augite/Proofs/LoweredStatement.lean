import Augite.Proofs.LoweredStorage
import Augite.Proofs.Orderly

/-!
# Lowering of checked statements

A statement without statements in it that is annotated rightly is lowered without an error, and
its code is well typed.
-/

namespace Augite

namespace Emit

/-- What is passed to print a value of a kind: bools and chars are widened. -/
def promote (k : Kind) (v : IR.Value) : Emit IR.Value :=
  if k = .bool ∨ k = .char then inst (.zext v .i32) else pure v

theorem print_eq {pos : Position} {x : Node} {format : Text}
    (h : Lowering.format? x.type.kind = some format) :
    print pos x = (do
      let v ← expr x
      let v ← promote x.type.kind v
      let f ← printer
      let t ← string format
      effect (.call f [t, v])) := by
  unfold print
  rw [h]
  refine congrArg (expr x >>= ·) (funext fun v => ?_)
  unfold promote
  split <;> rfl

end Emit

namespace Lowering

open State Typing

/-- Statements have been lowered and `k` conversions emitted, with storage bound to the names
it was bound to. -/
structure Neutral (F : Context) (s u : State) (k : Nat) : Prop where
  proceeds : Proceeds F s u
  slots : u.slots = s.slots
  globalSlots : u.globalSlots = s.globalSlots
  count : u.conversions = s.conversions + k

/-- Statements have been lowered and `k` conversions emitted, with storage bound to names in
the innermost scope. -/
structure Lowered (F : Context) (s u : State) (Γ' : Environment) (stops : Bool) (k : Nat) : Prop where
  proceeds : Proceeds F s u
  linked : stops = false → Linked F Γ' u
  level : u.slots.atModule = s.slots.atModule
  scopes : s.slots.atModule = false →
    u.slots.leave = s.slots.leave ∧ u.globalSlots = s.globalSlots
  count : u.conversions = s.conversions + k

section

variable {F : Context} {Γ Γ₁ Γ₂ : Environment} {s t u : State} {d : Bool} {j k : Nat}

namespace Neutral

theorem linked (h : Neutral F s u k) (hlink : Linked F Γ s) : Linked F Γ u :=
  hlink.mono h.proceeds.grows h.slots h.globalSlots h.proceeds.func

theorem trans (h : Neutral F s t j) (h' : Neutral F t u k) : Neutral F s u (j + k) where
  proceeds := h.proceeds.trans h'.proceeds
  slots := h'.slots.trans h.slots
  globalSlots := h'.globalSlots.trans h.globalSlots
  count := by rw [h'.count, h.count, Nat.add_assoc]

theorem lowered (h : Neutral F s u k) (hlink : Linked F Γ s) : Lowered F s u Γ d k where
  proceeds := h.proceeds
  linked _ := h.linked hlink
  level := by rw [h.slots]
  scopes _ := by rw [h.slots, h.globalSlots]; exact ⟨rfl, rfl⟩
  count := h.count

theorem of_yields {v : IR.Value} {τ : IR.Typ} (hy : Yields F s u v τ k) : Neutral F s u k :=
  ⟨.of_emits hy.emits hy.good hy.stocked, hy.emits.slots, hy.emits.globalSlots, hy.count⟩

theorem refl (hgood : s.Good) (hstock : Stocked F s) : Neutral F s s 0 :=
  ⟨.of_emits (.refl s) hgood hstock, rfl, rfl, rfl⟩

end Neutral

namespace Lowered

theorem trans (h : Lowered F s t Γ₁ false j) (h' : Lowered F t u Γ₂ d k) :
    Lowered F s u Γ₂ d (j + k) where
  proceeds := h.proceeds.trans h'.proceeds
  linked := h'.linked
  level := h'.level.trans h.level
  scopes hs := by
    obtain ⟨hslots, hglobals⟩ := h.scopes hs
    obtain ⟨hslots', hglobals'⟩ := h'.scopes (h.level.trans hs)
    exact ⟨hslots'.trans hslots, hglobals'.trans hglobals⟩
  count := by rw [h'.count, h.count, Nat.add_assoc]

theorem of_provides {place : IR.Value} {name : Text} {e : Declaration} (hlink : Linked F Γ s)
    (h : Provides F (Γ.push name e) s u place e.type) :
    Lowered F s u (Γ.push name e) false 0 where
  proceeds := h.proceeds
  linked _ := h.linked
  level := by rw [← h.linked.slots.atModule, Scopes.atModule_push, hlink.slots.atModule]
  scopes := h.scopes
  count := h.count

end Lowered

end

/-- The member by which elements are appended to a list. -/
theorem lookup?_add {F : Context} {k : Kind} (h : (Ty.listOf k).InUse F) :
    k.isScalar = true ∧ F.members.lookup? (.listOf k) "add" =
      some (Member.runtimeMethod "list" "add" k [.scalar k] .void) := by
  cases h with
  | scalar hk => cases hk
  | list hk he =>
    refine ⟨hk, ?_⟩
    unfold MemberTable.lookup?
    rw [MemberTable.members_eq, he]
    rfl

section

variable {F : Context} {Γ : Environment} {s : State}

/-- A store, behind which code can still be emitted. -/
theorem store_neutral (hs : Ready F s) {v place : IR.Value} (hv : s.Usable v)
    (hplace : s.Usable place) (htype : place.type = .pointer v.type) :
    Neutral F s (s.emitted (.store v place)) 0 ∧ Ready F (s.emitted (.store v place)) := by
  have hgood : (s.emitted (.store v place)).Good := by
    refine hs.good.emitted hs.open_ rfl ⟨htype, fun w hw => ?_⟩
    rcases List.mem_cons.mp hw with rfl | hw
    · exact hv
    · cases List.mem_singleton.mp hw
      exact hplace
  have hstock : Stocked F (s.emitted (.store v place)) :=
    hs.stocked.congr rfl rfl rfl rfl rfl rfl rfl List.prefix_rfl
  have hemits : Emits s (s.emitted (.store v place)) := .of_emitted hs.good.seated hs.open_ rfl
  exact ⟨⟨.of_emits hemits hgood hstock, rfl, rfl, conversions_emitted hs.good.seated _⟩, hgood,
    hstock, (done_emitted s _).trans hs.open_⟩

/-- An expression converted to a type that takes it. -/
theorem converted_yields (hF : F.Sound) (hs : Ready F s) (hlink : Linked F Γ s) {x : Node}
    {xt t : Ty} (hx : HasType F Γ x xt) (hacc : t.accepts xt = true) (hvoid : xt.ir ≠ .void) :
    ∃ v w s₁ u, (Emit.expr x).run s = (.ok v, s₁) ∧
      (Emit.convert v x.type t).run s₁ = (.ok w, u) ∧
      Yields F s u w t.ir (x.widenings F + x.type.widens t) := by
  obtain ⟨v, s₁, hrun₁, hy₁⟩ := expr_yields hF hx hs hlink
  obtain ⟨w, u, hrun₂, hy₂⟩ := convert_yields (hy₁.ready hs) (hy₁.usable hvoid) hy₁.type
    (eq_of_accepts hacc)
  refine ⟨v, w, s₁, u, hrun₁, by rw [hx.type_eq]; exact hrun₂, ?_⟩
  rw [hx.type_eq]
  exact hy₂.after hy₁.emits hy₁.count

/-! ### Declarations and assignments -/

theorem declaration_lowered (hs : Ready F s) (hlink : Linked F Γ s) {m : Mark} {name : Text}
    {t : Ty} (hfresh : Γ.Fresh name) (ht : t.InUse F) (hm : m.Declares Γ t) (π : Path) :
    ∃ u, (Emit.declaration m name t).run s = (.ok (), u) ∧
      Lowered F s u (Γ.push name ⟨π, t⟩) false 0 := by
  obtain ⟨place, u, hrun, hp⟩ := declare_provides hs hlink hfresh ht π
  have hlow := Lowered.of_provides hlink hp
  rw [← hm.isGlobal] at hrun
  unfold Emit.declaration
  rw [Pass.run_bind_of_ok hrun]
  split
  · have hzero : (IR.Value.const t.zero).type = t.ir := ht.zero_type
    rw [Pass.run_bind_of_ok (zeroOf_run hp.ready ht)]
    have hstore := store_neutral (v := .const t.zero) hp.ready
      ⟨trivial, by rw [hzero]; exact ht.ir_ne_void⟩ hp.usable (by rw [hp.type, hzero])
    exact ⟨_, rfl, hlow.trans (hstore.1.lowered hp.linked)⟩
  · exact ⟨u, rfl, hlow⟩

theorem definition_lowered (hF : F.Sound) (hs : Ready F s) (hlink : Linked F Γ s) {m : Mark}
    {name : Text} {t xt : Ty} {x : Node} (hfresh : Γ.Fresh name) (ht : t.InUse F)
    (hm : m.Declares Γ t) (hx : HasType F Γ x xt) (hacc : t.accepts xt = true) (π : Path) :
    ∃ u, (Emit.definition m name t x).run s = (.ok (), u) ∧
      Lowered F s u (Γ.push name ⟨π, t⟩) false (x.widenings F + x.type.widens t) := by
  obtain ⟨v, w, s₁, s₂, hrun₁, hrun₂, hy⟩ := converted_yields hF hs hlink hx hacc
    (ir_ne_void_of_accepts ht hacc)
  have hs₂ := hy.ready hs
  have hlink₂ := hy.emits.linked hlink
  obtain ⟨place, u, hrun, hp⟩ := declare_provides hs₂ hlink₂ hfresh ht π
  have hlow := Lowered.of_provides hlink₂ hp
  rw [← hm.isGlobal] at hrun
  refine ⟨u.emitted (.store w place), ?_, ?_⟩
  · unfold Emit.definition
    rw [Pass.run_bind_of_ok hrun₁, Pass.run_bind_of_ok hrun₂, Pass.run_bind_of_ok hrun]
    rfl
  · have hstore := store_neutral hp.ready (hp.kept w (hy.usable ht.ir_ne_void)) hp.usable
      (by rw [hp.type, hy.type])
    exact ((Neutral.of_yields hy).lowered hlink).trans (hlow.trans (hstore.1.lowered hp.linked))

theorem assignment_neutral (hF : F.Sound) (hs : Ready F s) (hlink : Linked F Γ s) {m : Mark}
    {name : Text} {d : Declaration} {xt : Ty} {x : Node} (hm : m.Uses Γ name d)
    (hx : HasType F Γ x xt) (hacc : d.type.accepts xt = true) :
    ∃ u, (Emit.assignment m name x).run s = (.ok (), u) ∧
      Neutral F s u (x.widenings F + x.type.widens m.type) := by
  obtain ⟨-, -, -, -, huse⟩ := storage_run hlink hm m.pos
  obtain ⟨v, w, s₁, s₂, hrun₁, hrun₂, hy⟩ := converted_yields hF hs hlink hx hacc
    (ir_ne_void_of_accepts huse hacc)
  rw [← hm.type] at hrun₂ hy
  have hlink₂ := hy.emits.linked hlink
  obtain ⟨place, hrun, htype, hplace, -⟩ := storage_run hlink₂ hm m.pos
  have hvoid : m.type.ir ≠ .void := by rw [hm.type]; exact huse.ir_ne_void
  refine ⟨s₂.emitted (.store w place), ?_, ?_⟩
  · unfold Emit.assignment
    rw [Pass.run_bind_of_ok hrun₁, Pass.run_bind_of_ok hrun₂, Pass.run_bind_of_ok hrun]
    rfl
  · exact (Neutral.of_yields hy).trans (store_neutral (hy.ready hs) (hy.usable hvoid) hplace
      (by rw [htype, hy.type, hm.type])).1

theorem fieldAssignment_neutral (hF : F.Sound) (hs : Ready F s) (hlink : Linked F Γ s) {m : Mark}
    {a : Access} {d : Declaration} {f : Member} {xt : Ty} {x : Node} (ha : a.RefersTo F Γ d f)
    (hclass : d.type.kind = .class_) (hm : m.type = f.result) (hx : HasType F Γ x xt)
    (hacc : f.result.accepts xt = true) :
    ∃ u, (Emit.fieldAssignment m a x).run s = (.ok (), u) ∧
      Neutral F s u (x.widenings F + x.type.widens m.type) := by
  obtain ⟨-, -, -, -, huse⟩ := storage_run hlink ha.receiver a.receiver.pos
  have hform := Member.form_of_lookup? hF huse ha.aggregate ha.member
  have hfield : f.result.InUse F := hform.result_of_class hF hclass
  obtain ⟨v, w, s₁, s₂, hrun₁, hrun₂, hy⟩ := converted_yields hF hs hlink hx hacc
    (ir_ne_void_of_accepts hfield hacc)
  rw [← hm] at hrun₂ hy
  have hs₂ := hy.ready hs
  have hlink₂ := hy.emits.linked hlink
  obtain ⟨place, u, hrun, hy'⟩ := fieldAddress_yields hs₂ hF hlink₂ ha hclass
  have hvoid : m.type.ir ≠ .void := by rw [hm]; exact hfield.ir_ne_void
  refine ⟨u.emitted (.store w place), ?_, ?_⟩
  · unfold Emit.fieldAssignment
    rw [Pass.run_bind_of_ok hrun₁, Pass.run_bind_of_ok hrun₂, Pass.run_bind_of_ok hrun]
    rfl
  · have hstore := store_neutral (hy'.ready hs₂) (hy'.emits.usable (hy.usable hvoid))
      (hy'.usable IR.Typ.noConfusion) (by rw [hy'.type, hy.type, hm])
    exact (Neutral.of_yields hy).trans ((Neutral.of_yields hy').trans hstore.1)

/-! ### Lists and graphs -/

/-- The function that makes a list or a graph. -/
theorem maker_yields (hs : Ready F s) {family name : Text} (hname : name = "pyrx_" ++ family ++ "_new")
    (hf : family = "list" ∨ family = "graph") :
    ∃ v u, (Emit.external name .i8ptr [] false).run s = (.ok v, u) ∧
      Yields F s u v (.pointer (.function .i8ptr [] false)) 0 := by
  subst hname
  have hmem : Runtime.maker family ∈ Runtime.heads := by
    rcases hf with rfl | rfl <;> simp [Runtime.heads]
  exact external_yields hs hmem

/-- A list or graph is declared and made. -/
theorem aggregate_lowered (maker family : Text) (hmaker : maker = "pyrx_" ++ family ++ "_new")
    (hf : family = "list" ∨ family = "graph") (hs : Ready F s) (hlink : Linked F Γ s) {m : Mark}
    {name : Text} {t : Ty} (hfresh : Γ.Fresh name) (ht : t.InUse F) (hir : t.ir = .i8ptr)
    (hm : m.Declares Γ t) (π : Path) :
    ∃ handle u, (Emit.aggregate m name maker).run s = (.ok handle, u) ∧
      Lowered F s u (Γ.push name ⟨π, t⟩) false 0 ∧ Ready F u ∧ u.Usable handle ∧
        handle.type = .i8ptr := by
  obtain ⟨place, s₁, hrun₁, hp⟩ := declare_provides hs hlink hfresh ht π
  have hlow := Lowered.of_provides hlink hp
  obtain ⟨f, s₂, hrun₂, hy₂⟩ := maker_yields hp.ready hmaker hf
  have hs₂ := hy₂.ready hp.ready
  have hy₃ := call_yields hs₂ [] (hy₂.usable IR.Typ.noConfusion) hy₂.type (fun _ h => absurd h List.not_mem_nil) rfl
  have hy := hy₃.after hy₂.emits hy₂.count
  have hhandle := hy.usable (s := s₁) IR.Typ.noConfusion
  obtain ⟨hstore, hready⟩ := store_neutral (hy.ready hp.ready) hhandle (hy.emits.usable hp.usable)
    (by rw [hp.type, hir, hy.type])
  rw [← hm.isGlobal, ← hm.type] at hrun₁
  refine ⟨_, _, ?_, hlow.trans (((Neutral.of_yields hy).trans hstore).lowered hp.linked), hready,
    ?_, hy.type⟩
  · unfold Emit.aggregate
    rw [Pass.run_bind_of_ok hrun₁, Pass.run_bind_of_ok hrun₂]
    rfl
  · exact Usable.emitted hhandle hy.good.seated (hy.ready hp.ready).open_ rfl

/-- Elements are appended to a list from left to right. -/
theorem appendAll_neutral (hF : F.Sound) {t : Ty} (ht : t.InUse F) {add handle : IR.Value}
    (hat : add.type = .pointer (.function .void [.i8ptr, t.ir] false)) (hht : handle.type = .i8ptr)
    {xs : List Node} (hxs : AllAccepted F Γ t xs) (hs : Ready F s) (hlink : Linked F Γ s)
    (hadd : s.Usable add) (hhandle : s.Usable handle) :
    ∃ u, (Emit.appendAll add handle t xs).run s = (.ok (), u) ∧
      Neutral F s u (Node.elemWidenings F t xs) := by
  induction xs generalizing s with
  | nil => exact ⟨s, rfl, .refl hs.good hs.stocked⟩
  | cons x xs ih =>
    obtain ⟨xt, hx, hacc⟩ := hxs x (by simp)
    obtain ⟨v, w, s₁, s₂, hrun₁, hrun₂, hy⟩ := converted_yields hF hs hlink hx hacc
      (ir_ne_void_of_accepts ht hacc)
    have hs₂ := hy.ready hs
    have hadd₂ := hy.emits.usable hadd
    have hhandle₂ := hy.emits.usable hhandle
    have hcall := call_yields hs₂ [handle, w] hadd₂ hat
      (by
        intro z hz
        rcases List.mem_cons.mp hz with rfl | hz
        · exact hhandle₂
        · cases List.mem_singleton.mp hz
          exact hy.usable ht.ir_ne_void)
      (by simp [IR.Takes, hht, hy.type])
    have hall := hcall.after hy.emits hy.count
    obtain ⟨u, hrun, hlow⟩ := ih (fun z hz => hxs z (List.mem_cons_of_mem _ hz)) (hall.ready hs)
      (hall.emits.linked hlink) (hall.emits.usable hadd) (hall.emits.usable hhandle)
    refine ⟨u, ?_, ?_⟩
    · rw [Emit.appendAll, Pass.run_bind_of_ok hrun₁, Pass.run_bind_of_ok hrun₂]
      exact hrun
    · exact (Neutral.of_yields hall).trans hlow

theorem list_lowered (hF : F.Sound) (hs : Ready F s) (hlink : Linked F Γ s) {m : Mark} {name : Text}
    {k : Kind} {xs : List Node} (hfresh : Γ.Fresh name) (ht : (Ty.listOf k).InUse F)
    (hm : m.Declares Γ (.listOf k)) (hxs : AllAccepted F Γ (.scalar k) xs)
    (hname : name ∉ Node.mentionsAll xs) (π : Path) :
    ∃ u, (Emit.list m name xs).run s = (.ok (), u) ∧
      Lowered F s u (Γ.push name ⟨π, .listOf k⟩) false (Node.elemWidenings F (.scalar k) xs) := by
  obtain ⟨handle, s₁, hrun₁, hlow₁, hs₁, hhandle, hht⟩ := aggregate_lowered "pyrx_list_new" "list"
    rfl (.inl rfl) hs hlink hfresh ht rfl hm π
  unfold Emit.list
  rw [Pass.run_bind_of_ok hrun₁]
  cases hemp : xs.isEmpty with
  | true =>
    rw [List.isEmpty_iff] at hemp
    subst hemp
    exact ⟨s₁, rfl, hlow₁⟩
  | false =>
    have hlink₁ := hlow₁.linked rfl
    obtain ⟨hk, hlookup⟩ := lookup?_add ht
    have hadd : Member.runtimeMethod "list" "add" k [.scalar k] .void ∈ Member.ofList k := by
      simp [Member.ofList]
    obtain ⟨f, s₂, hrun₂, hy₂⟩ := memberFunction_yields hs₁ hF (.list hk hadd) (by simp [Ty.listOf])
    obtain ⟨u, hrun, hlow⟩ := appendAll_neutral hF (.scalar hk) hy₂.type hht
      (hxs.push ⟨π, .listOf k⟩ hname) (hy₂.ready hs₁) (hy₂.emits.linked hlink₁)
      (hy₂.usable IR.Typ.noConfusion) (hy₂.emits.usable hhandle)
    refine ⟨u, ?_, ?_⟩
    · simp only [Bool.false_eq_true, if_false, Pass.run_bind, Pass.run_state, hm.type,
        hs₁.stocked.members, hlookup, hrun₂]
      exact hrun
    · have := hlow₁.trans (d := false) (((Neutral.of_yields hy₂).trans hlow).lowered hlink₁)
      rwa [Nat.zero_add, Nat.zero_add] at this

/-! ### Printing and returning -/

theorem print_neutral (hF : F.Sound) (hs : Ready F s) (hlink : Linked F Γ s) {x : Node} {t : Ty}
    (hx : HasType F Γ x t) (ht : t.kind.isScalar = true) (pos : Position) :
    ∃ u, (Emit.print pos x).run s = (.ok (), u) ∧ Neutral F s u (x.widenings F) := by
  obtain ⟨v, s₁, hrun₁, hy₁⟩ := expr_yields hF hx hs hlink
  have hs₁ := hy₁.ready hs
  have hv := hy₁.usable (Ty.ir_ne_void_of_scalar ht)
  obtain ⟨format, hformat⟩ : ∃ format, format? t.kind = some format := by
    generalize t.kind = k at ht
    cases k <;> cases ht <;> exact ⟨_, rfl⟩
  -- Bools and chars are widened, other values are passed as they are.
  obtain ⟨w, s₂, hrun₂, τ, hτ, hy₂⟩ : ∃ w s₂, (Emit.promote t.kind v).run s₁ = (.ok w, s₂) ∧
      ∃ τ, τ ≠ .void ∧ Yields F s₁ s₂ w τ 0 := by
    unfold Emit.promote
    split
    · rename_i hnarrow
      refine ⟨_, _, rfl, .i32, nofun, inst_yields hs₁ (.zext v .i32) rfl rfl ⟨?_, rfl⟩ ?_⟩
      · rw [hy₁.type, Ty.ir]
        rcases hnarrow with hk | hk
        · rw [hk]
          exact .inl rfl
        · rw [hk]
          exact .inr rfl
      · simpa [IR.Op.operands, IR.Op.operands?] using hv
    · exact ⟨v, s₁, rfl, t.ir, Ty.ir_ne_void_of_scalar ht, .of_usable hs₁ hv hy₁.type⟩
  have hs₂ := hy₂.ready hs₁
  obtain ⟨f, s₃, hrun₃, hy₃⟩ := external_yields hs₂
    (show Runtime.printer ∈ Runtime.heads by simp [Runtime.heads])
  have hs₃ := hy₃.ready hs₂
  obtain ⟨c, s₄, hrun₄, hy₄⟩ := string_yields hs₃ format
  have hcall := call_yields (hy₄.ready hs₃) [c, w]
    (hy₄.emits.usable (hy₃.usable IR.Typ.noConfusion)) hy₃.type
    (by
      intro z hz
      rcases List.mem_cons.mp hz with rfl | hz
      · exact hy₄.usable IR.Typ.noConfusion
      · cases List.mem_singleton.mp hz
        exact hy₄.emits.usable (hy₃.emits.usable (hy₂.usable hτ)))
    (by simp [IR.Takes, hy₄.type])
  have hy := (((hcall.after hy₄.emits hy₄.count).after hy₃.emits hy₃.count).after hy₂.emits
    hy₂.count).after hy₁.emits hy₁.count
  refine ⟨_, ?_, .of_yields hy⟩
  rw [Emit.print_eq (by rw [hx.type_eq]; exact hformat), hx.type_eq, Pass.run_bind_of_ok hrun₁,
    Pass.run_bind_of_ok hrun₂]
  unfold Emit.printer
  rw [Pass.run_bind_of_ok hrun₃, Pass.run_bind_of_ok hrun₄]
  rfl

/-- The current block has been terminated. -/
theorem closed_neutral (hs : Ready F s) {x : IR.Term} (hx : s.TermOk s.body.func s.curInsts x) :
    Neutral F s (s.closed x) 0 where
  proceeds :=
    { grows := grows_closed hs.open_ x
      good := hs.good.closed hs.open_ hx
      stocked := hs.stocked.congr rfl rfl rfl rfl rfl rfl rfl List.prefix_rfl
      allocas := fun _ _ _ => allocas?_closed
      func := rfl
      sig := rfl
      entry := rfl }
  slots := rfl
  globalSlots := rfl
  count := conversions_closed s x

/-- The function under construction has the signature; the entry point has none. -/
structure InFunction (fn : Option Signature) (s : State) : Prop where
  sig : s.body.sig = fn
  head : ∃ h, s.heads[s.body.func]? = some h ∧
    h.result = fn.elim .i32 fun sig => sig.result.ir

theorem InFunction.mono {fn : Option Signature} {u : State} (h : InFunction fn s)
    (hg : s.Grows u) (hfunc : u.body.func = s.body.func) (hsig : u.body.sig = s.body.sig) :
    InFunction fn u where
  sig := hsig.trans h.sig
  head := by
    obtain ⟨head, hget, hres⟩ := h.head
    exact ⟨head, by rw [hfunc]; exact getElem?_of_prefix hg.heads hget, hres⟩

theorem Proceeds.inFunction {fn : Option Signature} {u : State} (h : Proceeds F s u)
    (hfn : InFunction fn s) : InFunction fn u :=
  hfn.mono h.grows h.func h.sig

theorem return_neutral (hs : Ready F s) {sig : Signature} (hfn : InFunction (some sig) s)
    (hvoid : sig.result = .void) (pos : Position) :
    ∃ u, (Emit.returnFrom pos none).run s = (.ok (), u) ∧ Neutral F s u 0 := by
  obtain ⟨h, hget, hres⟩ := hfn.head
  refine ⟨s.closed (.ret none), ?_, closed_neutral (x := .ret none) hs
    ⟨⟨h, hget, ?_⟩, nofun, nofun⟩⟩
  · simp only [Emit.returnFrom, Pass.run_bind, Pass.run_state, hfn.sig]
    rfl
  · rw [IR.Term.WellTyped, hres, Option.elim_some, hvoid]
    rfl

theorem returnValue_neutral (hF : F.Sound) (hs : Ready F s) (hlink : Linked F Γ s) {sig : Signature}
    (hfn : InFunction (some sig) s) (hvoid : sig.result ≠ .void) {x : Node} {xt : Ty}
    (hx : HasType F Γ x xt) (hacc : sig.result.accepts xt = true) (pos : Position) :
    ∃ u, (Emit.returnFrom pos (some x)).run s = (.ok (), u) ∧
      Neutral F s u (x.widenings F + x.type.widens sig.result) := by
  have hxt : xt.ir ≠ .void := by
    rcases hx.inUse hF hlink.inUse with huse | rfl
    · exact huse.ir_ne_void
    · rcases eq_of_accepts hacc with h | ⟨-, h⟩
      · exact absurd h hvoid
      · cases h
  obtain ⟨v, w, s₁, s₂, hrun₁, hrun₂, hy⟩ := converted_yields hF hs hlink hx hacc hxt
  have hs₂ := hy.ready hs
  have hlow := Neutral.of_yields hy
  obtain ⟨h, hget, hres⟩ := (hlow.proceeds.inFunction hfn).head
  have hw : w.type ≠ .void := by
    rw [hy.type]
    rcases eq_of_accepts hacc with heq | ⟨heq, -⟩
    · rw [heq]
      exact hxt
    · rw [heq]
      exact IR.Typ.noConfusion
  refine ⟨s₂.closed (.ret (some w)), ?_, hlow.trans (closed_neutral (x := .ret (some w)) hs₂
    ⟨⟨h, hget, hy.type.trans hres.symm⟩, ?_, nofun⟩)⟩
  · simp only [Emit.returnFrom, Pass.run_bind, Pass.run_state, hfn.sig, hrun₁, hrun₂]
    rfl
  · intro z hz
    cases List.mem_singleton.mp hz
    exact ⟨hy.available, hw⟩

end

end Lowering

end Augite
