import Augite.Proofs.LoweredExpression

/-!
# Progress of lowering and storage for variables

What holds from the start of a statement to its end: the state grows and stays good, and stack
slots are made in the first block of the function only. A declaration makes storage for its
variable.
-/

namespace Augite

/-- The value of a variable of a type before it is assigned one. -/
def Ty.zero (t : Ty) : IR.Const :=
  match t.kind with
  | .int => .int 64 0
  | .float => .double (.zero false)
  | .char => .int 8 0
  | .bool => .bool false
  | .string | .list | .graph => .null .i8ptr
  | _ => .zeroed t.ir

theorem Ty.InUse.zero_type {c : Context} {t : Ty} (h : t.InUse c) : t.zero.type = t.ir := by
  cases h with
  | @scalar k hk => cases k <;> cases hk <;> rfl
  | list | graph | class_ => rfl

namespace Lowering

open State Typing

/-- Within one function lowering has gone on. -/
structure Proceeds (F : Context) (s u : State) : Prop where
  grows : s.Grows u
  good : u.Good
  stocked : Stocked F u
  allocas : ∀ b < s.arena.length, b ≠ s.body.entry → u.allocas? b = s.allocas? b
  func : u.body.func = s.body.func
  sig : u.body.sig = s.body.sig
  entry : u.body.entry = s.body.entry

theorem State.Grows.length_le {s u : State} (h : s.Grows u) : s.arena.length ≤ u.arena.length := by
  by_contra hlt
  obtain ⟨d, hd⟩ : ∃ d, s.draft? u.arena.length = some d :=
    ⟨_, List.getElem?_eq_getElem (by omega)⟩
  obtain ⟨e, he, -⟩ := h.drafts _ d hd
  exact absurd (lt_of_draft? he) (by omega)

namespace Proceeds

variable {F : Context} {s t u : State}

theorem trans (h : Proceeds F s t) (k : Proceeds F t u) : Proceeds F s u where
  grows := h.grows.trans k.grows
  good := k.good
  stocked := k.stocked
  allocas b hb hne := (k.allocas b (hb.trans_le h.grows.length_le) (h.entry ▸ hne)).trans
    (h.allocas b hb hne)
  func := k.func.trans h.func
  sig := k.sig.trans h.sig
  entry := k.entry.trans h.entry

theorem of_emits (h : Emits s u) (hgood : u.Good) (hstock : Stocked F u) : Proceeds F s u :=
  ⟨h.grows, hgood, hstock, fun b _ _ => h.allocas b, by rw [h.body], by rw [h.body], by rw [h.body]⟩

/-- No block is touched. -/
theorem of_arena (hs : s.Good) (hstock : Stocked F u) (hg : s.Grows u) (harena : u.arena = s.arena)
    (hbody : u.body = s.body) : Proceeds F s u where
  grows := hg
  good := hs.congr harena hbody hg
  stocked := hstock
  allocas b _ _ := by rw [allocas?, draft?, harena]; rfl
  func := by rw [hbody]
  sig := by rw [hbody]
  entry := by rw [hbody]

end Proceeds

/-! ### Storage -/

/-- Storage bound to a name. -/
def State.bound (s : State) (slot : Slot) : State :=
  { s with slots := s.slots.push slot.name slot }

theorem bind_run {s : State} {slot : Slot} (h : s.slots.current.lookup slot.name = none) :
    (Emit.bind slot).run s = (.ok (), s.bound slot) := by
  have hbind : s.slots.bind slot = .ok (s.slots.push slot.name slot) := by
    unfold Slots.bind
    rw [Scopes.declare?_eq_some_iff.mpr ⟨h, rfl⟩]
  simp only [Emit.bind, Pass.run_bind, Pass.run_state, hbind]
  rfl

section

variable {F : Context} {s : State} (hs : Ready F s)
include hs

theorem zeroOf_run {t : Ty} (ht : t.InUse F) : (Emit.zeroOf t).run s = (.ok t.zero, s) := by
  have htype := typeOf_run hs.stocked (.inl ht)
  cases ht with
  | @scalar k hk => cases k <;> cases hk <;> rfl
  | list | graph => rfl
  | @class_ d hd =>
    change (Emit.typeOf (.classOf d.name) >>= _).run s = _
    rw [Pass.run_bind_of_ok htype]
    rfl

/-- The state behind the declaration of a local variable. -/
theorem declare_local_run {name : Text} {t : Ty} (ht : t.InUse F)
    (hfresh : s.slots.current.lookup name = none) :
    (Emit.declare name t false).run s =
      (.ok (s.nextInst (.alloca (s.slotName name) t.ir)).value,
        (s.reserved name t.ir).bound
          { name, storage := (s.nextInst (.alloca (s.slotName name) t.ir)).value, type := t }) := by
  unfold Emit.declare
  simp only [Bool.false_eq_true, if_false]
  rw [Pass.run_bind_of_ok (typeOf_run hs.stocked (.inl ht)),
    Pass.run_bind_of_ok (Emit.run_stackSlot s name t.ir)]
  rw [Pass.run_bind_of_ok (bind_run (s := s.reserved name t.ir) hfresh)]
  rfl

/-- The state behind the declaration of a variable of the module. -/
theorem declare_global_run {name : Text} {t : Ty} (ht : t.InUse F)
    (hfresh : s.slots.current.lookup name = none) :
    (Emit.declare name t true).run s =
      (.ok (.global s.globals.length t.ir),
        (s.withGlobal name t.zero).bound
          { name, storage := .global s.globals.length t.ir, type := t }) := by
  unfold Emit.declare
  simp only [if_true]
  rw [← ht.zero_type, Pass.run_bind_of_ok (zeroOf_run hs ht),
    Pass.run_bind_of_ok (Emit.run_globalVariable s name t.zero)]
  rw [Pass.run_bind_of_ok (bind_run (s := s.withGlobal name t.zero) hfresh)]
  rfl

end

/-- Storage for a variable has been made. -/
structure Provides (F : Context) (Γ' : Environment) (s u : State) (place : IR.Value) (t : Ty) :
    Prop where
  proceeds : Proceeds F s u
  ready : Ready F u
  linked : Linked F Γ' u
  type : place.type = .pointer t.ir
  usable : u.Usable place
  kept : ∀ v, s.Usable v → u.Usable v
  scopes : s.slots.atModule = false →
    u.slots.leave = s.slots.leave ∧ u.globalSlots = s.globalSlots
  count : u.conversions = s.conversions

section

variable {F : Context} {Γ : Environment} {s : State}

theorem reserved_provides (hs : Ready F s) (hlink : Linked F Γ s) (hlocal : Γ.atModule = false)
    (name : Text) {t : Ty} (ht : t.InUse F) (π : Path) (isParam : Bool) :
    Provides F (Γ.push name ⟨π, t⟩) s
      ((s.reserved name t.ir).bound
        { name, storage := (s.nextInst (.alloca (s.slotName name) t.ir)).value, type := t, isParam })
      (s.nextInst (.alloca (s.slotName name) t.ir)).value t := by
  set r := s.reserved name t.ir with hr
  set place := (s.nextInst (.alloca (s.slotName name) t.ir)).value with hplace
  set u := r.bound { name, storage := place, type := t, isParam } with hu
  have hrg : s.Grows r := grows_reserved name t.ir hs.good
  have hug : r.Grows u := .of_arena rfl rfl List.prefix_rfl List.prefix_rfl rfl
  have hg := hrg.trans hug
  have hgood : u.Good := (hs.good.reserved name t.ir ht.ir_ne_void).congr rfl rfl hug
  have hstock : Stocked F u := hs.stocked.congr rfl rfl rfl rfl rfl rfl rfl List.prefix_rfl
  have hsmod : s.slots.atModule = false := hlink.slots.atModule ▸ hlocal
  have hav : ∀ pre, u.Available u.body.func pre place := fun pre =>
    (available_reserved name t.ir hs.good pre).mono hug fun _ h => h
  have hterms : u.terms = s.terms := terms_reserved s name t.ir
  refine ⟨?_, ⟨hgood, hstock, ?_⟩, ⟨?_, ?_⟩, rfl, ⟨hav _, IR.Typ.noConfusion⟩, ?_, ?_, ?_⟩
  · refine ⟨hg, hgood, hstock, fun b _ hne => ?_, rfl, rfl, rfl⟩
    exact congrArg (Option.map Draft.allocas) (draft?_reserved_ne name t.ir hne.symm)
  · rw [done_eq, hterms]
    exact (done_eq s).symm.trans hs.open_
  · refine (hlink.slots_of_grows hg rfl).push name (fun _ => ?_) fun hmod => ?_
    · exact ⟨rfl, ht, ⟨_, rfl⟩, hav []⟩
    · rw [hlocal] at hmod
      cases hmod
  · change s.globalSlots = (s.slots.push name _).module.map _
    rw [Scopes.module_push_of_inner hsmod]
    exact hlink.globals
  · intro v hv
    exact hv.mono hg (curInsts_reserved name t.ir hs.good)
  · intro _
    exact ⟨Scopes.leave_push hsmod _ _, rfl⟩
  · exact conversions_reserved s name t.ir

theorem withGlobal_provides (hs : Ready F s) (hlink : Linked F Γ s) (hmod : Γ.atModule = true)
    {name : Text} {t : Ty} (ht : t.InUse F) (π : Path) :
    Provides F (Γ.push name ⟨π, t⟩) s
      ((s.withGlobal name t.zero).bound
        { name, storage := .global s.globals.length t.ir, type := t })
      (.global s.globals.length t.ir) t := by
  set u := (s.withGlobal name t.zero).bound
    { name, storage := .global s.globals.length t.ir, type := t } with hu
  have hg : s.Grows u := .of_arena rfl rfl (List.prefix_append _ _) List.prefix_rfl rfl
  have hgood : u.Good := hs.good.congr rfl rfl hg
  have hstock : Stocked F u :=
    hs.stocked.congr rfl rfl rfl rfl rfl rfl rfl (List.prefix_append _ _)
  have hsmod : s.slots.atModule = true := hlink.slots.atModule ▸ hmod
  have hav : ∀ pre, u.Available u.body.func pre (.global s.globals.length t.ir) := fun _ =>
    ⟨_, List.getElem?_concat_length, ht.zero_type⟩
  refine ⟨?_, ⟨hgood, hstock, hs.open_⟩, ⟨?_, ?_⟩, rfl, ⟨hav _, IR.Typ.noConfusion⟩, ?_, ?_, rfl⟩
  · exact .of_arena hs.good hstock hg rfl rfl
  · refine (hlink.slots_of_grows hg rfl).push name (fun hlocal => ?_) fun _ => ?_
    · rw [hmod] at hlocal
      cases hlocal
    · exact ⟨rfl, ht, ⟨_, rfl⟩, hav []⟩
  · change (name, IR.Value.global s.globals.length t.zero.type) :: s.globalSlots =
      (s.slots.push name _).module.map _
    rw [Scopes.module_push_of_module hsmod, ht.zero_type, hlink.globals]
    rfl
  · intro v hv
    exact hv.mono hg fun _ h => h
  · intro hlocal
    rw [hsmod] at hlocal
    cases hlocal

/-- A variable with a new name is declared. -/
theorem declare_provides (hs : Ready F s) (hlink : Linked F Γ s) {name : Text}
    (hfresh : Γ.Fresh name) {t : Ty} (ht : t.InUse F) (π : Path) :
    ∃ place u, (Emit.declare name t Γ.atModule).run s = (.ok place, u) ∧
      Provides F (Γ.push name ⟨π, t⟩) s u place t := by
  have hnone := (hlink.slots.current_none name).mp hfresh
  cases hmod : Γ.atModule with
  | false =>
    exact ⟨_, _, declare_local_run hs ht hnone, reserved_provides hs hlink hmod name ht π false⟩
  | true => exact ⟨_, _, declare_global_run hs ht hnone, withGlobal_provides hs hlink hmod ht π⟩

end

end Lowering

end Augite
