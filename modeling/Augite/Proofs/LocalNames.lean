import Augite.Proofs.Legible
import Augite.Proofs.ProgramTraces
import Augite.Proofs.Rendering

/-!
# Names within a function

A stack slot is named after its variable, with a number behind the name from the second slot on,
and a block after its role and its number. The names of variables have no dots in them, so
neither two slots of a function nor a slot and a block are named alike.
-/

namespace Augite

/-! ### Words and dots -/

theorem Text.IsWord.dot_notMem {x : Text} (h : x.IsWord) : byte '.' ∉ x := by
  intro hmem
  have := h _ hmem
  revert this
  decide

/-- What stands before the first dot, and what stands behind it. -/
theorem Text.split_dot {x y r r' : Text} (hx : byte '.' ∉ x) (hy : byte '.' ∉ y)
    (h : x ++ byte '.' :: r = y ++ byte '.' :: r') : x = y ∧ r = r' := by
  induction x generalizing y with
  | nil =>
    cases y with
    | nil => exact ⟨rfl, (List.cons.inj h).2⟩
    | cons b y =>
      obtain ⟨rfl, -⟩ := List.cons.inj h
      exact absurd List.mem_cons_self hy
  | cons a x ih =>
    cases y with
    | nil =>
      obtain ⟨rfl, -⟩ := List.cons.inj h
      exact absurd List.mem_cons_self hx
    | cons b y =>
      obtain ⟨rfl, htail⟩ := List.cons.inj h
      obtain ⟨rfl, rfl⟩ :=
        ih (List.not_mem_of_not_mem_cons hx) (List.not_mem_of_not_mem_cons hy) htail
      exact ⟨rfl, rfl⟩

/-- What stands behind the last dot. -/
theorem Text.split_last_dot {x y r r' : Text} (hr : byte '.' ∉ r) (hr' : byte '.' ∉ r')
    (h : x ++ byte '.' :: r = y ++ byte '.' :: r') : r = r' := by
  have hrev := congrArg List.reverse h
  simp only [List.reverse_append, List.reverse_cons, List.append_assoc, List.singleton_append] at hrev
  have := (split_dot (by rwa [List.mem_reverse]) (by rwa [List.mem_reverse]) hrev).1
  exact List.reverse_injective this

theorem Text.dot_notMem_decimal (n : Nat) : byte '.' ∉ decimal n := by
  intro hmem
  have := isDigit_of_mem_decimal n _ hmem
  revert this
  decide

theorem Text.decimal_injective : Function.Injective decimal := by
  intro m n h
  rw [← digitsValue_decimal m, h, digitsValue_decimal]

/-! ### Names of variables -/

/-- A variable with a stack slot is named by a word. -/
def Room.IsWorded : Room → Prop
  | .slot name => name.IsWord
  | .global _ => True

theorem Room.isWorded_of {name : Text} (h : name.IsWord) (isGlobal : Bool) :
    (Room.of isGlobal name).IsWorded := by
  cases isGlobal
  · exact h
  · trivial

namespace Node

mutual

theorem Legible.isWorded {libs : List Library} {n : Node} (h : n.Legible libs) :
    ∀ r ∈ n.rooms, r.IsWorded := by
  cases n with
  | varDecl m name t | varDef m name t x | listDecl m name k xs | graphDecl m name k =>
    exact List.forall_mem_singleton.mpr (Room.isWorded_of h.1.word _)
  | branch m merge test yes no =>
    cases no with
    | none => exact AllLegible.isWorded h.2
    | some no =>
      exact List.forall_mem_append.mpr ⟨AllLegible.isWorded h.2.1, AllLegible.isWorded h.2.2⟩
  | whileLoop m merge test body => exact AllLegible.isWorded h.2
  | forLoop m merge init test step body =>
    obtain ⟨hinit, -, hstep, hbody⟩ := h
    refine List.forall_mem_append.mpr ⟨Legible.isWorded hinit, ?_⟩
    refine List.forall_mem_append.mpr ⟨AllLegible.isWorded hbody, ?_⟩
    split
    · exact List.forall_mem_nil _
    · exact Legible.isWorded hstep
  | funcDef m name params result body =>
    refine List.forall_mem_append.mpr ⟨?_, AllLegible.isWorded h.2.2.2⟩
    exact List.forall_mem_map.mpr fun p hp => (h.2.1 p hp).1.word
  | ret m x => cases x <;> exact List.forall_mem_nil _
  | _ => exact List.forall_mem_nil _
termination_by structural n

theorem AllLegible.isWorded {libs : List Library} {ns : List Node} (h : AllLegible libs ns) :
    ∀ r ∈ livingRooms ns, r.IsWorded := by
  cases ns with
  | nil => exact List.forall_mem_nil _
  | cons n rest =>
    refine List.forall_mem_append.mpr ⟨Legible.isWorded h.1, ?_⟩
    split
    · exact List.forall_mem_nil _
    · exact AllLegible.isWorded h.2
termination_by structural ns

end

end Node

namespace Lowering

/-! ### Names of slots and labels -/

/-- The name of a variable's stack slot that has got so many before it. -/
def slotText (name : Text) (k : Nat) : Text :=
  if k = 0 then name ++ ".addr" else name ++ ".addr" ++ "." ++ Text.decimal k

theorem slotText_eq (name : Text) (k : Nat) :
    ∃ r, slotText name k = name ++ byte '.' :: byte 'a' :: r := by
  unfold slotText
  split
  · exact ⟨"ddr", rfl⟩
  · refine ⟨"ddr" ++ "." ++ Text.decimal k, ?_⟩
    rw [List.append_assoc, List.append_assoc]
    rfl

theorem slotText_inj {x y : Text} (hx : x.IsWord) (hy : y.IsWord) {k j : Nat}
    (h : slotText x k = slotText y j) : x = y ∧ k = j := by
  obtain ⟨r, hr⟩ := slotText_eq x k
  obtain ⟨r', hr'⟩ := slotText_eq y j
  obtain ⟨rfl, -⟩ := Text.split_dot hx.dot_notMem hy.dot_notMem (hr.symm.trans (h.trans hr'))
  refine ⟨rfl, ?_⟩
  unfold slotText at h
  split at h
  · split at h
    · omega
    · have hlength := congrArg List.length h
      simp only [List.length_append] at hlength
      have : 0 < (Text.ofString ".").length := by decide
      omega
  · split at h
    · have hlength := congrArg List.length h
      simp only [List.length_append] at hlength
      have : 0 < (Text.ofString ".").length := by decide
      omega
    · exact Text.decimal_injective (List.append_cancel_left h)

/-- The label of a block begins with a word and a dot, and not like the name of a slot. -/
theorem word_eq {role : IR.Role} (h : role ≠ .entry) :
    ∃ w b r, role.word = w ++ byte '.' :: b :: r ∧ byte '.' ∉ w ∧ b ≠ byte 'a' := by
  cases role with
  | entry => exact absurd rfl h
  | ifThen => exact ⟨"if", byte 't', "hen", rfl, by decide, by decide⟩
  | ifEnd => exact ⟨"if", byte 'e', "nd", rfl, by decide, by decide⟩
  | ifElse => exact ⟨"if", byte 'e', "lse", rfl, by decide, by decide⟩
  | whileCond => exact ⟨"while", byte 'c', "ond", rfl, by decide, by decide⟩
  | whileBody => exact ⟨"while", byte 'b', "ody", rfl, by decide, by decide⟩
  | whileEnd => exact ⟨"while", byte 'e', "nd", rfl, by decide, by decide⟩
  | forCond => exact ⟨"for", byte 'c', "ond", rfl, by decide, by decide⟩
  | forBody => exact ⟨"for", byte 'b', "ody", rfl, by decide, by decide⟩
  | forStep => exact ⟨"for", byte 's', "tep", rfl, by decide, by decide⟩
  | forEnd => exact ⟨"for", byte 'e', "nd", rfl, by decide, by decide⟩

theorem label_eq {b : IR.Block} {l : Text} (h : b.label? = some l) :
    b.role ≠ .entry ∧ l = b.role.word ++ byte '.' :: Text.decimal b.id := by
  unfold IR.Block.label? at h
  split at h
  · cases h
  · rename_i hrole
    cases h
    exact ⟨hrole, List.append_assoc ..⟩

theorem id_eq_of_label {b c : IR.Block} {l : Text} (hb : b.label? = some l)
    (hc : c.label? = some l) : b.id = c.id := by
  obtain ⟨-, hl⟩ := label_eq hb
  obtain ⟨-, hl'⟩ := label_eq hc
  exact Text.decimal_injective (Text.split_last_dot (Text.dot_notMem_decimal _)
    (Text.dot_notMem_decimal _) (hl.symm.trans hl'))

theorem label_ne_slotText {b : IR.Block} {l : Text} (hb : b.label? = some l) {x : Text}
    (hx : x.IsWord) (k : Nat) : l ≠ slotText x k := by
  obtain ⟨hrole, rfl⟩ := label_eq hb
  obtain ⟨w, c, r, hword, hw, hc⟩ := word_eq hrole
  obtain ⟨r', hr'⟩ := slotText_eq x k
  rw [hword, hr', List.append_assoc]
  intro h
  exact hc (List.cons.inj (Text.split_dot hw hx.dot_notMem h).2).1

theorem dot_mem_label {b : IR.Block} {l : Text} (hb : b.label? = some l) : byte '.' ∈ l := by
  obtain ⟨-, rfl⟩ := label_eq hb
  simp

theorem dot_mem_slotText (x : Text) (k : Nat) : byte '.' ∈ slotText x k := by
  obtain ⟨r, hr⟩ := slotText_eq x k
  rw [hr]
  simp

/-! ### Slots under construction -/

/-- The name of the stack slot that an instruction reserves. -/
def slotName? (i : IR.Inst) : Option Text :=
  match i.op with
  | .alloca name _ => some name
  | _ => none

theorem slotName?_of_isAlloca {i : IR.Inst} (h : i.op.isAlloca = false) : slotName? i = none := by
  unfold slotName?
  split
  · rename_i heq
    rw [heq] at h
    cases h
  · rfl

namespace State

variable {s u : State}

/-- The names of the stack slots of a function. -/
def slotNames (s : State) (func : Nat) : List Text :=
  s.arena.flatMap fun d => if d.func = func then d.insts.filterMap slotName? else []

/-- How many stack slots of the function under construction are named after a variable. -/
def uses (s : State) (name : Text) : Nat := (s.body.names.lookup (name ++ ".addr")).getD 0

theorem flatMap_modify {α β : Type} {F : α → List β} {g : α → α} {xs : List α} {i : Nat}
    (h : ∀ x, xs[i]? = some x → F (g x) = F x) : (xs.modify i g).flatMap F = xs.flatMap F := by
  induction xs generalizing i with
  | nil => rw [List.modify_nil]
  | cons x xs ih =>
    cases i with
    | zero => rw [List.modify_zero_cons, List.flatMap_cons, List.flatMap_cons, h x rfl]
    | succ i => rw [List.modify_succ_cons, List.flatMap_cons, List.flatMap_cons, ih h]

theorem flatMap_modify_perm {α β : Type} {F : α → List β} {g : α → α} {xs : List α} {i : Nat}
    {x : α} (hx : xs[i]? = some x) {b : β} (h : (F (g x)).Perm (b :: F x)) :
    ((xs.modify i g).flatMap F).Perm (b :: xs.flatMap F) := by
  induction xs generalizing i with
  | nil => cases hx
  | cons y xs ih =>
    cases i with
    | zero =>
      cases hx
      rw [List.modify_zero_cons, List.flatMap_cons, List.flatMap_cons]
      exact h.append_right _
    | succ i =>
      rw [List.modify_succ_cons, List.flatMap_cons, List.flatMap_cons]
      exact ((ih hx).append_left _).trans List.perm_middle

theorem slotNames_emitted {op : IR.Op} (hop : op.isAlloca = false) (s : State) (f : Nat) :
    (s.emitted op).slotNames f = s.slotNames f := by
  refine flatMap_modify fun d _ => ?_
  have hname : slotName? (s.nextInst op) = none := slotName?_of_isAlloca hop
  simp only [List.filterMap_append, List.filterMap_cons, hname, List.filterMap_nil, List.append_nil]

theorem slotNames_closed (t : IR.Term) (s : State) (f : Nat) :
    (s.closed t).slotNames f = s.slotNames f := by
  refine flatMap_modify fun d _ => ?_
  rfl

theorem slotNames_opened (s : State) (func : Nat) (role : IR.Role) (f : Nat) :
    (s.opened func role).slotNames f = s.slotNames f := by
  unfold slotNames opened
  rw [List.flatMap_append]
  simp

/-- A new slot is one of the function under construction. -/
theorem slotNames_reserved (hs : s.Owns s.body.entry) (name : Text) (t : IR.Typ) :
    (∀ f, f ≠ s.body.func → (s.reserved name t).slotNames f = s.slotNames f) ∧
      ((s.reserved name t).slotNames s.body.func).Perm
        (slotText name (s.uses name) :: s.slotNames s.body.func) := by
  obtain ⟨d, hd, hfunc⟩ := hs
  constructor
  · intro f hf
    refine flatMap_modify fun e he => ?_
    obtain rfl : d = e := Option.some.inj (hd.symm.trans he)
    have hne : d.func ≠ f := fun heq => hf (heq.symm.trans hfunc)
    simp only [hne, if_false]
  · refine flatMap_modify_perm hd ?_
    have hname : slotName? (s.nextInst (.alloca (s.slotName name) t)) =
        some (slotText name (s.uses name)) := rfl
    simp only [hfunc, if_true, List.filterMap_append, List.filterMap_cons, hname]
    refine List.perm_middle.trans ?_
    rw [← List.filterMap_append, List.take_append_drop]

theorem uses_reserved (s : State) (x y : Text) (t : IR.Typ) :
    (s.reserved x t).uses y = if y = x then s.uses x + 1 else s.uses y := by
  unfold uses reserved
  rw [List.lookup_cons]
  by_cases h : y = x
  · subst h
    simp
  · have hne : (y ++ Text.ofString ".addr" == x ++ Text.ofString ".addr") = false := by
      simpa using h
    rw [hne, if_neg h]

/-- The names of the stack slots are distinct, and those of the function under construction are
among the ones that have been given. -/
structure Labelled (s : State) : Prop where
  entry : s.Owns s.body.entry
  distinct : ∀ f, (s.slotNames f).Nodup
  shaped : ∀ f, ∀ n ∈ s.slotNames f, ∃ x k, x.IsWord ∧ n = slotText x k
  counted : ∀ x k, x.IsWord → slotText x k ∈ s.slotNames s.body.func → k < s.uses x

theorem Labelled.congr (hs : s.Labelled) (hentry : u.Owns u.body.entry)
    (hnames : ∀ f, u.slotNames f = s.slotNames f) (hfunc : u.body.func = s.body.func)
    (huses : u.body.names = s.body.names) : u.Labelled := by
  refine ⟨hentry, fun f => ?_, fun f => ?_, fun x k hx => ?_⟩
  · rw [hnames]
    exact hs.distinct f
  · rw [hnames]
    exact hs.shaped f
  · rw [hnames, hfunc, uses, huses]
    exact hs.counted x k hx

theorem Labelled.reserved (hs : s.Labelled) {name : Text} (hname : name.IsWord) (t : IR.Typ)
    (hentry : (s.reserved name t).Owns s.body.entry) : (s.reserved name t).Labelled := by
  obtain ⟨hother, hperm⟩ := slotNames_reserved hs.entry name t
  have hfresh : slotText name (s.uses name) ∉ s.slotNames s.body.func := fun hmem =>
    absurd (hs.counted name _ hname hmem) (Nat.lt_irrefl _)
  refine ⟨hentry, fun f => ?_, fun f n hn => ?_, fun x k hx hmem => ?_⟩
  · by_cases hf : f = s.body.func
    · subst hf
      exact hperm.nodup_iff.mpr (List.nodup_cons.mpr ⟨hfresh, hs.distinct _⟩)
    · rw [hother f hf]
      exact hs.distinct f
  · by_cases hf : f = s.body.func
    · subst hf
      rcases List.mem_cons.mp (hperm.mem_iff.mp hn) with rfl | hn
      · exact ⟨name, s.uses name, hname, rfl⟩
      · exact hs.shaped _ n hn
    · rw [hother f hf] at hn
      exact hs.shaped f n hn
  · rw [uses_reserved]
    rcases List.mem_cons.mp (hperm.mem_iff.mp hmem) with heq | hmem
    · obtain ⟨rfl, rfl⟩ := slotText_inj hx hname heq
      rw [if_pos rfl]
      exact Nat.lt_succ_self _
    · have hlt := hs.counted x k hx hmem
      split
      · rename_i heq
        rw [heq] at hlt
        omega
      · exact hlt

end State

variable {M : MemberTable} {s u : State} {ts : List Text} {rs : List Room}

theorem Step.labelled (h : Step M s ts rs u) (hw : ∀ r ∈ rs, r.IsWorded) (hs : s.Labelled) :
    u.Labelled := by
  have hentry : u.Owns u.body.entry := h.shift.place.2 ▸ h.shift.owns hs.entry
  obtain ⟨h, -⟩ := h
  cases h with
  | stroke h =>
    cases h with
    | emitted hop => exact hs.congr hentry (State.slotNames_emitted hop s) rfl rfl
    | reserved name t => exact hs.reserved (hw _ List.mem_cons_self) t hentry
    | _ => exact hs.congr hentry (fun _ => rfl) rfl rfl
  | closed t => exact hs.congr hentry (State.slotNames_closed t s) rfl rfl
  | grown hrole => exact hs.congr hentry (State.slotNames_opened s _ _) rfl rfl
  | moved b => exact hs.congr hentry (fun _ => rfl) rfl rfl

theorem Chain.labelled (h : Steps M s ts rs u) (hw : ∀ r ∈ rs, r.IsWorded) (hs : s.Labelled) :
    u.Labelled := by
  induction h with
  | refl => exact hs
  | tail _ k ih =>
    obtain ⟨hw, hw'⟩ := List.forall_mem_append.mp hw
    exact k.labelled hw' (ih hw)

/-- Within a function the slots of the others stay as they are. -/
theorem Shift.slotNames_of_ne (h : Shift M s ts rs u) (hs : s.Owns s.body.entry) {f : Nat}
    (hf : f ≠ s.body.func) : u.slotNames f = s.slotNames f := by
  cases h with
  | stroke h =>
    cases h with
    | emitted hop => exact State.slotNames_emitted hop s f
    | reserved name t => exact (State.slotNames_reserved hs _ t).1 f hf
    | _ => rfl
  | closed t => exact State.slotNames_closed t s f
  | grown hrole => exact State.slotNames_opened s _ _ f
  | moved b => rfl

theorem Chain.slotNames_of_ne (h : Steps M s ts rs u) (hs : s.Owns s.body.entry) {f : Nat}
    (hf : f ≠ s.body.func) : u.slotNames f = s.slotNames f := by
  induction h with
  | refl => rfl
  | tail h k ih =>
    have hentry := Chain.entry h ▸ Chain.owns h hs
    exact (k.shift.slotNames_of_ne hentry (Chain.func h ▸ hf)).trans ih

/-! ### Functions of a module -/

theorem slotNames_of_new {f : Nat} (hnew : ∀ b x, s.outline b ≠ some (f, x)) : s.slotNames f = [] := by
  refine List.flatMap_eq_nil_iff.mpr fun d hd => ?_
  obtain ⟨b, hb⟩ := List.mem_iff_getElem?.mp hd
  exact if_neg fun hfunc => hnew b d.term (State.outline_eq_some_iff.mpr ⟨d, hb, hfunc, rfl⟩)

/-- A function begins without any slots. -/
theorem State.Labelled.begun (hs : s.Labelled) {f : Nat} (hnew : ∀ b x, s.outline b ≠ some (f, x))
    (sig : Option Signature) : (s.begun f sig).Labelled := by
  have hnames : ∀ g, (s.begun f sig).slotNames g = s.slotNames g := State.slotNames_opened s f .entry
  refine ⟨(homed_begun s f sig).entry, fun g => ?_, fun g => ?_, fun x k _ hmem => ?_⟩
  · rw [hnames]
    exact hs.distinct g
  · rw [hnames]
    exact hs.shaped g
  · have hempty : (s.begun f sig).slotNames (s.begun f sig).body.func = [] := by
      rw [hnames]
      exact slotNames_of_new hnew
    rw [hempty] at hmem
    cases hmem

theorem ItemSteps.labelled (h : ItemSteps M s ts rs u) (hw : ∀ r ∈ rs, r.IsWorded)
    (hs : s.Labelled) (hhomed : s.Homed) : u.Labelled := by
  induction h with
  | refl => exact hs
  | step _ k ih =>
    obtain ⟨hw, hw'⟩ := List.forall_mem_append.mp hw
    exact k.labelled hw' (ih hw)
  | @function t u _ _ _ _ h f sig hnew k e ih =>
    obtain ⟨hw, hw'⟩ := List.forall_mem_append.mp hw
    have ih := ih hw
    have ht := h.homed hhomed
    have hu := k.labelled hw' (ih.begun hnew sig)
    -- The entry point has the slots that it had.
    have hkept : u.slotNames t.body.func = t.slotNames t.body.func :=
      (k.slotNames_of_ne (homed_begun t f sig).entry (ht.ne_of_new hnew)).trans
        (State.slotNames_opened t f .entry _)
    refine ⟨(homed_resumed ht hnew k e).entry, hu.distinct, hu.shaped, fun x j hx hmem => ?_⟩
    exact ih.counted x j hx (hkept ▸ hmem)
  | logged _ e ih => exact (ih hw).congr (ih hw).entry (fun _ => rfl) rfl rfl

theorem labelled_startState (F : Context) (ns : List Node) : (startState F ns).Labelled := by
  have hnames : ∀ f, (startState F ns).slotNames f = [] := by
    intro f
    rw [startState_eq]
    simp [State.slotNames]
  refine ⟨(homed_startState F ns).entry, fun f => ?_, fun f n hn => ?_, fun x k _ hmem => ?_⟩
  · rw [hnames]
    exact .nil
  · rw [hnames] at hn
    cases hn
  · rw [hnames] at hmem
    cases hmem

end Lowering

namespace IR.Func

variable (f : Func)

/-- The names of the parameters; an empty one is no name. -/
def paramNames : List Text := (f.params.map Prod.fst).filter (· ≠ [])

/-- The names of the stack slots. -/
def slotNames : List Text := f.blocks.flatMap fun b => b.insts.filterMap Lowering.slotName?

/-- The labels of the blocks that have one. -/
def labels : List Text := f.blocks.filterMap Block.label?

/-- The names of parameters, stack slots and labelled blocks. -/
def localNames : List Text := f.paramNames ++ (f.slotNames ++ f.labels)

end IR.Func

namespace Lowering

theorem slotNames_blocksFrom (f id : Nat) (ds : List Draft) :
    (blocksFrom f id ds).flatMap (fun b => b.insts.filterMap slotName?) =
      ds.flatMap fun d => if d.func = f then d.insts.filterMap slotName? else [] := by
  induction ds generalizing id with
  | nil => rfl
  | cons d ds ih =>
    rw [blocksFrom, List.flatMap_cons, ← ih (id + 1)]
    by_cases hf : d.func = f
    · rw [if_pos hf, if_pos hf, List.flatMap_cons]
    · rw [if_neg hf, if_neg hf, List.nil_append]

/-- Blocks of one function have different labels. -/
theorem nodup_labels (f : Nat) (ds : List Draft) :
    ((blocksFrom f 0 ds).filterMap IR.Block.label?).Nodup := by
  refine List.Pairwise.filterMap _ ?_ (pairwise_blocksFrom f 0 ds)
  rintro b c hlt l hb l' hc rfl
  exact absurd (id_eq_of_label hb hc) (Nat.ne_of_lt hlt)

/-- The names in a function of the module are distinct. -/
theorem nodup_localNames {s : State} (hs : s.Labelled) {i : Nat} {f : IR.Func}
    (hf : s.module.funcs[i]? = some f) (hparams : f.paramNames.Nodup)
    (hwords : ∀ x ∈ f.paramNames, x.IsWord) : f.localNames.Nodup := by
  obtain ⟨head, -, rfl⟩ := State.exists_head hf
  have hslots : IR.Func.slotNames { head with blocks := blocksFrom i 0 s.arena } = s.slotNames i :=
    slotNames_blocksFrom i 0 s.arena
  have hshaped := hs.shaped i
  rw [← hslots] at hshaped
  unfold IR.Func.localNames
  rw [List.nodup_append, List.nodup_append]
  refine ⟨hparams, ⟨hslots ▸ hs.distinct i, nodup_labels i s.arena, ?_⟩, ?_⟩
  · rintro n hn l hl rfl
    obtain ⟨x, k, hx, rfl⟩ := hshaped n hn
    obtain ⟨b, -, hb⟩ := List.mem_filterMap.mp hl
    exact label_ne_slotText hb hx k rfl
  · rintro p hp n hn rfl
    have hdot := (hwords p hp).dot_notMem
    rcases List.mem_append.mp hn with hn | hn
    · obtain ⟨x, k, -, rfl⟩ := hshaped p hn
      exact hdot (dot_mem_slotText x k)
    · obtain ⟨b, -, hb⟩ := List.mem_filterMap.mp hn
      exact hdot (dot_mem_label hb)

end Lowering

end Augite
