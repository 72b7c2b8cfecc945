import Augite.Proofs.LivingCode
import Augite.Proofs.LoweringInvariant
import Augite.Proofs.Shape

/-!
# Straight code

The code of expressions, declarations and assignments is straight: it adds instructions to
the current block and stack slots to the first block of the function, opens and terminates
no block, and goes on in the block where it began. This holds whether lowering stops in it
or not, and where it stops, it has not found a function that reaches its end.

`Writes` says this once for all straight code: it is made of few kinds of steps, the strokes. If
it comes to its end, it has used the strings of its tree and made room for its variables.
-/

namespace Augite

namespace Lowering

/-- What straight code does not change in a block. -/
def Draft.outline (d : Draft) : Nat × Option IR.Term := (d.func, d.term)

namespace State

/-- The later state differs in the instructions of the current block and of the first block
of the function, and in tables. -/
structure Straight (s u : State) : Prop where
  outline : ∀ b, (u.draft? b).map Draft.outline = (s.draft? b).map Draft.outline
  roles : u.roles = s.roles
  other : ∀ b, b ≠ s.body.cur → b ≠ s.body.entry → u.draft? b = s.draft? b
  cur : u.body.cur = s.body.cur
  entry : u.body.entry = s.body.entry
  func : u.body.func = s.body.func
  functions : u.functions = s.functions
  heads : s.heads <+: u.heads

namespace Straight

variable {s t u : State}

theorem trans (h : s.Straight t) (k : t.Straight u) : s.Straight u where
  outline b := (k.outline b).trans (h.outline b)
  roles := k.roles.trans h.roles
  other b hc he := (k.other b (h.cur ▸ hc) (h.entry ▸ he)).trans (h.other b hc he)
  cur := k.cur.trans h.cur
  entry := k.entry.trans h.entry
  func := k.func.trans h.func
  functions := k.functions.trans h.functions
  heads := h.heads.trans k.heads

theorem of_arena (harena : u.arena = s.arena) (hbody : u.body = s.body)
    (hfunctions : u.functions = s.functions) (hheads : s.heads <+: u.heads) : s.Straight u where
  outline b := by rw [draft?, harena]; rfl
  roles := congrArg (List.map Draft.role) harena
  other b _ _ := by rw [draft?, harena]; rfl
  cur := by rw [hbody]
  entry := by rw [hbody]
  func := by rw [hbody]
  functions := hfunctions
  heads := hheads

instance : Std.Refl Straight := ⟨fun _ => of_arena rfl rfl rfl List.prefix_rfl⟩

instance : IsTrans State Straight := ⟨fun _ _ _ h k => h.trans k⟩

theorem emitted (s : State) (op : IR.Op) : s.Straight (s.emitted op) where
  outline b := by
    rw [draft?_emitted, Option.map_map]
    congr 1
    funext d
    simp only [Function.comp_apply]
    split <;> rfl
  roles := map_modify_of_eq _ _ _ _ fun _ => rfl
  other b hc _ := by
    rw [draft?_emitted]
    simp only [Ne.symm hc, if_false, Option.map_id']
  cur := rfl
  entry := rfl
  func := rfl
  functions := rfl
  heads := List.prefix_rfl

theorem reserved (s : State) (name : Text) (t : IR.Typ) : s.Straight (s.reserved name t) where
  outline b := by
    rw [draft?_reserved, Option.map_map]
    congr 1
    funext d
    simp only [Function.comp_apply]
    split <;> rfl
  roles := map_modify_of_eq _ _ _ _ fun _ => rfl
  other b _ he := by
    rw [draft?_reserved]
    simp only [Ne.symm he, if_false, Option.map_id']
  cur := rfl
  entry := rfl
  func := rfl
  functions := rfl
  heads := List.prefix_rfl

/-- A block has the function and the terminator that it had. -/
theorem draft? (h : s.Straight u) {b : Nat} {d : Draft} (hd : s.draft? b = some d) :
    ∃ e, u.draft? b = some e ∧ e.func = d.func ∧ e.term = d.term := by
  have hb := h.outline b
  rw [hd, Option.map_some, Option.map_eq_some_iff] at hb
  obtain ⟨e, he, heq⟩ := hb
  exact ⟨e, he, congrArg Prod.fst heq, congrArg Prod.snd heq⟩

/-- A block had the function and the terminator that it has. -/
theorem draft?_before (h : s.Straight u) {b : Nat} {e : Draft} (he : u.draft? b = some e) :
    ∃ d, s.draft? b = some d ∧ e.func = d.func ∧ e.term = d.term := by
  have hb := h.outline b
  rw [he, Option.map_some, eq_comm, Option.map_eq_some_iff] at hb
  obtain ⟨d, hd, heq⟩ := hb
  exact ⟨d, hd, (congrArg Prod.fst heq).symm, (congrArg Prod.snd heq).symm⟩

theorem done (h : s.Straight u) : u.done = s.done := by
  unfold State.done
  rw [h.cur]
  rcases hd : s.draft? s.body.cur with _ | d
  · have hb := h.outline s.body.cur
    rw [hd, Option.map_none, Option.map_eq_none_iff] at hb
    rw [hb]
  · obtain ⟨e, he, -, hterm⟩ := h.draft? hd
    rw [he]
    simp [hterm]

end Straight

end State

/-! ### Strokes -/

/-- The name of an external function that code may need, with given members of types. -/
def Summoned (M : MemberTable) (name : Text) : Prop :=
  name = "printf" ∨ name = "strcmp" ∨ name = "pyrx_list_new" ∨ name = "pyrx_graph_new" ∨
    ∃ t member m, M.lookup? t member = some m ∧ m.symbol = name

/-- One step of straight code, the string that it uses and the room that it makes. -/
inductive Stroke (M : MemberTable) : State → List Text → List Room → State → Prop
  | emitted (s : State) {op : IR.Op} (hop : op.isAlloca = false) : Stroke M s [] [] (s.emitted op)
  | reserved (s : State) (name : Text) (t : IR.Typ) : Stroke M s [] [.slot name] (s.reserved name t)
  | rescoped (s : State) (slots : Slots) : Stroke M s [] [] { s with slots }
  | known {s : State} {t : Text} {v : IR.Value} (h : s.strings.lookup t = some v) :
      Stroke M s [t] [] s
  | withString {s : State} {t : Text} (h : s.strings.lookup t = none) :
      Stroke M s [t] [] (s.withString t)
  | withExternal {s : State} {name : Text} (result : IR.Typ) (params : List IR.Typ)
      (variadic : Bool) (hname : Summoned M name) (h : s.externals.lookup name = none) :
      Stroke M s [] [] (s.withExternal (State.externalHead name result params variadic))
  | withGlobal (s : State) (name : Text) (init : IR.Const) :
      Stroke M s [] [.global name] (s.withGlobal name init)

/-- Steps one after another, all the strings that they use and the room that they make. -/
inductive Chain (R : State → List Text → List Room → State → Prop) :
    State → List Text → List Room → State → Prop
  | refl (s : State) : Chain R s [] [] s
  | tail {s t u : State} {ts ts' : List Text} {rs rs' : List Room} (h : Chain R s ts rs t)
      (k : R t ts' rs' u) : Chain R s (ts ++ ts') (rs ++ rs') u

namespace Chain

variable {R : State → List Text → List Room → State → Prop} {s t u : State} {ts ts' : List Text}
  {rs rs' : List Room}

theorem single (h : R s ts rs t) : Chain R s ts rs t := .tail (.refl s) h

theorem trans (h : Chain R s ts rs t) (k : Chain R t ts' rs' u) :
    Chain R s (ts ++ ts') (rs ++ rs') u := by
  induction k with
  | refl =>
    rw [List.append_nil, List.append_nil]
    exact h
  | tail _ k ih =>
    rw [← List.append_assoc, ← List.append_assoc]
    exact .tail ih k

theorem imp {Q : State → List Text → List Room → State → Prop}
    (hQ : ∀ s ts rs u, R s ts rs u → Q s ts rs u) (h : Chain R s ts rs u) : Chain Q s ts rs u := by
  induction h with
  | refl => exact .refl _
  | tail _ k ih => exact .tail ih (hQ _ _ _ _ k)

/-- What no step changes stays. -/
theorem keeps {α : Type} {f : State → α} (hf : ∀ s ts rs u, R s ts rs u → f u = f s)
    (h : Chain R s ts rs u) : f u = f s := by
  induction h with
  | refl => rfl
  | tail _ k ih => exact (hf _ _ _ _ k).trans ih

end Chain

abbrev Strokes (M : MemberTable) : State → List Text → List Room → State → Prop := Chain (Stroke M)

section

variable {M : MemberTable} {s u : State} {ts : List Text} {rs : List Room}

theorem Stroke.ctx (h : Stroke M s ts rs u) : u.ctx = s.ctx := by
  cases h <;> rfl

theorem Stroke.straight (h : Stroke M s ts rs u) : s.Straight u := by
  cases h with
  | emitted hop => exact .emitted s _
  | reserved name t => exact .reserved s name t
  | withExternal => exact .of_arena rfl rfl rfl (List.prefix_append _ _)
  | _ => exact .of_arena rfl rfl rfl List.prefix_rfl

theorem Strokes.straight (h : Strokes M s ts rs u) : s.Straight u := by
  induction h with
  | refl => exact refl_of State.Straight _
  | tail _ k ih => exact ih.trans k.straight

end

/-! ### Shifts -/

/-- One step within a function: a stroke, the end or the beginning of a block, or a move on to
another block. -/
inductive Shift (M : MemberTable) : State → List Text → List Room → State → Prop
  | stroke {s u : State} {ts : List Text} {rs : List Room} (h : Stroke M s ts rs u) :
      Shift M s ts rs u
  | closed (s : State) (t : IR.Term) : Shift M s [] [] (s.closed t)
  | grown (s : State) {role : IR.Role} (hrole : role ≠ .entry) : Shift M s [] [] (s.grown role)
  | moved (s : State) (b : Nat) : Shift M s [] [] (s.moved b)

theorem Shift.ctx {M : MemberTable} {s u : State} {ts : List Text} {rs : List Room}
    (h : Shift M s ts rs u) : u.ctx = s.ctx := by
  cases h with
  | stroke h => exact h.ctx
  | _ => rfl

/-- Within a function lowering comes from the first state to the second. -/
def State.Built (s u : State) : Prop := ∃ ts rs, Chain (Shift s.ctx.members) s ts rs u

theorem Shift.built {s u : State} {ts : List Text} {rs : List Room}
    (h : Shift s.ctx.members s ts rs u) : s.Built u :=
  ⟨ts, rs, .single h⟩

instance : Std.Refl State.Built := ⟨fun s => ⟨[], [], .refl s⟩⟩

instance : IsTrans State State.Built := ⟨fun _ _ _ ⟨_, _, h⟩ ⟨_, _, k⟩ =>
  ⟨_, _, h.trans (h.keeps (f := State.ctx) (fun _ _ _ _ => Shift.ctx) ▸ k)⟩⟩

end Lowering

/-- The error is that a function can reach its end without returning. -/
def InternalError.AtEnd (e : InternalError) : Prop := ∃ name t, e.cause = .endReached name t

/-- A statement without statements in it, other than a return. -/
def Node.IsPlain : Node → Prop
  | .print _ x => x.IsExpr
  | n => n.IsSimple

theorem Node.IsPlain.returns {n : Node} (h : n.IsPlain) : n.returns = false := by
  cases n with
  | ret m value => cases value <;> exact h.elim
  | branch m merge test yes no => cases no <;> exact h.elim
  | _ => rfl

theorem Node.IsSimple.isPlain {n : Node} (h : n.IsSimple) : n.IsPlain := by
  cases n with
  | print => exact h.elim
  | _ => exact h

namespace Emit

open Lowering (State Stroke Strokes Summoned)
open Lowering.State (Straight)

/-- The emitted code is straight, as far as it gets. -/
abbrev IsStraight {τ α : Type} (p : Pass InternalError State τ α) : Prop :=
  p.Confined Straight fun e => ¬e.AtEnd

/-- Whether it stops or not, the pass makes strokes only. If it comes to its end, it has used these
strings and made this room; and it does not find a function that reaches its end. -/
def Writes {τ α : Type} (M : MemberTable) (ts : List Text) (rs : List Room)
    (p : Pass InternalError State τ α) : Prop :=
  ∀ s, s.ctx.members = M → ∃ ts' rs', Strokes M s ts' rs' (p.run s).2 ∧
    match (p.run s).1 with
    | .ok _ => ts' = ts ∧ rs' = rs
    | .error h => ¬h.error.AtEnd

variable {τ υ α β : Type} {M : MemberTable} {ts ts' : List Text} {rs rs' : List Room}
  {p : Pass InternalError State τ α} {f : α → Pass InternalError State τ β}

namespace Writes

theorem straight (h : ∀ M, Writes M ts rs p) : IsStraight p := by
  refine .of_run fun s => ?_
  obtain ⟨_, _, hs, hres⟩ := h s.ctx.members s rfl
  rcases hr : p.run s with ⟨e | a, t⟩ <;> rw [hr] at hs hres
  · exact .inr ⟨e, t, rfl, hs.straight, hres⟩
  · exact .inl ⟨a, t, rfl, hs.straight⟩

theorem built (h : ∀ M, Writes M ts rs p) : p.Confined State.Built fun e => ¬e.AtEnd := by
  refine .of_run fun s => ?_
  obtain ⟨_, _, hs, hres⟩ := h s.ctx.members s rfl
  have hbuilt : s.Built (p.run s).2 := ⟨_, _, hs.imp fun _ _ _ _ => .stroke⟩
  rcases hr : p.run s with ⟨e | a, t⟩ <;> rw [hr] at hbuilt hres
  · exact .inr ⟨e, t, rfl, hbuilt, hres⟩
  · exact .inl ⟨a, t, rfl, hbuilt⟩

theorem strokes (h : Writes M ts rs p) {s u : State} (hs : s.ctx.members = M) {a : α}
    (hrun : p.run s = (.ok a, u)) : Strokes M s ts rs u := by
  obtain ⟨_, _, hu, hres⟩ := h s hs
  rw [hrun] at hu hres
  obtain ⟨rfl, rfl⟩ := hres
  exact hu

theorem of_run (h : ∀ s, s.ctx.members = M → ∃ a u, p.run s = (.ok a, u) ∧ Strokes M s ts rs u) :
    Writes M ts rs p := by
  intro s hs
  obtain ⟨a, u, hrun, hu⟩ := h s hs
  rw [hrun]
  exact ⟨ts, rs, hu, rfl, rfl⟩

theorem pure (a : α) : Writes M [] [] (Pure.pure a : Pass InternalError State τ α) :=
  fun s _ => ⟨[], [], .refl s, rfl, rfl⟩

theorem fail (pos : Position) {cause : InternalCause} (h : ∀ name t, cause ≠ .endReached name t) :
    Writes M ts rs (fail pos cause : Emit α) :=
  fun s _ => ⟨[], [], .refl s, fun ⟨name, t, heq⟩ => h name t heq⟩

theorem bind (hp : Writes M ts rs p) (hf : ∀ a, Writes M ts' rs' (f a)) :
    Writes M (ts ++ ts') (rs ++ rs') (p >>= f) := by
  intro s hs
  obtain ⟨_, _, ht, hres⟩ := hp s hs
  rw [Pass.run_bind]
  rcases hr : p.run s with ⟨e | a, t⟩ <;> rw [hr] at ht hres
  · exact ⟨_, _, ht, hres⟩
  · obtain ⟨rfl, rfl⟩ := hres
    obtain ⟨_, _, hu, hres⟩ := hf a t ((congrArg _ (ht.keeps fun _ _ _ _ k => k.ctx)).trans hs)
    refine ⟨_, _, ht.trans hu, ?_⟩
    simp only
    rcases hr' : (f a).run t with ⟨e | b, u⟩ <;> rw [hr'] at hres
    · exact hres
    · exact ⟨hres.1 ▸ rfl, hres.2 ▸ rfl⟩

/-- The rule for a first pass that uses nothing. -/
theorem andThen (hp : Writes M [] [] p) (hf : ∀ a, Writes M ts rs (f a)) :
    Writes M ts rs (p >>= f) :=
  hp.bind hf

/-- The rule for a second pass that uses nothing. -/
theorem before (hp : Writes M ts rs p) (hf : ∀ a, Writes M [] [] (f a)) :
    Writes M ts rs (p >>= f) := by
  have h := hp.bind hf
  rwa [List.append_nil, List.append_nil] at h

theorem bindState {g : State → Pass InternalError State τ β}
    (hg : ∀ s, s.ctx.members = M → Writes M ts rs (g s)) : Writes M ts rs (Pass.state >>= g) :=
  fun s hs => hg s hs s hs

theorem ite {c : Prop} [Decidable c] {q : Pass InternalError State τ α} (hp : Writes M ts rs p)
    (hq : Writes M ts rs q) : Writes M ts rs (if c then p else q) := by
  split
  · exact hp
  · exact hq

theorem inside {plug : τ → υ} (h : Writes M ts rs p) : Writes M ts rs (p.inside plug) := by
  intro s hs
  obtain ⟨ts', rs', ht, hres⟩ := h s hs
  simp only [Pass.run, Pass.inside] at ht hres ⊢
  rcases hr : p s with ⟨e | a, t⟩ <;> rw [hr] at ht hres <;> exact ⟨ts', rs', ht, hres⟩

theorem mapM {g : α → Pass InternalError State τ β} (h : ∀ x, Writes M [] [] (g x)) (xs : List α) :
    Writes M [] [] (xs.mapM g) := by
  induction xs with
  | nil => exact pure []
  | cons x xs ih =>
    rw [List.mapM_cons]
    exact andThen (h x) fun _ => andThen ih fun _ => pure _

end Writes

/-! ### Storage -/

theorem inst_writes {op : IR.Op} (hop : op.isAlloca = false) : Writes M [] [] (inst op) :=
  .of_run fun s _ => ⟨_, _, rfl, .single (.emitted s hop)⟩

theorem effect_writes {op : IR.Op} (hop : op.isAlloca = false) : Writes M [] [] (effect op) :=
  .of_run fun s _ => ⟨_, _, rfl, .single (.emitted s hop)⟩

theorem stackSlot_writes (name : Text) (t : IR.Typ) :
    Writes M [] [.slot name] (stackSlot name t) :=
  .of_run fun s _ => ⟨_, _, rfl, .single (.reserved s name t)⟩

theorem typeOf_writes (t : Ty) : Writes M [] [] (typeOf t) := by
  refine .bindState fun s _ => ?_
  split
  all_goals first | exact .pure _ | exact .ite (.pure _) (.fail _ nofun) | exact .fail _ nofun

theorem zeroOf_writes (t : Ty) : Writes M [] [] (zeroOf t) := by
  unfold zeroOf
  split
  all_goals first | exact .pure _ | exact .andThen (typeOf_writes t) fun _ => .pure _

theorem bind_writes (slot : Slot) : Writes M [] [] (bind slot) := by
  intro s _
  unfold bind
  rw [Pass.run_bind, Pass.run_state]
  simp only
  split
  · exact ⟨[], [], .single (.rescoped s _), rfl, rfl⟩
  · exact ⟨[], [], .refl s, by rintro ⟨_, _, ⟨⟩⟩⟩

theorem globalVariable_writes (name : Text) (init : IR.Const) :
    Writes M [] [.global name] (globalVariable name init) :=
  .of_run fun s _ => ⟨_, _, rfl, .single (.withGlobal s name init)⟩

theorem declare_writes (name : Text) (t : Ty) (isGlobal : Bool) :
    Writes M [] [.of isGlobal name] (declare name t isGlobal) := by
  have hbind : ∀ v, Writes M [] [] (do bind { name, storage := v, type := t }; return v) :=
    fun v => .andThen (bind_writes _) fun _ => .pure _
  cases isGlobal with
  | true => exact .andThen (zeroOf_writes t) fun _ => .before (globalVariable_writes _ _) hbind
  | false => exact .andThen (typeOf_writes t) fun _ => .before (stackSlot_writes _ _) hbind

theorem storage_writes (pos : Position) (name : Text) (isGlobal : Bool) :
    Writes M [] [] (storage pos name isGlobal) := by
  refine .bindState fun s _ => .ite ?_ ?_ <;> split
  all_goals first | exact .pure _ | exact .fail _ nofun

theorem string_writes (t : Text) : Writes M [t] [] (string t) := by
  refine .of_run fun s _ => ?_
  unfold string
  rw [Pass.run_bind, Pass.run_state]
  simp only
  split
  · rename_i v hv
    exact ⟨_, _, rfl, .single (.known hv)⟩
  · rename_i hnone
    exact ⟨_, _, rfl, .single (.withString hnone)⟩

theorem external_writes {name : Text} (result : IR.Typ) (params : List IR.Typ) (variadic : Bool)
    (hname : Summoned M name) : Writes M [] [] (external name result params variadic) := by
  refine .of_run fun s _ => ?_
  unfold external
  rw [Pass.run_bind, Pass.run_state]
  simp only
  split
  · exact ⟨_, _, rfl, .refl s⟩
  · rename_i hnone
    exact ⟨_, _, rfl, .single (.withExternal result params variadic hname hnone)⟩

theorem memberFunction_writes {t : Ty} {member : Text} {m : Member}
    (hm : M.lookup? t member = some m) : Writes M [] [] (memberFunction m) :=
  .andThen (.mapM typeOf_writes _) fun _ => .andThen (typeOf_writes _) fun _ =>
    external_writes _ _ _ (.inr (.inr (.inr (.inr ⟨t, member, m, hm, rfl⟩))))

/-! ### Expressions -/

theorem convert_writes (v : IR.Value) (source target : Ty) :
    Writes M [] [] (convert v source target) :=
  .ite (inst_writes rfl) (.pure _)

theorem compare_writes (op : BinaryOp) (t : Ty) (l r : IR.Value) :
    Writes M [] [] (compare op t l r) :=
  .ite (inst_writes rfl) <|
    .ite (.andThen (external_writes _ _ _ (.inr (.inl rfl))) fun _ =>
      .andThen (inst_writes rfl) fun _ => inst_writes rfl) <|
    .ite (inst_writes rfl) (inst_writes rfl)

theorem binary_writes (pos : Position) (op : BinaryOp) (lt rt : Ty) (l r : IR.Value) :
    Writes M [] [] (binary pos op lt rt l r) := by
  refine .andThen (convert_writes _ _ _) fun l => .andThen (convert_writes _ _ _) fun r => ?_
  refine .ite (inst_writes rfl) (.ite (inst_writes rfl) (.ite (compare_writes _ _ _ _) ?_))
  split
  · exact inst_writes rfl
  · exact .fail _ nofun

theorem unary_writes (op : UnaryOp) (t : Ty) (v : IR.Value) : Writes M [] [] (unary op t v) :=
  .ite (inst_writes rfl) (.ite (inst_writes rfl) (inst_writes rfl))

theorem fieldAddress_writes (a : Access) : Writes M [] [] (fieldAddress a) := by
  refine .bindState fun s _ => ?_
  simp only
  split
  · refine .ite (.andThen (storage_writes _ _ _) fun base => ?_) (.fail _ nofun)
    refine .andThen (typeOf_writes _) fun whole => .andThen ?_ fun field => inst_writes rfl
    exact .bindState fun s _ => .pure _
  · exact .fail _ nofun

mutual

/-- The code of an expression uses its strings. -/
theorem expr_writes (n : Node) : Writes M n.texts [] (expr n) := by
  cases n with
  | int m v | float m v | char m v | bool m v => exact .pure _
  | string m v => exact string_writes v
  | var m name =>
    exact .andThen (typeOf_writes _) fun _ => .andThen (storage_writes _ _ _) fun _ =>
      inst_writes rfl
  | binary m op l r =>
    exact .bind (expr_writes l) fun _ => .before (expr_writes r) fun _ => binary_writes _ _ _ _ _ _
  | unary m op x => exact .before (expr_writes x) fun _ => unary_writes _ _ _
  | call m name xs =>
    refine .bindState fun s _ => ?_
    split
    · exact .fail _ nofun
    · exact .before (args_writes xs _) fun _ => inst_writes rfl
  | dot a xs =>
    rw [expr, Node.texts]
    split
    · exact .andThen (typeOf_writes _) fun _ => .andThen (fieldAddress_writes a) fun _ =>
        inst_writes rfl
    · refine .bindState fun s hs => ?_
      simp only
      split
      · exact .fail _ nofun
      · rename_i m hm
        rw [hs] at hm
        refine .andThen (storage_writes _ _ _) fun _ => .andThen (inst_writes rfl) fun _ => ?_
        exact .before (args_writes xs _) fun _ => .andThen (memberFunction_writes hm) fun _ =>
          inst_writes rfl
  | ret m value => cases value <;> exact .fail _ nofun
  | branch m merge test yes no => cases no <;> exact .fail _ nofun
  | _ => exact .fail _ nofun
termination_by structural n

theorem args_writes (xs : List Node) (params : List Ty) :
    Writes M (Node.textsAll xs) [] (args params xs) := by
  cases xs with
  | nil => exact .pure _
  | cons x xs =>
    refine .bind (expr_writes x) fun _ => .andThen (convert_writes _ _ _) fun _ => ?_
    exact .before (args_writes xs _) fun _ => .pure _
termination_by structural xs

end

theorem expr_straight (x : Node) : IsStraight (expr x) := Writes.straight fun _ => expr_writes x

/-! ### Simple statements -/

theorem print_writes (pos : Position) (x : Node) :
    Writes M (x.texts ++ (Lowering.format? x.type.kind).toList) [] (print pos x) := by
  unfold print
  split
  · exact .fail _ nofun
  · rename_i format hformat
    rw [hformat]
    have hcall : ∀ v, Writes M [format] [] (do
        let f ← printer
        let t ← string format
        effect (.call f [t, v])) := fun v =>
      .andThen (external_writes _ _ _ (.inl rfl)) fun _ =>
        .before (string_writes _) fun _ => effect_writes rfl
    refine .bind (expr_writes x) fun v => .ite ?_ ?_
    · exact .andThen (inst_writes rfl) hcall
    · exact .andThen (.pure _) hcall

theorem aggregate_writes (m : Mark) (name : Text) {maker : Text} (hmaker : Summoned M maker) :
    Writes M [] [.of m.isGlobal name] (aggregate m name maker) :=
  .before (declare_writes name _ _) fun _ => .andThen (external_writes _ _ _ hmaker) fun _ =>
    .andThen (inst_writes rfl) fun _ => .andThen (effect_writes rfl) fun _ => .pure _

theorem appendAll_writes (add handle : IR.Value) (elem : Ty) (xs : List Node) :
    Writes M (Node.textsAll xs) [] (appendAll add handle elem xs) := by
  induction xs with
  | nil => exact .pure _
  | cons x xs ih =>
    refine .bind (expr_writes x) fun _ => .andThen (convert_writes _ _ _) fun _ => ?_
    exact .andThen (effect_writes rfl) fun _ => ih

theorem list_writes (m : Mark) (name : Text) (xs : List Node) :
    Writes M (Node.textsAll xs) [.of m.isGlobal name] (list m name xs) := by
  refine .bind (aggregate_writes m name (.inr (.inr (.inl rfl)))) fun handle => ?_
  cases xs with
  | nil => exact .pure _
  | cons x xs =>
    refine .bindState fun s hs => ?_
    split
    · exact .fail _ (by rintro _ _ ⟨⟩)
    · rename_i add hadd
      rw [hs] at hadd
      exact .andThen (memberFunction_writes hadd) fun _ => appendAll_writes _ _ _ _

theorem declaration_writes (m : Mark) (name : Text) (t : Ty) :
    Writes M [] [.of m.isGlobal name] (declaration m name t) :=
  .before (declare_writes name _ _) fun _ =>
    .ite (.andThen (zeroOf_writes _) fun _ => effect_writes rfl) (.pure _)

theorem definition_writes (m : Mark) (name : Text) (t : Ty) (x : Node) :
    Writes M x.texts [.of m.isGlobal name] (definition m name t x) := by
  have hstore (v place : IR.Value) : Writes M [] [] (effect (.store v place)) := effect_writes rfl
  have h := (expr_writes (M := M) x).bind fun v => Writes.andThen (convert_writes v x.type t) fun w =>
    (declare_writes name t m.isGlobal).before fun place => hstore w place
  rwa [List.append_nil] at h

theorem assignment_writes (m : Mark) (name : Text) (x : Node) :
    Writes M x.texts [] (assignment m name x) :=
  .before (expr_writes x) fun _ => .andThen (convert_writes _ _ _) fun _ =>
    .andThen (storage_writes _ _ _) fun _ => effect_writes rfl

theorem fieldAssignment_writes (m : Mark) (a : Access) (x : Node) :
    Writes M x.texts [] (fieldAssignment m a x) :=
  .before (expr_writes x) fun _ => .andThen (convert_writes _ _ _) fun _ =>
    .andThen (fieldAddress_writes a) fun _ => effect_writes rfl

/-- Parameters get stack slots, in their order. -/
theorem parameters_writes (func i : Nat) (ps : List Param) :
    Writes M [] (ps.map fun p => .slot p.name) (parameters func i ps) := by
  induction ps generalizing i with
  | nil => exact .pure _
  | cons p ps ih =>
    refine .andThen (typeOf_writes _) fun _ => .bind (stackSlot_writes p.name _) fun _ => ?_
    exact .andThen (effect_writes rfl) fun _ => .andThen (bind_writes _) fun _ => ih _

theorem parameters_straight (func i : Nat) (ps : List Param) :
    IsStraight (parameters func i ps) :=
  Writes.straight fun _ => parameters_writes func i ps

/-- The value that a return gives back. -/
def returned (pos : Position) (x : Option Node) : Emit (Option IR.Value) := do
  let s ← Pass.state
  match s.body.sig with
  | none => fail pos .returnOutside
  | some sig =>
    match x with
    | none => return none
    | some x =>
      let v ← expr x
      let v ← convert v x.type sig.result
      return some v

theorem returnFrom_eq (pos : Position) (x : Option Node) :
    returnFrom pos x = returned pos x >>= fun v => terminate (.ret v) := by
  unfold returnFrom returned
  rw [bind_assoc]
  congr 1
  funext s
  cases s.body.sig with
  | none => rfl
  | some sig =>
    cases x with
    | none => rfl
    | some x => simp only [bind_assoc, pure_bind]

theorem returned_writes (pos : Position) (x : Option Node) (m : Mark) :
    Writes M (Node.ret m x).texts [] (returned pos x) := by
  refine .bindState fun s _ => ?_
  split
  · exact .fail _ (by rintro _ _ ⟨⟩)
  · cases x with
    | none => exact .pure _
    | some x =>
      exact .before (expr_writes x) fun _ => .andThen (convert_writes _ _ _) fun _ => .pure _

end Emit

namespace Lowering

open Emit (Writes IsStraight)

/-- A statement without statements in it uses its strings and makes room for what it declares. -/
theorem plain_writes {M : MemberTable} {n : Node} (hn : n.IsPlain) :
    Writes M n.texts n.rooms (stmt n) := by
  cases n with
  | varDecl m name t => exact .before (Emit.declaration_writes m name t).inside fun _ => .pure _
  | varDef m name t x => exact .before (Emit.definition_writes m name t x).inside fun _ => .pure _
  | assign m name x => exact .before (Emit.assignment_writes m name x).inside fun _ => .pure _
  | fieldAssign m a xs x =>
    exact .before (Emit.fieldAssignment_writes m a x).inside fun _ => .pure _
  | listDecl m name k xs => exact .before (Emit.list_writes m name xs).inside fun _ => .pure _
  | graphDecl m name k =>
    have hmaker : Summoned M "pyrx_graph_new" := .inr (.inr (.inr (.inl rfl)))
    exact .before (Emit.aggregate_writes m name hmaker).inside fun _ => .pure _
  | exprStmt m x => exact .before (Emit.expr_writes x).inside fun _ => .pure _
  | print m x => exact .before (Emit.print_writes m.pos x).inside fun _ => .pure _
  | ret m value => cases value <;> exact hn.elim
  | branch m merge test yes no => cases no <;> exact hn.elim
  | _ => exact hn.elim

theorem plain_straight {n : Node} (hn : n.IsPlain) : IsStraight (stmt n) :=
  Writes.straight fun _ => plain_writes hn

end Lowering

end Augite
