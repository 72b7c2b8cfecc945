import Augite.Proofs.Pass
import Augite.Proofs.Stripped
import Augite.Lowering.Program

/-!
# Lowering sees the essence of a tree

The lowering of a tree's essence goes like the lowering of the tree: it emits the same code,
or stops with the same error at the other position. Of the annotations of a tree lowering
reads only those that an analysis makes, and of the context it reads the functions, the classes
and those members that the tree asks for.
-/

namespace Augite

/-! ### Passes that go alike -/

namespace Pass

variable {ε σ τ υ τ' υ' α β γ δ : Type} {R : σ → σ → Prop} {E : ε → ε} {W : α → β → Prop}
  {W' : γ → δ → Prop}

/-- From related states both passes come to related values, or to images of errors, and to
related states. The trees that both passes have reached when they stop are not compared. -/
def Alike (R : σ → σ → Prop) (E : ε → ε) (W : α → β → Prop) (p : Pass ε σ τ α)
    (q : Pass ε σ υ β) : Prop :=
  ∀ s t, R s t → match p.run s with
    | (.ok a, s') => ∃ b t', q.run t = (.ok b, t') ∧ W a b ∧ R s' t'
    | (.error h, s') => ∃ tree t', q.run t = (.error ⟨E h.error, tree⟩, t') ∧ R s' t'

namespace Alike

variable {p : Pass ε σ τ α} {q : Pass ε σ υ β}

theorem pure {a : α} {b : β} (h : W a b) :
    Alike R E W (pure a : Pass ε σ τ α) (pure b : Pass ε σ υ β) :=
  fun _ t hst => ⟨b, t, rfl, h, hst⟩

theorem stop {tree : τ} {tree' : υ} {e e' : ε} (h : e' = E e) :
    Alike R E W (Pass.stop tree e) (Pass.stop tree' e') := by
  subst h
  exact fun _ t hst => ⟨tree', t, rfl, hst⟩

/-- Whatever values the first steps give, the others go alike. -/
theorem bindAny {f : α → Pass ε σ τ γ} {g : β → Pass ε σ υ δ} (hp : Alike R E W p q)
    (hf : ∀ a b, W a b → Alike R E W' (f a) (g b)) : Alike R E W' (p >>= f) (q >>= g) := by
  intro s t hst
  have hps := hp s t hst
  rw [run_bind]
  rcases hr : p.run s with ⟨h | a, s'⟩ <;> rw [hr] at hps
  · obtain ⟨tree, t', htree, hst'⟩ := hps
    exact ⟨tree, t', by rw [run_bind, htree], hst'⟩
  · obtain ⟨b, t', hb, hab, hst'⟩ := hps
    rw [run_bind_of_ok hb]
    exact hf a b hab s' t' hst'

theorem bind {q : Pass ε σ υ α} {f : α → Pass ε σ τ γ} {g : α → Pass ε σ υ δ}
    (hp : Alike R E Eq p q) (hf : ∀ a, Alike R E W' (f a) (g a)) :
    Alike R E W' (p >>= f) (q >>= g) :=
  hp.bindAny fun a _ h => h ▸ hf a

theorem put {u u' : σ} (h : R u u') :
    Alike R E Eq (Pass.put u : Pass ε σ τ Unit) (Pass.put u' : Pass ε σ υ Unit) :=
  fun _ _ _ => ⟨(), u', rfl, rfl, h⟩

theorem change {g g' : σ → σ} (h : ∀ s t, R s t → R (g s) (g' t)) :
    Alike R E Eq (Pass.change g : Pass ε σ τ Unit) (Pass.change g' : Pass ε σ υ Unit) :=
  fun s t hst => ⟨(), g' t, rfl, rfl, h s t hst⟩

theorem inside {plug : τ → τ'} {plug' : υ → υ'} (h : Alike R E W p q) :
    Alike R E W (p.inside plug) (q.inside plug') := by
  intro s t hst
  have hs := h s t hst
  simp only [run, Pass.inside] at hs ⊢
  rcases hr : p s with ⟨e | a, s'⟩ <;> rw [hr] at hs
  · obtain ⟨tree, t', htree, hst'⟩ := hs
    exact ⟨plug' tree, t', by rw [htree], hst'⟩
  · obtain ⟨b, t', hb, hab⟩ := hs
    exact ⟨b, t', by rw [hb], hab⟩

theorem ite {c : Prop} [Decidable c] {p' : Pass ε σ τ α} {q' : Pass ε σ υ β}
    (h : Alike R E W p q) (h' : Alike R E W p' q') :
    Alike R E W (if c then p else p') (if c then q else q') := by
  split
  · exact h
  · exact h'

theorem any (h : Alike R E W p q) : Alike R E (fun _ _ => True) p q := by
  intro s t hst
  have hs := h s t hst
  rcases hr : p.run s with ⟨e | a, s'⟩ <;> rw [hr] at hs
  · exact hs
  · obtain ⟨b, t', hb, -, hst'⟩ := hs
    exact ⟨b, t', hb, trivial, hst'⟩

theorem mapM {f g : γ → Pass ε σ τ α} (h : ∀ x, Alike R E Eq (f x) (g x)) (xs : List γ) :
    Alike R E Eq (xs.mapM f) (xs.mapM g) := by
  induction xs with
  | nil => exact pure rfl
  | cons x xs ih =>
    rw [List.mapM_cons, List.mapM_cons]
    exact bind (h x) fun _ => bind ih fun _ => pure rfl

theorem forM {f : γ → Pass ε σ τ Unit} {g : δ → Pass ε σ υ Unit} {V : γ → δ}
    (h : ∀ a, Alike R E Eq (f a) (g (V a))) (xs : List γ) :
    Alike R E Eq (xs.forM f) ((xs.map V).forM g) := by
  induction xs with
  | nil => exact pure rfl
  | cons x xs ih => exact (h x).bind fun _ => ih

end Alike

end Pass

/-! ### Contexts and states side by side -/

namespace Context

/-- The context has the tables of the other. -/
structure Serves (F c : Context) : Prop where
  funcs : c.funcs = F.funcs
  classes : c.classes = F.classes
  members : c.members = F.members

/-- Two contexts with the same functions, and the same classes but for positions. -/
structure Matches (place : Position → Position) (F G : Context) : Prop where
  funcs : G.funcs = F.funcs
  classes : G.classes = F.classes.map (ClassDef.move place)

/-- Both contexts know the same of a member of a type. -/
def Agrees (F G : Context) (x : Ty × Text) : Prop :=
  G.members.lookup? x.1 x.2 = F.members.lookup? x.1 x.2

end Context

/-- The states differ in their contexts only, and each of these serves for one of the two. -/
def Lowering.State.Beside (F G : Context) (s t : Lowering.State) : Prop :=
  F.Serves s.ctx ∧ ∃ c, G.Serves c ∧ t = { s with ctx := c }

namespace Node

mutual

/-- The members that lowering asks for, each with the type it belongs to. -/
def lookups : Node → List (Ty × Text)
  | .binary _ _ l r => lookups l ++ lookups r
  | .unary _ _ x | .varDef _ _ _ x | .assign _ _ x | .print _ x | .exprStmt _ x => lookups x
  | .call _ _ xs => lookupsAll xs
  | .dot a xs => (a.receiver.type, a.member) :: lookupsAll xs
  | .fieldAssign _ a _ x => (a.receiver.type, a.member) :: lookups x
  | .listDecl m _ _ xs => (m.type, "add") :: lookupsAll xs
  | .ret _ (some x) => lookups x
  | .branch _ _ test yes none => lookups test ++ lookupsAll yes
  | .branch _ _ test yes (some no) => lookups test ++ lookupsAll yes ++ lookupsAll no
  | .whileLoop _ _ test body => lookups test ++ lookupsAll body
  | .forLoop _ _ init test step body =>
    lookups init ++ lookups test ++ lookups step ++ lookupsAll body
  | .funcDef _ _ _ _ body => lookupsAll body
  | _ => []
termination_by structural n => n

def lookupsAll : List Node → List (Ty × Text)
  | [] => []
  | n :: rest => lookups n ++ lookupsAll rest
termination_by structural ns => ns

end

end Node

namespace Emit

open Lowering (State)
open Lowering.State (Beside)

variable {α β τ υ : Type} {place : Position → Position} {F G : Context}

/-- The second pass does in the second context, and after a change of positions, what the first
one does in the first. -/
abbrev Follows (place : Position → Position) (F G : Context) (p : Lowering τ α)
    (q : Lowering υ α) : Prop :=
  Pass.Alike (Beside F G) (InternalError.move place) Eq p q

/-- A pass that neither has positions nor looks at the context. -/
abbrev Neutral (place : Position → Position) (F G : Context) (e : Emit α) : Prop :=
  Follows place F G e e

theorem bindState {W : α → β → Prop} {f : State → Lowering τ α} {g : State → Lowering υ β}
    (h : ∀ s c, F.Serves s.ctx → G.Serves c →
      Pass.Alike (Beside F G) (InternalError.move place) W (f s) (g { s with ctx := c })) :
    Pass.Alike (Beside F G) (InternalError.move place) W (Pass.state >>= f) (Pass.state >>= g) := by
  rintro s _ ⟨hs, c, hc, rfl⟩
  exact h s c hs hc s _ ⟨hs, c, hc, rfl⟩

/-- A step that neither looks at the context nor changes it, and that does not stop. -/
theorem neutral_of_ok {p : Lowering τ α}
    (h : ∀ (s : State) (c : Context),
      p.run { s with ctx := c } = ((p.run s).1, { (p.run s).2 with ctx := c }))
    (hok : ∀ s, ∃ a, (p.run s).1 = .ok a) : Follows place F G p p := by
  rintro s _ ⟨hs, c, hc, rfl⟩
  have hctx := congrArg (fun r => r.2.ctx) (h s s.ctx)
  change (p.run s).2.ctx = s.ctx at hctx
  obtain ⟨a, ha⟩ := hok s
  have hrun : p.run s = (.ok a, (p.run s).2) := Prod.ext ha rfl
  rw [hrun]
  exact ⟨a, _, by rw [h, ha], rfl, hctx.symm ▸ hs, c, hc, rfl⟩

theorem fail_follows {W : α → β → Prop} (pos : Position) (cause : InternalCause) :
    Pass.Alike (Beside F G) (InternalError.move place) W (fail pos cause : Emit α)
      (fail (place pos) cause : Emit β) :=
  .stop rfl

/-! ### Blocks -/

theorem inst_neutral (op : IR.Op) : Neutral place F G (inst op) :=
  neutral_of_ok (fun _ _ => rfl) fun _ => ⟨_, rfl⟩

theorem effect_neutral (op : IR.Op) : Neutral place F G (effect op) :=
  neutral_of_ok (fun _ _ => rfl) fun _ => ⟨_, rfl⟩

theorem terminate_neutral (t : IR.Term) : Neutral place F G (terminate t) :=
  neutral_of_ok (fun _ _ => rfl) fun _ => ⟨_, rfl⟩

theorem branch_neutral (target : Nat) : Neutral place F G (branch target) :=
  bindState fun _ _ _ _ => .ite (.pure rfl) (terminate_neutral _)

theorem block_neutral (role : IR.Role) : Neutral place F G (block role) :=
  neutral_of_ok (fun _ _ => rfl) fun _ => ⟨_, rfl⟩

theorem moveTo_neutral (id : Nat) : Neutral place F G (moveTo id) :=
  neutral_of_ok (fun _ _ => rfl) fun _ => ⟨_, rfl⟩

theorem stackSlot_neutral (name : Text) (t : IR.Typ) : Neutral place F G (stackSlot name t) :=
  neutral_of_ok (fun _ _ => rfl) fun _ => ⟨_, rfl⟩

theorem addFunction_neutral (head : IR.Func) : Neutral place F G (addFunction head) :=
  neutral_of_ok (fun _ _ => rfl) fun _ => ⟨_, rfl⟩

theorem globalVariable_neutral (name : Text) (init : IR.Const) :
    Neutral place F G (globalVariable name init) :=
  neutral_of_ok (fun _ _ => rfl) fun _ => ⟨_, rfl⟩

theorem string_neutral (t : Text) : Neutral place F G (string t) := by
  refine bindState fun s c hs hc => ?_
  dsimp only
  cases s.strings.lookup t with
  | some v => exact .pure rfl
  | none => exact .bind (.put ⟨hs, c, hc, rfl⟩) fun _ => .pure rfl

theorem external_neutral (name : Text) (result : IR.Typ) (params : List IR.Typ) (variadic : Bool) :
    Neutral place F G (external name result params variadic) := by
  refine bindState fun s c _ _ => ?_
  dsimp only
  cases s.externals.lookup name with
  | some v => exact .pure rfl
  | none =>
    refine .bind (addFunction_neutral _) fun v => ?_
    exact .bind (neutral_of_ok (fun _ _ => rfl) fun _ => ⟨_, rfl⟩) fun _ => .pure rfl

/-! ### Types and storage -/

section

variable (hplace : place .none = .none)

include hplace

theorem fail_none_neutral {W : α → α → Prop} (cause : InternalCause) :
    Pass.Alike (Beside F G) (InternalError.move place) W (fail .none cause : Emit α)
      (fail .none cause : Emit α) :=
  .stop (by rw [InternalError.move, hplace])

theorem typeOf_neutral (t : Ty) : Neutral place F G (typeOf t) := by
  refine bindState fun s c _ _ => ?_
  cases t.kind with
  | class_ => exact .ite (.pure rfl) (fail_none_neutral hplace _)
  | unresolved | other _ => exact fail_none_neutral hplace _
  | _ => exact .pure rfl

theorem zeroOf_neutral (t : Ty) : Neutral place F G (zeroOf t) := by
  unfold zeroOf
  cases t.kind with
  | int | float | char | bool | string | list | graph => exact .pure rfl
  | _ => exact .bind (typeOf_neutral hplace t) fun _ => .pure rfl

theorem bind_neutral (slot : Slot) : Neutral place F G (bind slot) := by
  refine bindState fun s c hs hc => ?_
  dsimp only
  cases s.slots.bind slot with
  | ok slots => exact .put ⟨hs, c, hc, rfl⟩
  | error e => exact fail_none_neutral hplace _

theorem declare_neutral (name : Text) (t : Ty) (isGlobal : Bool) :
    Neutral place F G (declare name t isGlobal) := by
  refine .ite ?_ ?_
  · refine .bind (zeroOf_neutral hplace t) fun _ => .bind (globalVariable_neutral _ _) fun _ => ?_
    exact .bind (bind_neutral hplace _) fun _ => .pure rfl
  · refine .bind (typeOf_neutral hplace t) fun _ => .bind (stackSlot_neutral _ _) fun _ => ?_
    exact .bind (bind_neutral hplace _) fun _ => .pure rfl

theorem memberFunction_neutral (m : Member) : Neutral place F G (memberFunction m) :=
  .bind (.mapM (typeOf_neutral hplace) m.params) fun _ =>
    .bind (typeOf_neutral hplace _) fun _ => external_neutral _ _ _ _

omit hplace in
theorem storage_follows (pos : Position) (name : Text) (isGlobal : Bool) :
    Follows place F G (storage pos name isGlobal) (storage (place pos) name isGlobal) := by
  refine bindState fun s c _ _ => .ite ?_ ?_
  · dsimp only
    cases s.globalSlots.lookup name with
    | some v => exact .pure rfl
    | none => exact fail_follows _ _
  · dsimp only
    cases s.slots.find name with
    | ok slot => exact .pure rfl
    | error e => exact fail_follows _ _

/-! ### Expressions -/

omit hplace in
theorem convert_neutral (v : IR.Value) (source target : Ty) :
    Neutral place F G (convert v source target) :=
  .ite (inst_neutral _) (.pure rfl)

omit hplace in
theorem compare_neutral (op : BinaryOp) (t : Ty) (l r : IR.Value) :
    Neutral place F G (compare op t l r) := by
  refine .ite (inst_neutral _) (.ite ?_ (.ite (inst_neutral _) (inst_neutral _)))
  exact .bind (external_neutral _ _ _ _) fun _ => .bind (inst_neutral _) fun _ => inst_neutral _

omit hplace in
theorem binary_follows (pos : Position) (op : BinaryOp) (lt rt : Ty) (l r : IR.Value) :
    Follows place F G (binary pos op lt rt l r) (binary (place pos) op lt rt l r) := by
  refine .bind (convert_neutral _ _ _) fun l => .bind (convert_neutral _ _ _) fun r => ?_
  refine .ite (inst_neutral _) (.ite (inst_neutral _) (.ite (compare_neutral _ _ _ _) ?_))
  split
  · exact inst_neutral _
  · exact fail_follows _ _

omit hplace in
theorem unary_neutral (op : UnaryOp) (t : Ty) (v : IR.Value) : Neutral place F G (unary op t v) :=
  .ite (inst_neutral _) (.ite (inst_neutral _) (inst_neutral _))

variable (hFG : F.Matches place G)

theorem fieldAddress_follows (a : Access) (ha : F.Agrees G (a.receiver.type, a.member)) :
    Follows place F G (fieldAddress a) (fieldAddress (a.essence place)) := by
  refine bindState fun s c hs hc => ?_
  have hlookup : c.members.lookup? (a.essence place).receiver.type (a.essence place).member =
      s.ctx.members.lookup? a.receiver.type a.member := by
    rw [hc.members, hs.members]
    exact ha
  simp only [hlookup]
  cases s.ctx.members.lookup? a.receiver.type a.member with
  | none => exact fail_follows _ _
  | some m =>
    refine .ite (.bind (storage_follows _ _ _) fun base => ?_) (fail_follows _ _)
    refine .bind (typeOf_neutral hplace _) fun whole => ?_
    exact .bind (bindState fun _ _ _ _ => .pure rfl) fun field => inst_neutral _

include hFG

mutual

theorem expr_follows (n : Node) (hn : ∀ x ∈ n.lookups, F.Agrees G x) :
    Follows place F G (expr n) (expr (n.essence place)) := by
  cases n with
  | int m v | float m v | char m v | bool m v => exact .pure rfl
  | string m v => exact string_neutral v
  | var m name =>
    rw [Node.essence, expr, expr]
    refine .bind (typeOf_neutral hplace _) fun t => ?_
    exact .bind (storage_follows m.pos name m.isGlobal) fun source => inst_neutral _
  | binary m op l r =>
    obtain ⟨hl, hr⟩ := List.forall_mem_append.mp hn
    rw [Node.essence, expr, expr]
    refine .bind (expr_follows l hl) fun lv => .bind (expr_follows r hr) fun rv => ?_
    rw [Node.type_essence, Node.type_essence]
    exact binary_follows m.pos op l.type r.type lv rv
  | unary m op x =>
    rw [Node.essence, expr, expr]
    exact .bind (expr_follows x hn) fun v => unary_neutral _ _ _
  | call m name xs =>
    rw [Node.essence, expr, expr]
    refine bindState fun s c hs hc => ?_
    have hfuncs : c.funcs = s.ctx.funcs := by rw [hc.funcs, hs.funcs, hFG.funcs]
    simp only [hfuncs]
    generalize s.functions.lookup name = callee
    cases callee with
    | none => exact fail_follows _ _
    | some callee => exact .bind (args_follows xs hn _) fun vs => inst_neutral _
  | dot a xs =>
    obtain ⟨ha, hxs⟩ := List.forall_mem_cons.mp hn
    rw [Node.essence, expr, expr]
    refine .ite ?_ (bindState fun s c hs hc => ?_)
    · refine .bind (typeOf_neutral hplace _) fun t => ?_
      exact .bind (fieldAddress_follows hplace a ha) fun source => inst_neutral _
    · have hlookup : c.members.lookup? (a.essence place).receiver.type (a.essence place).member =
          s.ctx.members.lookup? a.receiver.type a.member := by
        rw [hc.members, hs.members]
        exact ha
      simp only [hlookup]
      cases s.ctx.members.lookup? a.receiver.type a.member with
      | none => exact fail_follows _ _
      | some m =>
        refine .bind (storage_follows _ _ _) fun place => .bind (inst_neutral _) fun handle => ?_
        refine .bind (args_follows xs hxs _) fun vs => ?_
        exact .bind (memberFunction_neutral hplace _) fun f => inst_neutral _
  | ret m value => cases value <;> exact fail_follows _ _
  | branch m merge test yes no => cases no <;> exact fail_follows _ _
  | missing => exact fail_none_neutral hplace _
  | _ => exact fail_follows _ _
termination_by structural n

theorem args_follows (xs : List Node) (hxs : ∀ x ∈ Node.lookupsAll xs, F.Agrees G x)
    (params : List Ty) :
    Follows place F G (args params xs) (args params (Node.essenceAll place xs)) := by
  cases xs with
  | nil => exact .pure rfl
  | cons x xs =>
    obtain ⟨hx, hxs⟩ := List.forall_mem_append.mp hxs
    rw [Node.essenceAll, args, args]
    refine .bind (expr_follows x hx) fun v => ?_
    rw [Node.type_essence]
    refine .bind (convert_neutral _ _ _) fun v => ?_
    exact .bind (args_follows xs hxs params.tail) fun vs => .pure rfl
termination_by structural xs

end

/-! ### Simple statements -/

section

variable {x : Node} (hx : ∀ y ∈ x.lookups, F.Agrees G y)

include hx

theorem print_follows (pos : Position) :
    Follows place F G (print pos x) (print (place pos) (x.essence place)) := by
  unfold print
  rw [Node.type_essence]
  split
  · exact fail_follows _ _
  · rename_i format _
    have hprint (v : IR.Value) : Neutral place F G (do
        let f ← printer
        let t ← string format
        effect (.call f [t, v])) :=
      .bind (external_neutral _ _ _ _) fun f => .bind (string_neutral _) fun t => effect_neutral _
    refine .bind (expr_follows hplace hFG x hx) fun v => .ite (.bind (inst_neutral _) hprint) ?_
    exact .bind (.pure rfl) hprint

theorem converted_follows (target : Ty) {f g : IR.Value → Emit Unit}
    (h : ∀ v, Follows place F G (f v) (g v)) :
    Follows place F G (do f (← convert (← expr x) x.type target))
      (do g (← convert (← expr (x.essence place)) (x.essence place).type target)) := by
  rw [Node.type_essence]
  exact .bind (expr_follows hplace hFG x hx) fun v => .bind (convert_neutral _ _ _) h

theorem definition_follows (m : Mark) (name : Text) (t : Ty) :
    Follows place F G (definition m name t x)
      (definition (m.essence place true false) name t (x.essence place)) :=
  converted_follows hplace hFG hx t fun _ =>
    .bind (declare_neutral hplace _ _ _) fun _ => effect_neutral _

theorem assignment_follows (m : Mark) (name : Text) :
    Follows place F G (assignment m name x)
      (assignment (m.essence place true false) name (x.essence place)) :=
  converted_follows hplace hFG hx m.type fun _ =>
    .bind (storage_follows _ _ _) fun _ => effect_neutral _

theorem fieldAssignment_follows (m : Mark) (a : Access)
    (ha : F.Agrees G (a.receiver.type, a.member)) :
    Follows place F G (fieldAssignment m a x)
      (fieldAssignment (m.essence place false true) (a.essence place) (x.essence place)) :=
  converted_follows hplace hFG hx m.type fun _ =>
    .bind (fieldAddress_follows hplace a ha) fun _ => effect_neutral _

end

theorem returnFrom_follows (pos : Position) (x : Option Node)
    (hx : ∀ y ∈ x, ∀ z ∈ y.lookups, F.Agrees G z) :
    Follows place F G (returnFrom pos x) (returnFrom (place pos) (x.map (Node.essence place))) := by
  refine bindState fun s c _ _ => ?_
  dsimp only
  cases s.body.sig with
  | none => exact fail_follows _ _
  | some sig =>
    cases x with
    | none => exact terminate_neutral _
    | some x => exact converted_follows hplace hFG (hx x rfl) _ fun _ => terminate_neutral _

omit hFG in
theorem declaration_follows (m : Mark) (name : Text) (t : Ty) :
    Follows place F G (declaration m name t) (declaration (m.essence place true true) name t) := by
  refine .bind (declare_neutral hplace _ _ _) fun storage => .ite ?_ (.pure rfl)
  exact .bind (zeroOf_neutral hplace t) fun _ => effect_neutral _

omit hFG in
theorem aggregate_follows (m : Mark) (name maker : Text) :
    Follows place F G (aggregate m name maker)
      (aggregate (m.essence place true false) name maker) := by
  refine .bind (declare_neutral hplace _ _ _) fun storage => ?_
  refine .bind (external_neutral _ _ _ _) fun f => .bind (inst_neutral _) fun handle => ?_
  exact .bind (effect_neutral _) fun _ => .pure rfl

theorem appendAll_follows (add handle : IR.Value) (elem : Ty) (xs : List Node)
    (hxs : ∀ x ∈ Node.lookupsAll xs, F.Agrees G x) :
    Follows place F G (appendAll add handle elem xs)
      (appendAll add handle elem (Node.essenceAll place xs)) := by
  induction xs with
  | nil => exact .pure rfl
  | cons x xs ih =>
    obtain ⟨hx, hxs⟩ := List.forall_mem_append.mp hxs
    rw [Node.essenceAll, appendAll, appendAll]
    exact converted_follows hplace hFG hx elem fun _ => .bind (effect_neutral _) fun _ => ih hxs

theorem list_follows (m : Mark) (name : Text) (xs : List Node) (hm : F.Agrees G (m.type, "add"))
    (hxs : ∀ x ∈ Node.lookupsAll xs, F.Agrees G x) :
    Follows place F G (list m name xs)
      (list (m.essence place true false) name (Node.essenceAll place xs)) := by
  refine .bind (aggregate_follows hplace m name _) fun handle => ?_
  have hempty : (Node.essenceAll place xs).isEmpty = xs.isEmpty := by cases xs <;> rfl
  rw [hempty]
  refine .ite (.pure rfl) (bindState fun s c hs hc => ?_)
  have hlookup : c.members.lookup? (m.essence place true false).type "add" =
      s.ctx.members.lookup? m.type "add" := by
    rw [hc.members, hs.members]
    exact hm
  simp only [hlookup]
  cases s.ctx.members.lookup? m.type "add" with
  | none => exact fail_follows _ _
  | some add =>
    exact .bind (memberFunction_neutral hplace _) fun f =>
      appendAll_follows hplace hFG f handle _ xs hxs

omit hplace hFG in
theorem sealBlock_neutral : Neutral place F G sealBlock :=
  bindState fun _ _ _ _ => .ite (terminate_neutral _) (.pure rfl)

end

end Emit

namespace Lowering

open Emit (Follows bindState)
open State (Beside)

variable {α β τ υ : Type} {place : Position → Position} {F G : Context}

/-- The second pass does what the first one does, to another tree. -/
abbrev Mirrors (place : Position → Position) (F G : Context) (p : Lowering τ α)
    (q : Lowering υ β) : Prop :=
  Pass.Alike (Beside F G) (InternalError.move place) (fun _ _ => True) p q

theorem emit_alike {W : α → β → Prop} {e : Emit α} {e' : Emit β} (tree : τ) (tree' : υ)
    (h : Pass.Alike (Beside F G) (InternalError.move place) W e e') :
    Pass.Alike (Beside F G) (InternalError.move place) W (emit tree e) (emit tree' e') :=
  .inside h

/-- Both passes start with code that is emitted alike. -/
theorem emits {γ : Type} {e e' : Emit γ} {tree : τ} {tree' : υ} {f : γ → Lowering τ α}
    {g : γ → Lowering υ β} (h : Follows place F G e e')
    (hf : ∀ a, Mirrors place F G (f a) (g a)) :
    Mirrors place F G (emit tree e >>= f) (emit tree' e' >>= g) :=
  .bind (emit_alike tree tree' h) hf

/-- Both passes only emit code. -/
theorem only {γ : Type} {e e' : Emit γ} {tree : τ} {tree' : υ} {a : α} {b : β}
    (h : Follows place F G e e') :
    Mirrors place F G (do let _ ← emit tree e; return a) (do let _ ← emit tree' e'; return b) :=
  emits h fun _ => .pure trivial

/-- Both passes start with parts of the trees. -/
theorem part {γ δ τ' υ' : Type} {p : Lowering τ' γ} {q : Lowering υ' δ}
    {plug : τ' → τ} {plug' : υ' → υ} {f : γ → Lowering τ α} {g : δ → Lowering υ β}
    (h : Mirrors place F G p q) (hf : ∀ a b, Mirrors place F G (f a) (g b)) :
    Mirrors place F G (p.inside plug >>= f) (q.inside plug' >>= g) :=
  .bindAny (.inside h) fun a b _ => hf a b

theorem inScope_mirrors {p : Lowering τ α} {q : Lowering υ β} (h : Mirrors place F G p q) :
    Mirrors place F G (inScope p) (inScope q) := by
  rintro s _ ⟨hs, c, hc, rfl⟩
  have hp := h { s with slots := s.slots.enter } _ ⟨hs, c, hc, rfl⟩
  simp only [inScope, Pass.run] at hp ⊢
  rcases hr : p { s with slots := s.slots.enter } with ⟨e | a, t⟩ <;> rw [hr] at hp
  · obtain ⟨tree, _, htree, ht, d, hd, rfl⟩ := hp
    exact ⟨tree, _, by rw [htree], ht, d, hd, rfl⟩
  · obtain ⟨b, _, hb, -, ht, d, hd, rfl⟩ := hp
    exact ⟨b, _, by rw [hb], trivial, ht, d, hd, rfl⟩

section

variable (hplace : place .none = .none) (hFG : F.Matches place G)

include hplace hFG

mutual

theorem stmt_mirrors (n : Node) (hn : ∀ x ∈ n.lookups, F.Agrees G x) :
    Mirrors place F G (stmt n) (stmt (n.stmtEssence place)) := by
  cases n with
  | includeLib m library => exact .pure trivial
  | classDecl m name fields => exact .pure trivial
  | varDecl m name t => exact only (Emit.declaration_follows hplace m name t)
  | varDef m name t x => exact only (Emit.definition_follows hplace hFG (x := x) hn m name t)
  | assign m name x => exact only (Emit.assignment_follows hplace hFG (x := x) hn m name)
  | fieldAssign m a xs x =>
    obtain ⟨ha, hx⟩ := List.forall_mem_cons.mp hn
    exact only (Emit.fieldAssignment_follows hplace hFG hx m a ha)
  | listDecl m name elem xs =>
    obtain ⟨hm, hxs⟩ := List.forall_mem_cons.mp hn
    exact only (Emit.list_follows hplace hFG m name xs hm hxs)
  | graphDecl m name elem => exact only (Emit.aggregate_follows hplace m name _)
  | ret m x =>
    cases x with
    | none => exact only (Emit.returnFrom_follows hplace hFG m.pos none nofun)
    | some x =>
      refine only (Emit.returnFrom_follows hplace hFG m.pos (some x) ?_)
      rintro _ ⟨⟩
      exact hn
  | branch m merge test yes no =>
    cases no with
    | none =>
      obtain ⟨htest, hyes⟩ := List.forall_mem_append.mp hn
      change Mirrors place F G _ (stmt (.branch _ none (test.essence place)
        (Node.bodyEssence place yes) none))
      rw [stmt, stmt]
      refine emits (Emit.expr_follows hplace hFG test htest) fun v => ?_
      refine emits (Emit.block_neutral _) fun thenBlock => ?_
      refine emits (Emit.block_neutral _) fun endBlock => ?_
      refine emits (Emit.terminate_neutral _) fun _ => emits (Emit.moveTo_neutral _) fun _ => ?_
      refine part (inScope_mirrors (stmts_mirrors yes hyes)) fun yes yes' => ?_
      refine emits (Emit.branch_neutral _) fun _ => emits (Emit.moveTo_neutral _) fun _ => ?_
      exact only Emit.sealBlock_neutral
    | some no =>
      obtain ⟨hn, hno⟩ := List.forall_mem_append.mp hn
      obtain ⟨htest, hyes⟩ := List.forall_mem_append.mp hn
      change Mirrors place F G _ (stmt (.branch _ none (test.essence place)
        (Node.bodyEssence place yes) (some (Node.bodyEssence place no))))
      rw [stmt, stmt]
      refine emits (Emit.expr_follows hplace hFG test htest) fun v => ?_
      refine emits (Emit.block_neutral _) fun thenBlock => ?_
      refine emits (Emit.block_neutral _) fun endBlock => ?_
      refine emits (Emit.block_neutral _) fun elseBlock => ?_
      refine emits (Emit.terminate_neutral _) fun _ => emits (Emit.moveTo_neutral _) fun _ => ?_
      refine part (inScope_mirrors (stmts_mirrors yes hyes)) fun yes yes' => ?_
      refine emits (Emit.branch_neutral _) fun _ => emits (Emit.moveTo_neutral _) fun _ => ?_
      refine part (inScope_mirrors (stmts_mirrors no hno)) fun no no' => ?_
      refine emits (Emit.branch_neutral _) fun _ => emits (Emit.moveTo_neutral _) fun _ => ?_
      exact only Emit.sealBlock_neutral
  | whileLoop m merge test body =>
    obtain ⟨htest, hbody⟩ := List.forall_mem_append.mp hn
    change Mirrors place F G _ (stmt (.whileLoop _ none (test.essence place)
      (Node.bodyEssence place body)))
    rw [stmt, stmt]
    refine emits (Emit.block_neutral _) fun testBlock => ?_
    refine emits (Emit.block_neutral _) fun bodyBlock => ?_
    refine emits (Emit.block_neutral _) fun endBlock => ?_
    refine emits (Emit.branch_neutral _) fun _ => emits (Emit.moveTo_neutral _) fun _ => ?_
    refine emits (Emit.expr_follows hplace hFG test htest) fun v => ?_
    refine emits (Emit.terminate_neutral _) fun _ => emits (Emit.moveTo_neutral _) fun _ => ?_
    refine part (inScope_mirrors (stmts_mirrors body hbody)) fun body body' => ?_
    exact emits (Emit.branch_neutral _) fun _ => only (Emit.moveTo_neutral _)
  | forLoop m merge init test step body =>
    obtain ⟨hn, hbody⟩ := List.forall_mem_append.mp hn
    obtain ⟨hn, hstep⟩ := List.forall_mem_append.mp hn
    obtain ⟨hinit, htest⟩ := List.forall_mem_append.mp hn
    change Mirrors place F G _ (stmt (.forLoop _ none (init.stmtEssence place)
      (test.essence place) (step.stmtEssence place) (Node.bodyEssence place body)))
    rw [stmt, stmt]
    refine inScope_mirrors (part (stmt_mirrors init hinit) fun init init' => ?_)
    refine emits (Emit.block_neutral _) fun testBlock => ?_
    refine emits (Emit.block_neutral _) fun bodyBlock => ?_
    refine emits (Emit.block_neutral _) fun stepBlock => ?_
    refine emits (Emit.block_neutral _) fun endBlock => ?_
    refine emits (Emit.branch_neutral _) fun _ => emits (Emit.moveTo_neutral _) fun _ => ?_
    refine emits (Emit.expr_follows hplace hFG test htest) fun v => ?_
    refine emits (Emit.terminate_neutral _) fun _ => emits (Emit.moveTo_neutral _) fun _ => ?_
    refine part (inScope_mirrors (stmts_mirrors body hbody)) fun body body' => ?_
    refine emits (Emit.branch_neutral _) fun _ => emits (Emit.moveTo_neutral _) fun _ => ?_
    refine bindState fun s c _ _ => .ite ?_ ?_
    · exact emits (Emit.terminate_neutral _) fun _ => only (Emit.moveTo_neutral _)
    · refine part (stmt_mirrors step hstep) fun step step' => ?_
      exact emits (Emit.branch_neutral _) fun _ => only (Emit.moveTo_neutral _)
  | print m x => exact only (Emit.print_follows hplace hFG (x := x) hn m.pos)
  | exprStmt m x => exact only (Emit.expr_follows hplace hFG x hn)
  | missing => exact emit_alike _ _ (Emit.fail_none_neutral hplace _)
  | _ => exact emit_alike _ _ (Emit.fail_follows _ _)
termination_by structural n

theorem stmts_mirrors (ns : List Node) (hns : ∀ x ∈ Node.lookupsAll ns, F.Agrees G x) :
    Mirrors place F G (stmts ns) (stmts (Node.bodyEssence place ns)) := by
  cases ns with
  | nil => exact .pure trivial
  | cons n rest =>
    obtain ⟨hn, hrest⟩ := List.forall_mem_append.mp hns
    rw [Node.bodyEssence, stmts, stmts]
    refine bindState fun s c _ _ => .ite (.pure trivial) ?_
    refine part (stmt_mirrors n hn) fun n n' => ?_
    exact part (stmts_mirrors rest hrest) fun rest rest' => .pure trivial
termination_by structural ns

end

/-! ### Programs -/

omit hFG in
theorem structType_follows (d : ClassDef) :
    Follows place F G (Emit.structType d) (Emit.structType (d.move place)) := by
  have hfields : (d.move place).fields.mapM (fun f => Emit.typeOf f.type) =
      d.fields.mapM fun f => Emit.typeOf f.type := List.mapM_map ..
  unfold Emit.structType
  rw [hfields]
  refine .bind (.mapM (fun f => Emit.typeOf_neutral hplace f.type) d.fields) fun fields => ?_
  exact Emit.neutral_of_ok (fun _ _ => rfl) fun _ => ⟨_, rfl⟩

omit hFG in
theorem header_follows (name : Text) (params : List Param) (result : Ty) :
    Follows place F G (Emit.header name params result)
      (Emit.header name (params.map (Param.move place)) result) := by
  have hparams : (params.map (Param.move place)).mapM
      (fun p => do return (p.name, ← Emit.typeOf p.type)) =
        params.mapM fun p => do return (p.name, ← Emit.typeOf p.type) := List.mapM_map ..
  unfold Emit.header
  rw [hparams]
  refine .bind (.mapM (fun p => .bind (Emit.typeOf_neutral hplace p.type) fun t => .pure rfl) params)
    fun ps => .bind (Emit.typeOf_neutral hplace result) fun t => ?_
  refine .bind (Emit.addFunction_neutral _) fun v => ?_
  exact Emit.neutral_of_ok (fun _ _ => rfl) fun _ => ⟨_, rfl⟩

omit hFG in
theorem headers_follows (ns : List Node) :
    Follows place F G (Emit.headers ns) (Emit.headers (Node.bodyEssence place ns)) := by
  induction ns with
  | nil => exact .pure rfl
  | cons n rest ih =>
    cases n with
    | funcDef m name params result body =>
      exact .bind (header_follows hplace name params result) fun _ => ih
    | ret m value => cases value <;> exact ih
    | branch m merge test yes no => cases no <;> exact ih
    | _ => exact ih

omit hplace hFG in
theorem enterFunction_neutral (func : Nat) (sig : Option Signature) :
    Emit.Neutral place F G (Emit.enterFunction func sig) :=
  Emit.neutral_of_ok (fun _ _ => rfl) fun _ => ⟨_, rfl⟩

omit hFG in
theorem parameters_follows (func i : Nat) (params : List Param) :
    Follows place F G (Emit.parameters func i params)
      (Emit.parameters func i (params.map (Param.move place))) := by
  induction params generalizing i with
  | nil => exact .pure rfl
  | cons p ps ih =>
    rw [List.map_cons, Emit.parameters, Emit.parameters]
    refine .bind (Emit.typeOf_neutral hplace p.type) fun t => ?_
    refine .bind (Emit.stackSlot_neutral _ _) fun storage => ?_
    refine .bind (Emit.effect_neutral _) fun _ => ?_
    exact .bind (Emit.bind_neutral hplace _) fun _ => ih (i + 1)

omit hplace hFG in
theorem finish_follows (pos : Position) (name : Text) (result : Ty) :
    Follows place F G (Emit.finish pos name result) (Emit.finish (place pos) name result) :=
  bindState fun _ _ _ _ => .ite (.pure rfl)
    (.ite (Emit.terminate_neutral _) (.ite (Emit.terminate_neutral _) (Emit.fail_follows _ _)))

omit hplace hFG in
theorem finishMain_neutral : Emit.Neutral place F G Emit.finishMain :=
  bindState fun _ _ _ _ => .ite (.pure rfl) (Emit.terminate_neutral _)

omit hplace hFG in
/-- An event that only depends on what is outside of the context goes to the log of both. -/
theorem record_follows (e : State → Event) (he : ∀ (s : State) c, e { s with ctx := c } = e s) :
    Follows place F G (Pass.change fun s => { s with ctx := s.ctx.record (e s) } : Lowering τ Unit)
      (Pass.change fun s => { s with ctx := s.ctx.record (e s) } : Lowering υ Unit) := by
  refine .change ?_
  rintro s _ ⟨hs, c, hc, rfl⟩
  exact ⟨⟨hs.funcs, hs.classes, hs.members⟩, c.record (e s), ⟨hc.funcs, hc.classes, hc.members⟩,
    by rw [he]⟩

theorem function_mirrors (m : Mark) (name : Text) (params : List Param) (result : Ty)
    (body : List Node) (hbody : ∀ x ∈ Node.lookupsAll body, F.Agrees G x) :
    Mirrors place F G (function m name params result body)
      (function (m.essence place false false) name (params.map (Param.move place)) result
        (Node.bodyEssence place body)) := by
  refine bindState fun s c hs hc => ?_
  have hfuncs : c.funcs = s.ctx.funcs := by rw [hc.funcs, hs.funcs, hFG.funcs]
  simp only [hfuncs]
  refine emits (enterFunction_neutral _ _) fun _ => part (inScope_mirrors ?_) fun body body' => ?_
  · exact emits (parameters_follows hplace _ 0 params) fun _ => stmts_mirrors hplace hFG body hbody
  · refine emits (finish_follows m.pos name result) fun _ => ?_
    exact .bind (record_follows _ fun _ _ => rfl) fun _ => .pure trivial

/-- How an item is lowered that is not a function. -/
def stmtItem (n : Node) (rest : List Node) : Lowering (List Node) (List Node) := do
  let s ← Pass.state
  if s.done then
    let rest ← (items rest).inside fun rest => n :: rest
    return n :: rest
  else
    let n ← (stmt n).inside fun n => n :: rest
    let rest ← (items rest).inside fun rest => n :: rest
    return n :: rest

theorem stmtItem_mirrors (n : Node) (hn : ∀ x ∈ n.lookups, F.Agrees G x) {rest : List Node}
    (hrest : Mirrors place F G (items rest) (items (Node.bodyEssence place rest))) :
    Mirrors place F G (stmtItem n rest)
      (stmtItem (n.stmtEssence place) (Node.bodyEssence place rest)) := by
  refine bindState fun s c _ _ => .ite ?_ ?_
  · exact part hrest fun rest rest' => .pure trivial
  · refine part (stmt_mirrors hplace hFG n hn) fun n n' => ?_
    exact part hrest fun rest rest' => .pure trivial

theorem items_mirrors (ns : List Node) (hns : ∀ x ∈ Node.lookupsAll ns, F.Agrees G x) :
    Mirrors place F G (items ns) (items (Node.bodyEssence place ns)) := by
  induction ns with
  | nil => exact .pure trivial
  | cons n rest ih =>
    obtain ⟨hn, hrest⟩ := List.forall_mem_append.mp hns
    have hstmt := stmtItem_mirrors hplace hFG n hn (ih hrest)
    cases n with
    | funcDef m name params result body =>
      refine bindState fun s c _ _ => ?_
      refine part (function_mirrors hplace hFG m name params result body hn) fun n n' => ?_
      refine .bind (Emit.neutral_of_ok (fun _ _ => rfl) fun _ => ⟨_, rfl⟩) fun _ => ?_
      exact part (ih hrest) fun rest rest' => .pure trivial
    | ret m value => cases value <;> exact hstmt
    | branch m merge test yes no => cases no <;> exact hstmt
    | _ => exact hstmt

theorem program_mirrors (ns : List Node) (hns : ∀ x ∈ Node.lookupsAll ns, F.Agrees G x) :
    Mirrors place F G (program ns) (program (Node.bodyEssence place ns)) := by
  refine bindState fun s c hs hc => ?_
  have hclasses : c.classes = s.ctx.classes.map (ClassDef.move place) := by
    rw [hc.classes, hs.classes, hFG.classes]
  simp only [hclasses]
  refine emits (.forM (structType_follows hplace) s.ctx.classes) fun _ => ?_
  refine emits (headers_follows hplace ns) fun _ => ?_
  refine emits (Emit.addFunction_neutral _) fun main => ?_
  refine emits (enterFunction_neutral _ _) fun _ => ?_
  refine .bindAny (items_mirrors hplace hFG ns hns) fun body body' _ => ?_
  refine emits finishMain_neutral fun _ => ?_
  exact .bind (record_follows _ fun _ _ => rfl) fun _ => .pure trivial

end

end Lowering

end Augite
