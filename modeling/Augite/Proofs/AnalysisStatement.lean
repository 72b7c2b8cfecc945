import Augite.Proofs.AnalysisExpression
import Augite.Analysis.Statement

/-!
# Analysis of statements is right

A statement that analysis lets pass is annotated as the rules ask, in every context that
extends the one left behind. The variables stay in step with the declarations of the
scopes, and the tables of the context only grow.
-/

namespace Augite.Analysis

open Typing

/-! ### Steps of statements -/

theorem inScope_ok_iff {τ α : Type} {p : Analysis τ α} {a : α} {s u : State} :
    (inScope p).run s = (.ok a, u) ↔
      ∃ t, p.run { s with vars := s.vars.enter } = (.ok a, t) ∧
        u = { t with vars := t.vars.leave } := by
  simp only [inScope, Pass.run]
  rcases hp : p { s with vars := s.vars.enter } with ⟨r, t⟩
  simp [eq_comm]

theorem declare_ok {τ : Type} {tree : τ} {pos : Position} {name : Text} {t : Ty} {b : Bool}
    {v : Variable} {s u : State} (h : (declare tree pos name t b).run s = (.ok v, u)) :
    s.vars.current.lookup name = none ∧
      v = { name, type := t, initialized := b, isGlobal := s.vars.atModule } ∧
      u = { s with vars := s.vars.push name v } := by
  simp only [declare, Pass.bind_ok_iff, Pass.run_state] at h
  obtain ⟨_, _, hs, ⟨w, vs⟩, _, hdeclare, _, _, hput, h⟩ := h
  cases hs
  cases hput
  obtain ⟨hw, rfl⟩ := accept_ok_iff.mp hdeclare
  obtain ⟨rfl, rfl⟩ := Pass.pure_ok_iff.mp h
  simp only [Variables.declareAt] at hw
  split at hw
  · rename_i vs' hdecl
    cases hw
    obtain ⟨hnone, rfl⟩ := Scopes.declare?_eq_some_iff.mp hdecl
    exact ⟨hnone, rfl, rfl⟩
  · cases hw

theorem initialized_ok {τ : Type} {tree : τ} {pos : Position} {name : Text} {s u : State}
    (h : (initialized tree pos name).run s = (.ok (), u)) :
    u = { s with vars := s.vars.update name fun v => { v with initialized := true } } := by
  simp only [initialized, Pass.bind_ok_iff, Pass.run_state] at h
  obtain ⟨_, _, hs, vs, _, hmark, h⟩ := h
  cases hs
  cases h
  obtain ⟨hvs, rfl⟩ := accept_ok_iff.mp hmark
  unfold Variables.markInitialized at hvs
  rcases hf : s.vars.find pos name with e | w
  · rw [hf] at hvs
    cases hvs
  · rw [hf] at hvs
    cases hvs
    rfl

theorem condition_ok {n n' : Node} {s u : State} (h : (condition n).run s = (.ok n', u)) :
    (expr n).run s = (.ok (n', .bool), u) := by
  simp only [condition, Pass.bind_ok_iff] at h
  obtain ⟨⟨m, t⟩, _, hm, h⟩ := h
  split at h
  · rename_i ht
    obtain ⟨rfl, rfl⟩ := Pass.pure_ok_iff.mp h
    cases ht
    exact hm
  · simp at h

theorem checkReturn_ok {τ : Type} {tree : τ} {m : Mark} {hasValue : Bool} {t r : Ty}
    {s u : State} (h : (checkReturn tree m hasValue t).run s = (.ok r, u)) :
    s = u ∧ ∃ sig, s.function = some sig ∧ r = sig.result ∧
      if sig.result = .void then hasValue = false
      else t ≠ .void ∧ sig.result.accepts t = true := by
  simp only [checkReturn, Pass.bind_ok_iff, Pass.run_state] at h
  obtain ⟨_, _, hs, h⟩ := h
  cases hs
  split at h
  · simp at h
  rename_i sig hsig
  split at h
  · rename_i hvoid
    split at h
    · simp at h
    rename_i hvalue
    obtain ⟨rfl, rfl⟩ := Pass.pure_ok_iff.mp h
    refine ⟨rfl, sig, hsig, rfl, ?_⟩
    rw [if_pos hvoid]
    simpa using hvalue
  · rename_i hvoid
    split at h
    · simp at h
    rename_i hacc
    obtain ⟨rfl, rfl⟩ := Pass.pure_ok_iff.mp h
    refine ⟨rfl, sig, hsig, rfl, ?_⟩
    rw [if_neg hvoid]
    simpa using hacc

/-! ### Declared types -/

/-- A state with a sound context that has grown out of another, by no functions. -/
structure Grown (s u : State) : Prop where
  sound : u.ctx.Sound
  extends_ : s.ctx.Extends u.ctx
  funcs : u.ctx.funcs = s.ctx.funcs

theorem Grown.refl {s : State} (h : s.ctx.Sound) : Grown s s := ⟨h, .refl _, rfl⟩

theorem Grown.trans {s t u : State} (h : Grown s t) (k : Grown t u) : Grown s u :=
  ⟨k.sound, h.extends_.trans k.extends_, k.funcs.trans h.funcs⟩

theorem resolveType_ok {τ : Type} {tree : τ} {pos : Position} {t : Ty} {s u : State}
    (hs : s.ctx.Sound) (ht : t.IsWritten) (h : (resolveType tree pos t).run s = (.ok (), u)) :
    Grown s u ∧ t.InUse u.ctx ∧ u = { s with ctx := u.ctx } := by
  simp only [resolveType, Pass.bind_ok_iff, Pass.run_state] at h
  obtain ⟨_, _, hst, h⟩ := h
  cases hst
  cases ht with
  | @scalar k hk =>
    cases k <;> cases hk
    all_goals
      obtain ⟨-, rfl⟩ := Pass.pure_ok_iff.mp h
      exact ⟨.refl hs, .scalar rfl, rfl⟩
  | list hk =>
    cases h
    obtain ⟨hsound, hext, huse⟩ := hs.registerList hk
    exact ⟨⟨hsound, hext, rfl⟩, huse, rfl⟩
  | graph hk =>
    cases h
    obtain ⟨hsound, hext, huse⟩ := hs.registerGraph hk
    exact ⟨⟨hsound, hext, rfl⟩, huse, rfl⟩
  | @class_ name hname =>
    rcases hd : s.ctx.class? name with _ | d
    · simp [Ty.classOf, hd] at h
    · have hsu : s = u := by simpa [Ty.classOf, hd] using h
      obtain ⟨-, rfl⟩ := Context.mem_of_class? hd
      exact ⟨hsu ▸ .refl hs, hsu ▸ .class_ hd, hsu ▸ rfl⟩

theorem resolveType_void {τ : Type} {tree : τ} {pos : Position} {s u : State}
    (h : (resolveType tree pos .void).run s = (.ok (), u)) : s = u := by
  simp only [resolveType, Pass.bind_ok_iff, Pass.run_state] at h
  obtain ⟨_, _, hst, h⟩ := h
  cases hst
  exact (Pass.pure_ok_iff.mp h).2

/-! ### Variables in step -/

section

variable {c : Context} {vs : Variables} {Γ : Environment}

/-- A variable and its declaration are bound at once. -/
theorem InStep.push (h : InStep c vs Γ) {name : Text} {t : Ty} (ht : t.InUse c) (b : Bool)
    (π : Path) :
    InStep c (vs.push name { name, type := t, initialized := b, isGlobal := vs.atModule })
      (Γ.push name ⟨π, t⟩) :=
  Scopes.Matches.push h name (fun hm => ⟨rfl, hm, ht⟩) fun hm => ⟨rfl, hm, ht⟩

theorem InStep.initialized (h : InStep c vs Γ) (name : Text) :
    InStep c (vs.update name fun v => { v with initialized := true }) Γ :=
  Scopes.Matches.update h name _ (fun _ _ h => h) fun _ _ h => h

theorem InStep.fresh (h : InStep c vs Γ) {name : Text} (hn : vs.current.lookup name = none) :
    Γ.Fresh name :=
  (Scopes.Matches.current_none h name).mp hn

end

/-! ### Statements -/

/-- What a successful analysis of the statement at `π` leaves behind. -/
structure Annotated (π : Path) (Γ : Environment) (n n' : Node) (s u : State) : Prop
    extends Grown s u where
  inStep : InStep u.ctx u.vars (Γ.after π n')
  function : u.function = s.function
  bare : n'.bare = n.bare
  checked : ∀ F, u.ctx.Extends F → Checked F s.function π Γ n'
  marked : ∀ F, u.ctx.Extends F → n'.Marked F s.function

/-- What a successful analysis of the statements at `π` from place `i` on leaves behind. -/
structure AllAnnotated (π : Path) (i : Nat) (Γ : Environment) (ns ns' : List Node)
    (s u : State) : Prop extends Grown s u where
  inStep : InStep u.ctx u.vars (Γ.afterAll π i ns')
  function : u.function = s.function
  bare : Node.bareAll ns' = Node.bareAll ns
  checked : ∀ F, u.ctx.Extends F → AllChecked F s.function π i Γ ns'
  marked : ∀ F, u.ctx.Extends F → Node.AllMarked F s.function ns'

section

variable {s u : State} {Γ : Environment} (hs : s.ctx.Sound) (hstep : InStep s.ctx s.vars Γ)
  {m : Mark} {name : Text} {n' : Node} (π : Path)
include hs hstep

theorem varDecl_annotated {t : Ty} (hn : (Node.varDecl m name t).IsSimple)
    (h : (stmt (.varDecl m name t)).run s = (.ok n', u)) :
    Annotated π Γ (.varDecl m name t) n' s u := by
  simp only [stmt, Pass.bind_ok_iff] at h
  obtain ⟨_, s₁, htype, v, _, hdecl, h⟩ := h
  obtain ⟨hgrown, huse, hs₁⟩ := resolveType_ok hs hn.1 htype
  obtain ⟨hfresh, rfl, rfl⟩ := declare_ok hdecl
  obtain ⟨rfl, rfl⟩ := Pass.pure_ok_iff.mp h
  have hstep₁ : InStep s₁.ctx s₁.vars Γ := by
    rw [hs₁]
    exact hstep.mono hgrown.extends_
  have hglobal := Scopes.Matches.atModule hstep₁
  refine ⟨⟨hgrown.sound, hgrown.extends_, hgrown.funcs⟩, hstep₁.push huse _ π, by rw [hs₁], rfl, ?_,
    fun _ _ => trivial⟩
  exact fun F hF => ⟨hstep₁.fresh hfresh, huse.mono hF, ⟨rfl, hglobal⟩, rfl⟩

theorem varDef_annotated {t : Ty} {x : Node} (hn : (Node.varDef m name t x).IsSimple)
    (h : (stmt (.varDef m name t x)).run s = (.ok n', u)) :
    Annotated π Γ (.varDef m name t x) n' s u := by
  simp only [stmt, Pass.bind_ok_iff] at h
  obtain ⟨⟨x', xt⟩, _, hx, _, s₁, htype, h⟩ := h
  obtain ⟨rfl, hbare, htyped, hflags⟩ := expr_typed hs hstep hn.2.2 (Pass.inside_ok_iff.mp hx)
  obtain ⟨hgrown, huse, hs₁⟩ := resolveType_ok hs hn.1 htype
  split at h
  · simp at h
  rename_i hacc
  simp only [Pass.bind_ok_iff] at h
  obtain ⟨v, _, hdecl, _, _, hinit, h⟩ := h
  obtain ⟨hfresh, rfl, rfl⟩ := declare_ok hdecl
  obtain rfl := initialized_ok hinit
  obtain ⟨rfl, rfl⟩ := Pass.pure_ok_iff.mp h
  have hstep₁ : InStep s₁.ctx s₁.vars Γ := by
    rw [hs₁]
    exact hstep.mono hgrown.extends_
  have hglobal := Scopes.Matches.atModule hstep₁
  refine ⟨⟨hgrown.sound, hgrown.extends_, hgrown.funcs⟩, (hstep₁.push huse _ π).initialized name,
    by rw [hs₁], by simp only [Node.bare, hbare]; rfl, fun F hF => ?_,
    fun F hF => hflags F (hgrown.extends_.trans hF)⟩
  exact ⟨hstep₁.fresh hfresh, huse.mono hF, ⟨rfl, hglobal⟩, xt,
    htyped F (hgrown.extends_.trans hF), by simpa using hacc⟩

theorem assign_annotated {x : Node} (hn : (Node.assign m name x).IsSimple)
    (h : (stmt (.assign m name x)).run s = (.ok n', u)) :
    Annotated π Γ (.assign m name x) n' s u := by
  simp only [stmt, Pass.bind_ok_iff, Pass.run_state] at h
  obtain ⟨_, _, hst, v, _, hv, ⟨x', xt⟩, _, hx, h⟩ := h
  cases hst
  obtain ⟨hfind, rfl⟩ := accept_ok_iff.mp hv
  obtain ⟨rfl, hbare, htyped, hflags⟩ := expr_typed (n := x) hs hstep hn (Pass.inside_ok_iff.mp hx)
  split at h
  · simp at h
  rename_i hacc
  simp only [Pass.bind_ok_iff] at h
  obtain ⟨_, _, hinit, h⟩ := h
  obtain rfl := initialized_ok hinit
  obtain ⟨rfl, rfl⟩ := Pass.pure_ok_iff.mp h
  obtain ⟨d, huses, htype, -⟩ := hstep.find hfind
  refine ⟨⟨hs, .refl _, rfl⟩, hstep.initialized name, rfl, by simp only [Node.bare, hbare]; rfl,
    fun F hF => ?_, hflags⟩
  exact ⟨d, xt, huses _ rfl rfl, htyped F hF, htype ▸ by simpa using hacc⟩

theorem fieldAssign_annotated {a : Access} {xs : List Node} {x : Node}
    (hn : (Node.fieldAssign m a xs x).IsSimple)
    (h : (stmt (.fieldAssign m a xs x)).run s = (.ok n', u)) :
    Annotated π Γ (.fieldAssign m a xs x) n' s u := by
  simp only [stmt, Pass.bind_ok_iff] at h
  obtain ⟨⟨b, f⟩, _, hm, ⟨x', xt⟩, _, hx, h⟩ := h
  obtain ⟨rfl, v, hv⟩ := member_ok hm
  obtain ⟨rfl, hbare, htyped, hflags⟩ := expr_typed hs hstep hn.2.2 (Pass.inside_ok_iff.mp hx)
  split at h
  · simp at h
  rename_i hacc
  obtain ⟨rfl, rfl⟩ := Pass.pure_ok_iff.mp h
  refine ⟨.refl hs, hstep, rfl, by simp only [Node.bare, hbare, hv.bare_eq]; rfl, fun F hF => ?_,
    fun F hF => ⟨rfl, hv.flagged hF, hn.1, hflags F hF⟩⟩
  obtain ⟨d, hd, htype, -⟩ := hv.refersTo hstep hF
  exact ⟨d, f, xt, hd, htype ▸ (hv.stored rfl).2, (hv.stored rfl).1, rfl, htyped F hF,
    by simpa using hacc⟩

theorem elements_typed {t : Ty} {xs xs' : List Node} (hn : Node.AllExpr xs)
    (h : (elements name t xs).run s = (.ok xs', u)) :
    s = u ∧ Node.bareAll xs' = Node.bareAll xs ∧
      (∀ F, s.ctx.Extends F → AllAccepted F Γ t xs') ∧
      ∀ F, s.ctx.Extends F → Node.AllFlagged F xs' := by
  induction xs generalizing xs' u with
  | nil =>
    obtain ⟨rfl, rfl⟩ := Pass.pure_ok_iff.mp h
    exact ⟨rfl, rfl, fun _ _ => nofun, fun _ _ => trivial⟩
  | cons x xs ih =>
    simp only [elements, Pass.bind_ok_iff] at h
    obtain ⟨⟨x', xt⟩, _, hx, h⟩ := h
    obtain ⟨rfl, hxb, hxt, hxf⟩ := expr_typed hs hstep hn.1 (Pass.inside_ok_iff.mp hx)
    split at h
    · rename_i hacc
      simp only [Pass.bind_ok_iff] at h
      obtain ⟨ys, _, hxs, h⟩ := h
      obtain ⟨rfl, hxsb, hxst, hxsf⟩ := ih hn.2 (Pass.inside_ok_iff.mp hxs)
      obtain ⟨rfl, rfl⟩ := Pass.pure_ok_iff.mp h
      refine ⟨rfl, by simp only [Node.bareAll, hxb, hxsb], fun F hF => ?_,
        fun F hF => ⟨hxf F hF, hxsf F hF⟩⟩
      rintro y hy
      rcases List.mem_cons.mp hy with rfl | hy
      · exact ⟨xt, hxt F hF, hacc⟩
      · exact hxst F hF y hy
    · simp at h

/-- Lists and graphs are declared alike. -/
theorem declareAggregate_ok {tree : Node} {t : Ty} (ht : t.IsWritten) {m' : Mark}
    (h : (declareAggregate tree m name t).run s = (.ok m', u)) :
    Grown s u ∧ InStep u.ctx u.vars (Γ.push name ⟨π, t⟩) ∧ u.function = s.function ∧
      m'.bare = m.bare ∧ Γ.Fresh name ∧ t.InUse u.ctx ∧ m'.Declares Γ t := by
  simp only [declareAggregate, Pass.bind_ok_iff] at h
  obtain ⟨_, s₁, htype, v, _, hdecl, h⟩ := h
  obtain ⟨hgrown, huse, hs₁⟩ := resolveType_ok hs ht htype
  obtain ⟨hfresh, rfl, rfl⟩ := declare_ok hdecl
  obtain ⟨rfl, rfl⟩ := Pass.pure_ok_iff.mp h
  have hstep₁ : InStep s₁.ctx s₁.vars Γ := by
    rw [hs₁]
    exact hstep.mono hgrown.extends_
  exact ⟨⟨hgrown.sound, hgrown.extends_, hgrown.funcs⟩, hstep₁.push huse _ π, by rw [hs₁], rfl,
    hstep₁.fresh hfresh, huse, rfl, Scopes.Matches.atModule hstep₁⟩

theorem listDecl_annotated {k : Kind} {xs : List Node} (hn : (Node.listDecl m name k xs).IsSimple)
    (h : (stmt (.listDecl m name k xs)).run s = (.ok n', u)) :
    Annotated π Γ (.listDecl m name k xs) n' s u := by
  simp only [stmt, Pass.bind_ok_iff] at h
  obtain ⟨xs', _, hxs, m', _, hm', h⟩ := h
  obtain ⟨rfl, hbare, htyped, hflags⟩ := elements_typed hs hstep hn.2 (Pass.inside_ok_iff.mp hxs)
  obtain ⟨hgrown, hstep', hfun, hmark, hfresh, huse, hdecl⟩ :=
    declareAggregate_ok hs hstep π (.list hn.1) hm'
  obtain ⟨rfl, rfl⟩ := Pass.pure_ok_iff.mp h
  refine ⟨hgrown, hstep', hfun, by simp only [Node.bare, hbare, hmark], fun F hF => ?_,
    fun F hF => hflags F (hgrown.extends_.trans hF)⟩
  exact ⟨hfresh, huse.mono hF, hdecl, htyped F (hgrown.extends_.trans hF)⟩

theorem graphDecl_annotated {k : Kind} (hn : (Node.graphDecl m name k).IsSimple)
    (h : (stmt (.graphDecl m name k)).run s = (.ok n', u)) :
    Annotated π Γ (.graphDecl m name k) n' s u := by
  simp only [stmt, Pass.bind_ok_iff] at h
  obtain ⟨m', _, hm', h⟩ := h
  obtain ⟨hgrown, hstep', hfun, hmark, hfresh, huse, hdecl⟩ :=
    declareAggregate_ok hs hstep π (.graph hn) hm'
  obtain ⟨rfl, rfl⟩ := Pass.pure_ok_iff.mp h
  exact ⟨hgrown, hstep', hfun, by simp only [Node.bare, hmark],
    fun F hF => ⟨hfresh, huse.mono hF, hdecl⟩, fun _ _ => trivial⟩

end

/-- What a successful analysis of statements in a scope of their own leaves behind. -/
structure BodyAnnotated (π : Path) (Γ : Environment) (ns ns' : List Node) (s u : State) : Prop
    extends Grown s u where
  inStep : InStep u.ctx u.vars Γ
  function : u.function = s.function
  bare : Node.bareAll ns' = Node.bareAll ns
  checked : ∀ F, u.ctx.Extends F → AllChecked F s.function π 0 Γ.enter ns'
  marked : ∀ F, u.ctx.Extends F → Node.AllMarked F s.function ns'

/-- A scope that is left takes the declarations in it along. -/
theorem BodyAnnotated.of_scope {π : Path} {Γ : Environment} {ns ns' : List Node} {s u : State}
    (hs : s.ctx.Sound) (hstep : InStep s.ctx s.vars Γ)
    (hall : ∀ {v t : State}, v.ctx.Sound → InStep v.ctx v.vars Γ.enter →
      (stmts ns).run v = (.ok ns', t) → AllAnnotated π 0 Γ.enter ns ns' v t)
    (h : (inScope (stmts ns)).run s = (.ok ns', u)) : BodyAnnotated π Γ ns ns' s u := by
  obtain ⟨t, hrun, rfl⟩ := inScope_ok_iff.mp h
  obtain ⟨hg, hi, hf, hb, hc, hm⟩ := hall (v := { s with vars := s.vars.enter }) hs hstep.enter hrun
  have hout := hi.leave
  rw [Environment.leave_afterAll _ rfl] at hout
  exact ⟨⟨hg.sound, hg.extends_, hg.funcs⟩, hout, hf, hb, hc, hm⟩

mutual

/-- A statement that analysis lets pass is annotated rightly. -/
theorem stmt_annotated {n : Node} (hn : n.IsStmt) {s u : State} {Γ : Environment} (hs : s.ctx.Sound)
    (hstep : InStep s.ctx s.vars Γ) {n' : Node} (π : Path) (h : (stmt n).run s = (.ok n', u)) :
    Annotated π Γ n n' s u := by
  cases n with
  | varDecl m name t => exact varDecl_annotated hs hstep π hn h
  | varDef m name t x => exact varDef_annotated hs hstep π hn h
  | assign m name x => exact assign_annotated hs hstep π hn h
  | fieldAssign m a xs x => exact fieldAssign_annotated hs hstep π hn h
  | listDecl m name k xs => exact listDecl_annotated hs hstep π hn h
  | graphDecl m name k => exact graphDecl_annotated hs hstep π hn h
  | ret m value =>
    cases value with
    | none =>
      simp only [stmt, Pass.bind_ok_iff] at h
      obtain ⟨r, _, hret, h⟩ := h
      obtain ⟨rfl, sig, hsig, rfl, hvoid⟩ := checkReturn_ok hret
      obtain ⟨rfl, rfl⟩ := Pass.pure_ok_iff.mp h
      refine ⟨.refl hs, hstep, rfl, rfl, fun F hF => ⟨sig, hsig, ?_⟩,
        fun _ _ => ⟨sig, hsig, rfl⟩⟩
      by_contra hne
      rw [if_neg hne] at hvoid
      exact hvoid.1 rfl
    | some x =>
      simp only [stmt, Pass.bind_ok_iff] at h
      obtain ⟨⟨x', xt⟩, _, hx, r, _, hret, h⟩ := h
      obtain ⟨rfl, hbare, htyped, hflags⟩ := expr_typed (n := x) hs hstep hn (Pass.inside_ok_iff.mp hx)
      obtain ⟨rfl, sig, hsig, rfl, hvoid⟩ := checkReturn_ok hret
      obtain ⟨rfl, rfl⟩ := Pass.pure_ok_iff.mp h
      refine ⟨.refl hs, hstep, rfl, by simp only [Node.bare, hbare, Mark.bare_typed],
        fun F hF => ⟨sig, xt, hsig, ?_, htyped F hF, ?_⟩,
        fun F hF => ⟨⟨sig, hsig, rfl⟩, hflags F hF⟩⟩
      · intro hv
        rw [if_pos hv] at hvoid
        cases hvoid
      · by_cases hv : sig.result = .void
        · rw [if_pos hv] at hvoid
          cases hvoid
        · rw [if_neg hv] at hvoid
          exact hvoid.2
  | branch m merge test yes no =>
    cases no with
    | none =>
      simp only [stmt, Pass.bind_ok_iff] at h
      obtain ⟨test', _, htest, yes', _, hyes, h⟩ := h
      obtain ⟨rfl, htb, htt, htf⟩ := expr_typed hs hstep hn.1 (condition_ok (Pass.inside_ok_iff.mp htest))
      obtain ⟨hg, hi, hf, hb, hc, hm⟩ := BodyAnnotated.of_scope hs hstep
        (fun hs hi => stmts_annotated hn.2 hs hi (1 :: π) 0) (Pass.inside_ok_iff.mp hyes)
      obtain ⟨rfl, rfl⟩ := Pass.pure_ok_iff.mp h
      exact ⟨hg, hi, hf, by simp only [Node.bare, htb, hb, Mark.bare_typed],
        fun F hF => ⟨htt F (hg.extends_.trans hF), hc F hF⟩,
        fun F hF => ⟨rfl, htf F (hg.extends_.trans hF), hm F hF⟩⟩
    | some no =>
      simp only [stmt, Pass.bind_ok_iff] at h
      obtain ⟨test', _, htest, yes', s₁, hyes, no', _, hno, h⟩ := h
      obtain ⟨rfl, htb, htt, htf⟩ := expr_typed hs hstep hn.1 (condition_ok (Pass.inside_ok_iff.mp htest))
      obtain ⟨hg, hi, hf, hb, hc, hm⟩ := BodyAnnotated.of_scope hs hstep
        (fun hs hi => stmts_annotated hn.2.1 hs hi (1 :: π) 0) (Pass.inside_ok_iff.mp hyes)
      obtain ⟨hg₂, hi₂, hf₂, hb₂, hc₂, hm₂⟩ := BodyAnnotated.of_scope hg.sound hi
        (fun hs hi => stmts_annotated hn.2.2 hs hi (2 :: π) 0) (Pass.inside_ok_iff.mp hno)
      obtain ⟨rfl, rfl⟩ := Pass.pure_ok_iff.mp h
      refine ⟨hg.trans hg₂, hi₂, hf₂.trans hf,
        by simp only [Node.bare, htb, hb, hb₂, Mark.bare_typed], fun F hF => ?_, fun F hF => ?_⟩
      · have hF₁ := hg₂.extends_.trans hF
        exact ⟨htt F (hg.extends_.trans hF₁), hc F hF₁, hf ▸ hc₂ F hF⟩
      · have hF₁ := hg₂.extends_.trans hF
        exact ⟨rfl, htf F (hg.extends_.trans hF₁), hm F hF₁, hf ▸ hm₂ F hF⟩
  | whileLoop m merge test body =>
    simp only [stmt, Pass.bind_ok_iff] at h
    obtain ⟨test', _, htest, body', _, hbody, h⟩ := h
    obtain ⟨rfl, htb, htt, htf⟩ := expr_typed hs hstep hn.1 (condition_ok (Pass.inside_ok_iff.mp htest))
    obtain ⟨hg, hi, hf, hb, hc, hm⟩ := BodyAnnotated.of_scope hs hstep
        (fun hs hi => stmts_annotated hn.2 hs hi (1 :: π) 0) (Pass.inside_ok_iff.mp hbody)
    obtain ⟨rfl, rfl⟩ := Pass.pure_ok_iff.mp h
    exact ⟨hg, hi, hf, by simp only [Node.bare, htb, hb, Mark.bare_typed],
      fun F hF => ⟨htt F (hg.extends_.trans hF), hc F hF⟩,
      fun F hF => ⟨rfl, htf F (hg.extends_.trans hF), hm F hF⟩⟩
  | forLoop m merge init test step body =>
    obtain ⟨hinit, htest, hstep', hbody⟩ := hn
    simp only [stmt] at h
    obtain ⟨t, hrun, rfl⟩ := inScope_ok_iff.mp h
    simp only [Pass.bind_ok_iff] at hrun
    obtain ⟨init', s₁, hi, test', _, ht, step', s₃, hst, body', s₄, hbd, hrun⟩ := hrun
    obtain ⟨hg₁, hi₁, hf₁, hb₁, hc₁, hm₁⟩ := stmt_annotated hinit.isStmt
      (s := { s with vars := s.vars.enter }) (Γ := Γ.enter) hs hstep.enter (0 :: π)
      (Pass.inside_ok_iff.mp hi)
    obtain ⟨rfl, htb, htt, htf⟩ :=
      expr_typed hg₁.sound hi₁ htest (condition_ok (Pass.inside_ok_iff.mp ht))
    obtain ⟨hg₂, hi₂, hf₂, hb₂, hc₂, hm₂⟩ := stmt_annotated hstep'.isStmt hg₁.sound hi₁ (2 :: π)
      (Pass.inside_ok_iff.mp hst)
    obtain ⟨hg₃, hi₃, hf₃, hb₃, hc₃, hm₃⟩ := BodyAnnotated.of_scope hg₂.sound hi₂
        (fun hs hi => stmts_annotated hbody hs hi (3 :: π) 0) (Pass.inside_ok_iff.mp hbd)
    obtain ⟨rfl, rfl⟩ := Pass.pure_ok_iff.mp hrun
    have hout : InStep s₄.ctx s₄.vars.leave Γ := by
      have hleave := hi₃.leave
      rw [Environment.leave_after _ (by rw [Environment.atModule_after]; rfl),
        Environment.leave_after _ rfl] at hleave
      exact hleave
    refine ⟨⟨hg₃.sound, (hg₁.extends_.trans hg₂.extends_).trans hg₃.extends_,
        hg₃.funcs.trans (hg₂.funcs.trans hg₁.funcs)⟩, hout,
      hf₃.trans (hf₂.trans hf₁),
      by simp only [Node.bare, htb, hb₁, hb₂, hb₃, Mark.bare_typed], fun F hF => ?_, fun F hF => ?_⟩
    · have hF₂ := hg₃.extends_.trans hF
      have hF₁ := hg₂.extends_.trans hF₂
      refine ⟨hc₁ F hF₁, htt F hF₁, ?_, ?_⟩
      · have := hc₂ F hF₂
        rw [hf₁] at this
        exact this
      · have := hc₃ F hF
        rw [hf₂, hf₁] at this
        exact this
    · have hF₂ := hg₃.extends_.trans hF
      have hF₁ := hg₂.extends_.trans hF₂
      refine ⟨rfl, hm₁ F hF₁, htf F hF₁, ?_, ?_⟩
      · have := hm₂ F hF₂
        rw [hf₁] at this
        exact this
      · have := hm₃ F hF
        rw [hf₂, hf₁] at this
        exact this
  | print m x =>
    simp only [stmt, Pass.bind_ok_iff] at h
    obtain ⟨⟨x', xt⟩, _, hx, h⟩ := h
    obtain ⟨rfl, hbare, htyped, hflags⟩ := expr_typed (n := x) hs hstep hn (Pass.inside_ok_iff.mp hx)
    split at h
    · rename_i hscalar
      obtain ⟨rfl, rfl⟩ := Pass.pure_ok_iff.mp h
      exact ⟨.refl hs, hstep, rfl, by simp only [Node.bare, hbare, Mark.bare_typed],
        fun F hF => ⟨xt, htyped F hF, hscalar⟩, fun F hF => ⟨rfl, hflags F hF⟩⟩
    · simp at h
  | exprStmt m x =>
    simp only [stmt, Pass.bind_ok_iff] at h
    obtain ⟨⟨x', xt⟩, _, hx, h⟩ := h
    obtain ⟨rfl, hbare, htyped, hflags⟩ := expr_typed (n := x) hs hstep hn (Pass.inside_ok_iff.mp hx)
    obtain ⟨rfl, rfl⟩ := Pass.pure_ok_iff.mp h
    exact ⟨.refl hs, hstep, rfl, by simp only [Node.bare, hbare, Mark.bare_typed],
      fun F hF => ⟨xt, htyped F hF⟩, fun F hF => ⟨(htyped F hF).type_eq.symm, hflags F hF⟩⟩
  | _ => exact hn.elim
termination_by structural n

theorem stmts_annotated {ns : List Node} (hn : Node.AllStmt ns) {s u : State} {Γ : Environment}
    (hs : s.ctx.Sound) (hstep : InStep s.ctx s.vars Γ) {ns' : List Node} (π : Path) (i : Nat)
    (h : (stmts ns).run s = (.ok ns', u)) : AllAnnotated π i Γ ns ns' s u := by
  cases ns with
  | nil =>
    obtain ⟨rfl, rfl⟩ := Pass.pure_ok_iff.mp h
    exact ⟨.refl hs, hstep, rfl, rfl, fun _ _ => trivial, fun _ _ => trivial⟩
  | cons n rest =>
    simp only [stmts, Pass.bind_ok_iff] at h
    obtain ⟨n', _, hn', rest', _, hrest, h⟩ := h
    obtain ⟨hg₁, hi₁, hf₁, hb₁, hc₁, hm₁⟩ :=
      stmt_annotated hn.1 hs hstep (i :: π) (Pass.inside_ok_iff.mp hn')
    obtain ⟨hg₂, hi₂, hf₂, hb₂, hc₂, hm₂⟩ :=
      stmts_annotated hn.2 hg₁.sound hi₁ π (i + 1) (Pass.inside_ok_iff.mp hrest)
    obtain ⟨rfl, rfl⟩ := Pass.pure_ok_iff.mp h
    exact ⟨hg₁.trans hg₂, hi₂, hf₂.trans hf₁, by simp only [Node.bareAll, hb₁, hb₂],
      fun F hF => ⟨hc₁ F (hg₂.extends_.trans hF), hf₁ ▸ hc₂ F hF⟩,
      fun F hF => ⟨hm₁ F (hg₂.extends_.trans hF), hf₁ ▸ hm₂ F hF⟩⟩
termination_by structural ns

end

end Augite.Analysis
