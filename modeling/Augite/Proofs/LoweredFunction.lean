import Augite.Proofs.LoweredControl

/-!
# Lowering of functions

A function is lowered into blocks of its own, the first of which takes the parameters into
stack slots. All its blocks are terminated in the end, and the blocks of other functions are
as they were.
-/

namespace Augite.Lowering

open State Typing

section

variable {F : Context} {Γ : Environment} {s : State} {func : Nat} {sig : Option Signature}

theorem grows_begun (s : State) (func : Nat) (sig : Option Signature) : s.Grows (s.begun func sig) :=
  (grows_opened s func .entry).trans (.of_arena rfl rfl List.prefix_rfl List.prefix_rfl rfl)

/-- A function none of whose blocks is there yet is begun. -/
theorem begun_good (hs : s.Sound) (hnew : ∀ b d, s.draft? b = some d → d.func ≠ func)
    (sig : Option Signature) : (s.begun func sig).Good := by
  have hsound : (s.begun func sig).Sound :=
    (hs.opened (grows_opened s func .entry)).congr rfl
      (.of_arena rfl rfl List.prefix_rfl List.prefix_rfl rfl)
  have hfirst : (s.begun func sig).draft? s.arena.length = some { func, role := .entry } := by
    rw [draft?_begun, if_pos rfl]
  refine ⟨hsound, ⟨_, hfirst, rfl⟩, ⟨_, hfirst, rfl, rfl⟩, fun c d hc hd => ?_⟩
  change c < s.arena.length at hc
  rw [draft?_begun, if_neg (by omega)] at hd
  exact hnew c d hd

/-! ### Parameters -/

/-- The innermost scope declares none of the names. -/
theorem fresh_push {name other : Text} {d : Declaration} (h : Γ.Fresh other) (hne : other ≠ name) :
    Environment.Fresh (Γ.push name d) other := by
  unfold Environment.Fresh at h ⊢
  rw [Scopes.current_push, Frame.lookup_cons, if_neg hne]
  exact h

theorem parameters_lowered {fn : Option Signature} {ps : List Param} {i : Nat} {π : Path}
    (htypes : ∀ p ∈ ps, p.type.InUse F) (hnodup : (ps.map Param.name).Nodup)
    (hfresh : ∀ p ∈ ps, Γ.Fresh p.name) (hlocal : Γ.atModule = false) (hs : Stands F fn Γ s)
    (hopen : s.done = false) {h : IR.Func}
    (hhead : s.heads[s.body.func]? = some h)
    (hparams : ∀ j p, ps[j]? = some p → ∃ q, h.params[i + j]? = some q ∧ q.2 = p.type.ir) :
    ∃ u, (Emit.parameters s.body.func i ps).run s = (.ok (), u) ∧
      Lowered F s u (Γ.withParams π i ps) false 0 := by
  induction ps generalizing Γ s i with
  | nil => exact ⟨s, rfl, (Neutral.refl hs.good hs.stocked).lowered hs.linked⟩
  | cons p ps ih =>
    have hlink := hs.linked
    have ht := htypes p (by simp)
    obtain ⟨q, hq, hqt⟩ := hparams 0 p rfl
    rw [Nat.add_zero] at hq
    have hnone := (hlink.slots.current_none p.name).mp (hfresh p (by simp))
    have hp := reserved_provides (hs.ready hopen) hlink hlocal p.name ht (i :: π) true
    have hlow := Lowered.of_provides (e := ⟨i :: π, p.type⟩) hlink hp
    set place := (s.nextInst (.alloca (s.slotName p.name) p.type.ir)).value with hplace
    set r := (s.reserved p.name p.type.ir).bound
      { name := p.name, storage := place, type := p.type, isParam := true } with hr
    have hvalue : r.Usable (.param s.body.func i p.type.ir) :=
      ⟨⟨rfl, h, q, hhead, hq, hqt⟩, ht.ir_ne_void⟩
    obtain ⟨hstore, hready⟩ := store_neutral hp.ready hvalue hp.usable hp.type
    have hone := hlow.trans (d := false) (hstore.lowered hp.linked)
    rw [List.map_cons, List.nodup_cons] at hnodup
    obtain ⟨u, hrun, hrest⟩ := ih (s := r.emitted (.store (.param s.body.func i p.type.ir) place))
      (fun q hq => htypes q (List.mem_cons_of_mem _ hq)) hnodup.2
      (fun q hq => by
        have hne : q.name ≠ p.name := fun heq => hnodup.1 (List.mem_map.mpr ⟨q, hq, heq⟩)
        exact fresh_push (hfresh q (List.mem_cons_of_mem _ hq)) hne)
      (by rw [Scopes.atModule_push, hlocal]) (hone.stands hs) hready.open_ hhead
      (fun j q hq => by
        obtain ⟨q', hq', hqt'⟩ := hparams (j + 1) q hq
        exact ⟨q', by rw [Nat.add_assoc, Nat.add_comm 1 j]; exact hq', hqt'⟩)
    refine ⟨u, ?_, hone.trans hrest⟩
    rw [Emit.parameters, Pass.run_bind_of_ok (typeOf_run hs.stocked (.inl ht)),
      Pass.run_bind_of_ok (Emit.run_stackSlot s p.name p.type.ir),
      Pass.run_bind_of_ok (Emit.run_effect _ _), Pass.run_bind_of_ok (bind_run ?_)]
    · exact hrun
    · exact hnone

/-! ### Functions -/

/-- A function whose end is not reached unless it returns nothing is finished. -/
theorem finish_neutral {sig : Signature} (hs : Stands F (some sig) Γ s)
    (hend : sig.result ≠ .void → s.done = true) (pos : Position) (name : Text) :
    ∃ u, (Emit.finish pos name sig.result).run s = (.ok (), u) ∧ Neutral F s u 0 := by
  cases hdone : s.done with
  | true =>
    refine ⟨s, ?_, .refl hs.good hs.stocked⟩
    simp only [Emit.finish, Pass.run_bind, Pass.run_state, hdone, if_true]
    rfl
  | false =>
    have hvoid : sig.result = .void := by
      by_contra hne
      rw [hend hne] at hdone
      cases hdone
    obtain ⟨u, hrun, hu⟩ := return_neutral (hs.ready hdone) hs.inFunction hvoid pos
    refine ⟨u, ?_, hu⟩
    simp only [Emit.finish, Emit.returnFrom, Pass.run_bind, Pass.run_state, hdone, hvoid, if_true,
      hs.inFunction.sig] at hrun ⊢
    exact hrun

/-- Only variables of the module are visible: they are so in every function. -/
theorem Linked.ofModule {u : State} (h : Linked F Γ s) (hmod : Γ.atModule = true) (hg : s.Grows u)
    (hslots : u.slots = s.slots) (hglobals : u.globalSlots = s.globalSlots) : Linked F Γ u := by
  obtain ⟨hframes, hmodule⟩ := h.slots
  have hnil : Γ.inner = [] := by simpa [Scopes.atModule] using hmod
  refine ⟨⟨?_, ?_⟩, by rw [hglobals, hslots]; exact h.globals⟩
  · rw [hnil, List.forall₂_nil_left_iff] at hframes
    rw [hnil, hslots, hframes]
    exact .nil
  · rw [hslots]
    refine hmodule.imp fun d slot hd => ⟨hd.type, hd.inUse, hd.storage, ?_⟩
    obtain ⟨i, hi⟩ := hd.storage
    have hav := hd.available
    rw [hi] at hav ⊢
    obtain ⟨g, hget, htype⟩ := hav
    exact ⟨g, getElem?_of_prefix hg.globals hget, htype⟩

/-- The entry point goes on behind a function that has been lowered. -/
theorem resumed_stands {u : State} {k : Nat} (hs : Stands F none Γ s)
    (hu : Neutral F (s.begun func sig) u k) (e : Event) : Stands F none Γ (s.resumed u e) := by
  have hp := hu.proceeds
  have hg : s.Grows u := (grows_begun s func sig).trans hp.grows
  have hgv : u.Grows (s.resumed u e) := .of_arena rfl rfl List.prefix_rfl List.prefix_rfl rfl
  have hseated : (s.resumed u e).Seated := by
    obtain ⟨⟨d, hd, hdf⟩, ⟨d', hd', hdf', hslots⟩, hfirst⟩ := hs.good.seated
    have hlt := lt_of_draft? hd'
    refine ⟨?_, ?_, fun c x hc hx => ?_⟩
    · obtain ⟨x, hx, hdx⟩ := hg.drafts _ d hd
      exact ⟨x, hx, hdx.func.trans hdf⟩
    · obtain ⟨x, hx, hdx⟩ := hg.drafts _ d' hd'
      have hlen : (s.begun func sig).arena.length = s.arena.length + 1 := by
        simp [State.begun, State.opened]
      have hallocas := hp.allocas s.body.entry (by omega)
        (by change s.body.entry ≠ s.arena.length; omega)
      rw [allocas?, allocas?, draft?_begun, if_neg (by omega), hx, hd'] at hallocas
      exact ⟨x, hx, hdx.func.trans hdf', by rw [Option.some.inj hallocas]; exact hslots⟩
    · change c < s.body.entry at hc
      obtain ⟨y, hy⟩ : ∃ y, s.draft? c = some y := ⟨_, List.getElem?_eq_getElem (by omega)⟩
      obtain ⟨x', hx', hyx⟩ := hg.drafts c y hy
      obtain rfl : x = x' := Option.some.inj (hx.symm.trans hx')
      rw [hyx.func]
      exact hfirst c y hc hy
  exact ⟨⟨hp.good.sound.congr rfl hgv, hseated⟩,
    hp.stocked.congr rfl rfl rfl rfl rfl rfl rfl List.prefix_rfl,
    hs.linked.mono (hg.trans hgv) hu.slots hu.globalSlots rfl,
    hs.inFunction.mono (hg.trans hgv) rfl rfl⟩

/-- A function that is annotated rightly is lowered. -/
theorem function_lowered (hF : F.Sound) {m : Mark} {name : Text} {params : List Param} {result : Ty}
    {body : List Node} {π : Path} (hshape : Node.AllStmt body)
    (h : CheckedFunction F π Γ name params result body) (ho : Node.allOrderly body = true)
    (hs : Stands F none Γ s) (hlevel : Γ.atModule = true) (hm : s.Mapped ∅)
    (hnew : ∀ b x, s.outline b ≠ some (s.funcOf name, x)) :
    ∃ n' u e, (function m name params result body).run s =
        (.ok n', { u with ctx := u.ctx.record e }) ∧
      Neutral F (s.begun (s.funcOf name) (some ⟨name, params.map Param.type, result⟩)) u
        (Node.stmtsWidenings F result body) := by
  set sig : Signature := ⟨name, params.map Param.type, result⟩ with hsig
  obtain ⟨func, head, hlookup, hhead, hparams, hresult, -⟩ := hs.stocked.functions name sig h.entered
  have hfunc : s.funcOf name = func := by
    rw [State.funcOf, hlookup]
    rfl
  have hfuncs : s.ctx.funcs.lookup? name = some sig := by rw [hs.stocked.funcs, h.entered]
  set b₀ := s.begun (s.funcOf name) (some sig) with hb₀
  have hg := grows_begun s (s.funcOf name) (some sig)
  have hgood : b₀.Good := begun_good hs.good.sound
    (fun b d hd hf => hnew b d.term (outline_eq_some_iff.mpr ⟨d, hd, hf, rfl⟩)) (some sig)
  have hs₀ : Stands F (some sig) Γ b₀ :=
    ⟨hgood, hs.stocked.congr rfl rfl rfl rfl rfl rfl rfl List.prefix_rfl,
      hs.linked.ofModule hlevel hg rfl rfl, rfl, head, by rw [← hfunc] at hhead; exact hhead, hresult⟩
  have hopen : b₀.entered.done = false := by
    refine (done_eq_false_iff_outline (s := b₀.entered) (f := s.funcOf name) ?_).mpr rfl
    exact (congrFun (outline_opened s _ .entry) _).trans (Function.update_self ..)
  have hparams' : ∀ j p, params[j]? = some p →
      ∃ q, head.params[0 + j]? = some q ∧ q.2 = p.type.ir := by
    intro j p hp
    have hj : (head.params.map Prod.snd)[j]? = some p.type.ir := by
      rw [hparams, List.map_map, List.getElem?_map, hp]
      rfl
    rw [List.getElem?_map, Option.map_eq_some_iff] at hj
    rw [Nat.zero_add]
    exact hj
  have hfresh : ∀ p ∈ params, Environment.Fresh Γ.enter p.name := fun _ _ => rfl
  obtain ⟨s₁, hrun₁, hlow₁⟩ : ∃ s₁,
      (Emit.parameters (s.funcOf name) 0 params).run b₀.entered = (.ok (), s₁) ∧
      Lowered F b₀.entered s₁ (Environment.withParams Γ.enter (0 :: π) 0 params) false 0 :=
    parameters_lowered (s := b₀.entered) (hF.params_of_lookup h.entered) h.distinct hfresh rfl
      hs₀.entered hopen (by rw [← hfunc] at hhead; exact hhead) hparams'
  have hahead := (parameters_passage hm hnew hrun₁).ahead
  obtain ⟨body', s₂, hrun₂, hlow₂⟩ := stmts_lowered hF hshape h.checked ho (hlow₁.stands hs₀.entered)
    hahead
  have hpass := stmts_passage hshape hahead.mapped hahead.isOpen hrun₂
  have hbody := (hlow₁.trans hlow₂).neutral
  rw [Nat.zero_add] at hbody
  obtain ⟨u, hrun₃, hu⟩ := finish_neutral (hbody.stands hs₀)
    (fun hne => hpass.done.trans (h.returns hne)) m.pos name
  refine ⟨_, u, _, (function_ok_iff hshape hm hnew).mpr ⟨s₁, body', s₂, u, ?_,
    (stmts_lowers hshape hahead hrun₂).2, hrun₃, rfl, rfl⟩, hbody.trans hu⟩
  rw [hfuncs]
  exact hrun₁

/-! ### Items -/

mutual

/-- Nothing returns outside a function. -/
theorem returns_of_checked {n : Node} {π : Path} {Γ : Environment} (h : Checked F none π Γ n) :
    n.returns = false := by
  cases n with
  | ret m value =>
    cases value with
    | none =>
      obtain ⟨_, hfn, _⟩ := h
      cases hfn
    | some x =>
      obtain ⟨_, _, hfn, _⟩ := h
      cases hfn
  | branch m merge test yes no =>
    cases no with
    | none => rfl
    | some no =>
      obtain ⟨-, hyes, -⟩ := h
      rw [Node.returns, alwaysReturns_of_checked hyes]
      rfl
  | _ => rfl
termination_by structural n

theorem alwaysReturns_of_checked {ns : List Node} {π : Path} {i : Nat} {Γ : Environment}
    (h : AllChecked F none π i Γ ns) : Node.alwaysReturns ns = false := by
  cases ns with
  | nil => rfl
  | cons n rest =>
    rw [Node.alwaysReturns, returns_of_checked h.1, alwaysReturns_of_checked h.2]
    rfl
termination_by structural ns

end

theorem checkedItems_cons {n : Node} {rest : List Node} {i : Nat} (hn : n.NotFunction)
    (h : CheckedItems F i Γ (n :: rest)) :
    Checked F none [i] Γ n ∧ CheckedItems F (i + 1) (Γ.after [i] n) rest := by
  cases n with
  | funcDef m name params result body => exact absurd rfl (hn m name params result body)
  | _ => exact h

/-- Nothing returns from a program but its functions. -/
theorem returns_of_checkedItems {ns : List Node} {i : Nat} (h : CheckedItems F i Γ ns) : ∀ n ∈ ns, n.returns = false := by
  induction ns generalizing i Γ with
  | nil => exact nofun
  | cons n rest ih =>
    rcases n.function_or with ⟨m, name, params, result, body, rfl⟩ | hnot
    · exact List.forall_mem_cons.mpr ⟨rfl, ih h.2⟩
    · obtain ⟨hn, hrest⟩ := checkedItems_cons hnot h
      exact List.forall_mem_cons.mpr ⟨returns_of_checked hn, ih hrest⟩

/-- The items of a program that are annotated rightly are lowered. -/
theorem items_lowered (hF : F.Sound) {ns : List Node} {i : Nat} (hshape : ∀ n ∈ ns, n.IsItem)
    (hn : CheckedItems F i Γ ns) (ho : Node.allOrderly ns = true)
    (hnodup : (Node.functionNames ns).Nodup) (hs : Stands F none Γ s) (hlevel : Γ.atModule = true)
    (hopen : s.done = false) (hpaced : s.Paced (Node.functionNames ns)) :
    ∃ ns' u, (items ns).run s = (.ok ns', u) ∧ Stands F none (Γ.afterAll [] i ns) u ∧
      u.done = false ∧ u.Paced [] ∧ u.conversions = s.conversions + Node.itemsWidenings F ns := by
  induction ns generalizing i Γ s with
  | nil => exact ⟨[], s, rfl, hs, hopen, hpaced, rfl⟩
  | cons n rest ih =>
    have hshape' := fun k hk => hshape k (List.mem_cons_of_mem _ hk)
    obtain ⟨hon, horest⟩ := Bool.and_eq_true_iff.mp ho
    rcases n.function_or with ⟨m, name, params, result, body, rfl⟩ | hnot
    · obtain ⟨hfn, hrest⟩ := hn
      have hbody : Node.AllStmt body :=
        (hshape (.funcDef m name params result body) (by simp)).2.2
      rw [Node.functionNames] at hnodup hpaced
      obtain ⟨n', u, e, hrun, hu⟩ := function_lowered hF (m := m) hbody hfn hon hs hlevel
        hpaced.mapped (hpaced.awaits name List.mem_cons_self)
      have hpaced' := hpaced.function hnodup hbody hrun
      have hspans := function_spans hbody hpaced.mapped (hpaced.awaits name List.mem_cons_self) hrun
      have hopen' : (s.resumed u e).done = false := (hspans.done hpaced.mapped).trans hopen
      obtain ⟨rest', w, hrun', hw, hdone, hlast, hcount⟩ := ih hshape' hrest horest
        (List.nodup_cons.mp hnodup).2 (resumed_stands hs hu e) hlevel hopen' hpaced'
      refine ⟨n' :: rest', w, items_func_run hrun hrun', hw, hdone, hlast, ?_⟩
      have hbegun : (s.begun (s.funcOf name) (some ⟨name, params.map Param.type, result⟩)).conversions =
          s.conversions := by
        simp [State.begun, State.opened, State.conversions, conversionsIn]
      have hres : (s.resumed u e).conversions = u.conversions := rfl
      rw [hcount, hres, hu.count, hbegun, Node.itemsWidenings, Nat.add_assoc]
    · obtain ⟨hnc, hrest⟩ := checkedItems_cons hnot hn
      rw [Node.functionNames.eq_3 _ _ hnot] at hnodup hpaced
      have hahead := hpaced.mapped.ahead hopen
      -- Behind the item control goes on in the entry point.
      obtain ⟨n', t, hrun, hlow, hopen', hpaced'⟩ : ∃ n' t, (stmt n).run s = (.ok n', t) ∧
          Lowered F s t (Γ.after [i] n) false (n.stmtWidenings F .void) ∧ t.done = false ∧
          t.Paced (Node.functionNames rest) := by
        rcases isInert_or_isStmt (hshape n (by simp)) hnot with hinert | hstmt
        · refine ⟨n, s, inert_run hinert s, ?_, hopen, hpaced⟩
          cases n with
          | includeLib | classDecl => exact (Neutral.refl hs.good hs.stocked).lowered hs.linked
          | _ => exact hinert.elim
        · obtain ⟨n', t, hrun, hlow⟩ := stmt_lowered hF hstmt hnc hon hs hahead
          have hpass := (stmt_lowers hstmt hahead hrun).1
          rw [returns_of_checked hnc] at hlow hpass
          exact ⟨n', t, hrun, hlow, hpass.done, hpaced.onward hpass.toOnward⟩
      obtain ⟨rest', u, hrun', hu, hdone, hlast, hcount⟩ := ih hshape' hrest horest hnodup
        (hlow.stands hs) (by rw [Environment.atModule_after, hlevel]) hopen' hpaced'
      refine ⟨n' :: rest', u, items_stmt_run hnot hopen hrun hrun', hu, hdone, hlast, ?_⟩
      rw [hcount, hlow.count, Node.itemsWidenings.eq_3 _ _ _ hnot, Nat.add_assoc]

end

end Augite.Lowering
