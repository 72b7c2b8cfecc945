import Augite.Proofs.LoweredFunction

/-!
# Lowering of programs

A program that is annotated rightly is lowered: the structures of its classes are made and
its functions are entered before any code is emitted, and in the end no block is left open.
-/

namespace Augite

/-- The function of the module that a function of the program becomes, without its blocks. -/
def Node.head? : Node → Option IR.Func
  | .funcDef _ name params result _ =>
    some { name, params := params.map fun p => (p.name, p.type.ir), result := result.ir }
  | _ => none

namespace Lowering

open State Typing

/-! ### Structures -/

theorem structType_run {d : ClassDef} (hd : d.Sound) (s : State) :
    (Emit.structType d).run s = (.ok (), { s with structs := s.structs ++ [d.ir] }) := by
  have hfields : ∀ fs : List Param,
      (∀ f ∈ fs, ∃ k : Kind, k.isScalar = true ∧ f.type = .scalar k) →
      (fs.mapM fun f => Emit.typeOf f.type).run s = (.ok (fs.map fun f => f.type.ir), s) := by
    intro fs
    induction fs with
    | nil => exact fun _ => rfl
    | cons f fs ih =>
      intro h
      obtain ⟨k, hk, htype⟩ := h f (by simp)
      have hf : (Emit.typeOf f.type).run s = (.ok f.type.ir, s) := by
        rw [htype]
        cases k <;> cases hk <;> rfl
      rw [List.mapM_cons, Pass.run_bind_of_ok hf,
        Pass.run_bind_of_ok (ih fun g hg => h g (List.mem_cons_of_mem _ hg))]
      rfl
  unfold Emit.structType
  rw [Pass.run_bind_of_ok (hfields d.fields hd.scalar)]
  rfl

theorem structTypes_run {ds : List ClassDef} (hds : ∀ d ∈ ds, d.Sound) (s : State) :
    (ds.forM Emit.structType).run s = (.ok (), { s with structs := s.structs ++ ds.map ClassDef.ir }) := by
  induction ds generalizing s with
  | nil =>
    change (Except.ok (), s) = _
    simp
  | cons d ds ih =>
    rw [Pass.forM_cons_ok_iff]
    refine ⟨_, structType_run (hds d (by simp)) s, ?_⟩
    rw [ih fun e he => hds e (List.mem_cons_of_mem _ he)]
    simp

/-! ### Functions -/

/-- One function of the program more. -/
def State.withFunction (s : State) (head : IR.Func) : State :=
  { s.withHead head with functions := (head.name, .func s.heads.length head.type) :: s.functions }

section

variable {F : Context} {s : State}

theorem header_run (hstructs : s.structs = F.classes.map ClassDef.ir) (name : Text)
    {params : List Param} {result : Ty} (hparams : ∀ p ∈ params, p.type.InUse F)
    (hresult : result.InUse F ∨ result = .void) :
    (Emit.header name params result).run s = (.ok (), s.withFunction
      { name, params := params.map fun p => (p.name, p.type.ir), result := result.ir }) := by
  have hps : ∀ ps : List Param, (∀ p ∈ ps, p.type.InUse F) →
      (ps.mapM fun p => do return (p.name, ← Emit.typeOf p.type) : Emit _).run s =
        (.ok (ps.map fun p => (p.name, p.type.ir)), s) := by
    intro ps
    induction ps with
    | nil => exact fun _ => rfl
    | cons p ps ih =>
      intro h
      have hp : (do return (p.name, ← Emit.typeOf p.type) : Emit _).run s =
          (.ok (p.name, p.type.ir), s) := by
        rw [Pass.run_bind_of_ok (typeOf_run_of_structs hstructs (.inl (h p (by simp))))]
        rfl
      rw [List.mapM_cons, Pass.run_bind_of_ok hp,
        Pass.run_bind_of_ok (ih fun q hq => h q (List.mem_cons_of_mem _ hq))]
      rfl
  unfold Emit.header
  rw [Pass.run_bind_of_ok (hps params hparams),
    Pass.run_bind_of_ok (typeOf_run_of_structs hstructs hresult)]
  rfl

theorem headers_run {Γ : Environment} (hF : F.Sound) {ns : List Node} {i : Nat}
    (hn : CheckedItems F i Γ ns) (hstructs : s.structs = F.classes.map ClassDef.ir) :
    (Emit.headers ns).run s = (.ok (), (ns.filterMap Node.head?).foldl State.withFunction s) := by
  induction ns generalizing i Γ s with
  | nil => rfl
  | cons n rest ih =>
    rcases n.function_or with ⟨m, name, params, result, body, rfl⟩ | hnot
    · have hentered := hn.1.entered
      have hrun := header_run hstructs name (hF.params_of_lookup hentered)
        (hF.results _ (FuncTable.mem_of_lookup? hentered).1)
      rw [Emit.headers, Pass.run_bind_of_ok hrun]
      exact ih hn.2 hstructs
    · have hnone : n.head? = none := by
        cases n with
        | funcDef m name params result body => exact absurd rfl (hnot m name params result body)
        | _ => rfl
      rw [Emit.headers.eq_3 _ _ hnot, ih (checkedItems_cons hnot hn).2 hstructs,
        List.filterMap_cons_none hnone]

/-- Functions are entered in order, and nothing else changes. -/
theorem withFunctions_eq (hs : List IR.Func) (s : State) :
    hs.foldl State.withFunction s =
      { s with
        heads := s.heads ++ hs
        functions := (hs.foldl State.withFunction s).functions } := by
  induction hs generalizing s with
  | nil => simp
  | cons h hs ih =>
    rw [List.foldl_cons, ih]
    simp [State.withFunction, State.withHead]

theorem lookup_withFunctions_of_not_mem {hs : List IR.Func} {name : Text}
    (h : name ∉ hs.map IR.Func.name) (s : State) :
    (hs.foldl State.withFunction s).functions.lookup name = s.functions.lookup name := by
  induction hs generalizing s with
  | nil => rfl
  | cons g hs ih =>
    rw [List.map_cons, List.mem_cons, not_or] at h
    rw [List.foldl_cons, ih h.2]
    exact (Frame.lookup_cons name g.name _ _).trans (if_neg h.1)

theorem lookup_withFunctions {hs : List IR.Func} (hnodup : (hs.map IR.Func.name).Nodup) {j : Nat}
    {h : IR.Func} (hj : hs[j]? = some h) (s : State) :
    (hs.foldl State.withFunction s).functions.lookup h.name =
      some (.func (s.heads.length + j) h.type) := by
  induction hs generalizing s j with
  | nil => cases hj
  | cons g hs ih =>
    rw [List.map_cons, List.nodup_cons] at hnodup
    rw [List.foldl_cons]
    cases j with
    | zero =>
      cases hj
      rw [lookup_withFunctions_of_not_mem hnodup.1]
      exact (Frame.lookup_cons h.name h.name _ _).trans (if_pos rfl)
    | succ j =>
      rw [ih hnodup.2 hj]
      simp [State.withFunction, State.withHead]
      omega

theorem map_name_heads (ns : List Node) :
    (ns.filterMap Node.head?).map IR.Func.name = Node.functionNames ns := by
  induction ns with
  | nil => rfl
  | cons n rest ih =>
    cases n with
    | funcDef m name params result body =>
      rw [Node.functionNames, ← ih]
      rfl
    | _ => exact ih

/-- The functions of the module have the types of those of the program. -/
theorem heads_of_checked {Γ : Environment} {ns : List Node} {i : Nat} (hn : CheckedItems F i Γ ns)
    {h : IR.Func} (hh : h ∈ ns.filterMap Node.head?) :
    ∃ sig, F.funcs.lookup? h.name = some sig ∧ h.params.map Prod.snd = sig.params.map Ty.ir ∧
      h.result = sig.result.ir ∧ h.variadic = false := by
  induction ns generalizing i Γ with
  | nil => cases hh
  | cons n rest ih =>
    rcases n.function_or with ⟨m, name, params, result, body, rfl⟩ | hnot
    · rcases List.mem_cons.mp hh with rfl | hh
      · refine ⟨_, hn.1.entered, ?_, rfl, rfl⟩
        simp [Function.comp_def]
      · exact ih hn.2 hh
    · have hnone : n.head? = none := by
        cases n with
        | funcDef m name params result body => exact absurd rfl (hnot m name params result body)
        | _ => rfl
      rw [List.filterMap_cons_none hnone] at hh
      exact ih (checkedItems_cons hnot hn).2 hh

/-- The entry point, without its blocks. -/
def mainHead : IR.Func := { name := "main", params := [], result := .i32 }

/-- The state in which the items of a program are lowered. -/
def startState (F : Context) (ns : List Node) : State :=
  (((ns.filterMap Node.head?).foldl State.withFunction
    { ctx := F, structs := F.classes.map ClassDef.ir }).withHead mainHead).begun
      (ns.filterMap Node.head?).length none

/-- What the start is made of, but for the table of functions. -/
theorem startState_eq (F : Context) (ns : List Node) :
    startState F ns =
      { ctx := F
        structs := F.classes.map ClassDef.ir
        heads := ns.filterMap Node.head? ++ [mainHead]
        functions := (startState F ns).functions
        arena := [{ func := (ns.filterMap Node.head?).length, role := .entry }]
        body := { func := (ns.filterMap Node.head?).length, sig := none, entry := 0, cur := 0 } } := by
  unfold startState
  rw [withFunctions_eq]
  simp [State.begun, State.opened, State.withHead]

theorem startState_functions {ns : List Node} (hnodup : (Node.functionNames ns).Nodup) {j : Nat}
    {h : IR.Func} (hj : (ns.filterMap Node.head?)[j]? = some h) :
    (startState F ns).functions.lookup h.name = some (.func j h.type) := by
  have hlookup := lookup_withFunctions (by rw [map_name_heads]; exact hnodup) hj
    { ctx := F, structs := F.classes.map ClassDef.ir }
  simpa [startState, State.begun, State.opened, State.withHead] using hlookup

theorem startState_stocked {Γ : Environment} (hF : F.Sound) {ns : List Node} {i : Nat}
    (hnames : F.funcs.names = Node.functionNames ns) (hn : CheckedItems F i Γ ns) :
    Stocked F (startState F ns) := by
  have hnodup : (Node.functionNames ns).Nodup := hnames ▸ hF.names
  have hfuncs : ∀ name sig, F.funcs.lookup? name = some sig → ∃ i h,
      (startState F ns).functions.lookup name = some (.func i h.type) ∧
      (ns.filterMap Node.head? ++ [mainHead])[i]? = some h ∧
      h.params.map Prod.snd = sig.params.map Ty.ir ∧ h.result = sig.result.ir ∧
      h.variadic = false ∧ h.name = name := by
    intro name sig hsig
    have hmem : name ∈ (ns.filterMap Node.head?).map IR.Func.name := by
      rw [map_name_heads, ← hnames]
      exact List.mem_map.mpr ⟨sig, FuncTable.mem_of_lookup? hsig⟩
    obtain ⟨h, hh, rfl⟩ := List.mem_map.mp hmem
    obtain ⟨j, hj⟩ := List.mem_iff_getElem?.mp hh
    obtain ⟨sig', hsig', hparams, hresult, hvar⟩ := heads_of_checked hn hh
    rw [hsig] at hsig'
    cases hsig'
    exact ⟨j, h, startState_functions hnodup hj, getElem?_of_prefix (List.prefix_append _ _) hj,
      hparams, hresult, hvar, rfl⟩
  have hfree : ∀ h ∈ ns.filterMap Node.head?, Signature.isReserved h.name = false := by
    intro h hh
    obtain ⟨sig, hsig, -⟩ := heads_of_checked hn hh
    obtain ⟨hmem, hname⟩ := FuncTable.mem_of_lookup? hsig
    rw [← hname]
    exact hF.free sig hmem
  rw [startState_eq]
  refine ⟨rfl, rfl, rfl, hfuncs, nofun, nofun, ?_, ?_⟩
  · change ((ns.filterMap Node.head? ++ [mainHead]).map IR.Func.name).Nodup
    rw [List.map_append, map_name_heads, List.nodup_append]
    refine ⟨hnodup, List.nodup_singleton _, ?_⟩
    intro a ha b hb hab
    rw [← map_name_heads] at ha
    obtain ⟨h, hh, rfl⟩ := List.mem_map.mp ha
    cases List.mem_singleton.mp hb
    have := hfree h hh
    rw [hab] at this
    revert this
    decide
  · intro h hh
    rcases List.mem_append.mp hh with hh | hh
    · exact .inl (hfree h hh)
    · cases List.mem_singleton.mp hh
      exact .inr (.inl rfl)

theorem draft?_ne_some {s : State} (h : s.arena = []) (b : Nat) (d : Draft) :
    s.draft? b ≠ some d := by
  rw [draft?, h, List.getElem?_nil]
  exact (Option.some_ne_none d).symm

theorem sound_of_arena_nil {s : State} (h : s.arena = []) : s.Sound where
  nodup b d hd := absurd hd (draft?_ne_some h b d)
  apart b _ d _ hd := absurd hd (draft?_ne_some h b d)
  below b d hd := absurd hd (draft?_ne_some h b d)
  layout b d hd := absurd hd (draft?_ne_some h b d)
  homes b d hd := absurd hd (draft?_ne_some h b d)
  insts b d hd := absurd hd (draft?_ne_some h b d)
  terms b d hd := absurd hd (draft?_ne_some h b d)

theorem startState_good (F : Context) (ns : List Node) : (startState F ns).Good := by
  have harena : (((ns.filterMap Node.head?).foldl State.withFunction
      { ctx := F, structs := F.classes.map ClassDef.ir }).withHead mainHead).arena = [] := by
    rw [withFunctions_eq]
    rfl
  exact begun_good (sound_of_arena_nil harena)
    (fun b d hd => absurd hd (draft?_ne_some harena b d)) none

theorem startState_stands (hF : F.Sound) {ns : List Node}
    (hnames : F.funcs.names = Node.functionNames ns) (hn : CheckedItems F 0 {} ns) :
    Stands F none {} (startState F ns) := by
  refine ⟨startState_good F ns, startState_stocked hF hnames hn, ⟨?_, ?_⟩, ?_, mainHead, ?_, rfl⟩
  · rw [startState_eq]
    exact ⟨.nil, .nil⟩
  · rw [startState_eq]
    rfl
  · rw [startState_eq]
  · rw [startState_eq]
    exact List.getElem?_concat_length

theorem startState_funcOf (F : Context) {ns : List Node} (hnodup : (Node.functionNames ns).Nodup)
    {name : Text} (hname : name ∈ Node.functionNames ns) :
    ∃ h, (ns.filterMap Node.head?)[(startState F ns).funcOf name]? = some h ∧ h.name = name := by
  rw [← map_name_heads] at hname
  obtain ⟨h, hh, rfl⟩ := List.mem_map.mp hname
  obtain ⟨j, hj⟩ := List.mem_iff_getElem?.mp hh
  refine ⟨h, ?_, rfl⟩
  rw [State.funcOf, startState_functions hnodup hj]
  exact hj

theorem startState_mapped (F : Context) (ns : List Node) : (startState F ns).Mapped ∅ := by
  set X := ((ns.filterMap Node.head?).foldl State.withFunction
    { ctx := F, structs := F.classes.map ClassDef.ir }).withHead mainHead with hX
  have harena : X.arena = [] := by
    rw [hX, withFunctions_eq]
    rfl
  have hnone : ∀ b, X.outline b = none := fun b => outline_eq_none X b (by simp [harena])
  refine begun_mapped (s := X) ⟨fun a b hab => ?_, fun f b hb => ?_, fun b f x hb => ?_⟩
    (fun b d hd => absurd hd (draft?_ne_some harena b d)) (fun b x hb => ?_) none
  · obtain ⟨f, t, ha, -⟩ := hab
    rw [hnone] at ha
    cases ha
  · obtain ⟨⟨x, hx⟩, -⟩ := hb
    rw [hnone] at hx
    cases hx
  · rw [hnone] at hb
    cases hb
  · rw [hnone] at hb
    cases hb

theorem startState_owner (F : Context) {ns : List Node} {b : Nat} {x : Nat × Option IR.Term}
    (hb : (startState F ns).outline b = some x) : x.1 = (ns.filterMap Node.head?).length := by
  obtain ⟨d, hd, hfunc, -⟩ := outline_eq_some_iff.mp hb
  rw [startState_eq] at hd
  cases b with
  | zero =>
    cases hd
    exact hfunc.symm
  | succ b => cases hd

theorem startState_funcOf_lt (F : Context) {ns : List Node} (hnodup : (Node.functionNames ns).Nodup)
    {name : Text} (hname : name ∈ Node.functionNames ns) :
    (startState F ns).funcOf name < (ns.filterMap Node.head?).length := by
  obtain ⟨h, hget, -⟩ := startState_funcOf F hnodup hname
  exact (List.getElem?_eq_some_iff.mp hget).1

theorem startState_paced (F : Context) {ns : List Node} (hnodup : (Node.functionNames ns).Nodup) :
    (startState F ns).Paced (Node.functionNames ns) := by
  refine ⟨startState_mapped F ns, fun b f hb => (startState_owner F hb).trans ?_,
    fun a ha b hb hab => ?_, fun name hname b x hb => ?_⟩
  · rw [startState_eq]
  · obtain ⟨h, hget, rfl⟩ := startState_funcOf F hnodup ha
    obtain ⟨k, hget', rfl⟩ := startState_funcOf F hnodup hb
    rw [hab, hget'] at hget
    cases hget
    rfl
  · exact absurd (startState_owner F hb) (Nat.ne_of_lt (startState_funcOf_lt F hnodup hname))

/-- The items of a program are lowered from the start on. -/
theorem program_run (hF : F.Sound) {ns : List Node} (hn : CheckedItems F 0 {} ns) :
    (program ns).run { ctx := F } = ((do
      let body ← items ns
      emit body Emit.finishMain
      Pass.change fun s =>
        { s with
          ctx := s.ctx.record
            (.generationComplete s.heads.length s.globals.length s.arena.length) }
      return body : Lowering (List Node) (List Node))).run (startState F ns) := by
  have hstructs : (F.classes.forM Emit.structType).run { ctx := F } =
      (.ok (), { ctx := F, structs := F.classes.map ClassDef.ir }) := by
    rw [structTypes_run hF.classes]
    simp
  have hheads : ((ns.filterMap Node.head?).foldl State.withFunction
      { ctx := F, structs := F.classes.map ClassDef.ir }).heads.length =
        (ns.filterMap Node.head?).length := by
    rw [withFunctions_eq]
    simp
  unfold program
  rw [Pass.run_bind, Pass.run_state]
  change ((emit ns (F.classes.forM Emit.structType)) >>= _).run { ctx := F } = _
  rw [Pass.run_bind_of_ok (emit_ok_iff.mpr hstructs),
    Pass.run_bind_of_ok (emit_ok_iff.mpr (headers_run hF hn rfl)),
    Pass.run_bind_of_ok (emit_ok_iff.mpr (Emit.run_addFunction _ _))]
  rw [Pass.run_bind_of_ok (emit_ok_iff.mpr (run_enterFunction _ _ none)), hheads]
  rfl

/-- What lowering ends with. -/
structure Complete (F : Context) (u : State) (k : Nat) : Prop where
  sound : u.Sound
  stocked : Stocked F u
  closed : ∀ b, ¬ u.IsOpen b
  count : u.conversions = k

theorem program_lowered (hF : F.Sound) {ns : List Node} (hshape : ∀ n ∈ ns, n.IsItem)
    (hnames : F.funcs.names = Node.functionNames ns) (hn : CheckedItems F 0 {} ns)
    (ho : Node.allOrderly ns = true) :
    ∃ ns' u, (program ns).run { ctx := F } = (.ok ns', u) ∧
      Complete F u (Node.itemsWidenings F ns) := by
  have hnodup : (Node.functionNames ns).Nodup := hnames ▸ hF.names
  obtain ⟨ns', s, hrun, hs, hopen, hpaced, hcount⟩ := items_lowered hF hshape hn ho hnodup
    (startState_stands hF hnames hn) rfl (by rw [startState_eq]; rfl) (startState_paced F hnodup)
  have hstart : (startState F ns).conversions = 0 := by
    rw [startState_eq]
    rfl
  obtain ⟨h, hget, hres⟩ := hs.inFunction.head
  have hret := closed_neutral (x := .ret (some (.int 32 0))) (hs.ready hopen) ⟨⟨h, hget, hres.symm⟩, by
    intro v hv
    cases List.mem_singleton.mp hv
    exact ⟨trivial, nofun⟩, nofun⟩
  set t := s.closed (.ret (some (.int 32 0))) with ht
  refine ⟨ns', { t with
    ctx := t.ctx.record (.generationComplete t.heads.length t.globals.length t.arena.length) },
    ?_, ?_⟩
  · have hfinish : Emit.finishMain.run s = (.ok (), t) := by
      simp only [Emit.finishMain, Pass.run_bind, Pass.run_state, hopen]
      rfl
    rw [program_run hF hn, Pass.run_bind_of_ok hrun, Pass.run_bind_of_ok (emit_ok_iff.mpr hfinish)]
    rfl
  · have hp := hret.proceeds
    refine ⟨hp.good.sound.congr rfl (.of_arena rfl rfl List.prefix_rfl List.prefix_rfl rfl),
      hp.stocked.congr rfl rfl rfl rfl rfl rfl rfl List.prefix_rfl, fun b hb => ?_, ?_⟩
    · obtain ⟨d, hd, hterm⟩ := isOpen_iff.mp hb
      have hcur := hpaced.mapped.outline_cur hopen
      have hb : t.outline b = some (d.func, none) := outline_eq_some_iff.mpr ⟨d, hd, rfl, hterm⟩
      have hend := hpaced.onward (hpaced.mapped.returned hopen (some (.int 32 0)))
      rw [hend.opens b _ hb] at hb
      exact hend.mapped.pending_of_done (done_closed_of_outline hcur _) hb
    · change t.conversions = _
      rw [hret.count, hcount, hstart]
      omega

/-- The entry point has come to its end, and the last message is logged. -/
def State.concluded (s : State) : State :=
  let t := if s.done then s else s.closed (.ret (some (.int 32 0)))
  { t with
    ctx := t.ctx.record (.generationComplete t.heads.length t.globals.length t.arena.length) }

/-- Lowering of a correct program succeeds exactly when that of its items does. -/
theorem program_items_iff {F : Context} (hF : F.Sound) (hn : Typing.CheckedItems F 0 {} ns) :
    (program ns).run { ctx := F } = (.ok ns', u) ↔
      ∃ t, (items ns).run (startState F ns) = (.ok ns', t) ∧ u = t.concluded := by
  have hfinish (t : State) : Emit.finishMain.run t =
      (.ok (), if t.done then t else t.closed (.ret (some (.int 32 0)))) := by
    simp only [Emit.finishMain, Pass.run_bind, Pass.run_state]
    split <;> rfl
  rw [program_run hF hn]
  simp only [Pass.bind_ok_iff, emit_ok_iff, hfinish]
  constructor
  · rintro ⟨body, t, hitems, _, _, hend, _, _, hchange, hret⟩
    cases hend
    cases hchange
    cases hret
    exact ⟨t, hitems, rfl⟩
  · rintro ⟨t, hitems, rfl⟩
    exact ⟨ns', t, hitems, _, _, rfl, _, _, rfl, rfl⟩

/-- Lowering of a correct program succeeds exactly along a derivation. -/
theorem program_ok_iff {F : Context} (hF : F.Sound) (hshape : ∀ n ∈ ns, n.IsItem)
    (hnames : F.funcs.names = Node.functionNames ns) (hn : Typing.CheckedItems F 0 {} ns) :
    (program ns).run { ctx := F } = (.ok ns', u) ↔
      ∃ t, LowersItems ns (startState F ns) ns' t ∧ u = t.concluded := by
  have hnodup : (Node.functionNames ns).Nodup := hnames ▸ hF.names
  have hpaced := startState_paced F hnodup
  rw [program_items_iff hF hn]
  constructor
  · rintro ⟨t, hitems, rfl⟩
    exact ⟨t, (items_lowers hshape hnodup hpaced hitems).1, rfl⟩
  · rintro ⟨t, hitems, rfl⟩
    exact ⟨t, hitems.run hshape hnodup hpaced, rfl⟩

end

end Lowering

end Augite
