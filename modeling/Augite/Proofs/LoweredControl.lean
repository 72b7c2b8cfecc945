import Augite.Proofs.LoweredStatement
import Augite.Proofs.LoweringDerivations

/-!
# Lowering of conditionals and loops

The blocks of a conditional or loop are opened together, and its parts are lowered one after
the other; which of the blocks are open in between is known from the passages. Together with
the other statements this gives the lowering of all of them.
-/

namespace Augite.Lowering

open State Typing

/-- A good state in a function, with storage in step with the declarations. -/
structure Stands (F : Context) (fn : Option Signature) (Γ : Environment) (s : State) : Prop where
  good : s.Good
  stocked : Stocked F s
  linked : Linked F Γ s
  inFunction : InFunction fn s

section

variable {F : Context} {fn : Option Signature} {Γ : Environment} {P : Set Nat} {s t u : State}
  {v : IR.Value} {k x y : Nat}

theorem Stands.ready (hs : Stands F fn Γ s) (hopen : s.done = false) : Ready F s :=
  ⟨hs.good, hs.stocked, hopen⟩

theorem Neutral.stands (h : Neutral F s u k) (hs : Stands F fn Γ s) : Stands F fn Γ u :=
  ⟨h.proceeds.good, h.proceeds.stocked, h.linked hs.linked, h.proceeds.inFunction hs.inFunction⟩

theorem Neutral.owns (h : Neutral F s u k) (hx : s.Owns x) : u.Owns x :=
  hx.mono h.proceeds.grows h.proceeds.func

theorem Lowered.stands {Γ' : Environment} (h : Lowered F s u Γ' false k) (hs : Stands F fn Γ s) :
    Stands F fn Γ' u :=
  ⟨h.proceeds.good, h.proceeds.stocked, h.linked rfl, h.proceeds.inFunction hs.inFunction⟩

/-- What comes before has no conversions. -/
theorem Neutral.before (h : Neutral F s t 0) (h' : Neutral F t u k) : Neutral F s u k :=
  Nat.zero_add k ▸ h.trans h'

/-- A pending block is one of the function under construction. -/
theorem State.Mapped.owns (h : s.Mapped P) (hx : x ∈ P) : s.Owns x := by
  obtain ⟨d, hd, hfunc, -⟩ := outline_eq_some_iff.mp (h.waits x hx)
  exact ⟨d, hd, hfunc⟩

/-! ### Steps -/

theorem Neutral.grown (hs : Stands F fn Γ s) (role : IR.Role) : Neutral F s (s.grown role) 0 where
  proceeds :=
    { grows := grows_opened s _ role
      good := hs.good.grown role
      stocked := hs.stocked.congr rfl rfl rfl rfl rfl rfl rfl List.prefix_rfl
      allocas := fun _ hb _ => allocas?_grown hb
      func := rfl
      sig := rfl
      entry := rfl }
  slots := rfl
  globalSlots := rfl
  count := conversions_grown s role

theorem State.Usable.grown (hv : s.Usable v) (hs : Stands F fn Γ s) (role : IR.Role) :
    (s.grown role).Usable v := by
  have hcur : (s.grown role).curInsts = s.curInsts := by
    obtain ⟨d, hd, -⟩ := hs.good.seated.cur
    have hlt := lt_of_draft? hd
    rw [curInsts_of_draft? hd]
    refine curInsts_of_draft? ?_
    change (s.grown role).draft? s.body.cur = some d
    rw [State.grown, draft?_opened, if_neg (by omega), hd]
  exact Operand.mono hv (grows_opened s _ role) (by rw [hcur]; exact fun _ h => h)

theorem Neutral.moved (hs : Stands F fn Γ s) (hx : s.Owns x) : Neutral F s (s.moved x) 0 where
  proceeds :=
    { grows := grows_moved s x
      good := by
        obtain ⟨d, hd, hf⟩ := hx
        exact hs.good.moved hd hf
      stocked := hs.stocked.congr rfl rfl rfl rfl rfl rfl rfl List.prefix_rfl
      allocas := fun _ _ _ => rfl
      func := rfl
      sig := rfl
      entry := rfl }
  slots := rfl
  globalSlots := rfl
  count := rfl

theorem Neutral.unreachable (hs : Stands F fn Γ s) (hopen : s.done = false) :
    Neutral F s (s.closed .unreachable) 0 := by
  obtain ⟨h, hget, -⟩ := hs.inFunction.head
  exact closed_neutral (hs.ready hopen) ⟨⟨h, hget, trivial⟩, nofun, nofun⟩

/-- The end of a part: control goes on to one block, and another becomes the current one. -/
theorem Neutral.leave (hs : Stands F fn Γ s) (hx : s.Owns x) (hy : s.Owns y) :
    Neutral F s ((s.joined x).moved y) 0 := by
  have hjoined : Neutral F s (s.joined x) 0 := by
    unfold State.joined
    split
    · exact .refl hs.good hs.stocked
    · rename_i hdone
      obtain ⟨h, hget, -⟩ := hs.inFunction.head
      refine closed_neutral (hs.ready (by simpa using hdone)) ⟨⟨h, hget, trivial⟩, nofun, ?_⟩
      intro z hz
      cases List.mem_singleton.mp hz
      exact hx
  exact hjoined.trans (.moved (hjoined.stands hs) (hjoined.owns hy))

/-- A test, behind which control is in the first of two blocks. -/
theorem Neutral.loopBody (hs : Stands F fn Γ s) (hopen : s.done = false) (hv : s.Usable v)
    (htype : v.type = .i1) (hx : s.Owns x) (hy : s.Owns y) : Neutral F s (s.loopBody v x y) 0 := by
  obtain ⟨h, hget, -⟩ := hs.inFunction.head
  have hclosed : Neutral F s (s.closed (.condBr v x y)) 0 := by
    refine closed_neutral (hs.ready hopen) ⟨⟨h, hget, htype⟩, ?_, ?_⟩
    · intro z hz
      cases List.mem_singleton.mp hz
      exact hv
    · intro z hz
      rcases List.mem_cons.mp hz with rfl | hz
      · exact hx
      · cases List.mem_singleton.mp hz
        exact hy
  exact hclosed.trans (.moved (hclosed.stands hs) (hclosed.owns hx))

/-- Behind the arms of a conditional control goes on, if it comes there. -/
theorem Neutral.sealed (hs : Stands F fn Γ s) (hm : s.Mapped (insert x P)) :
    Neutral F s ((s.joined x).moved x).sealed 0 := by
  have hx := hm.owns (.inl rfl)
  have hleave := Neutral.leave hs hx hx
  have hopen := (hm.joined_pending (.inl rfl)).done_moved (.inl rfl)
  unfold State.sealed
  split
  · exact hleave.trans (.unreachable (hleave.stands hs) hopen)
  · exact hleave

/-! ### The blocks of conditionals and loops -/

theorem ifStart_neutral (hs : Stands F fn Γ s) (h : Ahead P s s) (hv : s.Usable v)
    (htype : v.type = .i1) : Neutral F s (s.ifStart v) 0 := by
  have h₁ := Neutral.grown hs .ifThen
  have hs₁ := h₁.stands hs
  have h₂ := h₁.trans (.grown hs₁ .ifEnd)
  have hblocks := (h.grown .ifThen).grown .ifEnd
  exact h₂.trans (.loopBody (h₂.stands hs) hblocks.isOpen ((hv.grown hs _).grown hs₁ _) htype
    (hblocks.mapped.owns (.inr (.inl rfl))) (hblocks.mapped.owns (.inl (by simp))))

theorem ifElseStart_neutral (hs : Stands F fn Γ s) (h : Ahead P s s) (hv : s.Usable v)
    (htype : v.type = .i1) : Neutral F s (s.ifElseStart v) 0 := by
  have h₁ := Neutral.grown hs .ifThen
  have hs₁ := h₁.stands hs
  have h₂ := h₁.trans (.grown hs₁ .ifEnd)
  have hs₂ := h₂.stands hs
  have h₃ := h₂.trans (.grown hs₂ .ifElse)
  have hblocks := ((h.grown .ifThen).grown .ifEnd).grown .ifElse
  exact h₃.trans (.loopBody (h₃.stands hs) hblocks.isOpen
    (((hv.grown hs _).grown hs₁ _).grown hs₂ _) htype
    (hblocks.mapped.owns (.inr (.inr (.inl rfl)))) (hblocks.mapped.owns (.inl (by simp))))

theorem whileStart_neutral (hs : Stands F fn Γ s) (h : Ahead P s s) : Neutral F s s.whileStart 0 := by
  have h₁ := Neutral.grown hs .whileCond
  have h₂ := h₁.trans (.grown (h₁.stands hs) .whileBody)
  have h₃ := h₂.trans (.grown (h₂.stands hs) .whileEnd)
  have hfirst := (((h.grown .whileCond).grown .whileBody).grown .whileEnd).mapped.owns
    (.inr (.inr (.inl rfl)))
  exact h₃.trans (.leave (h₃.stands hs) hfirst hfirst)

theorem forStart_neutral (hs : Stands F fn Γ s) (h : Ahead P s s) : Neutral F s s.forStart 0 := by
  have h₁ := Neutral.grown hs .forCond
  have h₂ := h₁.trans (.grown (h₁.stands hs) .forBody)
  have h₃ := h₂.trans (.grown (h₂.stands hs) .forStep)
  have h₄ := h₃.trans (.grown (h₃.stands hs) .forEnd)
  have hfirst := ((((h.grown .forCond).grown .forBody).grown .forStep).grown .forEnd).mapped.owns
    (.inr (.inr (.inr (.inl rfl))))
  exact h₄.trans (.leave (h₄.stands hs) hfirst hfirst)

/-! ### Scopes -/

theorem Stands.entered (hs : Stands F fn Γ s) : Stands F fn Γ.enter s.entered := by
  have hg : s.Grows s.entered := .of_arena rfl rfl List.prefix_rfl List.prefix_rfl rfl
  exact ⟨hs.good.congr rfl rfl hg, hs.stocked.congr rfl rfl rfl rfl rfl rfl rfl List.prefix_rfl,
    ⟨(hs.linked.slots_of_grows hg rfl).enter, hs.linked.globals⟩, hs.inFunction.sig,
    hs.inFunction.head⟩

/-- Statements in a scope of their own. -/
theorem Lowered.neutral {Γ' : Environment} {d : Bool} (h : Lowered F s.entered u Γ' d k) :
    Neutral F s u.left k := by
  obtain ⟨hslots, hglobals⟩ := h.scopes rfl
  have hp := h.proceeds
  have hg : s.Grows s.entered := .of_arena rfl rfl List.prefix_rfl List.prefix_rfl rfl
  have hleft : u.Grows u.left := .of_arena rfl rfl List.prefix_rfl List.prefix_rfl rfl
  exact ⟨⟨hg.trans (hp.grows.trans hleft), hp.good.congr rfl rfl hleft,
    hp.stocked.congr rfl rfl rfl rfl rfl rfl rfl List.prefix_rfl, hp.allocas, hp.func, hp.sig,
    hp.entry⟩, hslots, hglobals, h.count⟩

/-! ### Statements -/

/-- What a return gives back; the entry point has nothing to return. -/
def resultOf (fn : Option Signature) : Ty := fn.elim .void Signature.result

theorem returns_of_simple {n : Node} (h : n.IsSimple) : n.returns = false := by
  cases n <;> first | rfl | exact h.elim

theorem run_emit_return {α : Type} {n : Node} {e : Emit α} {a : α} (h : e.run s = (.ok a, u)) :
    (do let _ ← emit n e; return n : Lowering Node Node).run s = (.ok n, u) :=
  emit_return_ok_iff.mpr ⟨rfl, a, h⟩

/-- A simple statement that declares nothing. -/
theorem simple_neutral (hF : F.Sound) {n : Node} {π : Path}
    (hsimple : n.IsSimple) (hn : Checked F fn π Γ n) (hdecl : n.declared? = none)
    (hs : Stands F fn Γ s) (hopen : s.done = false) :
    ∃ n' u, (stmt n).run s = (.ok n', u) ∧ Neutral F s u (n.stmtWidenings F (resultOf fn)) := by
  have hready := hs.ready hopen
  cases n with
  | assign m name x =>
    obtain ⟨d, xt, hm, hx, hacc⟩ := hn
    obtain ⟨u, hrun, hu⟩ := assignment_neutral hF hready hs.linked hm hx hacc
    exact ⟨_, u, run_emit_return hrun, hu⟩
  | fieldAssign m a xs x =>
    obtain ⟨d, f, xt, ha, hclass, -, hm, hx, hacc⟩ := hn
    obtain ⟨u, hrun, hu⟩ := fieldAssignment_neutral hF hready hs.linked ha hclass hm hx hacc
    exact ⟨_, u, run_emit_return hrun, hu⟩
  | exprStmt m x =>
    obtain ⟨t, hx⟩ := hn
    obtain ⟨v, u, hrun, hy⟩ := expr_yields hF hx hready hs.linked
    exact ⟨_, u, run_emit_return hrun, .of_yields hy⟩
  | varDecl | varDef | listDecl | graphDecl => cases hdecl
  | _ => exact hsimple.elim

mutual

/-- A statement that is annotated rightly is lowered. -/
theorem stmt_lowered (hF : F.Sound) {n : Node} {π : Path} {Γ : Environment} (hshape : n.IsStmt)
    (hn : Checked F fn π Γ n) (ho : n.orderly = true) {P : Set Nat} {s : State}
    (hs : Stands F fn Γ s) (h : Ahead P s s) :
    ∃ n' u, (stmt n).run s = (.ok n', u) ∧
      Lowered F s u (Γ.after π n) n.returns (n.stmtWidenings F (resultOf fn)) := by
  have hready := hs.ready h.isOpen
  have hlink := hs.linked
  cases n with
  | varDecl m name t =>
    obtain ⟨hfresh, ht, hm, -⟩ := hn
    obtain ⟨u, hrun, hu⟩ := declaration_lowered hready hlink hfresh ht hm π
    exact ⟨_, u, run_emit_return hrun, hu⟩
  | varDef m name t x =>
    obtain ⟨hfresh, ht, hm, xt, hx, hacc⟩ := hn
    obtain ⟨u, hrun, hu⟩ := definition_lowered hF hready hlink hfresh ht hm hx hacc π
    exact ⟨_, u, run_emit_return hrun, hu⟩
  | assign m name x =>
    obtain ⟨n', u, hrun, hu⟩ := simple_neutral (n := .assign m name x) hF hshape hn rfl hs h.isOpen
    exact ⟨n', u, hrun, hu.lowered hlink⟩
  | fieldAssign m a xs x =>
    obtain ⟨n', u, hrun, hu⟩ := simple_neutral (n := .fieldAssign m a xs x) hF hshape hn rfl hs
      h.isOpen
    exact ⟨n', u, hrun, hu.lowered hlink⟩
  | exprStmt m x =>
    obtain ⟨n', u, hrun, hu⟩ := simple_neutral (n := .exprStmt m x) hF hshape hn rfl hs h.isOpen
    exact ⟨n', u, hrun, hu.lowered hlink⟩
  | listDecl m name k xs =>
    obtain ⟨hfresh, ht, hm, hxs⟩ := hn
    have hname : name ∉ Node.mentionsAll xs := by simpa [Node.orderly] using ho
    obtain ⟨u, hrun, hu⟩ := list_lowered hF hready hlink hfresh ht hm hxs hname π
    exact ⟨_, u, run_emit_return hrun, hu⟩
  | graphDecl m name k =>
    obtain ⟨hfresh, ht, hm⟩ := hn
    obtain ⟨v, u, hrun, hu, -⟩ := aggregate_lowered "pyrx_graph_new" "graph" rfl (.inr rfl) hready
      hlink hfresh ht rfl hm π
    exact ⟨_, u, run_emit_return hrun, hu⟩
  | print m x =>
    obtain ⟨t, hx, ht⟩ := hn
    obtain ⟨u, hrun, hu⟩ := print_neutral hF hready hlink hx ht m.pos
    exact ⟨_, u, run_emit_return hrun, hu.lowered hlink⟩
  | ret m value =>
    cases value with
    | none =>
      obtain ⟨sig, rfl, hvoid⟩ := hn
      obtain ⟨u, hrun, hu⟩ := return_neutral hready hs.inFunction hvoid m.pos
      exact ⟨_, u, run_emit_return hrun, hu.lowered hlink⟩
    | some x =>
      obtain ⟨sig, xt, rfl, hvoid, hx, hacc⟩ := hn
      obtain ⟨u, hrun, hu⟩ := returnValue_neutral hF hready hlink hs.inFunction hvoid hx hacc m.pos
      exact ⟨_, u, run_emit_return hrun, hu.lowered hlink⟩
  | branch m merge test yes no =>
    cases no with
    | none =>
      obtain ⟨htest, hyes⟩ := hn
      obtain ⟨v, s₁, hrun₁, hy⟩ := expr_yields hF htest hready hlink
      have h₁ := (h.along (test_straight hrun₁)).ahead
      have hm₁ := Neutral.of_yields hy
      have hm₂ := hm₁.trans (ifStart_neutral (hm₁.stands hs) h₁ (hy.usable IR.Typ.noConfusion) hy.type)
      have hstart := (h₁.ifStart v).entered
      obtain ⟨yes', s₂, hrun₂, hlow⟩ := stmts_lowered hF hshape.2 hyes ho (hm₂.stands hs).entered hstart
      have harm := (stmts_lowers hshape.2 hstart hrun₂).1.scoped
      have hm₃ := hm₂.trans hlow.neutral
      refine ⟨_, _, branch_ok_iff.mpr ⟨v, s₁, yes', s₂, hrun₁, hrun₂, rfl, rfl⟩, ?_⟩
      exact (hm₃.trans (.sealed (hm₃.stands hs) harm.mapped)).lowered hlink
    | some no =>
      obtain ⟨htest, hyes, hno⟩ := hn
      obtain ⟨hoyes, hono⟩ := Bool.and_eq_true_iff.mp ho
      obtain ⟨v, s₁, hrun₁, hy⟩ := expr_yields hF htest hready hlink
      have h₁ := (h.along (test_straight hrun₁)).ahead
      have hm₁ := Neutral.of_yields hy
      have hm₂ := hm₁.trans
        (ifElseStart_neutral (hm₁.stands hs) h₁ (hy.usable IR.Typ.noConfusion) hy.type)
      have hstart := (h₁.ifElseStart v).1.entered
      obtain ⟨yes', s₂, hrun₂, hlow₂⟩ := stmts_lowered hF hshape.2.1 hyes hoyes
        (hm₂.stands hs).entered hstart
      have hyes := (stmts_lowers hshape.2.1 hstart hrun₂).1.scoped
      have hm₃ := hm₂.trans hlow₂.neutral
      have hm₄ := hm₃.trans (.leave (hm₃.stands hs) (hyes.mapped.owns (.inr (.inl rfl)))
        (hyes.mapped.owns (.inl rfl)))
      have hsecond := (h₁.secondArm hyes.toOnward).entered
      obtain ⟨no', s₃, hrun₃, hlow₃⟩ := stmts_lowered hF hshape.2.2 hno hono
        (hm₄.stands hs).entered hsecond
      have hno := (stmts_lowers hshape.2.2 hsecond hrun₃).1.scoped
      have hm₅ := hm₄.trans hlow₃.neutral
      refine ⟨_, _, branchElse_ok_iff.mpr ⟨v, s₁, yes', s₂, no', s₃, hrun₁, hrun₂, hrun₃, rfl, rfl⟩, ?_⟩
      exact (hm₅.trans (.sealed (hm₅.stands hs) hno.mapped)).lowered hlink
  | whileLoop m merge test body =>
    obtain ⟨htest, hbody⟩ := hn
    have hm₁ := whileStart_neutral hs h
    have hs₁ := hm₁.stands hs
    have hcond := hs₁.good.seated.cur
    obtain ⟨v, s₁, hrun₁, hy⟩ := expr_yields hF htest (hs₁.ready h.whileStart.isOpen) hs₁.linked
    have hst := test_straight hrun₁
    have hm₂ := hm₁.before (.of_yields hy)
    have hblocks := h.whileStart.straight hst
    have hend := hblocks.mapped.owns (.inr (.inl rfl))
    have hloop := Neutral.loopBody (hm₂.stands hs) hblocks.isOpen (hy.usable IR.Typ.noConfusion)
      hy.type (hblocks.mapped.owns (.inl rfl)) hend
    have hm₃ := hm₂.trans hloop
    have hstart := (h.whileBody hst v).1.entered
    obtain ⟨body', s₂, hrun₂, hlow⟩ := stmts_lowered hF hshape.2 hbody ho (hm₃.stands hs).entered hstart
    have hback := hloop.trans hlow.neutral
    have hm₄ := hm₃.trans hlow.neutral
    refine ⟨_, _, whileLoop_ok_iff.mpr ⟨v, s₁, body', s₂, hrun₁, hrun₂, rfl, rfl⟩, ?_⟩
    exact (hm₄.trans (.leave (hm₄.stands hs) (hback.owns ((Neutral.of_yields hy).owns hcond))
      (hback.owns hend))).lowered hlink
  | forLoop m merge init test step body =>
    obtain ⟨hinit, htest, hstep, hbody⟩ := hn
    obtain ⟨hsinit, -, hsstep, hsbody⟩ := hshape
    simp only [Node.orderly, Bool.and_eq_true, Option.isNone_iff_eq_none] at ho
    obtain ⟨⟨⟨hoinit, hdecl⟩, hostep⟩, hobody⟩ := ho
    obtain ⟨init', s₁, hrun₁, hlow₁⟩ := stmt_lowered hF hsinit.isStmt hinit hoinit hs.entered h.entered
    rw [returns_of_simple hsinit] at hlow₁
    have hs₁ := hlow₁.stands hs.entered
    have h₁ := (h.forInit hsinit hrun₁).ahead
    have hm₁ := forStart_neutral hs₁ h₁
    have hs₂ := hm₁.stands hs₁
    have hcond := hs₂.good.seated.cur
    obtain ⟨v, s₂, hrun₂, hy⟩ := expr_yields hF htest (hs₂.ready h₁.forStart.isOpen) hs₂.linked
    have hst := test_straight hrun₂
    have hm₂ := hm₁.before (.of_yields hy)
    have hblocks := h₁.forStart.straight hst
    have hend := hblocks.mapped.owns (.inr (.inl rfl))
    have hloop := Neutral.loopBody (hm₂.stands hs₁) hblocks.isOpen (hy.usable IR.Typ.noConfusion)
      hy.type (hblocks.mapped.owns (.inl rfl)) hend
    have hm₃ := hm₂.trans hloop
    have hstart := (h₁.forBody hst v).1.entered
    -- The step declares nothing, so it does not matter that it comes behind the body here.
    have hafter : ∀ Γ₁ : Environment, Γ₁.after (2 :: π) step = Γ₁ := fun Γ₁ => by
      unfold Environment.after
      rw [hdecl]
    rw [hafter] at hbody
    obtain ⟨body', s₃, hrun₃, hlow₃⟩ := stmts_lowered hF hsbody hbody hobody
      (hm₃.stands hs₁).entered hstart
    have harm := (stmts_lowers hsbody hstart hrun₃).1.scoped
    have hback := hloop.trans hlow₃.neutral
    have hm₄ := hm₃.trans hlow₃.neutral
    have hzero := h₁.entering_step hst harm
    have howns := harm.mapped.owns (.inr (.inl rfl))
    have hleave := Neutral.leave (hm₄.stands hs₁) howns howns
    have hm₅ := hm₄.trans hleave
    have hend := hleave.owns (hback.owns hend)
    cases hret : Node.alwaysReturns body with
    | true =>
      have hopen := (harm.mapped.joined_pending (b := s₁.arena.length + 2) (.inr (.inl rfl))).done_moved
        (.inr (.inl rfl))
      have hskip := Neutral.unreachable (hm₅.stands hs₁) hopen
      have hm₆ := hm₅.trans hskip
      refine ⟨_, _, forLoop_ok_iff.mpr ⟨init', s₁, v, s₂, body', s₃, hrun₁, hrun₂, hrun₃,
        .skipped (hzero.mpr hret)⟩, ?_⟩
      have hall := (hlow₁.trans (d := false) ((hm₆.trans (.moved (hm₆.stands hs₁)
        (hskip.owns hend))).lowered hs₁.linked)).neutral
      rw [Node.stmtWidenings, hret, if_pos rfl, Nat.add_zero, Nat.add_assoc (Node.stmtWidenings _ _ _)]
      exact hall.lowered hlink
    | false =>
      rw [hret] at harm
      have hstepped := h₁.stepStart harm
      obtain ⟨step', s₄, hrun₄, hu⟩ := simple_neutral hF hsstep hstep hdecl (hm₅.stands hs₁)
        hstepped.isOpen
      have hm₆ := hm₅.trans hu
      refine ⟨_, _, forLoop_ok_iff.mpr ⟨init', s₁, v, s₂, body', s₃, hrun₁, hrun₂, hrun₃,
        .stepped (fun hnone => ?_) hrun₄⟩, ?_⟩
      · have := hzero.mp hnone
        rw [hret] at this
        cases this
      · have hfirst := hu.owns (hleave.owns (hback.owns ((Neutral.of_yields hy).owns hcond)))
        have hall := (hlow₁.trans (d := false) ((hm₆.trans (.leave (hm₆.stands hs₁) hfirst
          (hu.owns hend))).lowered hs₁.linked)).neutral
        rw [Node.stmtWidenings, hret, if_neg (by decide), Nat.add_assoc (Node.stmtWidenings _ _ _),
          Nat.add_assoc (Node.stmtWidenings _ _ _)]
        exact hall.lowered hlink
  | _ => exact hshape.elim
termination_by structural n

/-- Statements that are annotated rightly are lowered in order. -/
theorem stmts_lowered (hF : F.Sound) {ns : List Node} {π : Path} {i : Nat} {Γ : Environment}
    (hshape : Node.AllStmt ns) (hn : AllChecked F fn π i Γ ns) (ho : Node.allOrderly ns = true)
    {P : Set Nat} {s : State} (hs : Stands F fn Γ s) (h : Ahead P s s) :
    ∃ ns' u, (stmts ns).run s = (.ok ns', u) ∧
      Lowered F s u (Γ.afterAll π i ns) (Node.alwaysReturns ns)
        (Node.stmtsWidenings F (resultOf fn) ns) := by
  cases ns with
  | nil => exact ⟨[], s, rfl, (Neutral.refl hs.good hs.stocked).lowered hs.linked⟩
  | cons n rest =>
    obtain ⟨hn, hrest⟩ := hn
    obtain ⟨hon, horest⟩ := Bool.and_eq_true_iff.mp ho
    obtain ⟨n', s₁, hrun₁, hlow₁⟩ := stmt_lowered hF hshape.1 hn hon hs h
    have hpass := (stmt_lowers hshape.1 h hrun₁).1
    cases hret : n.returns with
    | true =>
      rw [hret] at hlow₁
      refine ⟨n' :: rest, s₁, stmts_of_returns hshape.1 h hrun₁ hret, ?_⟩
      rw [Node.alwaysReturns, Node.stmtsWidenings, hret, if_pos rfl, Nat.add_zero, Bool.true_or]
      exact { hlow₁ with linked := nofun }
    | false =>
      rw [hret] at hlow₁ hpass
      obtain ⟨rest', u, hrun₂, hlow₂⟩ := stmts_lowered hF hshape.2 hrest horest (hlow₁.stands hs)
        hpass.ahead
      refine ⟨n' :: rest', u, (stmts_cons_ok_iff h.isOpen).mpr ⟨n', s₁, rest', hrun₁, hrun₂, rfl⟩, ?_⟩
      rw [Node.alwaysReturns, Node.stmtsWidenings, hret, if_neg (by decide), Bool.false_or]
      exact hlow₁.trans hlow₂
termination_by structural ns

end

end

end Augite.Lowering
