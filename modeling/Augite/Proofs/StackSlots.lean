import Augite.Proofs.SlotHistory
import Augite.Proofs.ModuleNames

/-!
# Stack slots

The history of a program's lowering, from the start of the entry point to where lowering ends or
stops. At each of its moments the stack slots that were made stand at the heads of the entry
blocks. A function that has come to its end has one for each of its parameters and for each
variable that its living code declares, in this order, and it gets no more.
-/

namespace Augite

namespace Lowering

open State Moment

/-! ### Functions -/

/-- Within a function lowering comes from the first state to the second, with some slots more. -/
def State.Reserves (s u : State) : Prop := ∃ more, Builds s more u

instance : Std.Refl Reserves := ⟨fun s => ⟨[], .refl s⟩⟩

instance : IsTrans State Reserves := ⟨fun _ _ _ ⟨_, h⟩ ⟨_, k⟩ => ⟨_, h.trans k⟩⟩

theorem moves_of_stays {τ α : Type} {p : Pass InternalError State τ α} (h : Stays p) :
    p.Moves Reserves := by
  intro s
  obtain ⟨_, _, hs⟩ := h.moves s
  obtain ⟨more, hmore, -⟩ := hs.builds
  exact ⟨more, hmore⟩

section

variable {m : Mark} {name : Text} {params : List Param} {result : Ty} {body : List Node} {n' : Node}
  {s u : State}

/-- All that the lowering of a function does is within the function, whether it stops or not. -/
theorem function_reserves (m : Mark) (name : Text) (params : List Param) (result : Ty)
    (hn : Node.AllStmt body) (s : State) :
    (s.begun (s.funcOf name) (s.ctx.funcs.lookup? name)).Reserves
      ((function m name params result body).run s).2 := by
  have hparams : Stays (Emit.parameters (s.funcOf name) 0 params) :=
    Emit.Writes.built fun _ => Emit.parameters_writes _ _ _
  have hbody : Stays (inScope do
      emit body (Emit.parameters (s.funcOf name) 0 params)
      stmts body) :=
    inScope_stays (.bind hparams.inside fun _ => stmts_stays hn)
  unfold function
  rw [Pass.run_bind_of_ok Pass.run_state,
    Pass.run_bind_of_ok (emit_ok_iff.mpr (run_enterFunction s _ _))]
  refine Pass.Moves.bind (R := Reserves) (moves_of_stays hbody).inside (fun _ => ?_) _
  have hend := fun x => moves_of_stays (terminate_stays x)
  have hfinish : (Emit.finish m.pos name result).Moves Reserves :=
    .bindState fun _ => .ite (.pure _) (.ite (hend _) (.ite (hend _) (.stop _ _)))
  exact .bind hfinish.inside fun _ => .bind (fun t => ⟨[], .tabled rfl rfl⟩) fun _ => .pure _

/-- A function that comes to its end has slots for its parameters and its living code. -/
theorem function_builds (hn : Node.AllStmt body) (h : s.Mapped ∅)
    (hnew : ∀ b x, s.outline b ≠ some (s.funcOf name, x))
    (hrun : (function m name params result body).run s = (.ok n', u)) :
    ∃ more, Builds (s.begun (s.funcOf name) (s.ctx.funcs.lookup? name)) more u ∧
      more.map Reservation.name = (Node.funcDef m name params result body).locals := by
  obtain ⟨s₁, body', s₂, s₃, hparams, hbody, hfinish, -, rfl⟩ := (function_ok_iff hn h hnew).mp hrun
  have hsteps := function_steps hparams hbody hfinish rfl m
  obtain ⟨more, hmore, hnames⟩ := (hsteps.imp fun _ _ _ _ k => k.shift).builds
  exact ⟨more, List.append_nil more ▸ hmore.trans (.tabled rfl rfl), hnames⟩

end

/-! ### Items -/

section

variable {τ υ α β : Type} {s t u : State} {n n' : Node} (rest : List Node)

theorem run_inside_of_error {p : Lowering τ α} {e : Halt InternalError τ}
    (hr : p.run s = (.error e, u)) (plug : τ → υ) :
    (p.inside plug).run s = (.error ⟨e.error, plug e.tree⟩, u) := by
  simp only [Pass.run, Pass.inside] at hr ⊢
  rw [hr]

theorem run_bind_of_error {p : Lowering τ α} {f : α → Lowering τ β} {e : Halt InternalError τ}
    (hr : p.run s = (.error e, u)) : (p >>= f).run s = (.error e, u) := by
  rw [Pass.run_bind, hr]

/-- The state does not depend on what is done with the result of a pass. -/
theorem run_inside_return (p : Lowering τ α) (plug : τ → υ) (g : α → β) (s : State) :
    ((do let a ← p.inside plug; return g a : Lowering υ β).run s).2 = (p.run s).2 ∧
      ∀ b, ((do let a ← p.inside plug; return g a : Lowering υ β).run s).1 = .ok b →
        ∃ a, (p.run s).1 = .ok a := by
  rcases hr : p.run s with ⟨e | a, u⟩
  · rw [run_bind_of_error (run_inside_of_error hr plug)]
    exact ⟨rfl, nofun⟩
  · rw [Pass.run_bind_of_ok (Pass.run_inside_of_ok hr)]
    exact ⟨rfl, fun b hb => ⟨a, rfl⟩⟩

/-- Behind a function the entry point is taken up again, and the other items follow. -/
theorem items_function_run {m : Mark} {name : Text} {params : List Param} {result : Ty}
    {body : List Node} (hr : (function m name params result body).run s = (.ok n', u)) :
    ((items (.funcDef m name params result body :: rest)).run s).2 =
        ((items rest).run { u with body := s.body }).2 ∧
      ∀ ns', ((items (.funcDef m name params result body :: rest)).run s).1 = .ok ns' →
        ∃ rest', ((items rest).run { u with body := s.body }).1 = .ok rest' := by
  simp only [items]
  rw [Pass.run_bind_of_ok Pass.run_state, Pass.run_bind_of_ok (Pass.run_inside_of_ok hr),
    Pass.run_bind_of_ok (Pass.run_change _)]
  exact run_inside_return _ _ _ _

theorem items_statement_run (hnot : n.NotFunction) (hopen : s.done = false)
    (hr : (stmt n).run s = (.ok n', t)) :
    ((items (n :: rest)).run s).2 = ((items rest).run t).2 ∧
      ∀ ns', ((items (n :: rest)).run s).1 = .ok ns' → ∃ rest', ((items rest).run t).1 = .ok rest' := by
  rw [items.eq_3 _ _ hnot, Pass.run_bind_of_ok Pass.run_state, if_neg (by rw [hopen]; decide),
    Pass.run_bind_of_ok (Pass.run_inside_of_ok hr)]
  exact run_inside_return _ _ _ _

end

/-- The variables of the functions that have come to their end, among the items of a list. -/
def Moment.Accounts (m : Moment) (place : Text → Nat) (ns : List Node) : Prop :=
  ∀ n ∈ ns, ∀ h, n.head? = some h → place h.name ∈ m.finished → m.named (place h.name) = n.locals

/-- All functions among the items of a list have come to their end. -/
def Moment.Completes (m : Moment) (place : Text → Nat) (ns : List Node) : Prop :=
  ∀ n ∈ ns, ∀ h, n.head? = some h → place h.name ∈ m.finished

theorem mem_functionNames {ns : List Node} {n : Node} (hn : n ∈ ns) {h : IR.Func}
    (hh : n.head? = some h) : h.name ∈ Node.functionNames ns := by
  rw [← map_name_heads]
  exact List.mem_map_of_mem (List.mem_filterMap.mpr ⟨n, hn, hh⟩)

section

variable {m last : Moment} {ns : List Node}

/-- No function to come has come to its end. -/
theorem accounts_of_paced (hm : m.Tidy) (hs : m.state.Paced (Node.functionNames ns))
    (hfinished : last.finished = m.finished) : last.Accounts m.state.funcOf ns := by
  intro n hn h hh hmem
  rw [hfinished] at hmem
  exact absurd hmem (hm.not_mem_finished (hs.awaits h.name (mem_functionNames hn hh)))

/-- A function that stops is left where it is. -/
theorem function_stops {k : Mark} {name : Text} {params : List Param} {result : Ty}
    {body : List Node} (rest : List Node) (hn : Node.AllStmt body) (hmain : m.suspended = none)
    (hnew : ∀ b x, m.state.outline b ≠ some (m.state.funcOf name, x)) {e : Halt InternalError Node}
    {u : State} (hr : (function k name params result body).run m.state = (.error e, u)) :
    ∃ last, Reaches m last ∧ last.finished = m.finished ∧
      (items (.funcDef k name params result body :: rest)).run m.state =
        (.error ⟨e.error, e.tree :: rest⟩, last.state) := by
  obtain ⟨more, hmore⟩ := function_reserves k name params result hn m.state
  rw [hr] at hmore
  refine ⟨⟨u, m.made ++ more, m.finished, some m.state.body⟩, ?_, rfl, ?_⟩
  · exact .head (.begun m hnew _ hmain) (hmore.reaches m.made m.finished _)
  · simp only [items]
    rw [Pass.run_bind_of_ok Pass.run_state, run_bind_of_error (run_inside_of_error hr _)]

/-- A function that comes to its end is left for the entry point. -/
theorem function_ends {k : Mark} {name : Text} {params : List Param} {result : Ty}
    {body : List Node} (hn : Node.AllStmt body) (hm : m.Tidy) (hmain : m.suspended = none)
    (hmapped : m.state.Mapped ∅) (hnew : ∀ b x, m.state.outline b ≠ some (m.state.funcOf name, x))
    {n' : Node} {u : State} (hr : (function k name params result body).run m.state = (.ok n', u)) :
    ∃ next, Reaches m next ∧ next.state = { u with body := m.state.body } ∧ next.suspended = none ∧
      m.state.funcOf name ∈ next.finished ∧
      next.named (m.state.funcOf name) = (Node.funcDef k name params result body).locals ∧
      next.named m.state.body.func = m.named m.state.body.func := by
  obtain ⟨more, hmore, hnames⟩ := function_builds hn hmapped hnew hr
  have hfunc : u.body.func = m.state.funcOf name := hmore.func
  refine ⟨⟨{ u with body := m.state.body }, m.made ++ more, m.finished ++ [u.body.func], none⟩, ?_,
    rfl, rfl, ?_, ?_, hmore.named_of_ne rfl (hm.body.ne_of_new hnew).symm⟩
  · have hend : Advance ⟨u, m.made ++ more, m.finished, some m.state.body⟩ _ := .resumed _ rfl
    exact .head (.begun m hnew _ hmain) ((hmore.reaches m.made m.finished _).tail hend)
  · exact List.mem_append_right _ (List.mem_singleton.mpr hfunc.symm)
  · have hnone : m.named (m.state.funcOf name) = [] := congrArg (List.map _) (hm.slots_of_new hnew)
    refine (hmore.named (m := m) (f := m.state.funcOf name) rfl rfl).trans ?_
    rw [hnone, hnames]
    rfl

/-- A statement of the entry point that is lowered leaves the entry point open. -/
theorem statement_ends {n n' : Node} (hn : n.IsStmt) (hreturns : n.returns = false) {s u : State}
    (hs : s.Mapped ∅) (hopen : s.done = false) (hhomed : s.Homed)
    (hr : (stmt n).run s = (.ok n', u)) :
    (∃ more, Builds s more u ∧ more.map Reservation.name = n.locals) ∧ u.done = false ∧ u.Homed := by
  have hsteps := ((stmt_ok_iff hn (hs.ahead hopen)).mp hr).steps rfl
  refine ⟨?_, (stmt_passage hn hs hopen hr).done.trans hreturns, hsteps.homed hhomed⟩
  rw [Node.livingRooms_cons _ hreturns, Node.livingRooms, List.append_nil] at hsteps
  exact (hsteps.imp fun _ _ _ _ k => k.shift).builds

/-- Lowering of items, from one of them to the next, up to where it ends or stops. -/
theorem items_history (hshape : ∀ n ∈ ns, n.IsItem) (hnodup : (Node.functionNames ns).Nodup)
    (hgoes : ∀ n ∈ ns, n.returns = false) (hm : m.Tidy) (hmain : m.suspended = none)
    (hs : m.state.Paced (Node.functionNames ns)) (hopen : m.state.done = false)
    (hhomed : m.state.Homed) :
    ∃ last, Reaches m last ∧ last.state = ((items ns).run m.state).2 ∧
      last.Accounts m.state.funcOf ns ∧
      ∀ ns', ((items ns).run m.state).1 = .ok ns' → last.suspended = none ∧
        last.state.body.func = m.state.body.func ∧ last.Completes m.state.funcOf ns ∧
        last.named m.state.body.func = m.named m.state.body.func ++ Node.entryLocals ns := by
  induction ns generalizing m with
  | nil =>
    refine ⟨m, .refl, rfl, List.forall_mem_nil _, fun _ _ => ⟨hmain, rfl, List.forall_mem_nil _, ?_⟩⟩
    exact (List.append_nil _).symm
  | cons n rest ih =>
    have hitem := hshape n List.mem_cons_self
    have hshape' := (List.forall_mem_cons.mp hshape).2
    obtain ⟨hreturns, hgoes'⟩ := List.forall_mem_cons.mp hgoes
    rcases n.function_or with ⟨k, name, params, result, body, rfl⟩ | hnot
    · have hnew := hs.awaits name List.mem_cons_self
      rcases hr : (function k name params result body).run m.state with ⟨e | n', u⟩
      · obtain ⟨last, hreach, hfinished, hrun⟩ :=
          function_stops rest hitem.2.2 hmain hnew hr
        rw [hrun]
        refine ⟨last, hreach, rfl, accounts_of_paced hm hs hfinished, fun ns' hns' => ?_⟩
        cases hns'
      · obtain ⟨next, hreach, hstate, hmain', hdone, hnamed, hkept⟩ :=
          function_ends hitem.2.2 hm hmain hs.mapped hnew hr
        obtain ⟨hrest, hok⟩ := items_function_run rest hr
        have hplaces : next.state.funcOf = m.state.funcOf := by
          funext x
          rw [hstate]
          unfold State.funcOf
          rw [(function_spans hitem.2.2 hs.mapped hnew hr).functions]
        -- The entry point is as it was.
        obtain ⟨s₁, body', s₂, s₃, hparams, hbody, hfinish, -, rfl⟩ :=
          (function_ok_iff hitem.2.2 hs.mapped hnew).mp hr
        have hsteps := function_steps hparams hbody hfinish rfl k
        have hpaced : next.state.Paced (Node.functionNames rest) :=
          hstate ▸ hs.function hnodup hitem.2.2 hr
        obtain ⟨last, hreach', hlast, haccounts, hends⟩ := ih hshape' (List.nodup_cons.mp hnodup).2
          hgoes' (Reaches.tidy hreach hm) hmain' hpaced (hstate ▸ (done_resumed hhomed hnew hsteps _).trans hopen)
          (hstate ▸ homed_resumed hhomed hnew hsteps _)
        obtain ⟨hfinal, hslots⟩ := Reaches.slots_of_finished hreach' (Reaches.tidy hreach hm) hdone
        rw [hplaces] at haccounts hends
        refine ⟨last, hreach.trans hreach', ?_, ?_, fun ns' hns' => ?_⟩
        · rw [hlast, hrest, hstate]
        · intro n hn h hh hmem
          rcases List.mem_cons.mp hn with rfl | hn
          · cases hh
            exact (congrArg (List.map Reservation.name) hslots).trans hnamed
          · exact haccounts n hn h hh hmem
        · obtain ⟨rest', hrest'⟩ := hok ns' hns'
          rw [← hstate] at hrest'
          obtain ⟨hmain'', hfunc, hcompletes, hentry⟩ := hends rest' hrest'
          have hbody' : next.state.body.func = m.state.body.func := by rw [hstate]
          refine ⟨hmain'', hfunc.trans hbody', ?_, ?_⟩
          · intro n hn h hh
            rcases List.mem_cons.mp hn with rfl | hn
            · cases hh
              exact hfinal
            · exact hcompletes n hn h hh
          · rw [hbody', hkept] at hentry
            exact hentry
    · have hhead : n.head? = none := by
        cases n with
        | funcDef k name params result body => exact absurd rfl (hnot k name params result body)
        | _ => rfl
      have hlocals : Node.entryLocals (n :: rest) = n.locals ++ Node.entryLocals rest := by
        cases n with
        | funcDef k name params result body => exact absurd rfl (hnot k name params result body)
        | _ => rfl
      have hnames : Node.functionNames (n :: rest) = Node.functionNames rest :=
        Node.functionNames.eq_3 _ _ hnot
      rcases hr : (stmt n).run m.state with ⟨e | n', u⟩
      · have hstmt : n.IsStmt := (isInert_or_isStmt hitem hnot).resolve_left fun hinert => by
          rw [inert_run hinert] at hr
          cases hr
        obtain ⟨more, hmore⟩ := moves_of_stays (stmt_stays hstmt) m.state
        rw [hr] at hmore
        have hrun : (items (n :: rest)).run m.state = (.error ⟨e.error, e.tree :: rest⟩, u) := by
          rw [items.eq_3 _ _ hnot, Pass.run_bind_of_ok Pass.run_state,
            if_neg (by rw [hopen]; decide), run_bind_of_error (run_inside_of_error hr _)]
        rw [hrun]
        refine ⟨_, hmore.reaches m.made m.finished m.suspended, rfl, accounts_of_paced hm hs rfl,
          fun ns' hns' => ?_⟩
        cases hns'
      · obtain ⟨hrest, hok⟩ := items_statement_run rest hnot hopen hr
        obtain ⟨⟨more, hmore, hlabels⟩, hopen', hhomed'⟩ : (∃ more,
            Builds m.state more u ∧ more.map Reservation.name = n.locals) ∧ u.done = false ∧
            u.Homed := by
          rcases isInert_or_isStmt hitem hnot with hinert | hstmt
          · rw [inert_run hinert] at hr
            cases hr
            refine ⟨⟨[], .refl _, ?_⟩, hopen, hhomed⟩
            cases n with
            | includeLib | classDecl => rfl
            | _ => exact hinert.elim
          · exact statement_ends hstmt hreturns hs.mapped hopen hhomed hr
        have hreach := hmore.reaches m.made m.finished m.suspended
        have hon := item_onward hitem hnot hs.mapped hopen hr
        obtain ⟨last, hreach', hlast, haccounts, hends⟩ := ih (m := ⟨u, m.made ++ more, m.finished,
          m.suspended⟩) hshape' (hnames ▸ hnodup) hgoes' (Reaches.tidy hreach hm) hmain
          (hnames ▸ hs.onward hon) hopen' hhomed'
        have hplaces : u.funcOf = m.state.funcOf := funext hon.funcOf
        rw [hplaces] at haccounts hends
        refine ⟨last, hreach.trans hreach', hlast.trans hrest.symm, ?_, fun ns' hns' => ?_⟩
        · intro k hk h hh
          rcases List.mem_cons.mp hk with rfl | hk
          · rw [hhead] at hh
            cases hh
          · exact haccounts k hk h hh
        · obtain ⟨rest', hrest'⟩ := hok ns' hns'
          obtain ⟨hmain', hfunc, hcompletes, hentry⟩ := hends rest' hrest'
          refine ⟨hmain', hfunc.trans hmore.func, ?_, ?_⟩
          · intro k hk h hh
            rcases List.mem_cons.mp hk with rfl | hk
            · rw [hhead] at hh
              cases hh
            · exact hcompletes k hk h hh
          · have hnow : Moment.named ⟨u, m.made ++ more, m.finished, m.suspended⟩ m.state.body.func =
                m.named m.state.body.func ++ n.locals :=
              hlabels ▸ hmore.named (m := m) rfl rfl
            rw [hmore.func, hnow, List.append_assoc] at hentry
            rw [hentry, hlocals]

end

/-! ### Programs -/

/-- The moment at which the entry point is begun. -/
def Moment.start (F : Context) (ns : List Node) : Moment := { state := startState F ns }

theorem tidy_start (F : Context) (ns : List Node) : (Moment.start F ns).Tidy := by
  unfold Moment.start
  rw [startState_eq]
  have hdraft : ∀ b (d e : Draft), [e][b]? = some d → b = 0 ∧ d = e := by
    intro b d e hd
    cases b with
    | zero => exact ⟨rfl, (Option.some.inj hd).symm⟩
    | succ b => cases hd
  refine ⟨⟨fun b d hd _ => ?_, fun b d hd hrole => ?_, fun b c d e hd he _ _ _ => ?_, ?_⟩, ?_, ?_, ?_, ?_⟩
  · obtain ⟨-, rfl⟩ := hdraft b d _ hd
    exact ⟨[], rfl, List.forall_mem_nil _⟩
  · obtain ⟨-, rfl⟩ := hdraft b d _ hd
    exact absurd rfl hrole
  · rw [(hdraft b d _ hd).1, (hdraft c e _ he).1]
  · exact fun r hr => absurd hr List.not_mem_nil
  · exact ⟨⟨_, rfl, rfl, rfl⟩, rfl, List.not_mem_nil⟩
  · exact fun body hbody => by cases hbody
  · exact fun r hr => absurd hr List.not_mem_nil
  · exact fun f hf => absurd hf List.not_mem_nil

theorem builds_concluded (s : State) : Builds s [] s.concluded := by
  unfold State.concluded
  split
  · exact .tabled rfl rfl
  · have hclosed : Builds s [] (s.closed (.ret (some (.int 32 0)))) :=
      .of_advance rfl fun m hm => hm ▸ .closed m _
    exact hclosed.trans (.tabled rfl rfl)

/-- The history of a program's lowering, up to where it ends or stops. -/
theorem program_history {F : Context} (hF : F.Sound) {ns : List Node} (hshape : ∀ n ∈ ns, n.IsItem)
    (hnames : F.funcs.names = Node.functionNames ns) (hn : Typing.CheckedItems F 0 {} ns) :
    ∃ last, Reaches (.start F ns) last ∧ last.state = ((program ns).run { ctx := F }).2 ∧
      last.Accounts (startState F ns).funcOf ns ∧
      ∀ ns', ((program ns).run { ctx := F }).1 = .ok ns' →
        last.Completes (startState F ns).funcOf ns ∧
        last.named (startState F ns).body.func = Node.entryLocals ns := by
  have hnodup : (Node.functionNames ns).Nodup := hnames ▸ hF.names
  have hopen : (startState F ns).done = false := by
    rw [startState_eq]
    rfl
  obtain ⟨last, hreach, hlast, haccounts, hends⟩ := items_history (m := .start F ns) hshape hnodup
    (returns_of_checkedItems hn) (tidy_start F ns) rfl (startState_paced F hnodup) hopen
    (homed_startState F ns)
  rw [program_run hF hn]
  rcases hr : (items ns).run (startState F ns) with ⟨e | ns', u⟩
  · rw [run_bind_of_error hr]
    exact ⟨last, hreach, hlast.trans (congrArg Prod.snd hr), haccounts, nofun⟩
  · rw [Pass.run_bind_of_ok hr]
    obtain rfl : last.state = u := hlast.trans (congrArg Prod.snd hr)
    obtain ⟨-, hfunc, hcompletes, hentry⟩ := hends ns' (congrArg Prod.fst hr)
    have hend : Emit.finishMain.run last.state =
        (.ok (), if last.state.done then last.state
          else last.state.closed (.ret (some (.int 32 0)))) := by
      simp only [Emit.finishMain, Pass.run_bind, Pass.run_state]
      split <;> rfl
    rw [Pass.run_bind_of_ok (emit_ok_iff.mpr hend)]
    have hconcluded := (builds_concluded last.state).reaches last.made last.finished last.suspended
    rw [List.append_nil] at hconcluded
    exact ⟨_, hreach.trans hconcluded, rfl, haccounts, fun _ _ => ⟨hcompletes, hentry⟩⟩

/-! ### Slots of a module -/

end Lowering

/-- The stack slots of a function, in order. -/
def IR.Func.allocas (f : IR.Func) : List IR.Inst :=
  f.blocks.flatMap fun b => b.insts.filter fun i => i.op.isAlloca

namespace Lowering

open State Moment

theorem flatMap_of_unique {α β : Type} {G : α → List β} {xs : List α} {b : Nat} {x : α}
    (hx : xs[b]? = some x) (h : ∀ c y, xs[c]? = some y → c ≠ b → G y = []) :
    xs.flatMap G = G x := by
  induction xs generalizing b with
  | nil => cases hx
  | cons y ys ih =>
    cases b with
    | zero =>
      cases hx
      have hnone : ys.flatMap G = [] := List.flatMap_eq_nil_iff.mpr fun z hz => by
        obtain ⟨c, hc⟩ := List.mem_iff_getElem?.mp hz
        exact h (c + 1) z hc (Nat.succ_ne_zero c)
      rw [List.flatMap_cons, hnone, List.append_nil]
    | succ b =>
      have hy : G y = [] := h 0 y rfl (Nat.succ_ne_zero b).symm
      rw [List.flatMap_cons, hy, List.nil_append]
      exact ih hx fun c z hc hne => h (c + 1) z hc fun heq => hne (Nat.succ.inj heq)

theorem allocas_blocksFrom (f id : Nat) (ds : List Draft) :
    (blocksFrom f id ds).flatMap (fun b => b.insts.filter fun i => i.op.isAlloca) =
      ds.flatMap fun d => if d.func = f then d.allocas else [] := by
  induction ds generalizing id with
  | nil => rfl
  | cons d ds ih =>
    rw [blocksFrom, List.flatMap_cons, ← ih (id + 1)]
    by_cases hf : d.func = f
    · rw [if_pos hf, if_pos hf, List.flatMap_cons]
      rfl
    · rw [if_neg hf, if_neg hf, List.nil_append]

/-- The slots in a function of the module are those that were made for it. -/
theorem allocas_eq_slots {m : Moment} (h : m.Tidy) {i : Nat} {f : IR.Func}
    (hf : m.state.module.funcs[i]? = some f) : f.allocas = (m.slots i).map Reservation.inst := by
  obtain ⟨head, -, rfl⟩ := exists_head hf
  refine (allocas_blocksFrom i 0 m.state.arena).trans ?_
  have hother : ∀ b d, m.state.draft? b = some d → d.role ≠ .entry → d.allocas = [] :=
    fun b d hd hrole => List.filter_eq_nil_iff.mpr fun x hx => by simp [h.elsewhere b d hd hrole x hx]
  by_cases hentry : ∃ b d, m.state.draft? b = some d ∧ d.func = i ∧ d.role = .entry
  · obtain ⟨b, d, hd, hfunc, hrole⟩ := hentry
    obtain ⟨code, hinsts, hcode⟩ := h.leading b d hd hrole
    have hslots : ∀ x ∈ (m.slots d.func).map Reservation.inst, x.op.isAlloca = true :=
      fun x hx => isAlloca_of_mem_slots h.toSlotsFirst hx
    have hunique : m.state.arena.flatMap (fun d => if d.func = i then d.allocas else []) =
        if d.func = i then d.allocas else [] := by
      refine flatMap_of_unique (G := fun d => if d.func = i then d.allocas else []) hd
        fun c e he hne => ?_
      by_cases hfunc' : e.func = i
      · refine (if_pos hfunc').trans (hother c e he fun hrole' => hne ?_)
        exact h.single c b e d he hd hrole' hrole (hfunc'.trans hfunc.symm)
      · exact if_neg hfunc'
    rw [hunique, if_pos hfunc, Draft.allocas, hinsts, List.filter_append,
      List.filter_eq_self.mpr hslots, hfunc]
    rw [List.filter_eq_nil_iff.mpr fun x hx => by simp [hcode x hx], List.append_nil]
  · have hnone : m.slots i = [] := slots_eq_nil fun r hr heq => by
      obtain ⟨b, d, hd, hfunc, hrole⟩ := h.placed r hr
      exact hentry ⟨b, d, hd, hfunc.trans heq, hrole⟩
    rw [hnone]
    refine List.flatMap_eq_nil_iff.mpr fun d hd => ?_
    obtain ⟨b, hb⟩ := List.mem_iff_getElem?.mp hd
    by_cases hfunc : d.func = i
    · exact (if_pos hfunc).trans (hother b d hb fun hrole => hentry ⟨b, d, hb, hfunc, hrole⟩)
    · exact if_neg hfunc

/-- A function of the module has as many slots as were made for it. -/
theorem exists_func {m : Moment} (h : m.Tidy) {i : Nat} {head : IR.Func}
    (hhead : m.state.heads[i]? = some head) :
    ∃ f ∈ m.state.module.funcs, f.name = head.name ∧ f.allocas.length = (m.named i).length := by
  have hf : m.state.module.funcs[i]? = some { head with blocks := blocksFrom i 0 m.state.arena } := by
    simp only [State.module, List.getElem?_mapIdx, hhead, Option.map_some]
  refine ⟨_, List.mem_of_getElem? hf, rfl, ?_⟩
  rw [allocas_eq_slots h hf, named, List.length_map, List.length_map]

end Lowering

open Lowering Moment in
/-- The stack slots of every function of a correct program stand together at the head of its entry
block, in the order in which they were made, at every moment of lowering, whether lowering comes to
its end or not; a new one goes behind them and before all else. Behind its end a function gets no
more of them, and has one for each parameter and then one for each local declaration that has code. -/
theorem Program.lower_slots_first {key : Nat} {source : Text} {p p' : Program} {ctx : Context}
    (h : Program.parse key source = .ok p) (hrun : p.analyse {} = (.ok (), ctx, p')) :
    (∀ now, Reaches (.start ctx p'.body) now →
      now.SlotsFirst ∧ (∃ d code, now.EntrySplit d code) ∧
        ∀ later, Reaches now later → ∀ f ∈ now.finished, later.slots f = now.slots f) ∧
    ∃ last, Reaches (.start ctx p'.body) last ∧
      last.state = ((Lowering.program p'.body).run { ctx }).2 ∧
      last.Accounts (startState ctx p'.body).funcOf p'.body ∧
      ∀ m ctx' p'', p'.lower ctx = (.ok m, ctx', p'') →
        last.Completes (startState ctx p'.body).funcOf p'.body ∧
        (∀ k name params result body, .funcDef k name params result body ∈ p'.body →
          ∃ f ∈ m.funcs, f.name = name ∧
            f.allocas.length = params.length + (Node.livingLocals body).length) ∧
        ∃ f ∈ m.funcs, f.name = "main" ∧ f.allocas.length = (Node.entryLocals p'.body).length := by
  have hp := Program.parse_isItem h
  have hc := Program.analyse_certified hp hrun
  have hshape := Node.isItem_of_bare hc.bare hp
  have htidy : ∀ {now}, Reaches (.start ctx p'.body) now → now.Tidy := fun hnow =>
    Reaches.tidy hnow (tidy_start ctx p'.body)
  refine ⟨fun now hnow => ⟨(htidy hnow).toSlotsFirst, (htidy hnow).exists_entrySplit,
    fun later hlater f hf => (Reaches.slots_of_finished hlater (htidy hnow) hf).2⟩, ?_⟩
  obtain ⟨last, hreach, hlast, haccounts, hends⟩ :=
    program_history hc.sound hshape hc.names hc.checked
  refine ⟨last, hreach, hlast, haccounts, fun m ctx' p'' hlower => ?_⟩
  obtain ⟨s, hprogram, rfl⟩ := hc.run_of_lower hlower
  obtain ⟨hcompletes, hentry⟩ := hends p''.body (congrArg Prod.fst hprogram)
  obtain rfl : last.state = s := hlast.trans (congrArg Prod.snd hprogram)
  have hheads : p'.body.filterMap Node.head? ++ [mainHead] <+: last.state.heads :=
    (Lowering.program_mapped hc.sound hshape hc.names hc.checked hprogram).2.1
  refine ⟨hcompletes, fun k name params result body hmem => ?_, ?_⟩
  · have hname : name ∈ Node.functionNames p'.body := mem_functionNames hmem rfl
    obtain ⟨head, hhead, rfl⟩ := startState_funcOf ctx (hc.names ▸ hc.sound.names) hname
    obtain ⟨f, hf, hfname, hlength⟩ := exists_func (htidy hreach)
      (State.getElem?_of_prefix hheads (State.getElem?_of_prefix (List.prefix_append _ _) hhead))
    refine ⟨f, hf, hfname, ?_⟩
    rw [hlength, haccounts _ hmem _ rfl (hcompletes _ hmem _ rfl), Node.locals_funcDef,
      List.length_append, List.length_map]
  · have hbody : (startState ctx p'.body).body.func = (p'.body.filterMap Node.head?).length := by
      rw [startState_eq]
    have hmain : (p'.body.filterMap Node.head? ++ [mainHead])[(startState ctx p'.body).body.func]? =
        some mainHead := by
      rw [hbody]
      exact List.getElem?_concat_length
    obtain ⟨f, hf, hfname, hlength⟩ := exists_func (htidy hreach) (State.getElem?_of_prefix hheads hmain)
    exact ⟨f, hf, hfname, hlength.trans (congrArg List.length hentry)⟩

/-- A function with a variable of its own in each of two arms, one more in a loop and one in dead
code, and an entry point with a global variable and a local one. -/
def nesting : Text :=
  "def f(a: int, b: int) -> int \x7b if (a > b) \x7b a: int = 1; return a; \x7d else \x7b " ++
  "for (i: int = 0; i < b; i = i + 1) \x7b c: int = i; print(c); \x7d \x7d return b; d: int = 4; \x7d " ++
  "x: int = 1; if (x > 0) \x7b y: int = f(x, 2); print(y); \x7d"

theorem nesting_lower_slots : ∃ p ctx p' m ctx' p'', Program.parse 0 nesting = .ok p ∧
    p.analyse {} = (.ok (), ctx, p') ∧ p'.lower ctx = (.ok m, ctx', p'') ∧
    (∃ f ∈ m.funcs, f.name = "f" ∧ f.allocas.length = 5) ∧
    ∃ f ∈ m.funcs, f.name = "main" ∧ f.allocas.length = 1 := by
  have hok : ((Program.parse 0 nesting).toOption.any fun p =>
      (p.analyse {}).1.isOk && ((p.analyse {}).2.2.body.any fun n =>
        decide (n.head?.map IR.Func.name = some "f") && decide (n.locals.length = 5)) &&
      decide ((Node.entryLocals (p.analyse {}).2.2.body).length = 1) &&
        ((p.analyse {}).2.2.lower (p.analyse {}).2.1).1.isOk) = true := by
    decide +kernel
  rcases hp : Program.parse 0 nesting with e | p
  · rw [hp] at hok
    cases hok
  simp only [hp, Except.toOption, Option.any_some, Bool.and_eq_true, decide_eq_true_eq] at hok
  obtain ⟨⟨⟨hanalysed, hfunction⟩, hmain⟩, hlowered⟩ := hok
  rcases hrun : p.analyse {} with ⟨_ | ⟨⟨⟩⟩, ctx, p'⟩
  · rw [hrun] at hanalysed
    cases hanalysed
  rw [hrun] at hfunction hmain hlowered
  rcases hlower : p'.lower ctx with ⟨_ | m, ctx', p''⟩
  · rw [hlower] at hlowered
    cases hlowered
  obtain ⟨-, last, -, -, -, hends⟩ := Program.lower_slots_first hp hrun
  obtain ⟨-, hfuncs, hentry⟩ := hends m ctx' p'' hlower
  refine ⟨p, ctx, p', m, ctx', p'', rfl, hrun, hlower, ?_, hmain ▸ hentry⟩
  simp only [List.any_eq_true, Bool.and_eq_true, decide_eq_true_eq] at hfunction
  obtain ⟨n, hn, hname, hlocals⟩ := hfunction
  cases n with
  | funcDef k name params result body =>
    cases hname
    rw [Node.locals_funcDef, List.length_append, List.length_map] at hlocals
    exact hlocals ▸ hfuncs k _ params result body hn
  | _ => cases hname

end Augite
