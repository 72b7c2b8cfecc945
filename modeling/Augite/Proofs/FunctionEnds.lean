import Augite.Proofs.DeadBlocks

/-!
# Ends of functions

`Meets` and `Begins` follow lowering into the nested lists of statements and to the functions
of a program, with the states it is in there. At each of these places, lowering leaves a
terminated block behind exactly if the list always returns, and no function of a program that
has passed analysis is found to reach its end without returning.
-/

namespace Augite

namespace Lowering

open State

/-! ### Lists that lowering comes to -/

/-- On the way through the statements of a first list, from a first state on, lowering comes to
a second list in a second state. -/
inductive Meets : List Node → State → List Node → State → Prop
  | whole {ns : List Node} {s : State} : Meets ns s ns s
  | later {n n' : Node} {rest ms : List Node} {s t u : State} (hopen : s.done = false)
      (hrun : (stmt n).run s = (.ok n', t)) (h : Meets rest t ms u) : Meets (n :: rest) s ms u
  | onlyArm {m : Mark} {merge : Option Nat} {test : Node} {yes rest ms : List Node}
      {s t u : State} {v : IR.Value} (hopen : s.done = false)
      (htest : (Emit.expr test).run s = (.ok v, t)) (h : Meets yes (t.ifStart v).entered ms u) :
      Meets (.branch m merge test yes none :: rest) s ms u
  | firstArm {m : Mark} {merge : Option Nat} {test : Node} {yes no rest ms : List Node}
      {s t u : State} {v : IR.Value} (hopen : s.done = false)
      (htest : (Emit.expr test).run s = (.ok v, t))
      (h : Meets yes (t.ifElseStart v).entered ms u) :
      Meets (.branch m merge test yes (some no) :: rest) s ms u
  | secondArm {m : Mark} {merge : Option Nat} {test : Node} {yes yes' no rest ms : List Node}
      {s t t' u : State} {v : IR.Value} (hopen : s.done = false)
      (htest : (Emit.expr test).run s = (.ok v, t))
      (hyes : (stmts yes).run (t.ifElseStart v).entered = (.ok yes', t'))
      (h : Meets no
        ((t'.left.joined (t.arena.length + 1)).moved (t.arena.length + 2)).entered ms u) :
      Meets (.branch m merge test yes (some no) :: rest) s ms u
  | whileBody {m : Mark} {merge : Option Nat} {test : Node} {body rest ms : List Node}
      {s t u : State} {v : IR.Value} (hopen : s.done = false)
      (htest : (Emit.expr test).run s.whileStart = (.ok v, t))
      (h : Meets body (t.loopBody v (s.arena.length + 1) (s.arena.length + 2)).entered ms u) :
      Meets (.whileLoop m merge test body :: rest) s ms u
  | forBody {m : Mark} {merge : Option Nat} {init init' test step : Node}
      {body rest ms : List Node} {s s' t u : State} {v : IR.Value} (hopen : s.done = false)
      (hinit : (stmt init).run s.entered = (.ok init', s'))
      (htest : (Emit.expr test).run s'.forStart = (.ok v, t))
      (h : Meets body (t.loopBody v (s'.arena.length + 1) (s'.arena.length + 3)).entered ms u) :
      Meets (.forLoop m merge init test step body :: rest) s ms u

/-- The blocks are charted wherever lowering comes to a list. -/
theorem Meets.mapped {ns ms : List Node} {s u : State} (h : Meets ns s ms u)
    (hn : Node.AllStmt ns) {pending : Set Nat} (hs : s.Mapped pending) :
    Node.AllStmt ms ∧ ∃ pending, u.Mapped pending := by
  induction h generalizing pending with
  | whole => exact ⟨hn, pending, hs⟩
  | later hopen hrun _ ih => exact ih hn.2 (stmt_passage hn.1 hs hopen hrun).mapped
  | onlyArm hopen htest _ ih =>
    have ht := (hs.ahead hopen).along (test_straight htest)
    exact ih hn.1.2 (ht.ahead.ifStart _).entered.mapped
  | firstArm hopen htest _ ih =>
    have ht := (hs.ahead hopen).along (test_straight htest)
    exact ih hn.1.2.1 (ht.ahead.ifElseStart _).1.entered.mapped
  | secondArm hopen htest hyes _ ih =>
    have ht := ((hs.ahead hopen).along (test_straight htest)).ahead
    have hyes' := (stmts_lowers hn.1.2.1 (ht.ifElseStart _).1.entered hyes).1.scoped
    exact ih hn.1.2.2 (ht.secondArm hyes'.toOnward).entered.mapped
  | whileBody hopen htest _ ih =>
    exact ih hn.1.2 ((hs.ahead hopen).whileBody (test_straight htest) _).1.entered.mapped
  | forBody hopen hinit htest _ ih =>
    obtain ⟨hsimple, -, -, hbody⟩ := hn.1
    have hs' := ((hs.ahead hopen).forInit hsimple hinit).ahead
    exact ih hbody (hs'.forBody (test_straight htest) _).1.entered.mapped

/-! ### Functions that lowering comes to -/

/-- On the way through the items of a program, from a state on, lowering comes to the body of a
function in a second state. -/
inductive Begins : List Node → State → Node → State → Prop
  | here {m : Mark} {name : Text} {params : List Param} {result : Ty} {body rest : List Node}
      {s t : State}
      (hparams : (Emit.parameters (s.funcOf name) 0 params).run
        (s.begun (s.funcOf name) (s.ctx.funcs.lookup? name)).entered = (.ok (), t)) :
      Begins (.funcDef m name params result body :: rest) s (.funcDef m name params result body) t
  | behind {m : Mark} {name : Text} {params : List Param} {result : Ty} {body rest : List Node}
      {n n' : Node} {s t u : State}
      (hrun : (function m name params result body).run s = (.ok n', t))
      (h : Begins rest { t with body := s.body } n u) :
      Begins (.funcDef m name params result body :: rest) s n u
  | passed {k k' n : Node} {rest : List Node} {s t u : State}
      (hnot : ∀ m name params result body, k ≠ .funcDef m name params result body)
      (hopen : s.done = false) (hrun : (stmt k).run s = (.ok k', t)) (h : Begins rest t n u) :
      Begins (k :: rest) s n u
  | skipped {k n : Node} {rest : List Node} {s u : State}
      (hnot : ∀ m name params result body, k ≠ .funcDef m name params result body)
      (hdone : s.done = true) (h : Begins rest s n u) : Begins (k :: rest) s n u

/-- The body of a function begins in an open block. -/
theorem Begins.isOpen {ns : List Node} {n : Node} {s u : State} (h : Begins ns s n u)
    (hshape : ∀ k ∈ ns, k.IsItem) (hnodup : (Node.functionNames ns).Nodup)
    (hs : s.Paced (Node.functionNames ns)) : n ∈ ns ∧ u.Mapped ∅ ∧ u.done = false := by
  induction h with
  | here hparams =>
    rw [Node.functionNames] at hs
    have hpass := parameters_passage hs.mapped (hs.awaits _ List.mem_cons_self) hparams
    exact ⟨List.mem_cons_self, hpass.mapped, hpass.done⟩
  | behind hrun _ ih =>
    rw [Node.functionNames] at hs hnodup
    have hbody := (hshape _ List.mem_cons_self).2.2
    obtain ⟨hmem, hu⟩ := ih (fun k hk => hshape k (List.mem_cons_of_mem _ hk))
      (List.nodup_cons.mp hnodup).2 (hs.function hnodup hbody hrun)
    exact ⟨List.mem_cons_of_mem _ hmem, hu⟩
  | passed hnot hopen hrun _ ih =>
    rw [Node.functionNames.eq_3 _ _ hnot] at hs hnodup
    have hon := item_onward (hshape _ List.mem_cons_self) hnot hs.mapped hopen hrun
    obtain ⟨hmem, hu⟩ := ih (fun k hk => hshape k (List.mem_cons_of_mem _ hk)) hnodup
      (hs.onward hon)
    exact ⟨List.mem_cons_of_mem _ hmem, hu⟩
  | skipped hnot _ _ ih =>
    rw [Node.functionNames.eq_3 _ _ hnot] at hs hnodup
    obtain ⟨hmem, hu⟩ := ih (fun k hk => hshape k (List.mem_cons_of_mem _ hk)) hnodup hs
    exact ⟨List.mem_cons_of_mem _ hmem, hu⟩

theorem checkedFunction_of_mem {F : Context} {ns : List Node} {i : Nat} {Γ : Environment}
    (h : Typing.CheckedItems F i Γ ns) {m : Mark} {name : Text} {params : List Param} {result : Ty}
    {body : List Node} (hmem : .funcDef m name params result body ∈ ns) :
    ∃ π Δ, Typing.CheckedFunction F π Δ name params result body := by
  induction ns generalizing i Γ with
  | nil => cases hmem
  | cons n rest ih =>
    rcases n.function_or with ⟨m', name', params', result', body', rfl⟩ | hnot
    · rcases List.mem_cons.mp hmem with heq | hmem
      · cases heq
        exact ⟨_, _, h.1⟩
      · exact ih h.2 hmem
    · have hmem := (List.mem_cons.mp hmem).resolve_left fun heq => hnot _ _ _ _ _ heq.symm
      exact ih (checkedItems_cons hnot h).2 hmem

/-! ### Errors of lowering -/

/-- All that the pass does is within a function, whether it stops or not, and it does not find that
the function reaches its end. -/
abbrev Stays {τ α : Type} (p : Pass InternalError State τ α) : Prop :=
  p.Confined Built fun e => ¬e.AtEnd

section

open Pass (Leads)

variable {τ α : Type}

theorem inScope_leads {I J : State → Prop} {P : InternalError → Prop} {p : Lowering τ α}
    (h : Leads (fun t => ∃ s, I s ∧ t = s.entered) (fun t => J t.left) P p) :
    Leads I J P (inScope p) := by
  intro s hs
  obtain ⟨hok, herr⟩ := h s.entered ⟨s, hs, rfl⟩
  refine ⟨fun a u hrun => ?_, fun e u hrun => ?_⟩
  · obtain ⟨t, ht, rfl⟩ := inScope_ok_iff.mp hrun
    exact hok a t ht
  · change ((p.run s.entered).1, (p.run s.entered).2.left) = (.error e, u) at hrun
    exact herr e _ (Prod.ext (Prod.mk.inj hrun).1 rfl)

theorem built_rescoped (s : State) (slots : Slots) : s.Built { s with slots } :=
  (Shift.stroke (.rescoped s slots)).built

theorem inScope_stays {p : Lowering τ α} (h : Stays p) : Stays (inScope p) := by
  refine ⟨fun s => ?_, inScope_leads fun s _ => h.errors s trivial⟩
  exact Trans.trans (Trans.trans (built_rescoped s _) (h.moves s.entered)) (built_rescoped _ _)

theorem terminate_stays (x : IR.Term) : Stays (Emit.terminate x) :=
  .of_run fun s => .inl ⟨(), _, rfl, (Shift.closed s x).built⟩

theorem block_stays (role : IR.Role) (hrole : role ≠ .entry) : Stays (Emit.block role) :=
  .of_run fun s => .inl ⟨_, _, rfl, (Shift.grown s hrole).built⟩

theorem moveTo_stays (b : Nat) : Stays (Emit.moveTo b) :=
  .of_run fun s => .inl ⟨_, _, rfl, (Shift.moved s b).built⟩

theorem branch_stays (b : Nat) : Stays (Emit.branch b) :=
  .bindState fun _ => .ite (.pure _) (terminate_stays _)

theorem sealBlock_stays : Stays Emit.sealBlock :=
  .bindState fun _ => .ite (terminate_stays _) (.pure _)

theorem expr_stays (x : Node) : Stays (Emit.expr x) := Emit.Writes.built fun _ => Emit.expr_writes x

theorem plain_stays {n : Node} (hn : n.IsPlain) : Stays (stmt n) :=
  Emit.Writes.built fun _ => plain_writes hn

/-- Behind a test an arm or a body is lowered, in a block and a scope of its own. -/
theorem armed_stays {n : Node} {plug : List Node → Node} {v : IR.Value} {yes no : Nat}
    {p : Lowering (List Node) (List Node)} (hp : Stays p) {f : List Node → Lowering Node Node}
    (hf : ∀ ns, Stays (f ns)) :
    Stays (do
      emit n (Emit.terminate (.condBr v yes no))
      emit n (Emit.moveTo yes)
      let ns ← (inScope p).inside plug
      f ns) :=
  .bind (terminate_stays _).inside fun _ => .bind (moveTo_stays _).inside fun _ =>
    .bind (inScope_stays hp).inside hf

/-- Control goes on to another block, for the last time. -/
theorem passed_stays {n n' : Node} {b c : Nat} : Stays (do
    emit n (Emit.branch b)
    emit n (Emit.moveTo c)
    return n' : Lowering Node Node) :=
  .bind (branch_stays _).inside fun _ => .bind (moveTo_stays _).inside fun _ => .pure _

/-- Control goes on behind a conditional. -/
theorem merged_stays {n n' : Node} {b c : Nat} : Stays (do
    emit n (Emit.branch b)
    emit n (Emit.moveTo c)
    emit n Emit.sealBlock
    return n' : Lowering Node Node) :=
  .bind (branch_stays _).inside fun _ => .bind (moveTo_stays _).inside fun _ =>
    .bind sealBlock_stays.inside fun _ => .pure _

mutual

theorem stmt_stays {n : Node} (hn : n.IsStmt) : Stays (stmt n) := by
  cases n with
  | ret m value =>
    refine .bind (.inside ?_) fun _ => .pure _
    rw [Emit.returnFrom_eq]
    exact .bind (Emit.Writes.built fun _ => Emit.returned_writes _ _ m) fun _ => terminate_stays _
  | branch m merge test yes no =>
    cases no with
    | none =>
      refine .bind (expr_stays _).inside fun v => .bind (block_stays .ifThen nofun).inside fun _ => ?_
      exact .bind (block_stays .ifEnd nofun).inside fun _ =>
        armed_stays (stmts_stays hn.2) fun _ => merged_stays
    | some no =>
      refine .bind (expr_stays _).inside fun v => .bind (block_stays .ifThen nofun).inside fun _ => ?_
      refine .bind (block_stays .ifEnd nofun).inside fun _ => ?_
      refine .bind (block_stays .ifElse nofun).inside fun _ => ?_
      refine armed_stays (stmts_stays hn.2.1) fun _ => .bind (branch_stays _).inside fun _ => ?_
      exact .bind (moveTo_stays _).inside fun _ =>
        .bind (inScope_stays (stmts_stays hn.2.2)).inside fun _ => merged_stays
  | whileLoop m merge test body =>
    refine .bind (block_stays .whileCond nofun).inside fun _ => ?_
    refine .bind (block_stays .whileBody nofun).inside fun _ => ?_
    refine .bind (block_stays .whileEnd nofun).inside fun _ => ?_
    refine .bind (branch_stays _).inside fun _ => .bind (moveTo_stays _).inside fun _ => ?_
    exact .bind (expr_stays _).inside fun _ => armed_stays (stmts_stays hn.2) fun _ => passed_stays
  | forLoop m merge init test step body =>
    obtain ⟨hinit, -, hstep, hbody⟩ := hn
    refine inScope_stays (.bind (plain_stays hinit.isPlain).inside fun _ => ?_)
    refine .bind (block_stays .forCond nofun).inside fun _ => ?_
    refine .bind (block_stays .forBody nofun).inside fun _ => ?_
    refine .bind (block_stays .forStep nofun).inside fun _ => ?_
    refine .bind (block_stays .forEnd nofun).inside fun _ => ?_
    refine .bind (branch_stays _).inside fun _ => .bind (moveTo_stays _).inside fun _ => ?_
    refine .bind (expr_stays _).inside fun _ => armed_stays (stmts_stays hbody) fun _ => ?_
    refine .bind (branch_stays _).inside fun _ => .bind (moveTo_stays _).inside fun _ => ?_
    refine .bindState fun s => .ite ?_ (.bind (plain_stays hstep.isPlain).inside fun _ => passed_stays)
    exact .bind (terminate_stays _).inside fun _ => .bind (moveTo_stays _).inside fun _ => .pure _
  | print | varDecl | varDef | assign | fieldAssign | listDecl | graphDecl | exprStmt =>
    exact plain_stays hn
  | _ => exact hn.elim
termination_by structural n

theorem stmts_stays {ns : List Node} (hn : Node.AllStmt ns) : Stays (stmts ns) := by
  cases ns with
  | nil => exact .pure _
  | cons n rest =>
    refine .bindState fun s => .ite (.pure _) ?_
    exact .bind (stmt_stays hn.1).inside fun _ => .bind (stmts_stays hn.2).inside fun _ => .pure _
termination_by structural ns

end

/-- A function that ends in a terminated block, or has nothing to return, is ended. -/
theorem finish_leads (pos : Position) (name : Text) {result : Ty} :
    Leads (fun s => result ≠ .void → s.done = true) (fun _ => True) (fun e => ¬e.AtEnd)
      (Emit.finish pos name result) := by
  refine .bindState fun s hs => ?_
  split
  · exact .of_errors (.pure _) fun _ _ _ _ _ => trivial
  · rename_i hopen
    have hvoid : result = .void := not_not.mp fun hne => hopen (hs hne)
    rw [if_pos hvoid]
    exact .of_errors (terminate_stays _).errors fun _ _ _ _ _ => trivial

theorem function_leads {s : State} {m : Mark} {name : Text} {params : List Param} {result : Ty}
    {body : List Node} (hbody : Node.AllStmt body) (h : s.Mapped ∅)
    (hnew : ∀ b x, s.outline b ≠ some (s.funcOf name, x))
    (hreturns : result ≠ .void → Node.alwaysReturns body = true) :
    Leads (Eq s) (fun _ => True) (fun e => ¬e.AtEnd) (function m name params result body) := by
  refine .bindRead fun _ hs => ?_
  subst hs
  -- From the start of the function to the start of its body, to the end of the body.
  let begun := s.begun (s.funcOf name) (s.ctx.funcs.lookup? name)
  have henter : Leads (Eq s) (Eq begun) (fun e : InternalError => ¬e.AtEnd)
      (Emit.enterFunction (s.funcOf name) (s.ctx.funcs.lookup? name)) := by
    rintro _ rfl
    refine ⟨fun a t hrun => ?_, fun e t hrun => ?_⟩ <;> rw [run_enterFunction] at hrun
    · exact (Prod.mk.inj hrun).2
    · cases (Prod.mk.inj hrun).1
  have hparams : Leads (fun t => ∃ s, begun = s ∧ t = s.entered)
      (fun t => t.Mapped ∅ ∧ t.done = false) (fun e => ¬e.AtEnd)
      (Emit.parameters (s.funcOf name) 0 params) := by
    refine .of_errors (Emit.parameters_straight _ _ _).errors ?_
    rintro _ ⟨_, rfl, rfl⟩ _ t ht
    have hpass := parameters_passage h hnew ht
    exact ⟨hpass.mapped, hpass.done⟩
  have hstmts : Leads (fun t => t.Mapped ∅ ∧ t.done = false)
      (fun t => result ≠ .void → t.left.done = true) (fun e => ¬e.AtEnd) (stmts body) := by
    refine .of_errors (stmts_stays hbody).errors fun t ht _ u hu hne => ?_
    exact (stmts_passage hbody ht.1 ht.2 hu).done.trans (hreturns hne)
  have hscope : Leads (Eq begun) (fun t => result ≠ .void → t.done = true) (fun e => ¬e.AtEnd)
      (inScope do
        emit body (Emit.parameters (s.funcOf name) 0 params)
        stmts body) :=
    inScope_leads (.bind hparams.inside fun _ => hstmts)
  refine .bind henter.inside fun _ => .bind hscope.inside fun _ => ?_
  exact .bind (finish_leads _ _).inside fun _ => .bind (.change fun _ _ => trivial) fun _ => .pure _

/-- An item that is not a function is lowered without such an error. -/
theorem item_stays {n : Node} (hn : n.IsItem) (hnot : n.NotFunction) : Stays (stmt n) := by
  cases n with
  | funcDef m name params result body => exact absurd rfl (hnot m name params result body)
  | includeLib | classDecl => exact .pure _
  | _ => exact stmt_stays hn

theorem items_leads {F : Context} {ns : List Node} {i : Nat} {Γ : Environment}
    (hchecked : Typing.CheckedItems F i Γ ns) (hshape : ∀ n ∈ ns, n.IsItem)
    (hnodup : (Node.functionNames ns).Nodup) :
    Leads (State.Paced · (Node.functionNames ns)) (fun _ => True) (fun e => ¬e.AtEnd)
      (items ns) := by
  induction ns generalizing i Γ with
  | nil => exact .of_errors (.pure _) fun _ _ _ _ _ => trivial
  | cons n rest ih =>
    have hshape' := fun k hk => hshape k (List.mem_cons_of_mem _ hk)
    rcases n.function_or with ⟨m, name, params, result, body, rfl⟩ | hnot
    · have hbody : Node.AllStmt body := (hshape _ List.mem_cons_self).2.2
      rw [Node.functionNames] at hnodup ⊢
      refine .bindRead fun s hs => ?_
      have hfunction : Leads (Eq s)
          (fun t => State.Paced { t with body := s.body } (Node.functionNames rest))
          (fun e => ¬e.AtEnd) (function m name params result body) := by
        rintro _ rfl
        have herr : Leads (Eq s) _ _ (function m name params result body) :=
          function_leads hbody hs.mapped (hs.awaits _ List.mem_cons_self) hchecked.1.returns
        exact ⟨fun _ _ hrun => hs.function hnodup hbody hrun, (herr s rfl).2⟩
      have hrest := ih hchecked.2 hshape' (List.nodup_cons.mp hnodup).2
      exact .bind hfunction.inside fun _ => .bind (.change fun _ ht => ht) fun _ =>
        Leads.bind hrest.inside fun _ => .pure _
    · rw [Node.functionNames.eq_3 _ _ hnot] at hnodup ⊢
      rw [items.eq_3 _ _ hnot]
      have hrest := ih (checkedItems_cons hnot hchecked).2 hshape' hnodup
      refine .bindRead fun s hs => ?_
      split
      · have hskip : Leads (Eq s) (fun _ => True) (fun e => ¬e.AtEnd) (items rest) := by
          rintro _ rfl
          exact hrest s hs
        exact .bind hskip.inside fun _ => .pure _
      · rename_i hopen
        have hitem := hshape n List.mem_cons_self
        have hn : Leads (Eq s) (State.Paced · (Node.functionNames rest)) (fun e => ¬e.AtEnd)
            (stmt n) := by
          refine .of_errors (item_stays hitem hnot).errors ?_
          rintro _ rfl _ t ht
          exact hs.onward (item_onward hitem hnot hs.mapped (by simpa using hopen) ht)
        exact .bind hn.inside fun _ => .bind hrest.inside fun _ => .pure _

theorem program_leads {F : Context} (hF : F.Sound) {ns : List Node}
    (hshape : ∀ n ∈ ns, n.IsItem) (hnames : F.funcs.names = Node.functionNames ns)
    (hn : Typing.CheckedItems F 0 {} ns) {e : Halt InternalError (List Node)} {u : State}
    (hrun : (program ns).run { ctx := F } = (.error e, u)) : ¬e.error.AtEnd := by
  have hnodup : (Node.functionNames ns).Nodup := hnames ▸ hF.names
  have hmain : Stays Emit.finishMain := .bindState fun _ => .ite (.pure _) (terminate_stays _)
  rw [program_run hF hn] at hrun
  refine (Leads.bind (K := fun _ => True) (items_leads hn hshape hnodup) (fun _ => ?_) _
    (startState_paced F hnodup)).2 e u hrun
  exact .bind hmain.errors.inside fun _ => .bind (.change fun _ _ => trivial) fun _ => .pure _

end

end Lowering

/-- In the functions of a correct program, lowering a list of statements from an open block
leaves a terminated block behind exactly if the list always returns. The body of a function
that has a result ends so, and lowering finds no function that reaches its end. -/
theorem Program.lower_returns_iff {key : Nat} {source : Text} {p p' : Program} {ctx : Context}
    (h : Program.parse key source = .ok p) (hrun : p.analyse {} = (.ok (), ctx, p')) :
    (∀ m name params result body s, Lowering.Begins p'.body (Lowering.startState ctx p'.body)
        (.funcDef m name params result body) s →
      s.done = false ∧
      (∀ ns t ns' u, Lowering.Meets body s ns t → t.done = false →
        (Lowering.stmts ns).run t = (.ok ns', u) →
        (u.done = true ↔ Node.alwaysReturns ns = true)) ∧
      (result ≠ .void → ∀ body' u, (Lowering.stmts body).run s = (.ok body', u) →
        u.done = true)) ∧
    ∀ e ctx' p'', p'.lower ctx = (.error e, ctx', p'') → ¬e.AtEnd := by
  have hp := Program.parse_isItem h
  have hc := Program.analyse_certified hp hrun
  have hshape := Node.isItem_of_bare hc.bare hp
  have hnodup : (Node.functionNames p'.body).Nodup := hc.names ▸ hc.sound.names
  refine ⟨fun m name params result body s hbegins => ?_, fun e ctx' p'' hlower => ?_⟩
  · obtain ⟨hmem, hs, hopen⟩ := hbegins.isOpen hshape hnodup (Lowering.startState_paced ctx hnodup)
    have hbody : Node.AllStmt body := (hshape _ hmem).2.2
    refine ⟨hopen, fun ns t ns' u hmeets ht hu => ?_, fun hne body' u hu => ?_⟩
    · obtain ⟨hns, pending, hmapped⟩ := hmeets.mapped hbody hs
      rw [(Lowering.stmts_passage hns hmapped ht hu).done]
    · obtain ⟨π, Γ, hfunction⟩ := Lowering.checkedFunction_of_mem hc.checked hmem
      exact (Lowering.stmts_passage hbody hs hopen hu).done.trans (hfunction.returns hne)
  · unfold Program.lower at hlower
    rw [hc.certified] at hlower
    simp only [ne_eq, not_true_eq_false, if_false] at hlower
    rcases hr : (Lowering.program p'.body).run { ctx } with ⟨halt | body, s⟩
    · rw [hr] at hlower
      cases hlower
      exact Lowering.program_leads hc.sound hshape hc.names hc.checked hr
    · rw [hr] at hlower
      cases hlower

/-- The node is an int function whose parameters and body can be lowered from a state. -/
def Lowering.bodyLowered (s : State) : Node → Bool
  | .funcDef _ name params result body =>
    let started := (Emit.parameters (s.funcOf name) 0 params).run
      (s.begun (s.funcOf name) (s.ctx.funcs.lookup? name)).entered
    result == .int && started.1.isOk && ((stmts body).run started.2).1.isOk
  | _ => false

theorem choosing_lower_returns : ∃ p ctx p' m name params body s body' u,
    Program.parse 0 choosing = .ok p ∧ p.analyse {} = (.ok (), ctx, p') ∧
    Lowering.Begins p'.body (Lowering.startState ctx p'.body)
      (.funcDef m name params .int body) s ∧
    (Lowering.stmts body).run s = (.ok body', u) ∧ u.done = true ∧
    Node.alwaysReturns body = true ∧ ∀ e ctx' p'', p'.lower ctx = (.error e, ctx', p'') → ¬e.AtEnd := by
  have hok : ((Program.parse 0 choosing).toOption.any fun p =>
      (p.analyse {}).1.isOk && (p.analyse {}).2.2.body.head?.any
        (Lowering.bodyLowered (Lowering.startState (p.analyse {}).2.1 (p.analyse {}).2.2.body))) =
      true := by
    decide +kernel
  rcases hp : Program.parse 0 choosing with e | p
  · rw [hp] at hok
    cases hok
  simp only [hp, Except.toOption, Option.any_some, Bool.and_eq_true] at hok
  rcases hrun : p.analyse {} with ⟨_ | ⟨⟨⟩⟩, ctx, p'⟩
  · rw [hrun] at hok
    cases hok.1
  simp only [hrun] at hok
  obtain ⟨-, hok⟩ := hok
  obtain ⟨hlists, herrors⟩ := Program.lower_returns_iff hp hrun
  rcases hbody : p'.body with _ | ⟨n, rest⟩
  · rw [hbody] at hok
    cases hok
  rw [hbody, List.head?_cons, Option.any_some, ← hbody] at hok
  unfold Lowering.bodyLowered at hok
  split at hok
  · rename_i m name params result body
    simp only [Bool.and_eq_true, beq_iff_eq] at hok
    obtain ⟨⟨rfl, hparams⟩, hstmts⟩ := hok
    rcases ht : (Emit.parameters _ 0 params).run _ with ⟨_ | ⟨⟨⟩⟩, s⟩
    · rw [ht] at hparams
      cases hparams
    rw [ht] at hstmts
    rcases hu : (Lowering.stmts body).run s with ⟨_ | body', u⟩
    · rw [hu] at hstmts
      cases hstmts
    have hbegins : Lowering.Begins p'.body (Lowering.startState ctx p'.body)
        (.funcDef m name params .int body) s := hbody ▸ .here (hbody ▸ ht)
    obtain ⟨hopen, hiff, hdone⟩ := hlists m name params .int body s hbegins
    have hterm := hdone (by decide) body' u hu
    exact ⟨p, ctx, p', m, name, params, body, s, body', u, rfl, hrun, hbegins, hu, hterm,
      (hiff body s body' u .whole hopen hu).mp hterm, herrors⟩
  · cases hok

end Augite
