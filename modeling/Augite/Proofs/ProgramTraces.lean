import Augite.Proofs.LoweringTraces

/-!
# Traces of programs

Between the items of a program the entry point is under construction. A function of the program
is begun where it has no blocks yet, lowered step by step, and left for the entry point again,
whose blocks are as they were.
-/

namespace Augite.Lowering

open State

/-- Steps of the entry point and whole functions one after another, the strings that they use
and the room that they make. -/
inductive ItemSteps (M : MemberTable) : State → List Text → List Room → State → Prop
  | refl (s : State) : ItemSteps M s [] [] s
  | step {s t u : State} {ts ts' : List Text} {rs rs' : List Room} (h : ItemSteps M s ts rs t)
      (k : Step M t ts' rs' u) : ItemSteps M s (ts ++ ts') (rs ++ rs') u
  | function {s t u : State} {ts ts' : List Text} {rs rs' : List Room} (h : ItemSteps M s ts rs t)
      {f : Nat} {sig : Option Signature} (hnew : ∀ b x, t.outline b ≠ some (f, x))
      (k : Steps M (t.begun f sig) ts' rs' u) (e : Event) :
      ItemSteps M s (ts ++ ts') (rs ++ rs') (t.resumed u e)
  | logged {s t : State} {ts : List Text} {rs : List Room} (h : ItemSteps M s ts rs t) (e : Event) :
      ItemSteps M s ts rs { t with ctx := t.ctx.record e }

variable {M : MemberTable} {s t u : State} {ts ts' : List Text} {rs rs' : List Room}

theorem ItemSteps.steps (h : ItemSteps M s ts rs t) (k : Steps M t ts' rs' u) :
    ItemSteps M s (ts ++ ts') (rs ++ rs') u := by
  induction k with
  | refl =>
    rw [List.append_nil, List.append_nil]
    exact h
  | tail _ k ih =>
    rw [← List.append_assoc, ← List.append_assoc]
    exact .step ih k

theorem ItemSteps.trans (h : ItemSteps M s ts rs t) (k : ItemSteps M t ts' rs' u) :
    ItemSteps M s (ts ++ ts') (rs ++ rs') u := by
  induction k with
  | refl =>
    rw [List.append_nil, List.append_nil]
    exact h
  | step _ k ih =>
    rw [← List.append_assoc, ← List.append_assoc]
    exact .step ih k
  | function _ hnew k e ih =>
    rw [← List.append_assoc, ← List.append_assoc]
    exact .function ih hnew k e
  | logged _ e ih => exact .logged ih e

/-! ### Functions -/

theorem homed_begun (s : State) (f : Nat) (sig : Option Signature) : (s.begun f sig).Homed := by
  have hentry : (s.begun f sig).draft? s.arena.length = some { func := f, role := .entry } := by
    rw [draft?_begun, if_pos rfl]
  exact ⟨⟨_, hentry, rfl⟩, ⟨_, hentry, rfl⟩⟩

/-- A function without blocks is not the one under construction. -/
theorem State.Homed.ne_of_new (hs : s.Homed) {f : Nat} (hnew : ∀ b x, s.outline b ≠ some (f, x)) :
    s.body.func ≠ f := by
  obtain ⟨d, hd, hfunc⟩ := hs.cur
  intro heq
  exact hnew s.body.cur d.term (outline_eq_some_iff.mpr ⟨d, hd, hfunc.trans heq, rfl⟩)

/-- The blocks of the entry point are the same behind a function. -/
theorem draft?_resumed (hs : s.Homed) {f : Nat} {sig : Option Signature}
    (hnew : ∀ b x, s.outline b ≠ some (f, x)) (h : Steps M (s.begun f sig) ts rs u) (e : Event)
    {b : Nat} {d : Draft} (hd : s.draft? b = some d) (hfunc : d.func = s.body.func) :
    (s.resumed u e).draft? b = some d := by
  have hbegun : (s.begun f sig).draft? b = some d := by
    rw [draft?_begun, if_neg (lt_of_draft? hd).ne, hd]
  exact h.draft?_of_ne (homed_begun s f sig) hbegun (hfunc ▸ hs.ne_of_new hnew)

theorem homed_resumed (hs : s.Homed) {f : Nat} {sig : Option Signature}
    (hnew : ∀ b x, s.outline b ≠ some (f, x)) (h : Steps M (s.begun f sig) ts rs u) (e : Event) :
    (s.resumed u e).Homed := by
  obtain ⟨d, hd, hfunc⟩ := hs.entry
  obtain ⟨d', hd', hfunc'⟩ := hs.cur
  exact ⟨⟨d, draft?_resumed hs hnew h e hd hfunc, hfunc⟩,
    ⟨d', draft?_resumed hs hnew h e hd' hfunc', hfunc'⟩⟩

theorem done_resumed (hs : s.Homed) {f : Nat} {sig : Option Signature}
    (hnew : ∀ b x, s.outline b ≠ some (f, x)) (h : Steps M (s.begun f sig) ts rs u) (e : Event) :
    (s.resumed u e).done = s.done := by
  obtain ⟨d, hd, hfunc⟩ := hs.cur
  have hkept : (s.resumed u e).draft? s.body.cur = some d := draft?_resumed hs hnew h e hd hfunc
  unfold State.done
  rw [hd]
  exact congrArg (fun x => (Option.bind x Draft.term).isSome) hkept

theorem ItemSteps.homed (h : ItemSteps M s ts rs u) (hs : s.Homed) : u.Homed := by
  induction h with
  | refl => exact hs
  | step _ k ih => exact k.homed ih
  | function _ hnew k e ih => exact homed_resumed ih hnew k e
  | logged _ e ih => exact ⟨ih.entry, ih.cur⟩

/-- All of a function: its parameters, its body and its end. -/
theorem function_steps {name : Text} {params : List Param} {result : Ty} {body body' : List Node}
    {pos : Position} {s₁ s₂ : State} {func : Nat} {sig : Option Signature}
    (hparams : (Emit.parameters func 0 params).run (s.begun func sig).entered = (.ok (), s₁))
    (hbody : Lowers ∅ body s₁ body' s₂)
    (hfinish : (Emit.finish pos name result).run s₂.left = (.ok (), u)) (hs : s.ctx.members = M)
    (m : Mark) :
    Steps M (s.begun func sig) (Node.livingTexts body) (Node.funcDef m name params result body).rooms
      u := by
  have hs₀ : (s.begun func sig).ctx.members = M := hs
  have h₁ := (Chain.entered (s.begun func sig)).trans
    (steps_of_writes (Emit.parameters_writes func 0 params) hs₀ hparams)
  have h₂ := h₁.trans ((hbody.steps (h₁.members hs₀)).trans ((Chain.left s₂).trans (finish_steps hfinish)))
  simpa only [List.nil_append, List.append_nil, Node.rooms] using h₂

/-! ### Items -/

theorem LowersItems.steps {ns ns' : List Node} (h : LowersItems ns s ns' u)
    (hgoes : ∀ n ∈ ns, n.returns = false) (hs : s.ctx.members = M) (hopen : s.done = false) (hhomed : s.Homed) :
    ItemSteps M s (ns.flatMap Node.texts) (ns.flatMap Node.rooms) u ∧ u.done = false := by
  induction h with
  | nil => exact ⟨.refl _, hopen⟩
  | @function m name params result body body' rest rest' s s₁ s₂ s₃ u hnew hparams hbody hfinish _
      ih =>
    obtain ⟨-, hgoes⟩ := List.forall_mem_cons.mp hgoes
    have hsteps := function_steps hparams hbody hfinish hs m
    have hfirst := ItemSteps.function (.refl s) hnew hsteps
      (.generatedFunction name (s₃.blockCount (s.funcOf name)))
    obtain ⟨hrest, hdone⟩ := ih hgoes (hsteps.members hs)
      ((done_resumed hhomed hnew hsteps _).trans hopen) (homed_resumed hhomed hnew hsteps _)
    refine ⟨?_, hdone⟩
    rw [List.flatMap_cons, List.flatMap_cons, Node.texts]
    exact hfirst.trans hrest
  | @inert n rest rest' s u hn _ _ ih =>
    obtain ⟨hrest, hdone⟩ := ih (List.forall_mem_cons.mp hgoes).2 hs hopen hhomed
    refine ⟨?_, hdone⟩
    cases n with
    | includeLib | classDecl => exact hrest
    | _ => exact hn.elim
  | @statement n n' rest rest' s t u hn hrun _ ih =>
    obtain ⟨hreturns, hgoes⟩ := List.forall_mem_cons.mp hgoes
    have hfirst := hrun.steps hs
    rw [Node.livingTexts_cons _ hreturns, Node.livingRooms_cons _ hreturns] at hfirst
    have hdone : t.done = false :=
      (stmt_lowers hn hrun.ahead ((stmt_ok_iff hn hrun.ahead).mpr hrun)).1.done.trans hreturns
    obtain ⟨hrest, hdone⟩ := ih hgoes (hfirst.members hs) hdone (hfirst.homed hhomed)
    refine ⟨?_, hdone⟩
    have h := ((ItemSteps.refl s).steps hfirst).trans hrest
    simpa only [List.flatMap_cons, List.nil_append, List.append_nil, Node.livingTexts,
      Node.livingRooms] using h
  | skipped _ hdone =>
    rw [hopen] at hdone
    cases hdone

/-! ### Programs -/

theorem homed_startState (F : Context) (ns : List Node) : (startState F ns).Homed :=
  homed_begun _ _ none

/-- The lowering of a correct program uses the strings of its living code. -/
theorem program_steps {F : Context} (hF : F.Sound) {ns ns' : List Node}
    (hshape : ∀ n ∈ ns, n.IsItem) (hnames : F.funcs.names = Node.functionNames ns)
    (hn : Typing.CheckedItems F 0 {} ns)
    (hrun : (program ns).run { ctx := F } = (.ok ns', u)) :
    ItemSteps F.members (startState F ns) (ns.flatMap Node.texts) (ns.flatMap Node.rooms) u := by
  obtain ⟨t, hitems, rfl⟩ := (program_ok_iff hF hshape hnames hn).mp hrun
  have hmembers : (startState F ns).ctx.members = F.members := by rw [startState_eq]
  have hopen : (startState F ns).done = false := by
    rw [startState_eq]
    rfl
  obtain ⟨hsteps, hdone⟩ := hitems.steps (returns_of_checkedItems hn) hmembers hopen
    (homed_startState F ns)
  have hclosed := hsteps.step (.closed t (.ret (some (.int 32 0))))
  rw [List.append_nil, List.append_nil] at hclosed
  unfold State.concluded
  rw [hdone]
  exact hclosed.logged _

end Augite.Lowering
