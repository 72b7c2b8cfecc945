import Augite.Proofs.LoweredModule

/-!
# Traces of lowering

All that lowering does within a function is a sequence of few kinds of steps. `Steps` says which,
and it keeps account of the strings that the code uses and of the room that it makes, in their
order: those of the tree's living code.
-/

namespace Augite.Lowering

open State

/-! ### Steps -/

/-- One step within a function, which goes on in a block of the function. -/
structure Step (M : MemberTable) (s : State) (ts : List Text) (rs : List Room) (u : State) :
    Prop where
  shift : Shift M s ts rs u
  cur : u.body.cur = s.body.cur ∨ s.Owns u.body.cur

/-- Steps one after another. -/
abbrev Steps (M : MemberTable) : State → List Text → List Room → State → Prop := Chain (Step M)

variable {M : MemberTable} {s t u : State} {ts ts' : List Text} {rs rs' : List Room}

theorem Step.closed (s : State) (t : IR.Term) : Step M s [] [] (s.closed t) :=
  ⟨.closed s t, .inl rfl⟩

theorem Step.stroke (h : Stroke M s ts rs u) : Step M s ts rs u := ⟨.stroke h, .inl h.straight.cur⟩

/-! Blocks keep their function and their role, and the function under construction stays. -/

/-- The later state has every block of the earlier one, with its function. -/
theorem Shift.draft? (h : Shift M s ts rs u) {b : Nat} {d : Draft} (hd : s.draft? b = some d) :
    ∃ e, u.draft? b = some e ∧ e.func = d.func := by
  cases h with
  | stroke h =>
    cases h with
    | emitted hop =>
      rw [draft?_emitted, hd]
      refine ⟨_, rfl, ?_⟩
      split <;> rfl
    | reserved name t =>
      rw [draft?_reserved, hd]
      refine ⟨_, rfl, ?_⟩
      split <;> rfl
    | _ => exact ⟨d, hd, rfl⟩
  | closed t =>
    rw [draft?_closed, hd]
    refine ⟨_, rfl, ?_⟩
    split <;> rfl
  | grown hrole =>
    rw [State.grown, draft?_opened, if_neg (lt_of_draft? hd).ne]
    exact ⟨d, hd, rfl⟩
  | moved b => exact ⟨d, hd, rfl⟩

theorem Shift.place (h : Shift M s ts rs u) :
    u.body.func = s.body.func ∧ u.body.entry = s.body.entry := by
  cases h with
  | stroke h => cases h <;> exact ⟨rfl, rfl⟩
  | _ => exact ⟨rfl, rfl⟩

theorem Shift.owns (h : Shift M s ts rs u) {b : Nat} (hb : s.Owns b) : u.Owns b := by
  obtain ⟨d, hd, hfunc⟩ := hb
  obtain ⟨e, he, hfunc'⟩ := h.draft? hd
  exact ⟨e, he, hfunc'.trans (hfunc.trans h.place.1.symm)⟩

/-- The first and the current block are blocks of the function under construction. -/
structure State.Homed (s : State) : Prop where
  entry : s.Owns s.body.entry
  cur : s.Owns s.body.cur

theorem Step.homed (h : Step M s ts rs u) (hs : s.Homed) : u.Homed := by
  refine ⟨h.shift.place.2 ▸ h.shift.owns hs.entry, ?_⟩
  rcases h.cur with heq | hcur
  · exact heq ▸ h.shift.owns hs.cur
  · exact h.shift.owns hcur

theorem Shift.draft?_of_ne (h : Shift M s ts rs u) (hs : s.Homed) {b : Nat} {d : Draft}
    (hd : s.draft? b = some d) (hne : d.func ≠ s.body.func) : u.draft? b = some d := by
  have hother : ∀ c, s.Owns c → c ≠ b := by
    rintro c ⟨e, he, hfunc⟩ rfl
    rw [hd] at he
    cases he
    exact hne hfunc
  cases h with
  | stroke h =>
    cases h with
    | emitted hop => rw [draft?_emitted, hd, Option.map_some, if_neg (hother _ hs.cur)]
    | reserved name t => rw [draft?_reserved, hd, Option.map_some, if_neg (hother _ hs.entry)]
    | _ => exact hd
  | closed t => rw [draft?_closed, hd, Option.map_some, if_neg (hother _ hs.cur)]
  | grown hrole => rw [State.grown, draft?_opened, if_neg (lt_of_draft? hd).ne, hd]
  | moved b => exact hd

namespace Chain

theorem members (h : Steps M s ts rs u) (hs : s.ctx.members = M) : u.ctx.members = M :=
  (h.keeps (f := fun s => s.ctx.members) fun _ _ _ _ k => congrArg _ k.shift.ctx).trans hs

theorem func (h : Steps M s ts rs u) : u.body.func = s.body.func :=
  h.keeps (f := fun s => s.body.func) fun _ _ _ _ k => k.shift.place.1

theorem entry (h : Steps M s ts rs u) : u.body.entry = s.body.entry :=
  h.keeps (f := fun s => s.body.entry) fun _ _ _ _ k => k.shift.place.2

theorem owns (h : Steps M s ts rs u) {b : Nat} (hb : s.Owns b) : u.Owns b := by
  induction h with
  | refl => exact hb
  | tail _ k ih => exact k.shift.owns ih

theorem homed (h : Steps M s ts rs u) (hs : s.Homed) : u.Homed := by
  induction h with
  | refl => exact hs
  | tail _ k ih => exact k.homed ih

/-- Within a function the blocks of the others stay as they are. -/
theorem draft?_of_ne (h : Steps M s ts rs u) (hs : s.Homed) {b : Nat} {d : Draft}
    (hd : s.draft? b = some d) (hne : d.func ≠ s.body.func) : u.draft? b = some d := by
  induction h with
  | refl => exact hd
  | tail h k ih => exact k.shift.draft?_of_ne (homed h hs) ih (func h ▸ hne)

theorem closed (s : State) (t : IR.Term) : Steps M s [] [] (s.closed t) := single (.closed s t)

theorem joined (s : State) (b : Nat) : Steps M s [] [] (s.joined b) := by
  unfold State.joined
  split
  · exact .refl s
  · exact closed s _

theorem sealed (s : State) : Steps M s [] [] s.sealed := by
  unfold State.sealed
  split
  · exact closed s _
  · exact .refl s

theorem entered (s : State) : Steps M s [] [] s.entered := single (.stroke (.rescoped s _))

theorem left (s : State) : Steps M s [] [] s.left := single (.stroke (.rescoped s _))

theorem moved {b : Nat} (hb : s.Owns b) : Steps M s [] [] (s.moved b) := single ⟨.moved s b, .inr hb⟩

theorem grown (s : State) (role : IR.Role) (hrole : role ≠ .entry) :
    Steps M s [] [] (s.grown role) :=
  single ⟨.grown s hrole, .inl rfl⟩

/-- A block is terminated and control goes on to another one. -/
theorem loopBody {b : Nat} (hb : s.Owns b) (v : IR.Value) (exit : Nat) :
    Steps M s [] [] (s.loopBody v b exit) := by
  have hclosed : Steps M s [] [] (s.closed (.condBr v b exit)) := closed s _
  exact hclosed.trans (moved (hclosed.owns hb))

theorem ifStart (s : State) (v : IR.Value) : Steps M s [] [] (s.ifStart v) := by
  have hgrown : Steps M (s.grown .ifThen) [] [] ((s.grown .ifThen).grown .ifEnd) :=
    grown _ .ifEnd (by decide)
  exact (grown s .ifThen (by decide)).trans (hgrown.trans (loopBody (hgrown.owns (owns_grown s .ifThen)) v _))

theorem ifElseStart (s : State) (v : IR.Value) : Steps M s [] [] (s.ifElseStart v) := by
  have hgrown : Steps M (s.grown .ifThen) [] [] (((s.grown .ifThen).grown .ifEnd).grown .ifElse) :=
    (grown _ .ifEnd (by decide)).trans (grown _ .ifElse (by decide))
  exact (grown s .ifThen (by decide)).trans (hgrown.trans (loopBody (hgrown.owns (owns_grown s .ifThen)) v _))

/-- Control goes on to another block. -/
theorem pass {c : Nat} (hc : s.Owns c) (b : Nat) : Steps M s [] [] ((s.joined b).moved c) := by
  have hjoined : Steps M s [] [] (s.joined b) := joined s b
  exact hjoined.trans (moved (hjoined.owns hc))

/-- Control goes on to another block, from the end of a scope. -/
theorem leave {c : Nat} (hc : s.Owns c) (b : Nat) : Steps M s [] [] ((s.left.joined b).moved c) := by
  have hleft : Steps M s [] [] s.left := left s
  exact hleft.trans (pass (hleft.owns hc) b)

theorem whileStart (s : State) : Steps M s [] [] s.whileStart := by
  have hgrown : Steps M (s.grown .whileCond) [] []
      (((s.grown .whileCond).grown .whileBody).grown .whileEnd) :=
    (grown _ .whileBody (by decide)).trans (grown _ .whileEnd (by decide))
  exact (grown s .whileCond (by decide)).trans (hgrown.trans (pass (hgrown.owns (owns_grown s .whileCond)) _))

theorem forStart (s : State) : Steps M s [] [] s.forStart := by
  have hgrown : Steps M (s.grown .forCond) [] []
      ((((s.grown .forCond).grown .forBody).grown .forStep).grown .forEnd) :=
    (grown _ .forBody (by decide)).trans ((grown _ .forStep (by decide)).trans (grown _ .forEnd (by decide)))
  exact (grown s .forCond (by decide)).trans (hgrown.trans (pass (hgrown.owns (owns_grown s .forCond)) _))

end Chain

/-! ### Traces of code -/

theorem steps_of_writes {τ α : Type} {p : Pass InternalError State τ α}
    (h : Emit.Writes M ts rs p) (hs : s.ctx.members = M) {a : α} (hrun : p.run s = (.ok a, u)) :
    Steps M s ts rs u :=
  (h.strokes hs hrun).imp fun _ _ _ _ => Step.stroke

theorem expr_steps {x : Node} {v : IR.Value} (hrun : (Emit.expr x).run s = (.ok v, t))
    (hs : s.ctx.members = M) : Steps M s x.texts [] t :=
  steps_of_writes (Emit.expr_writes x) hs hrun

theorem plain_steps {n n' : Node} (hn : n.IsPlain) (hrun : (stmt n).run s = (.ok n', t))
    (hs : s.ctx.members = M) : Steps M s n.texts n.rooms t :=
  steps_of_writes (plain_writes hn) hs hrun

theorem returnFrom_steps {m : Mark} {x : Option Node}
    (hrun : (Emit.returnFrom m.pos x).run s = (.ok (), u)) (hs : s.ctx.members = M) :
    Steps M s (Node.ret m x).texts [] u := by
  obtain ⟨v, t, ht, hu⟩ := Pass.bind_ok_iff.mp (Emit.returnFrom_eq m.pos x ▸ hrun)
  cases hu
  have h := (steps_of_writes (Emit.returned_writes m.pos x m) hs ht).trans (.closed t (.ret v))
  rwa [List.append_nil] at h

theorem finish_steps {pos : Position} {name : Text} {result : Ty}
    (hrun : (Emit.finish pos name result).run s = (.ok (), u)) : Steps M s [] [] u := by
  simp only [Emit.finish, Pass.run_bind, Pass.run_state] at hrun
  split at hrun
  · cases hrun
    exact .refl s
  split at hrun
  · cases hrun
    exact .closed s _
  split at hrun
  · cases hrun
    exact .closed s _
  · cases hrun

section

variable {s₁ t₁ t₂ : State} {v : IR.Value} {init test : Node}

/-- All of a conditional with two arms. -/
theorem Chain.bothArms (hs : s.ctx.members = M) (htest : (Emit.expr test).run s = (.ok v, t))
    (hyes : (t.ifElseStart v).entered.ctx.members = M →
      Steps M (t.ifElseStart v).entered ts rs t₁)
    (helse : (t.ifElseStart v).entered.Owns (t.arena.length + 2))
    (hno : ((t₁.left.joined (t.arena.length + 1)).moved (t.arena.length + 2)).entered.ctx.members = M →
      Steps M ((t₁.left.joined (t.arena.length + 1)).moved (t.arena.length + 2)).entered ts' rs' t₂)
    (hend : ((t₁.left.joined (t.arena.length + 1)).moved (t.arena.length + 2)).entered.Owns
      (t.arena.length + 1)) :
    Steps M s (test.texts ++ (ts ++ ts')) (rs ++ rs')
      ((t₂.left.joined (t.arena.length + 1)).moved (t.arena.length + 1)).sealed := by
  have h₁ := (expr_steps htest hs).trans ((Chain.ifElseStart t v).trans (.entered _))
  have h₂ := hyes (h₁.members hs)
  have h₃ := h₁.trans (h₂.trans ((Chain.leave (h₂.owns helse) (t.arena.length + 1)).trans (.entered _)))
  have h₄ := hno (h₃.members hs)
  have h₅ := h₃.trans (h₄.trans ((Chain.leave (h₄.owns hend) (t.arena.length + 1)).trans (.sealed _)))
  simpa only [List.nil_append, List.append_nil, List.append_assoc] using h₅

/-- A counting loop up to its step. -/
theorem Chain.forRound (hs : s.ctx.members = M) (hsimple : init.IsSimple)
    (hinit : (stmt init).run s.entered = (.ok init, s₁))
    (htest : (Emit.expr test).run s₁.forStart = (.ok v, t))
    (hstart : s₁.forStart.Owns (s₁.arena.length + 1))
    (hbody : (t.loopBody v (s₁.arena.length + 1) (s₁.arena.length + 3)).entered.ctx.members = M →
      Steps M (t.loopBody v (s₁.arena.length + 1) (s₁.arena.length + 3)).entered ts rs t₁)
    (hnext : (t.loopBody v (s₁.arena.length + 1) (s₁.arena.length + 3)).entered.Owns
      (s₁.arena.length + 2))
    (hend : (t.loopBody v (s₁.arena.length + 1) (s₁.arena.length + 3)).entered.Owns
      (s₁.arena.length + 3)) :
    Steps M s (init.texts ++ (test.texts ++ ts)) (init.rooms ++ rs)
        (t₁.stepStart (s₁.arena.length + 2)) ∧
      (t₁.stepStart (s₁.arena.length + 2)).Owns (s₁.arena.length + 3) := by
  have h₁ := ((Chain.entered s).trans (plain_steps hsimple.isPlain hinit hs)).trans (.forStart s₁)
  have h₂ := expr_steps htest (h₁.members hs)
  have h₃ := h₁.trans (h₂.trans
    ((Chain.loopBody (h₂.owns hstart) v (s₁.arena.length + 3)).trans (.entered _)))
  have h₄ := hbody (h₃.members hs)
  have h₅ := h₄.trans (Chain.leave (h₄.owns hnext) (s₁.arena.length + 2))
  have h₆ := h₃.trans h₅
  simp only [List.nil_append, List.append_nil, List.append_assoc] at h₆
  exact ⟨h₆, h₅.owns hend⟩

end

/-- Lowering along a derivation uses the strings of the living code and makes room for the
variables that are declared in it. -/
theorem Lowers.steps {P : Set Nat} {ns ns' : List Node} (h : Lowers P ns s ns' u)
    (hs : s.ctx.members = M) : Steps M s (Node.livingTexts ns) (Node.livingRooms ns) u := by
  induction h with
  | nil => exact .refl _
  | plain _ hn hrun _ ih =>
    rw [Node.livingTexts_cons _ hn.returns, Node.livingRooms_cons _ hn.returns]
    have h₁ := plain_steps hn hrun hs
    exact h₁.trans (ih (h₁.members hs))
  | @ret P m x rest s u _ hrun =>
    rw [Node.livingTexts_of_returns _ rfl, Node.livingRooms_of_returns _ rfl]
    exact returnFrom_steps hrun hs
  | @branch P m merge test yes yes' rest rest' s t t₁ u v _ htest hyes _ ihyes ih =>
    rw [Node.livingTexts_cons _ rfl, Node.livingRooms_cons _ rfl, Node.texts, Node.rooms]
    have h₁ := (expr_steps htest hs).trans ((Chain.ifStart t v).trans (.entered _))
    have h₂ := ihyes (h₁.members hs)
    have hend := h₂.owns (hyes.ahead.mapped.owns (.inl rfl))
    have h₃ := h₁.trans (h₂.trans ((Chain.leave hend (t.arena.length + 1)).trans (.sealed _)))
    have h₄ := h₃.trans (ih (h₃.members hs))
    simpa only [List.nil_append, List.append_nil, List.append_assoc] using h₄
  | @branchElse P m merge test yes yes' no no' rest rest' s t t₁ t₂ u v _ htest hyes hno hreturns _
      ihyes ihno ih =>
    have hgoes : (Node.branch m merge test yes (some no)).returns = false := hreturns
    rw [Node.livingTexts_cons _ hgoes, Node.livingRooms_cons _ hgoes, Node.texts, Node.rooms]
    have h₁ := Chain.bothArms hs htest ihyes (hyes.ahead.mapped.owns (.inl rfl)) ihno
      (hno.ahead.mapped.owns (.inl rfl))
    exact h₁.trans (ih (h₁.members hs))
  | @bothReturn P m merge test yes yes' no no' rest s t t₁ t₂ v _ htest hyes hno hreturns ihyes
      ihno =>
    have hstops : (Node.branch m merge test yes (some no)).returns = true := hreturns
    rw [Node.livingTexts_of_returns _ hstops, Node.livingRooms_of_returns _ hstops, Node.texts,
      Node.rooms]
    exact Chain.bothArms hs htest ihyes (hyes.ahead.mapped.owns (.inl rfl)) ihno
      (hno.ahead.mapped.owns (.inl rfl))
  | @whileLoop P m merge test body body' rest rest' s t t₁ u v hahead htest hbody _ ihbody ih =>
    rw [Node.livingTexts_cons _ rfl, Node.livingRooms_cons _ rfl, Node.texts, Node.rooms]
    have h₁ : Steps M s [] [] s.whileStart := .whileStart s
    have h₂ := expr_steps htest (h₁.members hs)
    have hstart := h₂.owns (hahead.whileStart.mapped.owns (.inl rfl))
    have h₃ := h₁.trans (h₂.trans ((Chain.loopBody hstart v (s.arena.length + 2)).trans (.entered _)))
    have h₄ := ihbody (h₃.members hs)
    have hend := h₄.owns (hbody.ahead.mapped.owns (.inl rfl))
    have h₅ := h₃.trans (h₄.trans (Chain.leave hend s.arena.length))
    have h₆ := h₅.trans (ih (h₅.members hs))
    simpa only [List.nil_append, List.append_nil, List.append_assoc] using h₆
  | @forLoop P m merge init test step body body' rest rest' s s₁ t t₁ t₂ u v hahead hsimple hinit
      htest hbody hreturns hstep _ ihbody ih =>
    rw [Node.livingTexts_cons _ rfl, Node.livingRooms_cons _ rfl, Node.texts, Node.rooms, hreturns,
      if_neg Bool.false_ne_true, if_neg Bool.false_ne_true]
    obtain ⟨h₁, hend⟩ := Chain.forRound hs hsimple.1 hinit htest
      ((hahead.forInit hsimple.1 hinit).ahead.forStart.mapped.owns (.inl rfl)) ihbody
      (hbody.ahead.mapped.owns (.inr (.inl rfl))) (hbody.ahead.mapped.owns (.inl rfl))
    have h₂ := plain_steps hsimple.2.isPlain hstep (h₁.members hs)
    have h₃ := h₁.trans (h₂.trans ((Chain.pass (h₂.owns hend) s₁.arena.length).trans (.left _)))
    have h₄ := h₃.trans (ih (h₃.members hs))
    simpa only [List.nil_append, List.append_nil, List.append_assoc] using h₄
  | @forOnce P m merge init test step body body' rest rest' s s₁ t t₁ u v hahead hsimple hinit
      htest hbody hreturns _ ihbody ih =>
    rw [Node.livingTexts_cons _ rfl, Node.livingRooms_cons _ rfl, Node.texts, Node.rooms, hreturns,
      if_pos rfl, if_pos rfl]
    obtain ⟨h₁, hend⟩ := Chain.forRound hs hsimple.1 hinit htest
      ((hahead.forInit hsimple.1 hinit).ahead.forStart.mapped.owns (.inl rfl)) ihbody
      (hbody.ahead.mapped.owns (.inr (.inl rfl))) (hbody.ahead.mapped.owns (.inl rfl))
    have h₂ : Steps M (t₁.stepStart (s₁.arena.length + 2)) [] [] _ := .closed _ .unreachable
    have h₃ := h₁.trans (h₂.trans ((Chain.moved (h₂.owns hend)).trans (.left _)))
    have h₄ := h₃.trans (ih (h₃.members hs))
    simpa only [List.nil_append, List.append_nil, List.append_assoc] using h₄

end Augite.Lowering
