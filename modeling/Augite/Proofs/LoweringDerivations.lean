import Augite.Proofs.Passages
import Augite.Proofs.Typing

/-!
# Derivations of lowering

`Lowers` follows lowering through the living statements of a list, from an open block on, with
the states it is in between them: what stands behind a statement that returns is passed over,
and so is the step of a counting loop whose body always returns. Lowering from an open block
succeeds exactly if there is such a derivation, and what is said of all lowered code is proved
by induction on it. Each list of statements is a passage: analysis calls for a return at the end
of a function by looking at its statements, and lowering asks whether the current block is
terminated, and the two agree.
-/

namespace Augite

/-- An item for which there is no code. -/
def Node.IsInert : Node → Prop
  | .includeLib _ _ | .classDecl _ _ _ => True
  | _ => False

namespace Lowering

open State

/-- From an open block in the first state, with some blocks pending, the statements of the first
list are lowered to those of the second, up to the second state. -/
inductive Lowers : Set Nat → List Node → State → List Node → State → Prop
  | nil {P : Set Nat} {s : State} (hs : Ahead P s s) : Lowers P [] s [] s
  | plain {P : Set Nat} {n : Node} {rest rest' : List Node} {s t u : State} (hs : Ahead P s s)
      (hn : n.IsPlain) (hrun : (stmt n).run s = (.ok n, t)) (h : Lowers P rest t rest' u) :
      Lowers P (n :: rest) s (n :: rest') u
  | ret {P : Set Nat} {m : Mark} {x : Option Node} {rest : List Node} {s u : State}
      (hs : Ahead P s s) (hrun : (Emit.returnFrom m.pos x).run s = (.ok (), u)) :
      Lowers P (.ret m x :: rest) s (.ret m x :: rest) u
  | branch {P : Set Nat} {m : Mark} {merge : Option Nat} {test : Node}
      {yes yes' rest rest' : List Node} {s t t₁ u : State} {v : IR.Value} (hs : Ahead P s s)
      (htest : (Emit.expr test).run s = (.ok v, t))
      (hyes : Lowers (insert (t.arena.length + 1) P) yes (t.ifStart v).entered yes' t₁)
      (h : Lowers P rest
        ((t₁.left.joined (t.arena.length + 1)).moved (t.arena.length + 1)).sealed rest' u) :
      Lowers P (.branch m merge test yes none :: rest) s
        (.branch m (some (t.arena.length + 1)) test yes' none :: rest') u
  | branchElse {P : Set Nat} {m : Mark} {merge : Option Nat} {test : Node}
      {yes yes' no no' rest rest' : List Node} {s t t₁ t₂ u : State} {v : IR.Value}
      (hs : Ahead P s s) (htest : (Emit.expr test).run s = (.ok v, t))
      (hyes : Lowers (insert (t.arena.length + 2) (insert (t.arena.length + 1) P)) yes
        (t.ifElseStart v).entered yes' t₁)
      (hno : Lowers (insert (t.arena.length + 1) P) no
        ((t₁.left.joined (t.arena.length + 1)).moved (t.arena.length + 2)).entered no' t₂)
      (hreturns : (Node.alwaysReturns yes && Node.alwaysReturns no) = false)
      (h : Lowers P rest
        ((t₂.left.joined (t.arena.length + 1)).moved (t.arena.length + 1)).sealed rest' u) :
      Lowers P (.branch m merge test yes (some no) :: rest) s
        (.branch m (some (t.arena.length + 1)) test yes' (some no') :: rest') u
  | bothReturn {P : Set Nat} {m : Mark} {merge : Option Nat} {test : Node}
      {yes yes' no no' rest : List Node} {s t t₁ t₂ : State} {v : IR.Value}
      (hs : Ahead P s s) (htest : (Emit.expr test).run s = (.ok v, t))
      (hyes : Lowers (insert (t.arena.length + 2) (insert (t.arena.length + 1) P)) yes
        (t.ifElseStart v).entered yes' t₁)
      (hno : Lowers (insert (t.arena.length + 1) P) no
        ((t₁.left.joined (t.arena.length + 1)).moved (t.arena.length + 2)).entered no' t₂)
      (hreturns : (Node.alwaysReturns yes && Node.alwaysReturns no) = true) :
      Lowers P (.branch m merge test yes (some no) :: rest) s
        (.branch m (some (t.arena.length + 1)) test yes' (some no') :: rest)
        ((t₂.left.joined (t.arena.length + 1)).moved (t.arena.length + 1)).sealed
  | whileLoop {P : Set Nat} {m : Mark} {merge : Option Nat} {test : Node}
      {body body' rest rest' : List Node} {s t t₁ u : State} {v : IR.Value} (hs : Ahead P s s)
      (htest : (Emit.expr test).run s.whileStart = (.ok v, t))
      (hbody : Lowers (insert (s.arena.length + 2) P) body
        (t.loopBody v (s.arena.length + 1) (s.arena.length + 2)).entered body' t₁)
      (h : Lowers P rest ((t₁.left.joined s.arena.length).moved (s.arena.length + 2)) rest' u) :
      Lowers P (.whileLoop m merge test body :: rest) s
        (.whileLoop m (some (s.arena.length + 2)) test body' :: rest') u
  | forLoop {P : Set Nat} {m : Mark} {merge : Option Nat} {init test step : Node}
      {body body' rest rest' : List Node} {s s₁ t t₁ t₂ u : State} {v : IR.Value}
      (hs : Ahead P s s) (hsimple : init.IsSimple ∧ step.IsSimple)
      (hinit : (stmt init).run s.entered = (.ok init, s₁))
      (htest : (Emit.expr test).run s₁.forStart = (.ok v, t))
      (hbody : Lowers (insert (s₁.arena.length + 3) (insert (s₁.arena.length + 2) P)) body
        (t.loopBody v (s₁.arena.length + 1) (s₁.arena.length + 3)).entered body' t₁)
      (hreturns : Node.alwaysReturns body = false)
      (hstep : (stmt step).run (t₁.stepStart (s₁.arena.length + 2)) = (.ok step, t₂))
      (h : Lowers P rest ((t₂.joined s₁.arena.length).moved (s₁.arena.length + 3)).left rest' u) :
      Lowers P (.forLoop m merge init test step body :: rest) s
        (.forLoop m (some (s₁.arena.length + 3)) init test step body' :: rest') u
  | forOnce {P : Set Nat} {m : Mark} {merge : Option Nat} {init test step : Node}
      {body body' rest rest' : List Node} {s s₁ t t₁ u : State} {v : IR.Value}
      (hs : Ahead P s s) (hsimple : init.IsSimple ∧ step.IsSimple)
      (hinit : (stmt init).run s.entered = (.ok init, s₁))
      (htest : (Emit.expr test).run s₁.forStart = (.ok v, t))
      (hbody : Lowers (insert (s₁.arena.length + 3) (insert (s₁.arena.length + 2) P)) body
        (t.loopBody v (s₁.arena.length + 1) (s₁.arena.length + 3)).entered body' t₁)
      (hreturns : Node.alwaysReturns body = true)
      (h : Lowers P rest (((t₁.stepStart (s₁.arena.length + 2)).closed .unreachable).moved
        (s₁.arena.length + 3)).left rest' u) :
      Lowers P (.forLoop m merge init test step body :: rest) s
        (.forLoop m (some (s₁.arena.length + 3)) init test step body' :: rest') u

theorem Lowers.ahead {P : Set Nat} {ns ns' : List Node} {s u : State} (h : Lowers P ns s ns' u) :
    Ahead P s s := by
  cases h <;> assumption

/-! ### Runs and derivations -/

section

variable {P : Set Nat} {s s₁ t t₁ u : State} {n' : Node} {v : IR.Value}

theorem straight_of_run {τ α : Type} {p : Pass InternalError State τ α}
    {P : InternalError → Prop} (hp : p.Confined Straight P) {a : α} (h : p.run s = (.ok a, u)) :
    s.Straight u := by
  have hs := hp.moves s
  rw [h] at hs
  exact hs

theorem returnFrom_ok {pos : Position} {x : Option Node} {a : Unit}
    (h : (Emit.returnFrom pos x).run s = (.ok a, u)) :
    ∃ t v, s.Straight t ∧ u = t.closed (.ret v) := by
  obtain ⟨v, t, ht, hu⟩ := Pass.bind_ok_iff.mp (Emit.returnFrom_eq pos x ▸ h)
  cases hu
  have hwrites := fun M => Emit.returned_writes (M := M) pos x { pos }
  exact ⟨t, v, straight_of_run (Emit.Writes.straight hwrites) ht, rfl⟩

/-- A statement without statements in it stays as it is. -/
theorem plain_kept {n : Node} (hrun : (stmt n).run s = (.ok n', t)) (hn : n.IsPlain) : n' = n := by
  cases n with
  | ret m value => cases value <;> exact hn.elim
  | branch m merge test yes no => cases no <;> exact hn.elim
  | varDecl | varDef | assign | fieldAssign | listDecl | graphDecl | exprStmt | print =>
    exact (emit_return_ok_iff.mp hrun).1
  | _ => exact hn.elim

theorem test_straight {test : Node} (htest : (Emit.expr test).run s = (.ok v, t)) : s.Straight t :=
  straight_of_run (Emit.expr_straight test) htest

theorem plain_passage {n : Node} (hs : Ahead P s s) (hrun : (stmt n).run s = (.ok n', t))
    (hn : n.IsPlain) : Passage P s t false :=
  hs.along (straight_of_run (plain_straight hn) hrun)

/-- The first statement of a counting loop. -/
theorem State.Ahead.forInit {init : Node} (hs : Ahead P s s) (hinit : init.IsSimple)
    (hrun : (stmt init).run s.entered = (.ok n', s₁)) : Passage P s.entered s₁ false :=
  plain_passage hs.entered hrun hinit.isPlain

end

mutual

/-- The passage and the derivation of one statement, and of what stands behind it if control
comes there. -/
theorem stmt_lowers {n : Node} (hn : n.IsStmt) {P : Set Nat} {s t : State} {n' : Node}
    (hs : Ahead P s s) (hrun : (stmt n).run s = (.ok n', t)) :
    Passage P s t n.returns ∧
      (n.returns = true → ∀ rest, Lowers P (n :: rest) s (n' :: rest) t) ∧
      (n.returns = false → ∀ rest rest' u, Lowers P rest t rest' u →
        Lowers P (n :: rest) s (n' :: rest') u) := by
  cases n with
  | ret m value =>
    obtain ⟨rfl, a, ha⟩ := emit_return_ok_iff.mp hrun
    obtain ⟨t, v, hst, rfl⟩ := returnFrom_ok ha
    have ht := hs.along hst
    exact ⟨ht.trans (ht.ahead.returned v), fun _ rest => .ret hs ha, nofun⟩
  | branch m merge test yes no =>
    cases no with
    | none =>
      obtain ⟨v, s₁, yes', s₂, htest, hyes, rfl, rfl⟩ := branch_ok_iff.mp hrun
      have h₁ := hs.along (test_straight htest)
      obtain ⟨harm, hlow⟩ := stmts_lowers hn.2 (h₁.ahead.ifStart v).entered hyes
      refine ⟨h₁.trans (h₁.ahead.branch harm.scoped).toPassage, nofun, fun _ rest rest' u hrest => ?_⟩
      exact .branch hs htest hlow hrest
    | some no =>
      obtain ⟨v, s₁, yes', s₂, no', s₃, htest, hyes, hno, rfl, rfl⟩ := branchElse_ok_iff.mp hrun
      have h₁ := hs.along (test_straight htest)
      obtain ⟨hfirst, hlow⟩ := stmts_lowers hn.2.1 (h₁.ahead.ifElseStart v).1.entered hyes
      obtain ⟨hsecond, hlow'⟩ := stmts_lowers hn.2.2
        (h₁.ahead.secondArm hfirst.scoped.toOnward).entered hno
      refine ⟨h₁.trans (h₁.ahead.branchElse hfirst.scoped hsecond.scoped).toPassage, fun hreturns rest => ?_,
        fun hreturns rest rest' u hrest => ?_⟩
      · exact .bothReturn hs htest hlow hlow' hreturns
      · exact .branchElse hs htest hlow hlow' hreturns hrest
  | whileLoop m merge test body =>
    obtain ⟨v, s₁, body', s₂, htest, hbody, rfl, rfl⟩ := whileLoop_ok_iff.mp hrun
    have hst := test_straight htest
    obtain ⟨harm, hlow⟩ := stmts_lowers hn.2 (hs.whileBody hst v).1.entered hbody
    refine ⟨(hs.whileLoop hst harm.scoped).1.toPassage, nofun, fun _ rest rest' u hrest => ?_⟩
    exact .whileLoop hs htest hlow hrest
  | forLoop m merge init test step body =>
    obtain ⟨hinit, -, hstep, hbody⟩ := hn
    obtain ⟨init', s₁, v, s₂, body', s₃, hi, ht, hb, hend⟩ := forLoop_ok_iff.mp hrun
    obtain rfl := plain_kept hi hinit.isPlain
    have h₁ := hs.forInit hinit hi
    have hst := test_straight ht
    obtain ⟨harm, hlow⟩ := stmts_lowers hbody (h₁.ahead.forBody hst v).1.entered hb
    have hzero := h₁.ahead.entering_step hst harm.scoped
    cases hend with
    | skipped hskip =>
      have hreturns := hzero.mp hskip
      rw [hreturns] at harm
      refine ⟨(h₁.trans (h₁.ahead.forOnce hst harm.scoped).1.toPassage).scoped, nofun,
        fun _ rest rest' u hrest => ?_⟩
      exact .forOnce hs ⟨hinit, hstep⟩ hi ht hlow hreturns hrest
    | @stepped step' t hpos hrun' =>
      obtain rfl := plain_kept hrun' hstep.isPlain
      have hreturns := Bool.eq_false_iff.mpr fun hreturns => hpos (hzero.mpr hreturns)
      rw [hreturns] at harm
      have hst' := straight_of_run (plain_straight hstep.isPlain) hrun'
      refine ⟨(h₁.trans (h₁.ahead.forLoop hst harm.scoped hst').1.toPassage).scoped, nofun,
        fun _ rest rest' u hrest => ?_⟩
      exact .forLoop hs ⟨hinit, hstep⟩ hi ht hlow hreturns hrun' hrest
  | print | varDecl | varDef | assign | fieldAssign | listDecl | graphDecl | exprStmt =>
    obtain rfl := plain_kept hrun hn
    exact ⟨plain_passage hs hrun hn, nofun,
      fun _ rest rest' u hrest => .plain hs hn hrun hrest⟩
  | _ => exact hn.elim
termination_by structural n

theorem stmts_lowers {ns : List Node} (hn : Node.AllStmt ns) {P : Set Nat} {s u : State}
    {ns' : List Node} (hs : Ahead P s s) (hrun : (stmts ns).run s = (.ok ns', u)) :
    Passage P s u (Node.alwaysReturns ns) ∧ Lowers P ns s ns' u := by
  cases ns with
  | nil =>
    obtain ⟨rfl, rfl⟩ := stmts_nil_ok_iff.mp hrun
    exact ⟨hs.refl, .nil hs⟩
  | cons n rest =>
    obtain ⟨n', s₁, rest', hn', hrest, rfl⟩ := (stmts_cons_ok_iff hs.isOpen).mp hrun
    obtain ⟨hpass, hreturns, hgoes⟩ := stmt_lowers hn.1 hs hn'
    rw [Node.alwaysReturns]
    cases hret : n.returns with
    | true =>
      rw [hret] at hpass
      rw [stmts_of_done hpass.done] at hrest
      cases hrest
      exact ⟨hpass, hreturns hret rest⟩
    | false =>
      rw [hret] at hpass
      obtain ⟨hpass', hlow⟩ := stmts_lowers hn.2 hpass.ahead hrest
      exact ⟨hpass.trans hpass', hgoes hret rest rest' u hlow⟩
termination_by structural ns

end

/-- Behind a statement the current block is terminated exactly if the statement returns. -/
theorem stmt_passage {n n' : Node} {P : Set Nat} {s t : State} (hn : n.IsStmt) (hs : s.Mapped P)
    (hopen : s.done = false) (hrun : (stmt n).run s = (.ok n', t)) : Passage P s t n.returns :=
  (stmt_lowers hn (hs.ahead hopen) hrun).1

theorem stmts_passage {ns ns' : List Node} {P : Set Nat} {s u : State} (hn : Node.AllStmt ns)
    (hs : s.Mapped P) (hopen : s.done = false) (hrun : (stmts ns).run s = (.ok ns', u)) :
    Passage P s u (Node.alwaysReturns ns) :=
  (stmts_lowers hn (hs.ahead hopen) hrun).1

/-- Behind a statement that returns the rest of a list stays as it is. -/
theorem stmts_of_returns {n n' : Node} {rest : List Node} {P : Set Nat} {s t : State}
    (hn : n.IsStmt) (hs : Ahead P s s) (hrun : (stmt n).run s = (.ok n', t))
    (hreturns : n.returns = true) : (stmts (n :: rest)).run s = (.ok (n' :: rest), t) := by
  have hdone := (stmt_lowers hn hs hrun).1.done.trans hreturns
  exact (stmts_cons_ok_iff hs.isOpen).mpr ⟨n', t, rest, hrun, stmts_of_done hdone, rfl⟩

/-- No branch leads to the step of a counting loop exactly if its body always returns. -/
theorem State.Ahead.entering_step_eq_zero_iff {P : Set Nat} {s s₁ t t₁ : State} {init test : Node}
    {body body' : List Node} {v : IR.Value} (hs : Ahead P s s) (hn : Node.AllStmt body)
    (hinit : init.IsSimple) (hrun : (stmt init).run s.entered = (.ok init, s₁))
    (htest : (Emit.expr test).run s₁.forStart = (.ok v, t))
    (hbody : (stmts body).run (t.loopBody v (s₁.arena.length + 1) (s₁.arena.length + 3)).entered =
      (.ok body', t₁)) :
    (t₁.stepStart (s₁.arena.length + 2)).entering (s₁.arena.length + 2) = 0 ↔
      Node.alwaysReturns body = true := by
  have h₁ := (hs.forInit hinit hrun).ahead
  have hst := test_straight htest
  exact h₁.entering_step hst (stmts_lowers hn (h₁.forBody hst v).1.entered hbody).1.scoped

theorem Lowers.run {P : Set Nat} {ns ns' : List Node} {s u : State} (h : Lowers P ns s ns' u)
    (hn : Node.AllStmt ns) : (stmts ns).run s = (.ok ns', u) := by
  induction h with
  | nil hs => exact stmts_nil_ok_iff.mpr ⟨rfl, rfl⟩
  | plain hs _ hrun _ ih =>
    exact (stmts_cons_ok_iff hs.isOpen).mpr ⟨_, _, _, hrun, ih hn.2, rfl⟩
  | ret hs hrun =>
    exact stmts_of_returns hn.1 hs (emit_return_ok_iff.mpr ⟨rfl, (), hrun⟩) rfl
  | branch hs htest _ _ ihyes ih =>
    refine (stmts_cons_ok_iff hs.isOpen).mpr ⟨_, _, _, branch_ok_iff.mpr ?_, ih hn.2, rfl⟩
    exact ⟨_, _, _, _, htest, ihyes hn.1.2, rfl, rfl⟩
  | branchElse hs htest _ _ _ _ ihyes ihno ih =>
    refine (stmts_cons_ok_iff hs.isOpen).mpr ⟨_, _, _, branchElse_ok_iff.mpr ?_, ih hn.2, rfl⟩
    exact ⟨_, _, _, _, _, _, htest, ihyes hn.1.2.1, ihno hn.1.2.2, rfl, rfl⟩
  | bothReturn hs htest _ _ hreturns ihyes ihno =>
    refine stmts_of_returns hn.1 hs (branchElse_ok_iff.mpr ?_) hreturns
    exact ⟨_, _, _, _, _, _, htest, ihyes hn.1.2.1, ihno hn.1.2.2, rfl, rfl⟩
  | whileLoop hs htest _ _ ihbody ih =>
    refine (stmts_cons_ok_iff hs.isOpen).mpr ⟨_, _, _, whileLoop_ok_iff.mpr ?_, ih hn.2, rfl⟩
    exact ⟨_, _, _, _, htest, ihbody hn.1.2, rfl, rfl⟩
  | forLoop hs hsimple hinit htest _ hreturns hstep _ ihbody ih =>
    have hbody := ihbody hn.1.2.2.2
    have hzero := hs.entering_step_eq_zero_iff hn.1.2.2.2 hsimple.1 hinit htest hbody
    have hpos := mt hzero.mp (Bool.eq_false_iff.mp hreturns)
    refine (stmts_cons_ok_iff hs.isOpen).mpr ⟨_, _, _, forLoop_ok_iff.mpr ?_, ih hn.2, rfl⟩
    exact ⟨_, _, _, _, _, _, hinit, htest, hbody, .stepped hpos hstep⟩
  | forOnce hs hsimple hinit htest _ hreturns _ ihbody ih =>
    have hbody := ihbody hn.1.2.2.2
    have hzero := hs.entering_step_eq_zero_iff hn.1.2.2.2 hsimple.1 hinit htest hbody
    refine (stmts_cons_ok_iff hs.isOpen).mpr ⟨_, _, _, forLoop_ok_iff.mpr ?_, ih hn.2, rfl⟩
    exact ⟨_, _, _, _, _, _, hinit, htest, hbody, .skipped (hzero.mpr hreturns)⟩

/-- Lowering from an open block succeeds exactly along a derivation. -/
theorem stmts_ok_iff {P : Set Nat} {ns ns' : List Node} {s u : State} (hn : Node.AllStmt ns)
    (hs : Ahead P s s) : (stmts ns).run s = (.ok ns', u) ↔ Lowers P ns s ns' u :=
  ⟨fun hrun => (stmts_lowers hn hs hrun).2, fun h => h.run hn⟩

section

variable {s t u : State} {P : Set Nat} {n' : Node} {m : Mark} {ns ns' rest : List Node}

/-! ### Functions -/

/-- The start of a function: its first block is the current one. -/
def State.begun (s : State) (func : Nat) (sig : Option Signature) : State :=
  { s.opened func .entry with
    body := { func, sig, entry := s.arena.length, cur := s.arena.length } }

theorem run_enterFunction (s : State) (func : Nat) (sig : Option Signature) :
    (Emit.enterFunction func sig).run s = (.ok (), s.begun func sig) := rfl

theorem draft?_begun {func : Nat} {sig : Option Signature} (b : Nat) :
    (s.begun func sig).draft? b =
      if b = s.arena.length then some { func, role := .entry } else s.draft? b :=
  draft?_opened s b func .entry

theorem entering_begun (s : State) (func : Nat) (sig : Option Signature) (b : Nat) :
    (s.begun func sig).entering b = s.entering b :=
  entering_opened s func .entry b

theorem begun_mapped (hcharted : s.outline.Charted ∅)
    (hempty : ∀ b d, s.draft? b = some d → d.term = some .unreachable → d.insts = []) {func : Nat}
    (hnew : ∀ b x, s.outline b ≠ some (func, x)) (sig : Option Signature) :
    (s.begun func sig).Mapped ∅ := by
  have hout : (s.begun func sig).outline = _ := outline_opened s func .entry
  refine ⟨?_, fun b d hd hb => ?_, fun b hb => hb.elim, fun b hb => ?_, ?_, fun hb => hb, ⟨?_, ?_⟩,
    fun hb => hb⟩
  · rw [hout]
    exact hcharted.open (outline_eq_none s) (fun _ _ h => h) (.inr hnew)
  · rw [draft?_begun] at hd
    split at hd
    · cases hd
      rfl
    · exact hempty b d hd (hb.resolve_left fun h => h)
  · by_cases hne : b = s.arena.length
    · exact .inr hne
    · rw [hout, Function.update_of_ne hne] at hb
      exact absurd hb (hnew b none)
  · exact ⟨none, by rw [hout]; exact Function.update_self ..⟩
  · exact ⟨none, by rw [hout]; exact Function.update_self ..⟩
  · intro c x hc
    have hne : c ≠ s.arena.length := Nat.ne_of_lt hc
    rw [hout, Function.update_of_ne hne]
    exact hnew c x

/-- An open block other than the first one is one that a branch leads to. -/
theorem State.Mapped.entering_ne_zero (h : s.Mapped ∅) (hopen : s.done = false)
    (hne : s.body.cur ≠ s.body.entry) : s.entering s.body.cur ≠ 0 := by
  rw [Ne, entering_eq_zero_iff]
  intro hnone
  rcases h.charted.live _ _ _ (h.outline_cur hopen) (fun hb => hb) with hdead | ⟨e, he, hreach⟩
  · cases hdead
  · obtain rfl := Outline.First.unique he h.entry
    rcases hreach.cases_tail with heq | ⟨a, -, ha⟩
    · exact hne heq
    · exact hnone a ha

theorem finish_passage {pos : Position} {name : Text} {result : Ty} {a : Unit} (h : s.Mapped ∅)
    (hrun : (Emit.finish pos name result).run s = (.ok a, u)) : Passage ∅ s u true := by
  simp only [Emit.finish, Pass.bind_ok_iff, Pass.run_state] at hrun
  obtain ⟨_, _, hs, hrun⟩ := hrun
  cases hs
  split at hrun
  · rename_i hdone
    cases hrun
    exact ⟨h.onward, hdone, fun _ _ => rfl⟩
  rename_i hdone
  have hopen : s.done = false := by simpa using hdone
  split at hrun
  · cases hrun
    exact (h.ahead hopen).returned none
  split at hrun
  · rename_i hdead
    exact absurd hdead.2 (h.entering_ne_zero hopen hdead.1)
  · simp at hrun

theorem finishMain_onward {a : Unit} (h : s.Mapped ∅)
    (hrun : Emit.finishMain.run s = (.ok a, u)) : Onward ∅ s u := by
  simp only [Emit.finishMain, Pass.bind_ok_iff, Pass.run_state] at hrun
  obtain ⟨_, _, hs, hrun⟩ := hrun
  cases hs
  split at hrun
  · cases hrun
    exact h.onward
  · rename_i hdone
    cases hrun
    exact h.returned (by simpa using hdone) _

/-- The place in the module of a function of the program. -/
def State.funcOf (s : State) (name : Text) : Nat :=
  ((s.functions.lookup name).map funcIndex).getD 0

/-- The body of a function is lowered from an open block. -/
theorem parameters_passage (h : s.Mapped ∅) {func : Nat}
    (hnew : ∀ b x, s.outline b ≠ some (func, x)) {sig : Option Signature} {params : List Param}
    {a : Unit} {t : State}
    (hparams : (Emit.parameters func 0 params).run (s.begun func sig).entered = (.ok a, t)) :
    Passage ∅ (s.begun func sig) t false := by
  have h₀ : (s.begun func sig).Mapped ∅ :=
    begun_mapped h.charted (fun b d hd hb => h.empty b d hd (.inr hb)) hnew sig
  have hopen : (s.begun func sig).done = false := by
    refine (done_eq_false_iff_outline (f := func) ?_).mpr rfl
    exact (congrFun (outline_opened s func .entry) _).trans (Function.update_self ..)
  have hentered : Passage ∅ (s.begun func sig) (s.begun func sig).entered false :=
    ⟨h₀.onward.congr rfl rfl rfl rfl, hopen, fun _ _ => rfl⟩
  exact hentered.trans (hentered.ahead.along
    (straight_of_run (Emit.parameters_straight func 0 params) hparams))

end

/-! ### Items -/

/-- The state behind a function: the entry point is under construction again. -/
def State.resumed (s u : State) (e : Event) : State :=
  { u with ctx := u.ctx.record e, body := s.body }

/-- From the first state the items of the first list are lowered to those of the second, up to
the second state. -/
inductive LowersItems : List Node → State → List Node → State → Prop
  | nil {s : State} : LowersItems [] s [] s
  | function {m : Mark} {name : Text} {params : List Param} {result : Ty}
      {body body' rest rest' : List Node} {s s₁ s₂ s₃ u : State}
      (hnew : ∀ b x, s.outline b ≠ some (s.funcOf name, x))
      (hparams : (Emit.parameters (s.funcOf name) 0 params).run
        (s.begun (s.funcOf name) (s.ctx.funcs.lookup? name)).entered = (.ok (), s₁))
      (hbody : Lowers ∅ body s₁ body' s₂)
      (hfinish : (Emit.finish m.pos name result).run s₂.left = (.ok (), s₃))
      (h : LowersItems rest
        (s.resumed s₃ (.generatedFunction name (s₃.blockCount (s.funcOf name)))) rest' u) :
      LowersItems (.funcDef m name params result body :: rest) s
        (.funcDef m name params result body' :: rest') u
  | inert {n : Node} {rest rest' : List Node} {s u : State} (hn : n.IsInert) (hopen : s.done = false)
      (h : LowersItems rest s rest' u) : LowersItems (n :: rest) s (n :: rest') u
  | statement {n n' : Node} {rest rest' : List Node} {s t u : State} (hn : n.IsStmt)
      (hrun : Lowers ∅ [n] s [n'] t) (h : LowersItems rest t rest' u) :
      LowersItems (n :: rest) s (n' :: rest') u
  | skipped {n : Node} {rest rest' : List Node} {s u : State}
      (hnot : ∀ m name params result body, n ≠ .funcDef m name params result body)
      (hdone : s.done = true) (h : LowersItems rest s rest' u) :
      LowersItems (n :: rest) s (n :: rest') u

section

variable {s t u : State} {P : Set Nat} {n' : Node} {m : Mark} {ns ns' rest : List Node}

theorem function_ok_iff {m : Mark} {name : Text} {params : List Param} {result : Ty}
    {body : List Node} {n' : Node} (hn : Node.AllStmt body) (h : s.Mapped ∅)
    (hnew : ∀ b x, s.outline b ≠ some (s.funcOf name, x)) :
    (function m name params result body).run s = (.ok n', u) ↔
      ∃ s₁ body' s₂ s₃, (Emit.parameters (s.funcOf name) 0 params).run
          (s.begun (s.funcOf name) (s.ctx.funcs.lookup? name)).entered = (.ok (), s₁) ∧
        Lowers ∅ body s₁ body' s₂ ∧
        (Emit.finish m.pos name result).run s₂.left = (.ok (), s₃) ∧
        n' = .funcDef m name params result body' ∧
        u = { s₃ with
          ctx := s₃.ctx.record (.generatedFunction name (s₃.blockCount (s.funcOf name))) } := by
  simp only [function, Pass.bind_ok_iff, Pass.run_state, emit_ok_iff, Pass.inside_ok_iff,
    inScope_ok_iff, run_enterFunction]
  constructor
  · rintro ⟨_, _, hs, _, _, hbegin, body', _, ⟨t, ⟨_, s₁, hparams, hstmts⟩, rfl⟩, _, v, hfinish, _,
      w, hchange, hret⟩
    cases hs
    cases hbegin
    cases hchange
    cases hret
    have hs₁ := (parameters_passage h hnew hparams).ahead
    exact ⟨s₁, body', t, v, hparams, (stmts_lowers hn hs₁ hstmts).2, hfinish, rfl, rfl⟩
  · rintro ⟨s₁, body', s₂, s₃, hparams, hbody, hfinish, rfl, rfl⟩
    exact ⟨_, _, rfl, _, _, rfl, body', _, ⟨s₂, ⟨_, s₁, hparams, hbody.run hn⟩, rfl⟩, _, s₃, hfinish,
      _, _, rfl, rfl⟩

/-- Lowering of a function has come from the first state to the second. The blocks that were there
are as they were, and those that are new belong to the function and are terminated. -/
structure State.Spans (f : Nat) (s u : State) : Prop where
  mapped : State.Mapped ∅ { u with body := s.body }
  functions : u.functions = s.functions
  heads : s.heads <+: u.heads
  kept : ∀ b d, s.draft? b = some d → u.draft? b = some d
  roles : s.roles <+: u.roles
  entering : ∀ b < s.arena.length, u.entering b = s.entering b
  owner : ∀ b g x, u.outline b = some (g, x) → (g = f ∧ x ≠ none) ∨ s.outline b = some (g, x)

theorem State.Spans.funcOf {f : Nat} (h : s.Spans f u) (name : Text) :
    State.funcOf { u with body := s.body } name = s.funcOf name := by
  unfold State.funcOf
  rw [← h.functions]

theorem State.Spans.done {f : Nat} (h : s.Spans f u) (hs : s.Mapped ∅) :
    State.done { u with body := s.body } = s.done := by
  obtain ⟨x, hx⟩ := hs.cur
  obtain ⟨d, hd, -⟩ := outline_eq_some_iff.mp hx
  have hkept : State.draft? { u with body := s.body } s.body.cur = some d := h.kept _ d hd
  unfold State.done
  rw [hd, hkept]

theorem function_spans {name : Text} {params : List Param} {result : Ty} {body : List Node}
    (hbody : Node.AllStmt body) (h : s.Mapped ∅)
    (hnew : ∀ b x, s.outline b ≠ some (s.funcOf name, x))
    (hrun : (function m name params result body).run s = (.ok n', u)) :
    s.Spans (s.funcOf name) u := by
  obtain ⟨s₁, body', s₂, s₃, hparams, hlow, hfinish, rfl, rfl⟩ := (function_ok_iff hbody h hnew).mp hrun
  have h₁ := parameters_passage h hnew hparams
  have ht := (h₁.trans (stmts_passage hbody h₁.mapped h₁.done (hlow.run hbody))).congr
    (u := s₂.left) rfl rfl rfl rfl
  obtain ⟨⟨hv, hcont⟩, hdone, hentering⟩ := ht.trans (finish_passage ht.mapped hfinish)
  have hkept : ∀ b d, s.draft? b = some d → s₃.draft? b = some d := by
    refine fun b d hd => hcont.others b d ?_ fun (heq : d.func = s.funcOf name) => ?_
    · rw [draft?_begun, if_neg (lt_of_draft? hd).ne, hd]
    · exact hnew b d.term (outline_eq_some_iff.mpr ⟨d, hd, heq, rfl⟩)
  have hout : ∀ b x, s.outline b = some x → s₃.outline b = some x := by
    rintro b ⟨f, x⟩ hx
    obtain ⟨d, hd, rfl, rfl⟩ := outline_eq_some_iff.mp hx
    exact outline_eq_some_iff.mpr ⟨d, hkept b d hd, rfl, rfl⟩
  have howner : ∀ b f x, s₃.outline b = some (f, x) →
      (f = s.funcOf name ∧ x ≠ none) ∨ s.outline b = some (f, x) := by
    intro b f x hx
    by_cases hfunc : f = s.funcOf name
    · refine .inl ⟨hfunc, ?_⟩
      rintro rfl
      rw [hfunc, ← show s₃.body.func = s.funcOf name from hcont.func] at hx
      exact hv.pending_of_done hdone hx
    · obtain ⟨y, hy⟩ := (hcont.funcs b _ hx).resolve_left hfunc
      obtain ⟨d, hd, rfl, rfl⟩ := outline_eq_some_iff.mp hy
      rw [draft?_begun] at hd
      split at hd
      · cases hd
        exact absurd rfl hfunc
      · have hxy := hout b _ (outline_eq_some_iff.mpr ⟨d, hd, rfl, rfl⟩)
        rw [hx] at hxy
        cases hxy
        exact .inr (outline_eq_some_iff.mpr ⟨d, hd, rfl, rfl⟩)
  have hroles : s.roles <+: s₃.roles := (List.prefix_append ..).trans
    (roles_opened s (s.funcOf name) .entry ▸ hcont.roles)
  refine ⟨?_, hcont.functions, hcont.heads, hkept, hroles, fun b hb => ?_, howner⟩
  · obtain ⟨x, hx⟩ := h.cur
    have hgrows : s.outline.Grows s₃.outline := fun b f x hx => ⟨x, hout b _ hx, fun _ => rfl⟩
    refine ⟨hv.charted, hv.empty, fun b hb => hb.elim, fun b hb => ?_, ⟨x, hout _ _ hx⟩,
      fun hb => hb, hgrows.first (fun b c x hb hc => outline_ne_none hb hc) h.entry, fun hb => hb⟩
    rcases howner b _ _ hb with ⟨-, hne⟩ | hold
    · exact absurd rfl hne
    · exact h.opens b hold
  · have hlen : b < (s.begun (s.funcOf name) (s.ctx.funcs.lookup? name)).arena.length :=
      hb.trans_le (by simp [State.begun, State.opened])
    exact (hentering b hlen).trans (entering_begun s _ _ b)

/-- Between the items of a program: the blocks are charted, those of functions are terminated, and
each of the functions to come has a place of its own in the module, where there is no block yet. -/
structure State.Paced (s : State) (names : List Text) : Prop where
  mapped : s.Mapped ∅
  opens : ∀ b f, s.outline b = some (f, none) → f = s.body.func
  places : ∀ a ∈ names, ∀ b ∈ names, s.funcOf a = s.funcOf b → a = b
  awaits : ∀ name ∈ names, ∀ b x, s.outline b ≠ some (s.funcOf name, x)

theorem State.Paced.function {name : Text} {names : List Text} (h : s.Paced (name :: names))
    (hnodup : (name :: names).Nodup) {params : List Param} {result : Ty} {body : List Node}
    (hbody : Node.AllStmt body)
    (hrun : (function m name params result body).run s = (.ok n', u)) :
    State.Paced { u with body := s.body } names := by
  have hspans := function_spans hbody h.mapped (h.awaits name List.mem_cons_self) hrun
  refine ⟨hspans.mapped, fun b f hb => ?_, fun a ha b hb hab => ?_, fun other hother b x hx => ?_⟩
  · rcases hspans.owner b f _ hb with ⟨-, hne⟩ | hold
    · exact absurd rfl hne
    · exact h.opens b f hold
  · rw [hspans.funcOf, hspans.funcOf] at hab
    exact h.places a (List.mem_cons_of_mem _ ha) b (List.mem_cons_of_mem _ hb) hab
  · rw [hspans.funcOf] at hx
    rcases hspans.owner b _ _ hx with ⟨hfunc, -⟩ | hy
    · have heq := h.places other (List.mem_cons_of_mem _ hother) name List.mem_cons_self hfunc
      exact (List.nodup_cons.mp hnodup).1 (heq ▸ hother)
    · exact h.awaits other (List.mem_cons_of_mem _ hother) b x hy

theorem State.Onward.funcOf (h : Onward pending s u) (name : Text) : u.funcOf name = s.funcOf name := by
  unfold State.funcOf
  rw [h.continues.functions]

theorem State.Paced.onward {names : List Text} (h : s.Paced names) (hon : Onward ∅ s u) :
    u.Paced names := by
  refine ⟨hon.mapped, fun b f hb => ?_, fun a ha b hb hab => ?_, fun other hother b x hx => ?_⟩
  · rw [hon.continues.func]
    by_contra hne
    obtain ⟨y, hy⟩ := (hon.continues.funcs b _ hb).resolve_left hne
    obtain ⟨d, hd, hfunc, -⟩ := outline_eq_some_iff.mp hy
    obtain ⟨e, he, -, hterm⟩ := outline_eq_some_iff.mp hb
    rw [hon.continues.others b d hd (hfunc ▸ hne)] at he
    cases he
    exact hne (h.opens b f (outline_eq_some_iff.mpr ⟨d, hd, hfunc, hterm⟩))
  · rw [hon.funcOf, hon.funcOf] at hab
    exact h.places a ha b hb hab
  · rw [hon.funcOf] at hx
    obtain ⟨c, y, hy⟩ := hon.owned h.mapped hx
    exact h.awaits other hother c y hy

theorem inert_run {n : Node} (hn : n.IsInert) (s : State) : (stmt n).run s = (.ok n, s) := by
  cases n with
  | includeLib | classDecl => rfl
  | _ => exact hn.elim

/-- An item is a function, or a statement, or there is no code for it. -/
theorem isInert_or_isStmt {n : Node} (hn : n.IsItem) (hnot : n.NotFunction) :
    n.IsInert ∨ n.IsStmt := by
  cases n with
  | funcDef k name params result body => exact absurd rfl (hnot k name params result body)
  | includeLib | classDecl => exact .inl trivial
  | _ => exact .inr hn

/-- An item that is not a function is lowered like a statement. -/
theorem item_onward {n : Node} (hn : n.IsItem) (hnot : n.NotFunction) (h : s.Mapped ∅)
    (hopen : s.done = false) (hrun : (stmt n).run s = (.ok n', u)) : Onward ∅ s u := by
  rcases isInert_or_isStmt hn hnot with hinert | hstmt
  · rw [inert_run hinert] at hrun
    cases hrun
    exact h.onward
  · exact (stmt_passage hstmt h hopen hrun).toOnward

/-- One statement of the entry point. -/
theorem stmt_ok_iff {n n' : Node} {P : Set Nat} (hn : n.IsStmt) (hs : Ahead P s s) :
    (stmt n).run s = (.ok n', t) ↔ Lowers P [n] s [n'] t := by
  have hlist : Node.AllStmt [n] := ⟨hn, trivial⟩
  rw [← stmts_ok_iff hlist hs, stmts_cons_ok_iff hs.isOpen]
  constructor
  · exact fun hrun => ⟨n', t, [], hrun, stmts_nil_ok_iff.mpr ⟨rfl, rfl⟩, rfl⟩
  · rintro ⟨n₁, s₁, rest', hrun, hnil, heq⟩
    obtain ⟨rfl, rfl⟩ := stmts_nil_ok_iff.mp hnil
    cases heq
    exact hrun

/-- Lowering of items with the given functions has come from one state to the other: all blocks
are charted, and what has blocks now is one of these functions or had some before. -/
structure State.Covers (names : List Text) (s u : State) : Prop where
  mapped : u.Mapped ∅
  heads : s.heads <+: u.heads
  owned : ∀ b x, u.outline b = some x →
    (∃ name ∈ names, x.1 = s.funcOf name) ∨ ∃ c y, s.outline c = some (x.1, y)

theorem items_lowers (hshape : ∀ n ∈ ns, n.IsItem) (hnodup : (Node.functionNames ns).Nodup)
    (h : s.Paced (Node.functionNames ns)) (hrun : (items ns).run s = (.ok ns', u)) :
    LowersItems ns s ns' u ∧ s.Covers (Node.functionNames ns) u := by
  induction ns generalizing s ns' with
  | nil =>
    obtain ⟨rfl, rfl⟩ := Pass.pure_ok_iff.mp hrun
    exact ⟨.nil, h.mapped, List.prefix_rfl, fun b x hx => .inr ⟨b, x.2, hx⟩⟩
  | cons n rest ih =>
    have hitem := hshape n List.mem_cons_self
    have hshape' := fun k hk => hshape k (List.mem_cons_of_mem _ hk)
    rcases n.function_or with ⟨m, name, params, result, body, rfl⟩ | hnot
    · simp only [items, Pass.bind_ok_iff, Pass.run_state, Pass.inside_ok_iff] at hrun
      obtain ⟨_, _, hs, n', t, hn, _, _, hbody, rest', _, hrest, hret⟩ := hrun
      cases hs
      cases hbody
      cases hret
      rw [Node.functionNames] at hnodup h ⊢
      have hnew := h.awaits name List.mem_cons_self
      have hspans := function_spans hitem.2.2 h.mapped hnew hn
      obtain ⟨hlow, hcover⟩ := ih hshape' (List.nodup_cons.mp hnodup).2
        (h.function hnodup hitem.2.2 hn) hrest
      obtain ⟨s₁, body', s₂, s₃, hparams, hbody, hfinish, rfl, rfl⟩ :=
        (function_ok_iff hitem.2.2 h.mapped hnew).mp hn
      refine ⟨.function hnew hparams hbody hfinish hlow, hcover.mapped,
        hspans.heads.trans hcover.heads, fun b x hx => ?_⟩
      rcases hcover.owned b x hx with ⟨other, hother, hfunc⟩ | ⟨c, y, hc⟩
      · refine .inl ⟨other, List.mem_cons_of_mem _ hother, hfunc.trans (hspans.funcOf other)⟩
      · exact (hspans.owner c _ _ hc).imp (fun howner => ⟨name, List.mem_cons_self, howner.1⟩)
          fun hz => ⟨c, y, hz⟩
    · rw [Node.functionNames.eq_3 _ _ hnot] at hnodup h ⊢
      simp only [items.eq_3 _ _ hnot, Pass.bind_ok_iff, Pass.run_state] at hrun
      obtain ⟨_, _, hs, hrun⟩ := hrun
      cases hs
      split at hrun
      · rename_i hdone
        simp only [Pass.bind_ok_iff, Pass.inside_ok_iff] at hrun
        obtain ⟨rest', _, hrest, hret⟩ := hrun
        cases hret
        exact (ih hshape' hnodup h hrest).imp_left fun hlow => .skipped hnot hdone hlow
      · rename_i hdone
        have hopen : s.done = false := by simpa using hdone
        simp only [Pass.bind_ok_iff, Pass.inside_ok_iff] at hrun
        obtain ⟨n', t, hn, rest', _, hrest, hret⟩ := hrun
        cases hret
        have hon := item_onward hitem hnot h.mapped hopen hn
        obtain ⟨hlow, hcover⟩ := ih hshape' hnodup (h.onward hon) hrest
        refine ⟨?_, hcover.mapped, hon.continues.heads.trans hcover.heads, fun b x hx => ?_⟩
        · rcases isInert_or_isStmt hitem hnot with hinert | hstmt
          · rw [inert_run hinert] at hn
            cases hn
            exact .inert hinert hopen hlow
          · exact .statement hstmt ((stmt_ok_iff hstmt (h.mapped.ahead hopen)).mp hn) hlow
        · rcases hcover.owned b x hx with ⟨other, hother, hfunc⟩ | ⟨c, y, hc⟩
          · exact .inl ⟨other, hother, hfunc.trans (hon.funcOf other)⟩
          · exact .inr (hon.owned h.mapped hc)

theorem items_func_run {m : Mark} {name : Text} {params : List Param} {result : Ty}
    {body rest rest' : List Node} {n' : Node} {t u : State}
    (hn : (function m name params result body).run s = (.ok n', t))
    (hrest : (items rest).run { t with body := s.body } = (.ok rest', u)) :
    (items (.funcDef m name params result body :: rest)).run s = (.ok (n' :: rest'), u) := by
  rw [items, Pass.run_bind, Pass.run_state]
  change (((function m name params result body).inside _) >>= _).run s = _
  rw [Pass.run_bind_of_ok (Pass.inside_ok_iff.mpr hn)]
  change (((items rest).inside _) >>= _).run { t with body := s.body } = _
  rw [Pass.run_bind_of_ok (Pass.inside_ok_iff.mpr hrest)]
  rfl

theorem items_stmt_run {n n' : Node} {rest rest' : List Node} {t u : State}
    (hnot : n.NotFunction) (hopen : s.done = false) (hn : (stmt n).run s = (.ok n', t))
    (hrest : (items rest).run t = (.ok rest', u)) :
    (items (n :: rest)).run s = (.ok (n' :: rest'), u) := by
  rw [items.eq_3 _ _ hnot, Pass.run_bind, Pass.run_state]
  simp only [hopen, Bool.false_eq_true, if_false]
  rw [Pass.run_bind_of_ok (Pass.inside_ok_iff.mpr hn),
    Pass.run_bind_of_ok (Pass.inside_ok_iff.mpr hrest)]
  rfl

theorem items_of_done {n : Node} (hdone : s.done = true) (hnot : n.NotFunction)
    (hrest : (items rest).run s = (.ok ns', u)) : (items (n :: rest)).run s = (.ok (n :: ns'), u) := by
  simp only [items.eq_3 _ _ hnot, Pass.bind_ok_iff, Pass.run_state]
  refine ⟨_, _, rfl, ?_⟩
  rw [if_pos hdone]
  simp only [Pass.bind_ok_iff, Pass.inside_ok_iff, Pass.pure_ok_iff]
  exact ⟨ns', _, hrest, rfl, rfl⟩

theorem LowersItems.run (h : LowersItems ns s ns' u) (hshape : ∀ n ∈ ns, n.IsItem)
    (hnodup : (Node.functionNames ns).Nodup) (hs : s.Paced (Node.functionNames ns)) :
    (items ns).run s = (.ok ns', u) := by
  induction h with
  | nil => rfl
  | @function m name params result body body' rest rest' s s₁ s₂ s₃ u hnew hparams hbody hfinish _
      ih =>
    rw [Node.functionNames] at hnodup hs
    have hstmts : Node.AllStmt body := (hshape _ List.mem_cons_self).2.2
    have hn := (function_ok_iff hstmts hs.mapped hnew).mpr
      ⟨s₁, body', s₂, s₃, hparams, hbody, hfinish, rfl, rfl⟩
    have hrest := ih (fun k hk => hshape k (List.mem_cons_of_mem _ hk))
      (List.nodup_cons.mp hnodup).2 (hs.function hnodup hstmts hn)
    exact items_func_run hn hrest
  | @inert n rest rest' s u hn hopen _ ih =>
    have hnot : n.NotFunction := by
      rintro m name params result body rfl
      exact hn
    rw [Node.functionNames.eq_3 _ _ hnot] at hnodup hs
    exact items_stmt_run hnot hopen (inert_run hn s)
      (ih (fun k hk => hshape k (List.mem_cons_of_mem _ hk)) hnodup hs)
  | @statement n n' rest rest' s t u hn hrun _ ih =>
    have hnot : n.NotFunction := by
      rintro m name params result body rfl
      exact hn.elim
    rw [Node.functionNames.eq_3 _ _ hnot] at hnodup hs
    have hopen := hrun.ahead.isOpen
    have hstmt := (stmt_ok_iff hn hrun.ahead).mpr hrun
    have hon := (stmt_passage hn hs.mapped hopen hstmt).toOnward
    exact items_stmt_run hnot hopen hstmt
      (ih (fun k hk => hshape k (List.mem_cons_of_mem _ hk)) hnodup (hs.onward hon))
  | skipped hnot hdone _ ih =>
    rw [Node.functionNames.eq_3 _ _ hnot] at hnodup hs
    exact items_of_done hdone hnot (ih (fun k hk => hshape k (List.mem_cons_of_mem _ hk)) hnodup hs)

end

end Lowering

end Augite
