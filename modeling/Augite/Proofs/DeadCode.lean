import Augite.Proofs.ProgramTables
import Augite.Proofs.ProgramTraces
import Augite.Proofs.Recompilation
import Augite.Proofs.SameCode

/-!
# Dead code

Statements that follow one that always returns are dead. They can be deleted from a program, as
long as it stays correct, without any effect on the module: which types they mention, which
strings they use and what blocks they would need does not matter.
-/

namespace Augite

namespace Node

/-! ### Living statements -/

mutual

/-- The statement without the dead statements in it. -/
def living : Node → Node
  | .branch m merge test yes none => .branch m merge test (livingAll yes) none
  | .branch m merge test yes (some no) =>
    .branch m merge test (livingAll yes) (some (livingAll no))
  | .whileLoop m merge test body => .whileLoop m merge test (livingAll body)
  | .forLoop m merge init test step body => .forLoop m merge init test step (livingAll body)
  | .funcDef m name params result body => .funcDef m name params result (livingAll body)
  | n => n
termination_by structural n => n

/-- The statements up to one that returns. -/
def livingAll : List Node → List Node
  | [] => []
  | n :: rest => living n :: if n.returns then [] else livingAll rest
termination_by structural ns => ns

end

mutual

theorem returns_bare (n : Node) : n.bare.returns = n.returns := by
  cases n with
  | ret m value => cases value <;> rfl
  | branch m merge test yes no =>
    cases no with
    | none => rfl
    | some no => simp only [bare, returns, alwaysReturns_bare yes, alwaysReturns_bare no]
  | _ => rfl
termination_by structural n

theorem alwaysReturns_bare (ns : List Node) : alwaysReturns (bareAll ns) = alwaysReturns ns := by
  cases ns with
  | nil => rfl
  | cons n rest => simp only [bareAll, alwaysReturns, returns_bare n, alwaysReturns_bare rest]
termination_by structural ns

end

mutual

theorem returns_living (n : Node) : n.living.returns = n.returns := by
  cases n with
  | branch m merge test yes no =>
    cases no with
    | none => rfl
    | some no => simp only [living, returns, alwaysReturns_living yes, alwaysReturns_living no]
  | _ => rfl
termination_by structural n

theorem alwaysReturns_living (ns : List Node) :
    alwaysReturns (livingAll ns) = alwaysReturns ns := by
  cases ns with
  | nil => rfl
  | cons n rest =>
    simp only [livingAll, alwaysReturns, returns_living n]
    cases n.returns with
    | true => rfl
    | false => exact alwaysReturns_living rest
termination_by structural ns

end

mutual

theorem living_bare (n : Node) : n.bare.living = n.living.bare := by
  cases n with
  | ret m value => cases value <;> rfl
  | branch m merge test yes no =>
    cases no with
    | none => simp only [bare, living, livingAll_bare yes]
    | some no => simp only [bare, living, livingAll_bare yes, livingAll_bare no]
  | whileLoop m merge test body | forLoop m merge init test step body
  | funcDef m name params result body => simp only [bare, living, livingAll_bare body]
  | _ => rfl
termination_by structural n

theorem livingAll_bare (ns : List Node) : livingAll (bareAll ns) = bareAll (livingAll ns) := by
  cases ns with
  | nil => rfl
  | cons n rest =>
    simp only [bareAll, livingAll, returns_bare n, living_bare n]
    cases n.returns with
    | true => rfl
    | false => exact congrArg (n.living.bare :: ·) (livingAll_bare rest)
termination_by structural ns

end

theorem livingAll_eq_map {ns : List Node} (h : ∀ n ∈ ns, n.returns = false) :
    livingAll ns = ns.map living := by
  induction ns with
  | nil => rfl
  | cons n rest ih =>
    obtain ⟨hn, hrest⟩ := List.forall_mem_cons.mp h
    rw [livingAll, hn, List.map_cons, ← ih hrest]
    rfl

/-! ### Deletion of dead statements -/

mutual

/-- The second statement is the first one after the deletion of dead statements in it. -/
inductive Prunes : Node → Node → Prop
  | refl (n : Node) : Prunes n n
  | branch {m : Mark} {merge : Option Nat} {test : Node} {yes yes' : List Node} :
      PrunesAll false yes yes' →
      Prunes (.branch m merge test yes none) (.branch m merge test yes' none)
  | branchElse {m : Mark} {merge : Option Nat} {test : Node} {yes yes' no no' : List Node} :
      PrunesAll false yes yes' → PrunesAll false no no' →
      Prunes (.branch m merge test yes (some no)) (.branch m merge test yes' (some no'))
  | whileLoop {m : Mark} {merge : Option Nat} {test : Node} {body body' : List Node} :
      PrunesAll false body body' →
      Prunes (.whileLoop m merge test body) (.whileLoop m merge test body')
  | forLoop {m : Mark} {merge : Option Nat} {init test step : Node} {body body' : List Node} :
      PrunesAll false body body' →
      Prunes (.forLoop m merge init test step body) (.forLoop m merge init test step body')
  | funcDef {m : Mark} {name : Text} {params : List Param} {result : Ty} {body body' : List Node} :
      PrunesAll false body body' →
      Prunes (.funcDef m name params result body) (.funcDef m name params result body')

/-- The second list is the first one after the deletion of dead statements, where all statements
of the lists are dead if the flag says so. -/
inductive PrunesAll : Bool → List Node → List Node → Prop
  | nil (dead : Bool) : PrunesAll dead [] []
  | keep {dead : Bool} {n n' : Node} {rest rest' : List Node} :
      Prunes n n' → PrunesAll (dead || n.returns) rest rest' →
      PrunesAll dead (n :: rest) (n' :: rest')
  | drop {n : Node} {rest rest' : List Node} :
      PrunesAll true rest rest' → PrunesAll true (n :: rest) rest'

end

mutual

theorem Prunes.living_eq {n n' : Node} (h : Prunes n n') : n'.living = n.living := by
  cases n with
  | branch m merge test yes no =>
    cases no with
    | none =>
      cases h with
      | refl => rfl
      | branch hyes => simp only [living, hyes.livingAll_eq rfl]
    | some no =>
      cases h with
      | refl => rfl
      | branchElse hyes hno => simp only [living, hyes.livingAll_eq rfl, hno.livingAll_eq rfl]
  | whileLoop m merge test body =>
    cases h with
    | refl => rfl
    | whileLoop hbody => simp only [living, hbody.livingAll_eq rfl]
  | forLoop m merge init test step body =>
    cases h with
    | refl => rfl
    | forLoop hbody => simp only [living, hbody.livingAll_eq rfl]
  | funcDef m name params result body =>
    cases h with
    | refl => rfl
    | funcDef hbody => simp only [living, hbody.livingAll_eq rfl]
  | _ =>
    cases h
    rfl
termination_by structural n

theorem PrunesAll.livingAll_eq {ns ns' : List Node} {dead : Bool} (h : PrunesAll dead ns ns')
    (hdead : dead = false) : livingAll ns' = livingAll ns := by
  cases ns with
  | nil =>
    cases h
    rfl
  | cons n rest =>
    cases h with
    | drop => cases hdead
    | keep hn hrest =>
      rw [livingAll, livingAll, ← returns_living, hn.living_eq, returns_living]
      cases hret : n.returns with
      | true => rfl
      | false =>
        have hlive := hrest.livingAll_eq (by rw [hdead, hret]; rfl)
        simp only [hlive]
termination_by structural ns

end

mutual

theorem Prunes.isStmt {n n' : Node} (h : Prunes n n') (hn : n.IsStmt) : n'.IsStmt := by
  cases n with
  | branch m merge test yes no =>
    cases no with
    | none =>
      cases h with
      | refl => exact hn
      | branch hyes => exact ⟨hn.1, hyes.allStmt hn.2⟩
    | some no =>
      cases h with
      | refl => exact hn
      | branchElse hyes hno => exact ⟨hn.1, hyes.allStmt hn.2.1, hno.allStmt hn.2.2⟩
  | whileLoop m merge test body =>
    cases h with
    | refl => exact hn
    | whileLoop hbody => exact ⟨hn.1, hbody.allStmt hn.2⟩
  | forLoop m merge init test step body =>
    cases h with
    | refl => exact hn
    | forLoop hbody => exact ⟨hn.1, hn.2.1, hn.2.2.1, hbody.allStmt hn.2.2.2⟩
  | funcDef => exact hn.elim
  | _ =>
    cases h
    exact hn
termination_by structural n

theorem PrunesAll.allStmt {ns ns' : List Node} {dead : Bool} (h : PrunesAll dead ns ns')
    (hn : AllStmt ns) : AllStmt ns' := by
  cases ns with
  | nil =>
    cases h
    exact hn
  | cons n rest =>
    cases h with
    | keep hn' hrest => exact ⟨hn'.isStmt hn.1, hrest.allStmt hn.2⟩
    | drop hrest => exact hrest.allStmt hn.2
termination_by structural ns

end

theorem Prunes.isItem {n n' : Node} (h : Prunes n n') (hn : n.IsItem) : n'.IsItem := by
  cases h with
  | refl => exact hn
  | branch hyes => exact Prunes.isStmt (.branch hyes) hn
  | branchElse hyes hno => exact Prunes.isStmt (.branchElse hyes hno) hn
  | whileLoop hbody => exact Prunes.isStmt (.whileLoop hbody) hn
  | forLoop hbody => exact Prunes.isStmt (.forLoop hbody) hn
  | funcDef hbody => exact ⟨hn.1, hn.2.1, hbody.allStmt hn.2.2⟩

theorem PrunesAll.isItem {dead : Bool} {ns ns' : List Node} (h : PrunesAll dead ns ns')
    (hn : ∀ n ∈ ns, n.IsItem) : ∀ n ∈ ns', n.IsItem := by
  induction ns generalizing dead ns' with
  | nil =>
    cases h
    exact hn
  | cons n rest ih =>
    obtain ⟨hfirst, hothers⟩ := List.forall_mem_cons.mp hn
    cases h with
    | keep hn' hrest => exact List.forall_mem_cons.mpr ⟨hn'.isItem hfirst, ih hrest hothers⟩
    | drop hrest => exact ih hrest hothers

/-! ### Annotations of living statements -/

theorem living_notFunction {n : Node} (h : n.NotFunction) : n.living.NotFunction := by
  intro m name params result body heq
  cases n with
  | funcDef m name params result body => exact h m name params result body rfl
  | branch m merge test yes no => cases no <;> cases heq
  | _ => cases heq

theorem declared?_living (n : Node) : n.living.declared? = n.declared? := by
  cases n with
  | branch m merge test yes no => cases no <;> rfl
  | _ => rfl

mutual

theorem Marked.living {F : Context} {fn : Option Signature} {n : Node} (h : n.Marked F fn) :
    n.living.Marked F fn := by
  cases n with
  | branch m merge test yes no =>
    cases no with
    | none => exact ⟨h.1, h.2.1, AllMarked.living h.2.2⟩
    | some no => exact ⟨h.1, h.2.1, AllMarked.living h.2.2.1, AllMarked.living h.2.2.2⟩
  | whileLoop m merge test body => exact ⟨h.1, h.2.1, AllMarked.living h.2.2⟩
  | forLoop m merge init test step body =>
    exact ⟨h.1, h.2.1, h.2.2.1, h.2.2.2.1, AllMarked.living h.2.2.2.2⟩
  | funcDef m name params result body => exact ⟨h.1, AllMarked.living h.2⟩
  | _ => exact h
termination_by structural n

theorem AllMarked.living {F : Context} {fn : Option Signature} {ns : List Node}
    (h : AllMarked F fn ns) : AllMarked F fn (livingAll ns) := by
  cases ns with
  | nil => trivial
  | cons n rest =>
    refine ⟨Marked.living h.1, ?_⟩
    split
    · trivial
    · exact AllMarked.living h.2
termination_by structural ns

end

end Node

namespace Typing

open Node (living livingAll)

theorem after_living (Γ : Environment) (π : Path) (n : Node) : Γ.after π n.living = Γ.after π n := by
  unfold Environment.after
  rw [Node.declared?_living]

mutual

theorem Checked.living {F : Context} {fn : Option Signature} {n : Node} {π : Path} {Γ : Environment}
    (h : Checked F fn π Γ n) : Checked F fn π Γ n.living := by
  cases n with
  | branch m merge test yes no =>
    cases no with
    | none => exact ⟨h.1, AllChecked.living h.2⟩
    | some no => exact ⟨h.1, AllChecked.living h.2.1, AllChecked.living h.2.2⟩
  | whileLoop m merge test body => exact ⟨h.1, AllChecked.living h.2⟩
  | forLoop m merge init test step body => exact ⟨h.1, h.2.1, h.2.2.1, AllChecked.living h.2.2.2⟩
  | _ => exact h
termination_by structural n

theorem AllChecked.living {F : Context} {fn : Option Signature} {ns : List Node} {π : Path} {i : Nat}
    {Γ : Environment} (h : AllChecked F fn π i Γ ns) : AllChecked F fn π i Γ (livingAll ns) := by
  cases ns with
  | nil => trivial
  | cons n rest =>
    refine ⟨Checked.living h.1, ?_⟩
    rw [after_living]
    split
    · trivial
    · exact AllChecked.living h.2
termination_by structural ns

end

theorem CheckedItems.living {F : Context} {ns : List Node} {i : Nat} {Γ : Environment}
    (h : CheckedItems F i Γ ns) : CheckedItems F i Γ (ns.map Node.living) := by
  induction ns generalizing i Γ with
  | nil => trivial
  | cons n rest ih =>
    rcases n.function_or with ⟨m, name, params, result, body, rfl⟩ | hnot
    · exact ⟨⟨h.1.entered, h.1.distinct, h.1.checked.living, fun hr => by
        rw [Node.alwaysReturns_living]
        exact h.1.returns hr⟩, ih h.2⟩
    · rw [CheckedItems.eq_3 _ _ _ _ _ hnot] at h
      rw [List.map_cons, CheckedItems.eq_3 _ _ _ _ _ (Node.living_notFunction hnot), after_living]
      exact ⟨h.1.living, ih h.2⟩

end Typing

/-! ### Code of living statements -/

namespace Lowering

open State Node

variable {s t u : State}

/-- What stands behind the body of a counting loop does not depend on the body's tree. -/
theorem ForEnd.congr {L : Nat} {m : Mark} {init test step n' : Node} {body : List Node}
    (h : ForEnd L s m init test step body n' u) (body' : List Node) :
    ∃ n'', ForEnd L s m init test step body' n'' u := by
  cases h with
  | skipped hzero => exact ⟨_, .skipped hzero⟩
  | stepped hpos hrun => exact ⟨_, .stepped hpos hrun⟩

mutual

/-- A statement has the code of its living part. -/
theorem stmt_living {n : Node} (hn : n.IsStmt) {P : Set Nat} {s t : State} (hs : Ahead P s s) :
    (∃ n', (stmt n).run s = (.ok n', t)) ↔ ∃ n', (stmt n.living).run s = (.ok n', t) := by
  cases n with
  | branch m merge test yes no =>
    cases no with
    | none =>
      have key {v : IR.Value} {s₁ s₂ : State} (htest : (Emit.expr test).run s = (.ok v, s₁)) :=
        stmts_living (u := s₂) hn.2 ((hs.along (test_straight htest)).ahead.ifStart v).entered
      constructor
      · rintro ⟨n', hrun⟩
        obtain ⟨v, s₁, yes', s₂, htest, hyes, rfl, rfl⟩ := branch_ok_iff.mp hrun
        obtain ⟨yes', hyes⟩ := (key htest).mp ⟨_, hyes⟩
        exact ⟨_, branch_ok_iff.mpr ⟨v, s₁, yes', s₂, htest, hyes, rfl, rfl⟩⟩
      · rintro ⟨n', hrun⟩
        obtain ⟨v, s₁, yes', s₂, htest, hyes, rfl, rfl⟩ := branch_ok_iff.mp hrun
        obtain ⟨yes', hyes⟩ := (key htest).mpr ⟨_, hyes⟩
        exact ⟨_, branch_ok_iff.mpr ⟨v, s₁, yes', s₂, htest, hyes, rfl, rfl⟩⟩
    | some no =>
      have key {v : IR.Value} {s₁ s₂ : State} (htest : (Emit.expr test).run s = (.ok v, s₁)) :=
        stmts_living (u := s₂) hn.2.1 ((hs.along (test_straight htest)).ahead.ifElseStart v).1.entered
      have key' {v : IR.Value} {s₁ s₂ s₃ : State} {yes' : List Node}
          (htest : (Emit.expr test).run s = (.ok v, s₁))
          (hyes : (stmts yes).run (s₁.ifElseStart v).entered = (.ok yes', s₂)) :=
        have h₁ := (hs.along (test_straight htest)).ahead
        have hfirst := (stmts_lowers hn.2.1 (h₁.ifElseStart v).1.entered hyes).1.scoped.toOnward
        stmts_living (u := s₃) hn.2.2 (h₁.secondArm hfirst).entered
      constructor
      · rintro ⟨n', hrun⟩
        obtain ⟨v, s₁, yes', s₂, no', s₃, htest, hyes, hno, rfl, rfl⟩ := branchElse_ok_iff.mp hrun
        obtain ⟨no', hno⟩ := (key' htest hyes).mp ⟨_, hno⟩
        obtain ⟨yes', hyes⟩ := (key htest).mp ⟨_, hyes⟩
        exact ⟨_, branchElse_ok_iff.mpr ⟨v, s₁, yes', s₂, no', s₃, htest, hyes, hno, rfl, rfl⟩⟩
      · rintro ⟨n', hrun⟩
        obtain ⟨v, s₁, yes', s₂, no', s₃, htest, hyes, hno, rfl, rfl⟩ := branchElse_ok_iff.mp hrun
        obtain ⟨yes', hyes⟩ := (key htest).mpr ⟨_, hyes⟩
        obtain ⟨no', hno⟩ := (key' htest hyes).mpr ⟨_, hno⟩
        exact ⟨_, branchElse_ok_iff.mpr ⟨v, s₁, yes', s₂, no', s₃, htest, hyes, hno, rfl, rfl⟩⟩
  | whileLoop m merge test body =>
    have key {v : IR.Value} {s₁ s₂ : State} (htest : (Emit.expr test).run s.whileStart = (.ok v, s₁)) :=
      stmts_living (u := s₂) hn.2 (hs.whileBody (test_straight htest) v).1.entered
    constructor
    · rintro ⟨n', hrun⟩
      obtain ⟨v, s₁, body', s₂, htest, hbody, rfl, rfl⟩ := whileLoop_ok_iff.mp hrun
      obtain ⟨body', hbody⟩ := (key htest).mp ⟨_, hbody⟩
      exact ⟨_, whileLoop_ok_iff.mpr ⟨v, s₁, body', s₂, htest, hbody, rfl, rfl⟩⟩
    · rintro ⟨n', hrun⟩
      obtain ⟨v, s₁, body', s₂, htest, hbody, rfl, rfl⟩ := whileLoop_ok_iff.mp hrun
      obtain ⟨body', hbody⟩ := (key htest).mpr ⟨_, hbody⟩
      exact ⟨_, whileLoop_ok_iff.mpr ⟨v, s₁, body', s₂, htest, hbody, rfl, rfl⟩⟩
  | forLoop m merge init test step body =>
    have key {init' : Node} {v : IR.Value} {s₁ s₂ s₃ : State}
        (hinit : (stmt init).run s.entered = (.ok init', s₁))
        (htest : (Emit.expr test).run s₁.forStart = (.ok v, s₂)) :=
      stmts_living (u := s₃) hn.2.2.2
        ((hs.forInit hn.1 hinit).ahead.forBody (test_straight htest) v).1.entered
    constructor
    · rintro ⟨n', hrun⟩
      obtain ⟨init', s₁, v, s₂, body', s₃, hinit, htest, hbody, hend⟩ := forLoop_ok_iff.mp hrun
      obtain ⟨body', hbody⟩ := (key hinit htest).mp ⟨_, hbody⟩
      obtain ⟨n', hend⟩ := hend.congr body'
      exact ⟨n', forLoop_ok_iff.mpr ⟨init', s₁, v, s₂, body', s₃, hinit, htest, hbody, hend⟩⟩
    · rintro ⟨n', hrun⟩
      obtain ⟨init', s₁, v, s₂, body', s₃, hinit, htest, hbody, hend⟩ := forLoop_ok_iff.mp hrun
      obtain ⟨body', hbody⟩ := (key hinit htest).mpr ⟨_, hbody⟩
      obtain ⟨n', hend⟩ := hend.congr body'
      exact ⟨n', forLoop_ok_iff.mpr ⟨init', s₁, v, s₂, body', s₃, hinit, htest, hbody, hend⟩⟩
  | funcDef => exact hn.elim
  | _ => exact .rfl
termination_by structural n

theorem stmts_living {ns : List Node} (hn : AllStmt ns) {P : Set Nat} {s u : State} (hs : Ahead P s s) :
    (∃ ns', (stmts ns).run s = (.ok ns', u)) ↔ ∃ ns', (stmts (livingAll ns)).run s = (.ok ns', u) := by
  cases ns with
  | nil => exact .rfl
  | cons n rest =>
    have key {t : State} := stmt_living (t := t) hn.1 hs
    have key' {n' : Node} {t : State} (hrun : (stmt n).run s = (.ok n', t)) :
        (∃ rest', (stmts rest).run t = (.ok rest', u)) ↔
          ∃ rest', (stmts (if n.returns then [] else livingAll rest)).run t = (.ok rest', u) := by
      have hpass := (stmt_lowers hn.1 hs hrun).1
      cases hreturns : n.returns with
      | true =>
        rw [hreturns] at hpass
        simp only [stmts_of_done hpass.done, Prod.mk.injEq, Except.ok.injEq, exists_eq_left']
      | false =>
        rw [hreturns] at hpass
        exact stmts_living hn.2 hpass.ahead
    rw [livingAll]
    constructor
    · rintro ⟨_, hrun⟩
      obtain ⟨n', t, rest', hfirst, hrest, rfl⟩ := (stmts_cons_ok_iff hs.isOpen).mp hrun
      obtain ⟨rest', hrest⟩ := (key' hfirst).mp ⟨_, hrest⟩
      obtain ⟨n', hfirst⟩ := key.mp ⟨_, hfirst⟩
      exact ⟨_, (stmts_cons_ok_iff hs.isOpen).mpr ⟨n', t, rest', hfirst, hrest, rfl⟩⟩
    · rintro ⟨_, hrun⟩
      obtain ⟨n', t, rest', hfirst, hrest, rfl⟩ := (stmts_cons_ok_iff hs.isOpen).mp hrun
      obtain ⟨n', hfirst⟩ := key.mpr ⟨_, hfirst⟩
      obtain ⟨rest', hrest⟩ := (key' hfirst).mpr ⟨_, hrest⟩
      exact ⟨_, (stmts_cons_ok_iff hs.isOpen).mpr ⟨n', t, rest', hfirst, hrest, rfl⟩⟩
termination_by structural ns

end

/-- A function has the code of one with another body if the bodies have the same code. -/
theorem function_congr {m : Mark} {name : Text} {params : List Param} {result : Ty}
    {body body₁ : List Node} {n' : Node}
    (hbody : ∀ s₁ t, (Emit.parameters (s.funcOf name) 0 params).run
        (s.begun (s.funcOf name) (s.ctx.funcs.lookup? name)).entered = (.ok (), s₁) →
      (∃ body', (stmts body).run s₁ = (.ok body', t)) → ∃ body', (stmts body₁).run s₁ = (.ok body', t))
    (hrun : (function m name params result body).run s = (.ok n', u)) :
    ∃ n', (function m name params result body₁).run s = (.ok n', u) := by
  simp only [function, Pass.bind_ok_iff, Pass.run_state, emit_ok_iff, Pass.inside_ok_iff,
    inScope_ok_iff, run_enterFunction] at hrun ⊢
  obtain ⟨_, _, hstate, _, _, hbegin, body', _, ⟨t, ⟨_, s₁, hparams, hstmts⟩, rfl⟩, _, v, hfinish, _,
    w, hchange, hret⟩ := hrun
  cases hstate
  cases hbegin
  cases hchange
  cases hret
  obtain ⟨body', hstmts⟩ := hbody s₁ t hparams ⟨_, hstmts⟩
  exact ⟨_, _, _, rfl, _, _, rfl, body', _, ⟨t, ⟨_, s₁, hparams, hstmts⟩, rfl⟩, _, v, hfinish, _, _,
    rfl, rfl⟩

theorem function_living {m : Mark} {name : Text} {params : List Param} {result : Ty}
    {body : List Node} (hn : AllStmt body) (hs : s.Mapped ∅)
    (hnew : ∀ b x, s.outline b ≠ some (s.funcOf name, x)) :
    (∃ n', (function m name params result body).run s = (.ok n', u)) ↔
      ∃ n', (function m name params result (livingAll body)).run s = (.ok n', u) := by
  constructor
  · rintro ⟨n', hrun⟩
    refine function_congr (fun s₁ t hparams => ?_) hrun
    exact (stmts_living hn (parameters_passage hs hnew hparams).ahead).mp
  · rintro ⟨n', hrun⟩
    refine function_congr (fun s₁ t hparams => ?_) hrun
    exact (stmts_living hn (parameters_passage hs hnew hparams).ahead).mpr

theorem items_function_iff {m : Mark} {name : Text} {params : List Param} {result : Ty}
    {body rest : List Node} :
    (∃ ns', (items (.funcDef m name params result body :: rest)).run s = (.ok ns', u)) ↔
      ∃ t, (∃ n', (function m name params result body).run s = (.ok n', t)) ∧
        ∃ rest', (items rest).run { t with body := s.body } = (.ok rest', u) := by
  constructor
  · rintro ⟨ns', hrun⟩
    simp only [items, Pass.bind_ok_iff, Pass.run_state, Pass.inside_ok_iff] at hrun
    obtain ⟨_, _, hs, n', t, hn, _, _, hbody, rest', _, hrest, hret⟩ := hrun
    cases hs
    cases hbody
    cases hret
    exact ⟨t, ⟨n', hn⟩, rest', hrest⟩
  · rintro ⟨t, ⟨n', hn⟩, rest', hrest⟩
    exact ⟨_, items_func_run hn hrest⟩

theorem items_statement_iff {n : Node} {rest : List Node} (hnot : n.NotFunction) :
    (∃ ns', (items (n :: rest)).run s = (.ok ns', u)) ↔
      ∃ t, (if s.done then t = s else ∃ n', (stmt n).run s = (.ok n', t)) ∧
        ∃ rest', (items rest).run t = (.ok rest', u) := by
  constructor
  · rintro ⟨ns', hrun⟩
    simp only [items.eq_3 _ _ hnot, Pass.bind_ok_iff, Pass.run_state] at hrun
    obtain ⟨_, _, hs, hrun⟩ := hrun
    cases hs
    split at hrun
    · simp only [Pass.bind_ok_iff, Pass.inside_ok_iff] at hrun
      obtain ⟨rest', _, hrest, hret⟩ := hrun
      cases hret
      exact ⟨s, by rw [if_pos ‹_›], rest', hrest⟩
    · simp only [Pass.bind_ok_iff, Pass.inside_ok_iff] at hrun
      obtain ⟨n', t, hn, rest', _, hrest, hret⟩ := hrun
      cases hret
      exact ⟨t, by rw [if_neg ‹_›]; exact ⟨n', hn⟩, rest', hrest⟩
  · rintro ⟨t, hn, rest', hrest⟩
    cases hdone : s.done with
    | true =>
      rw [hdone, if_pos rfl] at hn
      exact ⟨_, items_of_done hdone hnot (hn ▸ hrest)⟩
    | false =>
      rw [hdone, if_neg Bool.false_ne_true] at hn
      obtain ⟨n', hn⟩ := hn
      exact ⟨_, items_stmt_run hnot hdone hn hrest⟩

/-- Items have the code of their living parts. -/
theorem items_living {ns : List Node} (hshape : ∀ n ∈ ns, n.IsItem)
    (hnodup : (functionNames ns).Nodup) (hs : s.Paced (functionNames ns)) :
    (∃ ns', (items ns).run s = (.ok ns', u)) ↔
      ∃ ns', (items (ns.map living)).run s = (.ok ns', u) := by
  induction ns generalizing s with
  | nil => exact .rfl
  | cons n rest ih =>
    obtain ⟨hitem, hshape'⟩ := List.forall_mem_cons.mp hshape
    rcases n.function_or with ⟨m, name, params, result, body, rfl⟩ | hnot
    · rw [functionNames] at hnodup hs
      have hnew := hs.awaits name List.mem_cons_self
      rw [List.map_cons, living, items_function_iff, items_function_iff]
      refine exists_congr fun t => ?_
      rw [← function_living hitem.2.2 hs.mapped hnew]
      refine and_congr_right ?_
      rintro ⟨n', hn⟩
      exact ih hshape' (List.nodup_cons.mp hnodup).2 (hs.function hnodup hitem.2.2 hn)
    · rw [functionNames.eq_3 _ _ hnot] at hnodup hs
      rw [List.map_cons, items_statement_iff hnot, items_statement_iff (living_notFunction hnot)]
      refine exists_congr fun t => ?_
      cases hopen : s.done with
      | true =>
        simp only [if_true]
        refine and_congr_right fun heq => ?_
        rw [heq]
        exact ih hshape' hnodup hs
      | false =>
        simp only [Bool.false_eq_true, if_false]
        have hfirst : (∃ n', (stmt n).run s = (.ok n', t)) ↔
            ∃ n', (stmt n.living).run s = (.ok n', t) := by
          rcases isInert_or_isStmt hitem hnot with hinert | hstmt
          · cases n <;> first | exact hinert.elim | exact .rfl
          · exact stmt_living hstmt (hs.mapped.ahead hopen)
        rw [← hfirst]
        refine and_congr_right ?_
        rintro ⟨n', hn⟩
        exact ih hshape' hnodup (hs.onward (item_onward hitem hnot hs.mapped hopen hn))

end Lowering

namespace Node

/-- What is read off an item is in its head: neither the marks nor the dead code matter. -/
structure OnHead {α : Type} (f : Node → Option α) : Prop where
  bare : ∀ n, f n.bare = f n
  living : ∀ n, f n.living = f n

theorem heads_bare (n : Node) : n.bare.head? = n.head? ∧ n.bare.signature? = n.signature? ∧
    n.bare.classDef? = n.classDef? := by
  cases n with
  | ret m value => cases value <;> exact ⟨rfl, rfl, rfl⟩
  | branch m merge test yes no => cases no <;> exact ⟨rfl, rfl, rfl⟩
  | _ => exact ⟨rfl, rfl, rfl⟩

theorem heads_living (n : Node) : n.living.head? = n.head? ∧ n.living.signature? = n.signature? ∧
    n.living.classDef? = n.classDef? := by
  cases n with
  | branch m merge test yes no => cases no <;> exact ⟨rfl, rfl, rfl⟩
  | _ => exact ⟨rfl, rfl, rfl⟩

theorem onHead_head? : OnHead head? :=
  ⟨fun n => (heads_bare n).1, fun n => (heads_living n).1⟩

theorem onHead_signature? : OnHead signature? :=
  ⟨fun n => (heads_bare n).2.1, fun n => (heads_living n).2.1⟩

theorem onHead_classDef? : OnHead classDef? :=
  ⟨fun n => (heads_bare n).2.2, fun n => (heads_living n).2.2⟩

section

variable {α : Type} {f : Node → Option α} (hf : OnHead f) {ns ms : List Node}

include hf

theorem OnHead.filterMap_bareAll (ns : List Node) : (bareAll ns).filterMap f = ns.filterMap f := by
  rw [bareAll_eq_map, List.filterMap_map]
  exact List.filterMap_congr fun n _ => hf.bare n

theorem OnHead.filterMap_living (ns : List Node) :
    (ns.map Node.living).filterMap f = ns.filterMap f := by
  rw [List.filterMap_map]
  exact List.filterMap_congr fun n _ => hf.living n

theorem OnHead.filterMap_eq (h : bareAll (ms.map Node.living) = bareAll (ns.map Node.living)) :
    ms.filterMap f = ns.filterMap f := by
  have heq := congrArg (List.filterMap f) h
  rwa [hf.filterMap_bareAll, hf.filterMap_bareAll, hf.filterMap_living, hf.filterMap_living] at heq

end

end Node

theorem lowered_eq_ok_iff {ctx : Context} {body : List Node} {m : IR.Module} :
    lowered ctx body = .ok m ↔
      ∃ body' s, (Lowering.program body).run { ctx } = (.ok body', s) ∧ m = s.module := by
  unfold lowered
  rcases (Lowering.program body).run { ctx } with ⟨e | body', s⟩
  · constructor
    · intro h
      cases h
    · rintro ⟨_, _, h, -⟩
      cases h
  · constructor
    · intro h
      cases h
      exact ⟨body', s, rfl, rfl⟩
    · rintro ⟨_, _, h, rfl⟩
      cases h
      rfl

theorem lowered_living {F : Context} (hF : F.Sound) {ns : List Node} (hshape : ∀ n ∈ ns, n.IsItem)
    (hnames : F.funcs.names = Node.functionNames ns) (hn : Typing.CheckedItems F 0 {} ns)
    (m : IR.Module) : lowered F ns = .ok m ↔ lowered F (ns.map Node.living) = .ok m := by
  have hnodup : (Node.functionNames ns).Nodup := hnames ▸ hF.names
  have hstart : Lowering.startState F (ns.map Node.living) = Lowering.startState F ns := by
    unfold Lowering.startState
    rw [Node.onHead_head?.filterMap_living]
  have hitems {t : Lowering.State} := Lowering.items_living (u := t) hshape hnodup
    (Lowering.startState_paced F hnodup)
  simp only [lowered_eq_ok_iff, Lowering.program_items_iff hF hn,
    Lowering.program_items_iff hF hn.living, hstart]
  constructor
  · rintro ⟨_, _, ⟨t, hrun, rfl⟩, rfl⟩
    obtain ⟨ns', hrun⟩ := hitems.mp ⟨_, hrun⟩
    exact ⟨ns', _, ⟨t, hrun, rfl⟩, rfl⟩
  · rintro ⟨_, _, ⟨t, hrun, rfl⟩, rfl⟩
    obtain ⟨ns', hrun⟩ := hitems.mpr ⟨_, hrun⟩
    exact ⟨ns', _, ⟨t, hrun, rfl⟩, rfl⟩

namespace Program

variable {p q p' q' : Program} {F G : Context}

/-- No item returns, and so all items of a certified program are alive. -/
theorem Certified.livingAll_eq (hc : Certified p F p') :
    Node.livingAll p'.body = p'.body.map Node.living :=
  Node.livingAll_eq_map (Lowering.returns_of_checkedItems hc.checked)

theorem Certified.bareAll_living (hc : Certified p F p') :
    Node.bareAll (p'.body.map Node.living) = Node.bareAll (Node.livingAll p.body) := by
  rw [← hc.livingAll_eq, ← Node.livingAll_bare, hc.bare, Node.livingAll_bare]

theorem Certified.allMarked_living (hc : Certified p F p') :
    Node.AllMarked F none (p'.body.map Node.living) :=
  hc.livingAll_eq ▸ hc.marked.living

/-- Certified programs with the same living statements have the same functions and classes. -/
theorem twins_of_bareAll (hp : ∀ n ∈ p.body, n.IsItem) (hq : ∀ n ∈ q.body, n.IsItem)
    (hrun : p.analyse {} = (.ok (), F, p')) (hrun' : q.analyse {} = (.ok (), G, q'))
    (h : Node.bareAll (q'.body.map Node.living) = Node.bareAll (p'.body.map Node.living)) :
    F.Twins G := by
  have hc := analyse_certified hp hrun
  have hc' := analyse_certified hq hrun'
  have heq {α : Type} {f : Node → Option α} (hf : Node.OnHead f) :
      q.body.filterMap f = p.body.filterMap f := by
    rw [← hf.filterMap_bareAll q.body, ← hf.filterMap_bareAll p.body, ← hc.bare, ← hc'.bare,
      hf.filterMap_bareAll, hf.filterMap_bareAll, hf.filterMap_eq h]
  obtain ⟨hfuncs, hclasses⟩ := analyse_tables hp hrun
  obtain ⟨hfuncs', hclasses'⟩ := analyse_tables hq hrun'
  rw [heq Node.onHead_signature?, ← hfuncs] at hfuncs'
  rw [heq Node.onHead_classDef?, ← hclasses] at hclasses'
  exact ⟨hc.sound, hc'.sound, congrArg FuncTable.mk hfuncs', hclasses'⟩

end Program

/-- A function with statements after its return. -/
def returnsEarly (dead : List Node) : Program where
  key := 0
  mark := .at_ .none
  body :=
    [.funcDef (.at_ .none) "f" [] .int (.ret (.at_ .none) (some (.int (.at_ .none) 1)) :: dead),
      .print (.at_ .none) (.call (.at_ .none) "f" [])]

/-- A loop with a string of its own, a branch and a declaration. -/
def deadLoop : Node :=
  .whileLoop (.at_ .none) none (.bool (.at_ .none) true)
    [.branch (.at_ .none) none (.bool (.at_ .none) false)
      [.print (.at_ .none) (.string (.at_ .none) "never")] none,
      .varDef (.at_ .none) "n" .int (.int (.at_ .none) 2)]

end Augite
