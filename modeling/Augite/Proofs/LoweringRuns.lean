import Augite.Proofs.Pass
import Augite.Lowering.Program

/-!
# Runs of lowering

Each step of lowering as a function on states, and what a run of a statement is made of.
The steps of a conditional or loop are put together once here; whatever is said of lowering
later is said of these steps.
-/

namespace Augite

namespace Lowering.State

/-- The instruction that is emitted next. -/
def nextInst (s : State) (op : IR.Op) : IR.Inst := { id := s.nextId, op }

/-- The current block with an instruction more. -/
def emitted (s : State) (op : IR.Op) : State :=
  { s with
    nextId := s.nextId + 1
    arena := s.arena.modify s.body.cur fun d => { d with insts := d.insts ++ [s.nextInst op] } }

/-- The current block with a terminator. -/
def closed (s : State) (t : IR.Term) : State :=
  { s with arena := s.arena.modify s.body.cur fun d => { d with term := some t } }

/-- One block more of a function. -/
def opened (s : State) (func : Nat) (role : IR.Role) : State :=
  { s with arena := s.arena ++ [{ func, role }] }

/-- One block more of the current function. -/
def grown (s : State) (role : IR.Role) : State := s.opened s.body.func role

/-- Another block is the current one. -/
def moved (s : State) (b : Nat) : State := { s with body := { s.body with cur := b } }

/-- Control goes on to a block, unless it has gone elsewhere. -/
def joined (s : State) (b : Nat) : State := if s.done then s else s.closed (.br b)

/-- The current block is closed if no branch leads to it. -/
def sealed (s : State) : State := if s.entering s.body.cur = 0 then s.closed .unreachable else s

/-- A scope more for storage. -/
def entered (s : State) : State := { s with slots := s.slots.enter }

/-- The innermost scope for storage is left. -/
def left (s : State) : State := { s with slots := s.slots.leave }

/-- The name that the next stack slot of a variable gets. -/
def slotName (s : State) (name : Text) : Text :=
  let n := (s.body.names.lookup (name ++ ".addr")).getD 0
  if n = 0 then name ++ ".addr" else name ++ ".addr" ++ "." ++ Text.decimal n

/-- The entry block with a stack slot more. -/
def reserved (s : State) (name : Text) (t : IR.Typ) : State :=
  { s with
    nextId := s.nextId + 1
    body :=
      { s.body with
        slots := s.body.slots + 1
        names := (name ++ ".addr", (s.body.names.lookup (name ++ ".addr")).getD 0 + 1) ::
          s.body.names }
    arena := s.arena.modify s.body.entry fun d =>
      { d with
        insts := d.insts.take s.body.slots ++ s.nextInst (.alloca (s.slotName name) t) ::
          d.insts.drop s.body.slots } }

/-- One global variable more. -/
def withGlobal (s : State) (name : Text) (init : IR.Const) : State :=
  { s with
    globals := s.globals ++ [{ name := "g." ++ name, init }]
    globalSlots := (name, .global s.globals.length init.type) :: s.globalSlots }

/-- One string constant more. -/
def withString (s : State) (t : Text) : State :=
  { s with
    globals := s.globals ++
      [{ name := ".str." ++ Text.decimal s.strings.length, init := .chars (t ++ [0])
         isConstant := true }]
    strings := (t, .chars s.globals.length (t.length + 1)) :: s.strings }

/-- One function more, without blocks. -/
def withHead (s : State) (head : IR.Func) : State := { s with heads := s.heads ++ [head] }

/-- The declaration of an external function. -/
def externalHead (name : Text) (result : IR.Typ) (params : List IR.Typ) (variadic : Bool) : IR.Func :=
  { name, params := params.map fun t => ([], t), result, variadic }

/-- One external function more. -/
def withExternal (s : State) (head : IR.Func) : State :=
  { s.withHead head with externals := (head.name, .func s.heads.length head.type) :: s.externals }

end Lowering.State

namespace Emit

open Lowering (State)

variable (s : State)

@[simp] theorem run_inst (op : IR.Op) :
    (inst op).run s = (.ok (s.nextInst op).value, s.emitted op) := rfl

@[simp] theorem run_effect (op : IR.Op) : (effect op).run s = (.ok (), s.emitted op) := rfl

@[simp] theorem run_branch (b : Nat) : (branch b).run s = (.ok (), s.joined b) := by
  simp only [branch, Pass.run_bind, Pass.run_state, State.joined]
  split <;> rfl

@[simp] theorem run_sealBlock : sealBlock.run s = (.ok (), s.sealed) := by
  simp only [sealBlock, Pass.run_bind, Pass.run_state, State.sealed]
  split <;> rfl

@[simp] theorem run_stackSlot (name : Text) (t : IR.Typ) :
    (stackSlot name t).run s =
      (.ok (s.nextInst (.alloca (s.slotName name) t)).value, s.reserved name t) := rfl

@[simp] theorem run_globalVariable (name : Text) (init : IR.Const) :
    (globalVariable name init).run s =
      (.ok (.global s.globals.length init.type), s.withGlobal name init) := rfl

@[simp] theorem run_addFunction (head : IR.Func) :
    (addFunction head).run s = (.ok (.func s.heads.length head.type), s.withHead head) := rfl

@[simp] theorem fail_ok_iff {α : Type} {pos : Position} {cause : InternalCause} {a : α} {u : State} :
    (fail pos cause : Emit α).run s = (.ok a, u) ↔ False := by
  simp [fail]

end Emit

namespace Lowering

open State

variable {τ α : Type} {s u : State} {n' : Node} {m : Mark} {merge : Option Nat}

theorem emit_ok_iff {tree : τ} {e : Emit α} {a : α} :
    (emit tree e).run s = (.ok a, u) ↔ e.run s = (.ok a, u) :=
  Pass.inside_ok_iff

/-! Steps that always succeed. -/

section

variable {β : Type} {tree : τ}

theorem block_bind {role : IR.Role} {f : Nat → Lowering τ β} :
    (emit tree (Emit.block role) >>= f).run s = (f s.arena.length).run (s.grown role) := rfl

theorem terminate_bind {t : IR.Term} {f : Unit → Lowering τ β} :
    (emit tree (Emit.terminate t) >>= f).run s = (f ()).run (s.closed t) := rfl

theorem moveTo_bind {b : Nat} {f : Unit → Lowering τ β} :
    (emit tree (Emit.moveTo b) >>= f).run s = (f ()).run (s.moved b) := rfl

theorem branch_bind {b : Nat} {f : Unit → Lowering τ β} :
    (emit tree (Emit.branch b) >>= f).run s = (f ()).run (s.joined b) :=
  Pass.run_bind_of_ok (emit_ok_iff.mpr (Emit.run_branch s b))

theorem sealBlock_bind {f : Unit → Lowering τ β} :
    (emit tree Emit.sealBlock >>= f).run s = (f ()).run s.sealed :=
  Pass.run_bind_of_ok (emit_ok_iff.mpr (Emit.run_sealBlock s))

end

theorem inScope_ok_iff {p : Lowering τ α} {a : α} :
    (inScope p).run s = (.ok a, u) ↔ ∃ t, p.run s.entered = (.ok a, t) ∧ u = t.left := by
  simp only [inScope, Pass.run]
  rcases hp : p { s with slots := s.slots.enter } with ⟨r, t⟩
  simp [entered, left, hp, eq_comm]

/-- A statement that only emits code stays as it is. -/
theorem emit_return_ok_iff {n : Node} {e : Emit α} :
    ((do let _ ← emit n e; return n : Lowering Node Node)).run s = (.ok n', u) ↔
      n' = n ∧ ∃ a, e.run s = (.ok a, u) := by
  simp only [Pass.bind_ok_iff, emit_ok_iff, Pass.pure_ok_iff]
  constructor
  · rintro ⟨a, _, he, rfl, rfl⟩
    exact ⟨rfl, a, he⟩
  · rintro ⟨rfl, a, he⟩
    exact ⟨a, u, he, rfl, rfl⟩

@[simp] theorem State.length_grown (s : State) (role : IR.Role) :
    (s.grown role).arena.length = s.arena.length + 1 := by
  simp [grown, opened]

/-! ### Conditionals -/

/-- Behind the test of a conditional, at the start of its first arm. -/
def State.ifStart (s : State) (v : IR.Value) : State :=
  (((s.grown .ifThen).grown .ifEnd).closed
    (.condBr v s.arena.length (s.arena.length + 1))).moved s.arena.length

theorem branch_ok_iff {test : Node} {yes : List Node} :
    (stmt (.branch m merge test yes none)).run s = (.ok n', u) ↔
      ∃ v s₁ yes' s₂, (Emit.expr test).run s = (.ok v, s₁) ∧
        (stmts yes).run (s₁.ifStart v).entered = (.ok yes', s₂) ∧
        n' = .branch m (some (s₁.arena.length + 1)) test yes' none ∧
        u = ((s₂.left.joined (s₁.arena.length + 1)).moved (s₁.arena.length + 1)).sealed := by
  simp only [stmt, Pass.bind_ok_iff, emit_ok_iff, Pass.inside_ok_iff, inScope_ok_iff, block_bind,
    terminate_bind, moveTo_bind, branch_bind, sealBlock_bind, Pass.pure_ok_iff, State.length_grown]
  constructor
  · rintro ⟨v, s₁, htest, yes', _, ⟨s₂, hyes, rfl⟩, rfl, rfl⟩
    exact ⟨v, s₁, yes', s₂, htest, hyes, rfl, rfl⟩
  · rintro ⟨v, s₁, yes', s₂, htest, hyes, rfl, rfl⟩
    exact ⟨v, s₁, htest, yes', _, ⟨s₂, hyes, rfl⟩, rfl, rfl⟩

/-- Behind the test of a conditional with two arms, at the start of the first. -/
def State.ifElseStart (s : State) (v : IR.Value) : State :=
  ((((s.grown .ifThen).grown .ifEnd).grown .ifElse).closed
    (.condBr v s.arena.length (s.arena.length + 2))).moved s.arena.length

theorem branchElse_ok_iff {test : Node} {yes no : List Node} :
    (stmt (.branch m merge test yes (some no))).run s = (.ok n', u) ↔
      ∃ v s₁ yes' s₂ no' s₃, (Emit.expr test).run s = (.ok v, s₁) ∧
        (stmts yes).run (s₁.ifElseStart v).entered = (.ok yes', s₂) ∧
        (stmts no).run
          ((s₂.left.joined (s₁.arena.length + 1)).moved (s₁.arena.length + 2)).entered =
            (.ok no', s₃) ∧
        n' = .branch m (some (s₁.arena.length + 1)) test yes' (some no') ∧
        u = ((s₃.left.joined (s₁.arena.length + 1)).moved (s₁.arena.length + 1)).sealed := by
  simp only [stmt, Pass.bind_ok_iff, emit_ok_iff, Pass.inside_ok_iff, inScope_ok_iff, block_bind,
    terminate_bind, moveTo_bind, branch_bind, sealBlock_bind, Pass.pure_ok_iff, State.length_grown]
  constructor
  · rintro ⟨v, s₁, htest, yes', _, ⟨s₂, hyes, rfl⟩, no', _, ⟨s₃, hno, rfl⟩, rfl, rfl⟩
    exact ⟨v, s₁, yes', s₂, no', s₃, htest, hyes, hno, rfl, rfl⟩
  · rintro ⟨v, s₁, yes', s₂, no', s₃, htest, hyes, hno, rfl, rfl⟩
    exact ⟨v, s₁, htest, yes', _, ⟨s₂, hyes, rfl⟩, no', _, ⟨s₃, hno, rfl⟩, rfl, rfl⟩

/-! ### Loops -/

/-- At the start of a loop's test. -/
def State.whileStart (s : State) : State :=
  ((((s.grown .whileCond).grown .whileBody).grown .whileEnd).joined s.arena.length).moved
    s.arena.length

/-- Behind the test of a loop, at the start of its body. -/
def State.loopBody (s : State) (v : IR.Value) (body exit : Nat) : State :=
  (s.closed (.condBr v body exit)).moved body

theorem whileLoop_ok_iff {test : Node} {body : List Node} :
    (stmt (.whileLoop m merge test body)).run s = (.ok n', u) ↔
      ∃ v s₁ body' s₂, (Emit.expr test).run s.whileStart = (.ok v, s₁) ∧
        (stmts body).run
          (s₁.loopBody v (s.arena.length + 1) (s.arena.length + 2)).entered = (.ok body', s₂) ∧
        n' = .whileLoop m (some (s.arena.length + 2)) test body' ∧
        u = (s₂.left.joined s.arena.length).moved (s.arena.length + 2) := by
  simp only [stmt, Pass.bind_ok_iff, emit_ok_iff, Pass.inside_ok_iff, inScope_ok_iff, block_bind,
    terminate_bind, moveTo_bind, branch_bind, Pass.pure_ok_iff, State.length_grown]
  constructor
  · rintro ⟨v, s₁, htest, body', _, ⟨s₂, hbody, rfl⟩, rfl, rfl⟩
    exact ⟨v, s₁, body', s₂, htest, hbody, rfl, rfl⟩
  · rintro ⟨v, s₁, body', s₂, htest, hbody, rfl, rfl⟩
    exact ⟨v, s₁, htest, body', _, ⟨s₂, hbody, rfl⟩, rfl, rfl⟩

/-- At the start of a counting loop's test. -/
def State.forStart (s : State) : State :=
  (((((s.grown .forCond).grown .forBody).grown .forStep).grown .forEnd).joined
    s.arena.length).moved s.arena.length

/-- Behind the body of a counting loop, at the start of its step. -/
def State.stepStart (s : State) (step : Nat) : State := (s.left.joined step).moved step

/-- The end of a counting loop with blocks from `L` on, from the start of its step. If the
body never comes to the step, the step is left out. -/
inductive ForEnd (L : Nat) (s : State) (m : Mark) (init' test step : Node) (body' : List Node) :
    Node → State → Prop
  | skipped : s.entering (L + 2) = 0 →
      ForEnd L s m init' test step body' (.forLoop m (some (L + 3)) init' test step body')
        ((s.closed .unreachable).moved (L + 3)).left
  | stepped {step' : Node} {t : State} : s.entering (L + 2) ≠ 0 →
      (stmt step).run s = (.ok step', t) →
      ForEnd L s m init' test step body' (.forLoop m (some (L + 3)) init' test step' body')
        ((t.joined L).moved (L + 3)).left

theorem forLoop_ok_iff {init test step : Node} {body : List Node} :
    (stmt (.forLoop m merge init test step body)).run s = (.ok n', u) ↔
      ∃ init' s₁ v s₂ body' s₃, (stmt init).run s.entered = (.ok init', s₁) ∧
        (Emit.expr test).run s₁.forStart = (.ok v, s₂) ∧
        (stmts body).run
          (s₂.loopBody v (s₁.arena.length + 1) (s₁.arena.length + 3)).entered = (.ok body', s₃) ∧
        ForEnd s₁.arena.length (s₃.stepStart (s₁.arena.length + 2)) m init' test step body' n' u := by
  simp only [stmt, inScope_ok_iff, Pass.bind_ok_iff, emit_ok_iff, Pass.inside_ok_iff, block_bind,
    terminate_bind, moveTo_bind, branch_bind, Pass.run_state, State.length_grown]
  constructor
  · rintro ⟨t, ⟨init', s₁, hinit, v, s₂, htest, body', _, ⟨s₃, hbody, rfl⟩, _, _, hst, hend⟩, rfl⟩
    cases hst
    refine ⟨init', s₁, v, s₂, body', s₃, hinit, htest, hbody, ?_⟩
    split at hend
    · rename_i hzero
      obtain ⟨rfl, rfl⟩ := Pass.pure_ok_iff.mp hend
      exact .skipped hzero
    · rename_i hpos
      simp only [Pass.bind_ok_iff, Pass.inside_ok_iff, moveTo_bind, branch_bind,
        Pass.pure_ok_iff] at hend
      obtain ⟨step', s₅, hstep, rfl, rfl⟩ := hend
      exact .stepped hpos hstep
  · rintro ⟨init', s₁, v, s₂, body', s₃, hinit, htest, hbody, hend⟩
    cases hend with
    | skipped hzero =>
      refine ⟨_, ⟨init', s₁, hinit, v, s₂, htest, body', _, ⟨s₃, hbody, rfl⟩, _, _, rfl, ?_⟩, rfl⟩
      split
      · rfl
      · rename_i hpos
        exact absurd hzero hpos
    | @stepped step' s₅ hpos hstep =>
      refine ⟨_, ⟨init', s₁, hinit, v, s₂, htest, body', _, ⟨s₃, hbody, rfl⟩, _, _, rfl, ?_⟩, rfl⟩
      split
      · rename_i hzero
        exact absurd hzero hpos
      · simp only [Pass.bind_ok_iff, Pass.inside_ok_iff, moveTo_bind, branch_bind,
          Pass.pure_ok_iff]
        exact ⟨step', s₅, hstep, rfl, rfl⟩

/-! ### Sequences -/

theorem stmts_nil_ok_iff {ns' : List Node} :
    (stmts []).run s = (.ok ns', u) ↔ [] = ns' ∧ s = u :=
  Pass.pure_ok_iff

/-- Behind a terminated block nothing is lowered. -/
theorem stmts_of_done {ns : List Node} (h : s.done = true) : (stmts ns).run s = (.ok ns, s) := by
  cases ns with
  | nil => rfl
  | cons n rest =>
    simp only [stmts, Pass.run_bind, Pass.run_state, h, if_true]
    rfl

theorem stmts_cons_ok_iff {n : Node} {rest ns' : List Node} (h : s.done = false) :
    (stmts (n :: rest)).run s = (.ok ns', u) ↔
      ∃ n' s₁ rest', (stmt n).run s = (.ok n', s₁) ∧ (stmts rest).run s₁ = (.ok rest', u) ∧
        ns' = n' :: rest' := by
  simp only [stmts, Pass.bind_ok_iff, Pass.run_state]
  constructor
  · rintro ⟨_, _, hst, hrun⟩
    cases hst
    rw [if_neg (by rw [h]; decide)] at hrun
    simp only [Pass.bind_ok_iff, Pass.inside_ok_iff, Pass.pure_ok_iff] at hrun
    obtain ⟨n', s₁, hn, rest', _, hrest, rfl, rfl⟩ := hrun
    exact ⟨n', s₁, rest', hn, hrest, rfl⟩
  · rintro ⟨n', s₁, rest', hn, hrest, rfl⟩
    refine ⟨_, _, rfl, ?_⟩
    rw [if_neg (by rw [h]; decide)]
    simp only [Pass.bind_ok_iff, Pass.inside_ok_iff, Pass.pure_ok_iff]
    exact ⟨n', s₁, hn, rest', _, hrest, rfl, rfl⟩

end Lowering

end Augite
