import Augite.Proofs.AnalysisProgram
import Augite.Proofs.KeptTree
import Augite.Proofs.ParsedShape
import Augite.Parse.Program

/-!
# Tables over a session

A session is a sequence of analyses of programs and expressions in one context, some of
which may fail. Whatever an analysis does to the tables it does entry by entry, also if it
stops halfway, so that what holds at the start and is kept by every entry holds throughout
a session.
-/

namespace Augite

namespace Context

/-! ### Entries -/

/-- What an analysis may do to the tables of a context at once. -/
inductive Entry : Context → Context → Prop
  | list {c : Context} {k : Kind} : k.isScalar = true →
      Entry c { c with members := c.members.registerList k }
  | graph {c : Context} {k : Kind} : k.isScalar = true →
      Entry c { c with members := c.members.registerGraph k }
  | class_ {c d : Context} {k : ClassDef} : k.Sound → c.addClass? k = some d → Entry c d
  | function {c : Context} {sig : Signature} : c.funcs.lookup? sig.name = none →
      Signature.isReserved sig.name = false →
      Entry c { c with funcs := { entries := c.funcs.entries ++ [sig] } }
  | other {c d : Context} : d.funcs = c.funcs → d.members = c.members → d.classes = c.classes →
      Entry c d

/-- What a statement may do to the tables of a context at once. -/
inductive Registers : Context → Context → Prop
  | list {c : Context} {k : Kind} : k.isScalar = true →
      Registers c { c with members := c.members.registerList k }
  | graph {c : Context} {k : Kind} : k.isScalar = true →
      Registers c { c with members := c.members.registerGraph k }

theorem Registers.entry {c d : Context} (h : c.Registers d) : c.Entry d := by
  cases h with
  | list hk => exact .list hk
  | graph hk => exact .graph hk

/-- Any number of entries lead from one context to the other. -/
def Reaches : Context → Context → Prop := Relation.ReflTransGen Entry

theorem Reaches.refl (c : Context) : c.Reaches c := Relation.ReflTransGen.refl

theorem Reaches.trans {c d e : Context} (h : c.Reaches d) (k : d.Reaches e) : c.Reaches e :=
  Relation.ReflTransGen.trans h k

theorem Entry.reaches {c d : Context} (h : c.Entry d) : c.Reaches d := Relation.ReflTransGen.single h

/-- The entries of a member table: each type name has the members of its type. -/
inductive Receiver (classes : List ClassDef) : Text → List Member → Prop
  | list {k : Kind} : k.isScalar = true → Receiver classes (Ty.listOf k).name (Member.ofList k)
  | graph {k : Kind} : k.isScalar = true → Receiver classes (Ty.graphOf k).name (Member.ofGraph k)
  | class_ {d : ClassDef} : d ∈ classes → Receiver classes d.name (Member.ofFields 0 d.fields)

/-- What every entry keeps. -/
structure Tabled (c : Context) : Prop where
  names : c.funcs.names.Nodup
  free : ∀ name ∈ c.funcs.names, Signature.isReserved name = false
  classes : (c.classes.map ClassDef.name).Nodup
  sound : ∀ d ∈ c.classes, d.Sound
  members : ∀ d ∈ c.classes, c.members.listed? d.name = some (Member.ofFields 0 d.fields)
  receivers : ∀ key ms, c.members.listed? key = some ms → Receiver c.classes key ms

theorem Receiver.append {ks : List ClassDef} {key : Text} {ms : List Member}
    (hr : Receiver ks key ms) (k : ClassDef) : Receiver (ks ++ [k]) key ms := by
  cases hr with
  | list hk => exact .list hk
  | graph hk => exact .graph hk
  | class_ hd => exact .class_ (List.mem_append_left _ hd)

namespace Tabled

variable {c d : Context}

theorem empty : Tabled {} where
  names := .nil
  free _ h := absurd h List.not_mem_nil
  classes := .nil
  sound _ h := absurd h List.not_mem_nil
  members _ h := absurd h List.not_mem_nil
  receivers _ _ h := by cases h

/-- The members of a list or graph type, entered under the name of the type. -/
theorem addOnce (h : c.Tabled) {key : Text} {ms : List Member} (hms : (ms.map Member.name).Nodup)
    (hkey : Receiver c.classes key ms) :
    let e : Context := { c with members := c.members.addOnce key ms }
    e.Tabled ∧ c.Extends e := by
  have entry : ∀ name, (c.members.addOnce key ms).listed? name =
      if name = key ∧ c.members.listed? key = none then some ms else c.members.listed? name :=
    c.members.listed?_addOnce hms
  have hkept : ∀ name old, c.members.listed? name = some old →
      (c.members.addOnce key ms).listed? name = some old := by
    intro name old hname
    rw [entry, if_neg]
    · exact hname
    · rintro ⟨rfl, hnone⟩
      rw [hnone] at hname
      cases hname
  refine ⟨?_, ⟨fun _ _ h => h, fun _ _ h => h, hkept⟩⟩
  exact
    { names := h.names
      free := h.free
      classes := h.classes
      sound := h.sound
      members := fun d hd => hkept _ _ (h.members d hd)
      receivers := by
        intro name old hname
        change (c.members.addOnce key ms).listed? name = _ at hname
        rw [entry] at hname
        split at hname
        · rename_i heq
          cases hname
          exact heq.1 ▸ hkey
        · exact h.receivers name old hname }

/-- No entry of the member table is under the name of a class to come. -/
theorem listed?_eq_none (h : c.Tabled) {k : ClassDef} (hk : k.name.IsWord)
    (hnone : c.class? k.name = none) : c.members.listed? k.name = none := by
  rcases he : c.members.listed? k.name with _ | ms
  · rfl
  · have hr := h.receivers _ _ he
    generalize hname : k.name = key at hr
    cases hr with
    | list => exact absurd (hname ▸ Ty.angle_mem_name_listOf _) hk.no_angle
    | graph => exact absurd (hname ▸ Ty.angle_mem_name_graphOf _) hk.no_angle
    | @class_ d hd => exact absurd hname.symm (by simpa using List.find?_eq_none.mp hnone d hd)

theorem addClass (h : c.Tabled) {k : ClassDef} (hk : k.Sound) (hadd : c.addClass? k = some d) :
    d.Tabled ∧ c.Extends d := by
  unfold addClass? at hadd
  split at hadd
  · cases hadd
  rename_i hnew
  cases hadd
  have hnone : c.class? k.name = none := by simpa using hnew
  have hfresh := h.listed?_eq_none hk.word hnone
  have entry := MemberTable.listed?_registerClass hfresh hk.nodup
  have hkept : ∀ key ms, c.members.listed? key = some ms →
      (c.members.registerClass k.name k.fields).listed? key = some ms := by
    intro key ms hms
    rw [entry, if_neg]
    · exact hms
    · rintro rfl
      rw [hfresh] at hms
      cases hms
  refine ⟨?_, fun _ _ hs => hs, ?_, hkept⟩
  · exact
      { names := h.names
        free := h.free
        classes := by
          change ((c.classes ++ [k]).map ClassDef.name).Nodup
          rw [List.map_append, List.nodup_append]
          refine ⟨h.classes, List.nodup_singleton _, ?_⟩
          intro a ha b hb hab
          cases List.mem_singleton.mp hb
          obtain ⟨x, hx, rfl⟩ := List.mem_map.mp ha
          exact absurd hab (by simpa using List.find?_eq_none.mp hnone x hx)
        sound := by
          intro x hx
          rcases List.mem_append.mp hx with hx | hx
          · exact h.sound x hx
          · exact List.mem_singleton.mp hx ▸ hk
        members := by
          intro x hx
          rcases List.mem_append.mp hx with hx | hx
          · exact hkept _ _ (h.members x hx)
          · cases List.mem_singleton.mp hx
            exact (entry k.name).trans (if_pos rfl)
        receivers := by
          intro key ms hms
          change (c.members.registerClass k.name k.fields).listed? key = _ at hms
          rw [entry] at hms
          split at hms
          · rename_i heq
            cases hms
            rw [heq]
            exact .class_ (List.mem_append_right _ (List.mem_singleton.mpr rfl))
          · exact (h.receivers key ms hms).append k }
  · intro name x hx
    unfold class? at hx ⊢
    rw [List.find?_append, hx]
    rfl

theorem addFunction (h : c.Tabled) {sig : Signature} (hnew : c.funcs.lookup? sig.name = none)
    (hfree : Signature.isReserved sig.name = false) :
    let e : Context := { c with funcs := { entries := c.funcs.entries ++ [sig] } }
    e.Tabled ∧ c.Extends e := by
  have hnames : ({ entries := c.funcs.entries ++ [sig] } : FuncTable).names =
      c.funcs.names ++ [sig.name] := by simp [FuncTable.names]
  refine ⟨?_, ?_, fun _ _ hs => hs, fun _ _ hs => hs⟩
  · exact
      { names := by
          rw [hnames, List.nodup_append]
          refine ⟨h.names, List.nodup_singleton _, ?_⟩
          intro a ha b hb hab
          cases List.mem_singleton.mp hb
          obtain ⟨s, hs, rfl⟩ := List.mem_map.mp ha
          exact absurd hab (by simpa using List.find?_eq_none.mp hnew s hs)
        free := by
          intro name hname
          rw [hnames] at hname
          rcases List.mem_append.mp hname with hname | hname
          · exact h.free name hname
          · exact List.mem_singleton.mp hname ▸ hfree
        classes := h.classes
        sound := h.sound
        members := h.members
        receivers := h.receivers }
  · intro name s hs
    unfold FuncTable.lookup? at hs ⊢
    rw [List.find?_append, hs]
    rfl

theorem entry (h : c.Tabled) (he : c.Entry d) : d.Tabled ∧ c.Extends d := by
  cases he with
  | list hk => exact h.addOnce (MemberTable.nodup_ofList _) (.list hk)
  | graph hk => exact h.addOnce (MemberTable.nodup_ofGraph _) (.graph hk)
  | class_ hk hadd => exact h.addClass hk hadd
  | function hnew hfree => exact h.addFunction hnew hfree
  | other hf hm hc =>
    exact ⟨⟨hf ▸ h.names, hf ▸ h.free, hc ▸ h.classes, hc ▸ h.sound, hc ▸ hm ▸ h.members,
        hc ▸ hm ▸ h.receivers⟩,
      fun _ _ hs => hf ▸ hs, fun _ _ hs => by unfold class?; rw [hc]; exact hs, fun _ _ hs => hm ▸ hs⟩

theorem reaches (h : c.Tabled) (hr : c.Reaches d) : d.Tabled ∧ c.Extends d := by
  induction hr with
  | refl => exact ⟨h, .refl c⟩
  | tail _ he ih =>
    obtain ⟨ht, hext⟩ := ih.1.entry he
    exact ⟨ht, ih.2.trans hext⟩

end Tabled

/-- Functions are never taken out of their order. -/
theorem Reaches.entries_prefix {c d : Context} (h : c.Reaches d) :
    c.funcs.entries <+: d.funcs.entries := by
  induction h with
  | refl => exact List.prefix_refl _
  | tail _ he ih =>
    refine ih.trans ?_
    cases he with
    | list | graph => exact List.prefix_refl _
    | class_ _ hadd =>
      unfold addClass? at hadd
      split at hadd
      · cases hadd
      · cases hadd
        exact List.prefix_refl _
    | function => exact List.prefix_append _ _
    | other hf => exact hf ▸ List.prefix_refl _

end Context

/-! ### Analyses make entries -/

namespace Analysis

variable {τ α : Type}

/-- Entries lead from the tables of one state to those of the other. -/
def Entered (s t : State) : Prop := s.ctx.Reaches t.ctx

instance : Std.Refl Entered := ⟨fun s => .refl s.ctx⟩

instance : IsTrans State Entered := ⟨fun _ _ _ h k => h.trans k⟩

/-- Whether it stops or not, the analysis changes tables by entries only. -/
abbrev Enters (p : Analysis τ α) : Prop := p.Moves Entered

/-- List and graph types are met between one state and the other. -/
def Registered (s t : State) : Prop := Relation.ReflTransGen Context.Registers s.ctx t.ctx

instance : Std.Refl Registered := ⟨fun _ => .refl⟩

instance : IsTrans State Registered := ⟨fun _ _ _ h k => h.trans k⟩

/-- Whether it stops or not, the analysis meets list and graph types only. -/
abbrev Registering (p : Analysis τ α) : Prop := p.Moves Registered

theorem enters_of_registers {p : Analysis τ α} (h : Registering p) : Enters p :=
  fun s => Relation.ReflTransGen.mono (fun _ _ => Context.Registers.entry) _ _ (h s)

theorem registers_of_ctx {p : Analysis τ α} (h : ∀ s, (p.run s).2.ctx = s.ctx) : Registering p := by
  intro s
  unfold Registered
  rw [h s]

theorem inScope_registers {p : Analysis τ α} (h : Registering p) : Registering (inScope p) :=
  fun s => h { s with vars := s.vars.enter }

theorem accept_registers (tree : τ) (x : Except SemanticError α) : Registering (accept tree x) := by
  cases x with
  | ok a => exact .pure a
  | error e => exact .stop tree _

theorem resolveType_registers (tree : τ) (pos : Position) {t : Ty} (ht : t.IsWritten ∨ t = .void) :
    Registering (resolveType tree pos t) := by
  intro s
  rcases ht with ht | rfl
  · cases ht with
    | @scalar k hk => cases k <;> cases hk <;> exact .refl
    | list hk => exact .single (.list hk)
    | graph hk => exact .single (.graph hk)
    | @class_ name hname => exact Pass.Moves.ite (.pure _) (.stop tree _) s
  · exact .refl

theorem declare_registers (tree : τ) (pos : Position) (name : Text) (t : Ty) (b : Bool) :
    Registering (declare tree pos name t b) := by
  refine registers_of_ctx fun s => ?_
  unfold declare
  rw [Pass.run_bind, Pass.run_state]
  simp only
  rw [Pass.run_bind]
  cases s.vars.declareAt pos name t b <;> rfl

theorem initialized_registers (tree : τ) (pos : Position) (name : Text) :
    Registering (initialized tree pos name) := by
  refine registers_of_ctx fun s => ?_
  unfold initialized
  rw [Pass.run_bind, Pass.run_state]
  simp only
  rw [Pass.run_bind]
  cases s.vars.markInitialized pos name <;> rfl

theorem declareAggregate_registers (tree : τ) (m : Mark) (name : Text) {t : Ty} (ht : t.IsWritten) :
    Registering (declareAggregate tree m name t) :=
  .bind (resolveType_registers _ _ (.inl ht)) fun _ => .bind (declare_registers _ _ _ _ _) fun _ => .pure _

theorem declareParams_registers (tree : τ) (params : List Param) :
    Registering (declareParams tree params) :=
  .forM fun _ _ => .bind (declare_registers _ _ _ _ _) fun _ => .pure _

theorem checkFields_registers (tree : τ) (seen : List Text) (fields : List Param) :
    Registering (checkFields tree seen fields) := by
  induction fields generalizing seen with
  | nil => exact .pure _
  | cons f fs ih => exact .ite (.stop _ _) (.ite (ih _) (.stop _ _))

theorem classDecl_enters {m : Mark} {name : Text} {fields : List Param}
    (hn : (Node.classDecl m name fields).IsItem) : Enters (classDecl m name fields) := by
  refine .bindOk (enters_of_registers (checkFields_registers _ _ _)) fun _ _ _ hfields s => ?_
  obtain ⟨-, hnodup, -, hscalar⟩ := checkFields_ok hfields
  have hclass : ClassDef.Sound { name, fields } :=
    ⟨hn.1, hnodup, fun f hf => Ty.IsWritten.scalar_of_kind (hn.2 f hf) (hscalar f hf)⟩
  rw [Pass.run_bind, Pass.run_state]
  simp only
  split
  · exact .refl _
  · rename_i c hadd
    exact (Context.Entry.class_ hclass hadd).reaches

theorem checkReturn_registers (tree : τ) (m : Mark) (hasValue : Bool) (t : Ty) :
    Registering (checkReturn tree m hasValue t) := by
  refine .bindState fun s => ?_
  split
  · exact .stop _ _
  · exact .ite (.ite (.stop _ _) (.pure _)) (.ite (.stop _ _) (.pure _))

/-- A name that is taken or reserved leaves the functions as they are. -/
theorem addFunction_enters (tree : τ) (pos : Position) (sig : Signature) :
    Enters (do
      let s ← Pass.state
      let funcs ← accept tree (s.ctx.funcs.add pos sig)
      Pass.put { s with ctx := { s.ctx with funcs }, function := some sig }) := by
  intro s
  rw [Pass.run_bind, Pass.run_state]
  simp only
  rw [Pass.run_bind]
  rcases hadd : s.ctx.funcs.add pos sig with e | funcs
  · exact .refl _
  · obtain ⟨hnew, hfree, rfl⟩ := FuncTable.add_ok hadd
    exact (Context.Entry.function hnew hfree).reaches

theorem resolveParams_registers (tree : τ) {params : List Param}
    (hparams : ∀ p ∈ params, p.type.IsWritten) :
    Registering (params.forM fun p => resolveType tree p.pos p.type) :=
  .forM fun p hp => resolveType_registers _ _ (.inl (hparams p hp))

theorem beginFunction_enters (tree : τ) (m : Mark) (name : Text) {params : List Param}
    {result : Ty} (hparams : ∀ p ∈ params, p.type.IsWritten)
    (hresult : result.IsWritten ∨ result = .void) :
    Enters (beginFunction tree m name params result) := by
  refine .bindState fun s => .ite (.stop _ _) ?_
  refine .bind (enters_of_registers (resolveParams_registers _ hparams)) fun _ => ?_
  exact .bind (enters_of_registers (resolveType_registers _ _ hresult)) fun _ => addFunction_enters _ _ _

theorem endFunction_enters (tree : τ) (m : Mark) (name : Text) (params : List Param) (result : Ty)
    (body : List Node) : Enters (endFunction tree m name params result body) := by
  refine .bind (enters_of_registers (registers_of_ctx fun _ => rfl)) fun _ => .ite (.stop _ _) fun s => ?_
  apply Context.Entry.reaches
  exact .other rfl rfl rfl

theorem member_registers (wrap : Access → τ) (a : Access) (store : Bool) :
    Registering (member wrap a store) := by
  refine .bindState fun s => .bind (accept_registers _ _) fun v => .ite (.stop _ _) ?_
  simp only
  split
  · exact .stop _ _
  · split
    · exact .ite (.stop _ _) (.ite (.stop _ _) (.pure _))
    · exact .ite (.stop _ _) (.ite (.stop _ _) (.pure _))

mutual

theorem expr_registers (n : Node) : Registering (expr n) := by
  cases n with
  | int m v | float m v | char m v | string m v | bool m v => exact .pure _
  | var m name => exact .bindState fun s => .bind (accept_registers _ _) fun v => .pure _
  | binary m op l r =>
    refine .bind (.inside (expr_registers l)) fun x => .bind (.inside (expr_registers r)) fun y => ?_
    simp only
    split
    · exact .pure _
    · exact .stop _ _
  | unary m op x =>
    refine .bind (.inside (expr_registers x)) fun x => ?_
    simp only
    split
    · exact .pure _
    · exact .stop _ _
  | call m name xs =>
    refine .bindState fun s => ?_
    split
    · exact .stop _ _
    · refine .bind (.inside (.ite (.pure _) (.stop _ _))) fun _ => ?_
      exact .bind (.inside (args_registers xs _ _ _)) fun _ => .pure _
  | dot a xs =>
    refine .bind (member_registers _ a false) fun r => .ite ?_ (.pure _)
    refine .bind (.inside (.ite (.pure _) (.stop _ _))) fun _ => ?_
    exact .bind (.inside (args_registers xs _ _ _)) fun _ => .pure _
  | _ => exact .stop _ _
termination_by structural n

theorem args_registers (xs : List Node) (name : Text) (arg : Nat) (params : List Ty) :
    Registering (args name arg params xs) := by
  cases xs with
  | nil => cases params <;> exact .pure _
  | cons x xs =>
    cases params with
    | nil => exact .pure _
    | cons p ps =>
      refine .bind (.inside (expr_registers x)) fun r => .ite ?_ (.stop _ _)
      exact .bind (.inside (args_registers xs _ _ _)) fun _ => .pure _
termination_by structural xs

end

theorem condition_registers (n : Node) : Registering (condition n) :=
  .bind (expr_registers n) fun _ => .ite (.pure _) (.stop _ _)

theorem elements_registers (name : Text) (t : Ty) (xs : List Node) : Registering (elements name t xs) := by
  induction xs with
  | nil => exact .pure _
  | cons x xs ih =>
    refine .bind (.inside (expr_registers x)) fun r => .ite ?_ (.stop _ _)
    exact .bind (.inside ih) fun _ => .pure _

mutual

theorem stmt_registers {n : Node} (hn : n.IsStmt) : Registering (stmt n) := by
  cases n with
  | varDecl m name t =>
    refine .bind (resolveType_registers _ _ (.inl hn.1)) fun _ => ?_
    exact .bind (declare_registers _ _ _ _ _) fun _ => .pure _
  | varDef m name t x =>
    refine .bind (.inside (expr_registers x)) fun r => ?_
    refine .bind (resolveType_registers _ _ (.inl hn.1)) fun _ => .ite (.stop _ _) ?_
    exact .bind (declare_registers _ _ _ _ _) fun _ => .bind (initialized_registers _ _ _) fun _ => .pure _
  | assign m name x =>
    refine .bindState fun s => .bind (accept_registers _ _) fun v => ?_
    refine .bind (.inside (expr_registers x)) fun r => ?_
    exact .ite (.stop _ _) (.bind (initialized_registers _ _ _) fun _ => .pure _)
  | fieldAssign m a xs x =>
    refine .bind (member_registers _ a true) fun r => .bind (.inside (expr_registers x)) fun y => ?_
    exact .ite (.stop _ _) (.pure _)
  | ret m value =>
    cases value with
    | none => exact .bind (checkReturn_registers _ _ _ _) fun _ => .pure _
    | some x =>
      refine .bind (.inside (expr_registers x)) fun r => ?_
      exact .bind (checkReturn_registers _ _ _ _) fun _ => .pure _
  | branch m merge test yes no =>
    cases no with
    | none =>
      refine .bind (.inside (condition_registers test)) fun _ => ?_
      exact .bind (.inside (inScope_registers (stmts_registers hn.2))) fun _ => .pure _
    | some no =>
      refine .bind (.inside (condition_registers test)) fun _ => ?_
      refine .bind (.inside (inScope_registers (stmts_registers hn.2.1))) fun _ => ?_
      exact .bind (.inside (inScope_registers (stmts_registers hn.2.2))) fun _ => .pure _
  | whileLoop m merge test body =>
    refine .bind (.inside (condition_registers test)) fun _ => ?_
    exact .bind (.inside (inScope_registers (stmts_registers hn.2))) fun _ => .pure _
  | forLoop m merge init test step body =>
    obtain ⟨hinit, -, hstep, hbody⟩ := hn
    refine inScope_registers (.bind (.inside (stmt_registers hinit.isStmt)) fun _ => ?_)
    refine .bind (.inside (condition_registers test)) fun _ => ?_
    refine .bind (.inside (stmt_registers hstep.isStmt)) fun _ => ?_
    exact .bind (.inside (inScope_registers (stmts_registers hbody))) fun _ => .pure _
  | print m x =>
    exact .bind (.inside (expr_registers x)) fun r => .ite (.pure _) (.stop _ _)
  | listDecl m name k xs =>
    refine .bind (.inside (elements_registers _ _ xs)) fun _ => ?_
    exact .bind (declareAggregate_registers _ _ _ (.list hn.1)) fun _ => .pure _
  | graphDecl m name k =>
    exact .bind (declareAggregate_registers _ _ _ (.graph hn)) fun _ => .pure _
  | exprStmt m x => exact .bind (.inside (expr_registers x)) fun _ => .pure _
  | _ => exact hn.elim
termination_by structural n

theorem stmts_registers {ns : List Node} (hn : Node.AllStmt ns) : Registering (stmts ns) := by
  cases ns with
  | nil => exact .pure _
  | cons n rest =>
    refine .bind (.inside (stmt_registers hn.1)) fun _ => ?_
    exact .bind (.inside (stmts_registers hn.2)) fun _ => .pure _
termination_by structural ns

end

theorem item_enters {n : Node} (hn : n.IsItem) : Enters (stmt n) := by
  cases n with
  | includeLib m library => exact .pure _
  | classDecl m name fields => exact classDecl_enters hn
  | funcDef m name params result body =>
    refine .bind (beginFunction_enters _ _ _ hn.1 hn.2.1) fun _ => ?_
    refine .bind (.inside (enters_of_registers (inScope_registers ?_))) fun _ => ?_
    · exact .bind (declareParams_registers _ _) fun _ => stmts_registers hn.2.2
    · exact .bind (endFunction_enters _ _ _ _ _ _) fun _ => .pure _
  | _ => exact enters_of_registers (stmt_registers hn)

theorem items_enters {ns : List Node} (hn : ∀ n ∈ ns, n.IsItem) : Enters (stmts ns) := by
  induction ns with
  | nil => exact .pure _
  | cons n rest ih =>
    refine .bind (.inside (item_enters (hn n List.mem_cons_self))) fun _ => ?_
    exact .bind (.inside (ih fun k hk => hn k (List.mem_cons_of_mem _ hk))) fun _ => .pure _

end Analysis

theorem Program.analyse_reaches {p : Program} (hp : ∀ n ∈ p.body, n.IsItem) (c : Context) :
    c.Reaches (p.analyse c).2.1 := by
  have hstart : c.Reaches { c with certified := none } := by
    apply Context.Entry.reaches
    exact .other rfl rfl rfl
  have hrun := hstart.trans (Analysis.items_enters hp { ctx := { c with certified := none } })
  unfold analyse
  rcases hr : (Analysis.stmts p.body).run { ctx := { c with certified := none } } with ⟨_ | _, s⟩
  all_goals
    rw [hr] at hrun
    refine hrun.trans (Context.Entry.reaches ?_)
    exact .other rfl rfl rfl

/-! ### Consistent tables -/

namespace Context

/-- Tables that name nothing twice and hold under each name what was declared. -/
structure Consistent (c : Context) : Prop where
  functions : c.funcs.names.Nodup
  function_iff : ∀ name, name ∈ c.funcs.names ↔ ∃ sig, c.funcs.lookup? name = some sig
  unreserved : ∀ name ∈ c.funcs.names,
    name ≠ "main" ∧ name ≠ "printf" ∧ name ≠ "strcmp" ∧ ¬ ("pyrx_" : Text) <+: name
  classes : (c.classes.map ClassDef.name).Nodup
  class_iff : ∀ name, name ∈ c.classes.map ClassDef.name ↔ ∃ d, c.class? name = some d
  fields : ∀ d ∈ c.classes, ∀ f m, c.members.lookup? (.classOf d.name) f = some m ↔
    ∃ i p, d.fields[i]? = some p ∧ p.name = f ∧
      m = { name := f, kind := .field, result := p.type, index := i }
  lists : ∀ k, k.isScalar = true →
    c.members.members (.listOf k) = [] ∨ c.members.members (.listOf k) = Member.ofList k
  graphs : ∀ k, k.isScalar = true →
    c.members.members (.graphOf k) = [] ∨ c.members.members (.graphOf k) = Member.ofGraph k

theorem find?_name_iff {α : Type} (key : α → Text) (xs : List α) (name : Text) :
    name ∈ xs.map key ↔ ∃ x, xs.find? (fun x => key x == name) = some x := by
  rw [← Option.isSome_iff_exists, List.find?_isSome]
  simp

/-- The member that a field's name finds, in a class with distinct field names. -/
theorem find?_ofFields {fs : List Param} (h : (fs.map Param.name).Nodup) (first : Nat) (f : Text)
    (m : Member) : (Member.ofFields first fs).find? (fun x => x.name == f) = some m ↔
      ∃ i p, fs[i]? = some p ∧ p.name = f ∧
        m = { name := f, kind := .field, result := p.type, index := first + i } := by
  induction fs generalizing first with
  | nil => simp [Member.ofFields]
  | cons p fs ih =>
    rw [List.map_cons, List.nodup_cons] at h
    simp only [Member.ofFields, List.find?_cons]
    by_cases hp : p.name = f
    · subst hp
      simp only [beq_self_eq_true, Option.some.injEq]
      constructor
      · rintro rfl
        exact ⟨0, p, rfl, rfl, rfl⟩
      · rintro ⟨i, q, hq, hname, rfl⟩
        cases i with
        | zero =>
          cases hq
          rfl
        | succ i => exact absurd (hname ▸ List.mem_map_of_mem (List.mem_of_getElem? hq)) h.1
    · simp only [beq_eq_false_iff_ne.mpr hp, ih h.2]
      constructor
      · rintro ⟨i, q, hq, hname, rfl⟩
        exact ⟨i + 1, q, hq, hname, by rw [Nat.add_right_comm, Nat.add_assoc]⟩
      · rintro ⟨i, q, hq, hname, rfl⟩
        cases i with
        | zero =>
          cases hq
          exact absurd hname hp
        | succ i => exact ⟨i, q, hq, hname, by rw [Nat.add_right_comm, Nat.add_assoc]⟩

theorem Receiver.list_eq {ks : List ClassDef} (hks : ∀ d ∈ ks, d.Sound) {k : Kind}
    (hk : k.isScalar = true) {ms : List Member} (h : Receiver ks (Ty.listOf k).name ms) :
    ms = Member.ofList k := by
  generalize hname : (Ty.listOf k).name = key at h
  cases h with
  | list hj => rw [Ty.name_listOf_inj hk hj hname]
  | graph hj => exact absurd hname (Ty.name_listOf_ne_graphOf hk hj)
  | class_ hd => exact absurd (hname ▸ Ty.angle_mem_name_listOf k) (hks _ hd).word.no_angle

theorem Receiver.graph_eq {ks : List ClassDef} (hks : ∀ d ∈ ks, d.Sound) {k : Kind}
    (hk : k.isScalar = true) {ms : List Member} (h : Receiver ks (Ty.graphOf k).name ms) :
    ms = Member.ofGraph k := by
  generalize hname : (Ty.graphOf k).name = key at h
  cases h with
  | list hj => exact absurd hname.symm (Ty.name_listOf_ne_graphOf hj hk)
  | graph hj => rw [Ty.name_graphOf_inj hk hj hname]
  | class_ hd => exact absurd (hname ▸ Ty.angle_mem_name_graphOf k) (hks _ hd).word.no_angle

/-- A type has no members, or those of one entry. -/
theorem Tabled.members_cases {c : Context} (h : c.Tabled) (t : Ty) :
    c.members.members t = [] ∨ Receiver c.classes t.name (c.members.members t) := by
  rw [MemberTable.members_eq]
  rcases he : c.members.listed? t.name with _ | ms
  · exact .inl rfl
  · exact .inr (h.receivers _ _ he)

theorem Tabled.consistent {c : Context} (h : c.Tabled) : c.Consistent where
  functions := h.names
  function_iff := find?_name_iff Signature.name c.funcs.entries
  unreserved name hname := by
    have hfree := h.free name hname
    simpa [Signature.isReserved, Signature.reservedNames, Signature.reservedStart, and_assoc,
      ← Bool.not_eq_true, List.isPrefixOf_iff_prefix] using hfree
  classes := h.classes
  class_iff := find?_name_iff ClassDef.name c.classes
  fields d hd f m := by
    unfold MemberTable.lookup?
    rw [MemberTable.members_eq, Ty.name_classOf, h.members d hd]
    simpa using find?_ofFields (h.sound d hd).nodup 0 f m
  lists k hk := (h.members_cases _).imp_right fun hr => hr.list_eq h.sound hk
  graphs k hk := (h.members_cases _).imp_right fun hr => hr.graph_eq h.sound hk

end Context

/-! ### Sessions -/

/-- An analysis of a program or of an expression. -/
inductive Call where
  | program (p : Program)
  | expression (n : Node)

namespace Call

/-- The context after a call, whether the analysis succeeded or not. -/
def after (c : Context) : Call → Context
  | .program p => (p.analyse c).2.1
  | .expression n => ((Analysis.expr n).run { ctx := c }).2.ctx

/-- The tree was read from a text; it may have annotations of earlier calls. -/
def IsRead : Call → Prop
  | .program p => ∃ key source q, Program.parse key source = .ok q ∧
      Node.bareAll p.body = Node.bareAll q.body
  | .expression n => ∃ source q, Node.parseExpression source = .ok q ∧ n.bare = q.bare

theorem reaches {call : Call} (h : call.IsRead) (c : Context) : c.Reaches (call.after c) := by
  cases call with
  | program p =>
    obtain ⟨key, source, q, hq, hbare⟩ := h
    exact Program.analyse_reaches (Node.isItem_of_bare hbare (Program.parse_isItem hq)) c
  | expression n => exact Analysis.enters_of_registers (Analysis.expr_registers n) { ctx := c }

end Call

namespace Context

/-- The context after the calls of a session. -/
def session (c : Context) (calls : List Call) : Context := calls.foldl Call.after c

theorem session_append (c : Context) (earlier later : List Call) :
    c.session (earlier ++ later) = (c.session earlier).session later :=
  List.foldl_append

theorem reaches_session (c : Context) {calls : List Call} (h : ∀ call ∈ calls, call.IsRead) :
    c.Reaches (c.session calls) := by
  induction calls generalizing c with
  | nil => exact .refl c
  | cons call calls ih =>
    exact (Call.reaches (h call List.mem_cons_self) c).trans
      (ih _ fun x hx => h x (List.mem_cons_of_mem _ hx))

/-- After any session the tables are consistent, and functions found earlier in it are found
unchanged, in the order in which they were entered. -/
theorem session_consistent (earlier later : List Call)
    (h : ∀ call ∈ earlier ++ later, call.IsRead) :
    (session {} (earlier ++ later)).Consistent ∧
      (∀ name sig, (session {} earlier).funcs.lookup? name = some sig →
        (session {} (earlier ++ later)).funcs.lookup? name = some sig) ∧
      (session {} earlier).funcs.names <+: (session {} (earlier ++ later)).funcs.names := by
  have hfirst := (Tabled.empty.reaches
    (reaches_session {} fun x hx => h x (List.mem_append_left _ hx))).1
  have hlater := reaches_session (session {} earlier) fun x hx => h x (List.mem_append_right _ hx)
  rw [← session_append] at hlater
  obtain ⟨htabled, hext⟩ := hfirst.reaches hlater
  exact ⟨htabled.consistent, hext.funcs, hlater.entries_prefix.map _⟩

/-- A program whose analysis enters a class, a list type and a function. -/
def counting : Text :=
  "include list; class Point \x7b x: int; y: float; \x7d " ++
  "def count(p: Point, xs: list<int>) -> int \x7b return xs.size; \x7d"

/-- A program whose analysis enters a class and a graph type and stops at a taken name. -/
def recounting : Text :=
  "include graph; class Edge \x7b weight: float; \x7d roads: graph<string>; " ++
  "def count() -> int \x7b return 1; \x7d"

theorem recounting_session : ∃ p q, Program.parse 0 counting = .ok p ∧
    Program.parse 1 recounting = .ok q ∧ (q.analyse (p.analyse {}).2.1).1.isOk = false ∧
    (session {} [.program p, .program q]).classes.map ClassDef.name = ["Point", "Edge"] ∧
    (session {} [.program p, .program q]).Consistent ∧
    (session {} [.program p]).funcs.names <+: (session {} [.program p, .program q]).funcs.names := by
  have hok : ((Program.parse 0 counting).toOption.any fun p =>
      (Program.parse 1 recounting).toOption.any fun q =>
        !(q.analyse (p.analyse {}).2.1).1.isOk &&
          (session {} [.program p, .program q]).classes.map ClassDef.name == ["Point", "Edge"]) =
      true := by decide +kernel
  rcases hp : Program.parse 0 counting with e | p
  · rw [hp] at hok
    cases hok
  rcases hq : Program.parse 1 recounting with e | q
  · rw [hp, hq] at hok
    cases hok
  simp only [hp, hq, Except.toOption, Option.any_some, Bool.and_eq_true, Bool.not_eq_true',
    beq_iff_eq] at hok
  have hread : ∀ call ∈ [Call.program p] ++ [.program q], call.IsRead := by
    intro call hcall
    rcases List.mem_append.mp hcall with hcall | hcall
    · exact List.mem_singleton.mp hcall ▸ ⟨0, _, p, hp, rfl⟩
    · exact List.mem_singleton.mp hcall ▸ ⟨1, _, q, hq, rfl⟩
  obtain ⟨hc, -, hnames⟩ := session_consistent [.program p] [.program q] hread
  exact ⟨p, q, rfl, rfl, hok.1, hok.2, hc, hnames⟩

end Context

end Augite
