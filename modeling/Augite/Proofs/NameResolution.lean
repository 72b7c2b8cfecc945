import Augite.Proofs.LexicalRule
import Augite.Proofs.AnalysisProgram

/-!
# Analysis resolves names by the lexical rule

The way that analysis takes through a tree is a history. Analysis keeps scopes that track the
part of the history behind it, so every variable that it reads or looks up is judged by the
rule, and what it stops at is the first name that the rule does not allow, if no other error
comes before it. Beyond that place no variable is annotated.
-/

namespace Augite

namespace Naming

/-- The event is not a read of a variable that has been annotated. -/
def IsUnread : Naming → Prop
  | .reads m _ => m.type = .unresolved
  | _ => True

end Naming

/-! ### The way through a tree -/

namespace History

/-- What happens in a block of its own. -/
def block (E : History) : History := .opens :: (E ++ [.closes])

end History

namespace Node

mutual

/-- What happens to names on the way through a tree, in the order of the source. A definition
and a list declaration take effect after what they start with; the step of a loop stands
before the body. -/
def namings : Node → History
  | .var m name => [.reads m name]
  | .binary _ _ l r => namings l ++ namings r
  | .unary _ _ x => namings x
  | .call _ _ xs => namingsAll xs
  | .dot a xs => .looks a.receiver.pos a.name :: namingsAll xs
  | .varDecl _ name t => [.declares name t !t.kind.isScalar]
  | .varDef _ name t x => namings x ++ [.declares name t true]
  | .assign m name x => .looks m.pos name :: (namings x ++ [.assigns name])
  | .fieldAssign _ a _ x => .looks a.receiver.pos a.name :: namings x
  | .ret _ none => []
  | .ret _ (some x) => namings x
  | .branch _ _ test yes none => namings test ++ History.block (namingsAll yes)
  | .branch _ _ test yes (some no) =>
    namings test ++ History.block (namingsAll yes) ++ History.block (namingsAll no)
  | .whileLoop _ _ test body => namings test ++ History.block (namingsAll body)
  | .forLoop _ _ init test step body =>
    History.block (namings init ++ namings test ++ namings step ++
      History.block (namingsAll body))
  | .print _ x => namings x
  | .listDecl _ name elem xs => namingsAll xs ++ [.declares name (.listOf elem) true]
  | .graphDecl _ name elem => [.declares name (.graphOf elem) true]
  | .exprStmt _ x => namings x
  | .funcDef _ _ params _ body =>
    History.block ((params.map fun p => .declares p.name p.type true) ++ namingsAll body)
  | _ => []
termination_by structural n => n

def namingsAll : List Node → History
  | [] => []
  | n :: rest => namings n ++ namingsAll rest
termination_by structural ns => ns

end

end Node

namespace CompileError

/-- The error is about a name that cannot be seen, or about a variable without a value. A
class that is not known is no such error. -/
def isNaming : CompileError → Bool
  | .semantic e =>
    e.kind == .useBeforeInitialization || (e.kind == .undeclaredIdentifier && e.detail == [])
  | _ => false

end CompileError

namespace History

/-- No variable among the events has been annotated. -/
def Unread (E : History) : Prop := ∀ e ∈ E, e.IsUnread

@[simp] theorem unread_nil : Unread [] := List.forall_mem_nil _

@[simp] theorem unread_cons {e : Naming} {E : History} :
    Unread (e :: E) ↔ e.IsUnread ∧ Unread E :=
  List.forall_mem_cons

@[simp] theorem unread_append {E F : History} : Unread (E ++ F) ↔ Unread E ∧ Unread F :=
  List.forall_mem_append

@[simp] theorem unread_block {E : History} : Unread (block E) ↔ Unread E := by
  simp [block, Naming.IsUnread]

theorem unread_params (params : List Param) :
    Unread (params.map fun p => .declares p.name p.type true) := by
  rintro e he
  obtain ⟨p, -, rfl⟩ := List.mem_map.mp he
  trivial

/-- The number of blocks that are open at the end of a history. -/
def net (E : History) : Int := level E E.length

theorem net_append (E F : History) : net (E ++ F) = net E + net F := level_length_append E F

@[simp] theorem net_nil : net [] = 0 := rfl

theorem net_singleton (e : Naming) : net [e] = e.step := by simp [net, level]

theorem net_cons (e : Naming) (E : History) : net (e :: E) = e.step + net E := by
  rw [← net_singleton, ← net_append, List.singleton_append]

@[simp] theorem net_block (E : History) : net (block E) = net E := by
  simp only [block, net_cons, net_append, net_nil, Naming.step]
  omega

/-! ### What is judged -/

/-- The read of a variable is annotated with the declaration that the rule gives, and the
variable has a value; a name that is looked up stands for some declaration. -/
def Settled (H : History) : Naming → Prop
  | .reads m name =>
    ∃ i, H.Resolves name i ∧ H.Ready i ∧ (∃ b, H[i]? = some (.declares name m.type b)) ∧
      (m.isGlobal = true ↔ H.level i = 0)
  | .looks _ name => ∃ i, H.Resolves name i
  | _ => True

/-- The events that follow a history are settled. -/
def Passed (H E : History) : Prop := ∀ j e, E[j]? = some e → Settled (H ++ E.take j) e

/-- Why analysis stops before an event. -/
inductive Halts (H : History) (e : CompileError) : Option Naming → Prop
  | undeclared {m : Mark} {name : Text} (h : ∀ i, ¬H.Visible name i)
      (he : e = .semantic { kind := .undeclaredIdentifier, pos := m.pos, name }) :
      Halts H e (some (.reads m name))
  | uninitialized {m : Mark} {name : Text} {i : Nat} (h : H.Resolves name i) (hi : ¬H.Ready i)
      (he : e = .semantic { kind := .useBeforeInitialization, pos := m.pos, name }) :
      Halts H e (some (.reads m name))
  | unknown {pos : Position} {name : Text} (h : ∀ i, ¬H.Visible name i)
      (he : e = .semantic { kind := .undeclaredIdentifier, pos, name }) :
      Halts H e (some (.looks pos name))
  | other {next : Option Naming} (he : e.isNaming = false) : Halts H e next

/-- Analysis stops somewhere among the events that follow a history. -/
def Stopped (H E : History) (e : CompileError) : Prop :=
  ∃ before rest, E = before ++ rest ∧ Passed H before ∧ Unread rest ∧
    Halts (H ++ before) e rest.head?

variable {H D E F : History} {e : CompileError}

theorem Passed.nil (H : History) : Passed H [] := by
  intro j x hx
  rw [List.getElem?_nil] at hx
  cases hx

theorem Passed.append (hE : Passed H E) (hF : Passed (H ++ E) F) : Passed H (E ++ F) := by
  intro j x hx
  rcases Nat.lt_or_ge j E.length with hlt | hge
  · rw [List.getElem?_append_left hlt] at hx
    rw [List.take_append_of_le_length hlt.le]
    exact hE j x hx
  · rw [List.getElem?_append_right hge] at hx
    rw [List.take_append, List.take_of_length_le hge, ← List.append_assoc]
    exact hF _ x hx

theorem Passed.concat {x : Naming} (hE : Passed H E) (hx : Settled (H ++ E) x) :
    Passed H (E ++ [x]) := by
  refine hE.append fun j y hy => ?_
  cases j with
  | zero =>
    cases hy
    simpa using hx
  | succ j => cases hy

theorem Halts.of_end {next : Option Naming} (h : Halts H e none) : Halts H e next := by
  cases h with
  | other he => exact .other he

theorem Stopped.append (h : Stopped H E e) (hF : Unread F) : Stopped H (E ++ F) e := by
  obtain ⟨before, rest, rfl, hpassed, hunread, hhalts⟩ := h
  refine ⟨before, rest ++ F, List.append_assoc .., hpassed, unread_append.mpr ⟨hunread, hF⟩, ?_⟩
  cases rest with
  | nil => exact hhalts.of_end
  | cons x rest => exact hhalts

theorem Stopped.after (hD : Passed H D) (h : Stopped (H ++ D) E e) : Stopped H (D ++ E) e := by
  obtain ⟨before, rest, rfl, hpassed, hunread, hhalts⟩ := h
  refine ⟨D ++ before, rest, (List.append_assoc ..).symm, hD.append hpassed, hunread, ?_⟩
  rwa [← List.append_assoc]

/-- What can be seen is not hidden by events that open and close no block. -/
theorem Visible.append {name : Text} {i : Nat} (h : H.Visible name i) (hE : ∀ e ∈ E, e.step = 0) :
    Visible (H ++ E) name i := by
  induction E generalizing H with
  | nil => rwa [List.append_nil]
  | cons x E ih =>
    obtain ⟨hx, hE⟩ := List.forall_mem_cons.mp hE
    rw [← List.singleton_append, ← List.append_assoc]
    refine ih (visible_concat.mpr (.inl ⟨h, ?_⟩)) hE
    rw [hx, add_zero]
    exact h.level_le

end History

namespace Analysis

open History

/-- A pass that follows a history. Of the tree that it works on, the events `D` lie behind it
at first, and `seen a` when it has given `a`; `view` is the whole way through the tree, which
tells how far it got if it stops. -/
def Traces {τ α : Type} (D : History) (p : Analysis τ α) (view : τ → History)
    (seen : α → History) : Prop :=
  ∀ s H, Tracks (H ++ D) s.vars → Passed H D →
    (∀ a u, p.run s = (.ok a, u) → Tracks (H ++ seen a) u.vars ∧ Passed H (seen a)) ∧
      ∀ h u, p.run s = (.error h, u) → Stopped H (view h.tree) h.error

namespace Traces

variable {τ υ α β : Type} {D F : History} {p : Analysis τ α} {f : α → Analysis τ β}
  {view : τ → History} {seen : α → History} {seen' : β → History}

theorem pure {a : α} (h : seen a = D) : Traces D (pure a : Analysis τ α) view seen := by
  intro s H hs hD
  refine ⟨fun b u hrun => ?_, fun h u hrun => ?_⟩ <;> cases hrun
  rw [h]
  exact ⟨hs, hD⟩

/-- The rule for two steps where the second one relies on the success of the first one. -/
theorem bindOk (hp : Traces D p view seen)
    (hf : ∀ s a u, p.run s = (.ok a, u) → Traces (seen a) (f a) view seen') :
    Traces D (p >>= f) view seen' := by
  intro s H hs hD
  obtain ⟨hok, herr⟩ := hp s H hs hD
  rcases hr : p.run s with ⟨e | a, u⟩
  · refine ⟨fun b t hrun => ?_, fun h t hrun => ?_⟩ <;> rw [Pass.run_bind, hr] at hrun <;>
      cases hrun
    exact herr _ _ hr
  · obtain ⟨hu, hpassed⟩ := hok a u hr
    rw [Pass.run_bind, hr]
    exact hf s a u hr u H hu hpassed

theorem bind (hp : Traces D p view seen) (hf : ∀ a, Traces (seen a) (f a) view seen') :
    Traces D (p >>= f) view seen' :=
  hp.bindOk fun _ a _ _ => hf a

theorem bindState {g : State → Analysis τ β} (hg : ∀ s, Traces D (g s) view seen') :
    Traces D (Pass.state >>= g) view seen' := fun s => hg s s

/-- A pass over a part of a tree, with what lies before and after the part. -/
theorem inside {plug : τ → υ} {whole : υ → History} (hp : Traces [] p view seen)
    (hwhole : ∀ t, whole (plug t) = D ++ view t ++ F) (hF : Unread F) :
    Traces D (p.inside plug) whole fun a => D ++ seen a := by
  intro s H hs hD
  obtain ⟨hok, herr⟩ := hp s (H ++ D) (by rwa [List.append_nil]) (.nil _)
  refine ⟨fun a u hrun => ?_, fun h u hrun => ?_⟩
  · obtain ⟨hu, hpassed⟩ := hok a u (Pass.inside_ok_iff.mp hrun)
    rw [← List.append_assoc]
    exact ⟨hu, hD.append hpassed⟩
  · simp only [Pass.run, Pass.inside] at hrun
    split at hrun
    · cases hrun
    · rename_i h' _ hp'
      cases hrun
      rw [hwhole]
      exact (Stopped.after hD (herr _ _ hp')).append hF

/-- A pass over the last part of a tree. -/
theorem last {plug : τ → υ} {whole : υ → History} (hp : Traces [] p view seen)
    (hwhole : ∀ t, whole (plug t) = D ++ view t) :
    Traces D (p.inside plug) whole fun a => D ++ seen a :=
  hp.inside (fun t => (hwhole t).trans (List.append_nil _).symm) unread_nil

end Traces

/-! ### Steps that leave the variables alone -/

/-- The pass leaves the variables alone. If it stops, it does so with the whole tree, and not
because of a name. -/
def Quiet {τ α : Type} (vs : Variables) (tree : τ) (p : Analysis τ α) : Prop :=
  ∀ s, s.vars = vs → (∀ a u, p.run s = (.ok a, u) → u.vars = vs) ∧
    ∀ h u, p.run s = (.error h, u) → h.tree = tree ∧ h.error.isNaming = false

namespace Quiet

variable {τ α β : Type} {vs : Variables} {tree : τ} {p : Analysis τ α} {f : α → Analysis τ β}

theorem pure (a : α) : Quiet vs tree (pure a : Analysis τ α) := by
  intro s hs
  refine ⟨fun b u hrun => ?_, fun h u hrun => ?_⟩ <;> cases hrun
  exact hs

theorem stop {e : CompileError} (he : e.isNaming = false) :
    Quiet vs tree (Pass.stop tree e : Analysis τ α) := by
  intro s _
  refine ⟨fun b u hrun => ?_, fun h u hrun => ?_⟩ <;> cases hrun
  exact ⟨rfl, he⟩

theorem put {t : State} (ht : t.vars = vs) : Quiet vs tree (Pass.put t : Analysis τ Unit) := by
  intro s _
  refine ⟨fun b u hrun => ?_, fun h u hrun => ?_⟩ <;> cases hrun
  exact ht

theorem change {g : State → State} (hg : ∀ s, (g s).vars = s.vars) :
    Quiet vs tree (Pass.change g : Analysis τ Unit) := by
  intro s hs
  refine ⟨fun b u hrun => ?_, fun h u hrun => ?_⟩ <;> cases hrun
  exact (hg s).trans hs

theorem bind (hp : Quiet vs tree p) (hf : ∀ a, Quiet vs tree (f a)) :
    Quiet vs tree (p >>= f) := by
  intro s hs
  obtain ⟨hok, herr⟩ := hp s hs
  rw [Pass.run_bind]
  rcases hr : p.run s with ⟨e | a, u⟩
  · refine ⟨fun b t hrun => ?_, fun h t hrun => ?_⟩ <;> cases hrun
    exact herr _ _ hr
  · exact hf a u (hok a u hr)

theorem bindState {g : State → Analysis τ β} (hg : ∀ s, s.vars = vs → Quiet vs tree (g s)) :
    Quiet vs tree (Pass.state >>= g) := fun s hs => hg s hs s hs

theorem forM {g : β → Analysis τ Unit} (hg : ∀ x, Quiet vs tree (g x)) (xs : List β) :
    Quiet vs tree (xs.forM g) := by
  induction xs with
  | nil => exact pure ()
  | cons x xs ih => exact bind (hg x) fun _ => ih

end Quiet

section

variable {τ : Type} {vs : Variables} (tree : τ)

theorem resolveType_quiet (pos : Position) (t : Ty) : Quiet vs tree (resolveType tree pos t) := by
  refine .bindState fun s hs => ?_
  split
  · split
    · exact .pure ()
    · exact .stop rfl
  · exact .put hs
  · exact .put hs
  · exact .pure ()

theorem checkCount_quiet (pos : Position) (name : Text) (params : List Ty) (xs : List Node) :
    Quiet vs xs (checkCount pos name params xs) := by
  unfold checkCount
  split
  · exact .pure ()
  · exact .stop rfl

theorem checkFields_quiet (seen : List Text) (fields : List Param) :
    Quiet vs tree (checkFields tree seen fields) := by
  induction fields generalizing seen with
  | nil => exact .pure ()
  | cons f fs ih =>
    unfold checkFields
    split
    · exact .stop rfl
    · split
      · exact ih _
      · exact .stop rfl

theorem classDecl_quiet (m : Mark) (name : Text) (fields : List Param) :
    Quiet vs (Node.classDecl m name fields) (classDecl m name fields) := by
  refine .bind (checkFields_quiet _ _ _) fun _ => .bindState fun s hs => ?_
  split
  · exact .stop rfl
  · exact .bind (.put hs) fun _ => .pure _

theorem checkReturn_quiet (m : Mark) (hasValue : Bool) (t : Ty) :
    Quiet vs tree (checkReturn tree m hasValue t) := by
  refine .bindState fun s _ => ?_
  repeat' split
  all_goals first | exact .pure _ | exact .stop rfl

theorem beginFunction_quiet (m : Mark) (name : Text) (params : List Param) (result : Ty) :
    Quiet vs tree (beginFunction tree m name params result) := by
  refine .bindState fun s _ => ?_
  split
  · exact .stop rfl
  refine .bind (.forM (fun p => resolveType_quiet tree _ _) _) fun _ => ?_
  refine .bind (resolveType_quiet tree _ _) fun _ => .bindState fun t ht => ?_
  dsimp only [FuncTable.add]
  split
  · exact .bind (.stop rfl) fun _ => .put ht
  · exact .bind (.pure _) fun _ => .put ht

theorem endFunction_quiet (m : Mark) (name : Text) (params : List Param) (result : Ty)
    (body : List Node) : Quiet vs tree (endFunction tree m name params result body) := by
  refine .bind (.change fun _ => rfl) fun _ => ?_
  split
  · exact .stop rfl
  · exact .change fun _ => rfl

end

/-! ### Steps that touch the variables -/

theorem run_initialized {τ : Type} (tree : τ) (pos : Position) {name : Text} {s : State}
    {v : Variable} {k : Nat} (h : s.vars.resolve? name = some (v, k)) :
    (initialized tree pos name).run s =
      (.ok (), { s with vars := s.vars.update name fun v => { v with initialized := true } }) := by
  unfold initialized Variables.markInitialized Variables.find
  rw [Pass.run_bind_of_ok Pass.run_state, h]
  rfl

namespace Traces

variable {τ α β : Type} {D F : History} {view : τ → History} {seen : α → History}
  {p : Analysis τ α} {tree : τ} {pos : Position} {name : Text} {t : Ty} {b : Bool}

theorem quiet (hp : ∀ vs, Quiet vs tree p) (htree : view tree = D ++ F) (hF : Unread F) :
    Traces D p view fun _ => D := by
  intro s H hs hD
  obtain ⟨hok, herr⟩ := hp s.vars s rfl
  refine ⟨fun a u hrun => ⟨by rwa [hok a u hrun], hD⟩, fun h u hrun => ?_⟩
  obtain ⟨rfl, he⟩ := herr h u hrun
  exact ⟨D, F, htree, hD, hF, .other he⟩

/-- A rejection that is not about a name. -/
theorem reject {e : SemanticError} (he : (CompileError.semantic e).isNaming = false)
    (htree : view tree = D ++ F) (hF : Unread F) :
    Traces D (reject tree e : Analysis τ α) view seen := by
  intro s H _ hD
  refine ⟨fun a u hrun => ?_, fun h u hrun => ?_⟩ <;> cases hrun
  exact ⟨D, F, htree, hD, hF, .other he⟩

theorem lookup {f : State → Variable → Analysis τ α}
    (htree : view tree = D ++ .looks pos name :: F) (hF : Unread F)
    (hf : ∀ s v, Traces (D ++ [.looks pos name]) (f s v) view seen) :
    Traces D (do
      let s ← Pass.state
      let v ← accept tree (s.vars.find pos name)
      f s v) view seen := by
  intro s H hs hD
  rw [Pass.run_bind_of_ok Pass.run_state, Pass.run_bind]
  unfold Variables.find
  rcases hres : s.vars.resolve? name with _ | ⟨v, k⟩
  · refine ⟨fun a u hrun => ?_, fun h u hrun => ?_⟩ <;> cases hrun
    exact ⟨D, _, htree, hD, unread_cons.mpr ⟨trivial, hF⟩, .unknown (hs.unresolved hres) rfl⟩
  · obtain ⟨i, hi, -⟩ := hs.resolved hres
    refine hf s v s H ?_ (hD.concat ⟨i, hi⟩)
    rw [← List.append_assoc]
    exact hs.keeps rfl (by rintro _ _ _ ⟨⟩) (by rintro _ ⟨⟩)

theorem declare (htree : view tree = D ++ F) (hF : Unread F) :
    Traces D (declare tree pos name t b) view fun _ => D ++ [.declares name t b] := by
  intro s H hs hD
  refine ⟨fun a u hrun => ?_, fun h u hrun => ?_⟩
  · obtain ⟨hfree, rfl, rfl⟩ := declare_ok hrun
    rw [← List.append_assoc]
    exact ⟨hs.declares hfree t b, hD.concat trivial⟩
  · unfold Analysis.declare at hrun
    rw [Pass.run_bind_of_ok Pass.run_state, Pass.run_bind] at hrun
    rcases hdecl : s.vars.declareAt pos name t b with e | r
    · rw [hdecl] at hrun
      cases hrun
      simp only [Variables.declareAt] at hdecl
      split at hdecl <;> cases hdecl
      exact ⟨D, F, htree, hD, hF, .other rfl⟩
    · rw [hdecl] at hrun
      cases hrun

/-- A variable that is declared with a value has it at once. -/
theorem define {g : Variable → α} (htree : view tree = D ++ F) (hF : Unread F)
    (hseen : ∀ v, seen (g v) = D ++ [.declares name t true]) :
    Traces D (do
      let v ← Analysis.declare tree pos name t false
      initialized tree pos name
      return g v) view seen := by
  intro s H hs hD
  have hdeclare : Traces D (Analysis.declare tree pos name t false) view _ := .declare htree hF
  obtain ⟨-, herr⟩ := hdeclare s H hs hD
  rcases hr : (Analysis.declare tree pos name t false).run s with ⟨e | v, u⟩
  · rw [Pass.run_bind, hr]
    refine ⟨fun a u hrun => ?_, fun h u hrun => ?_⟩ <;> cases hrun
    exact herr _ _ hr
  · obtain ⟨hfree, rfl, rfl⟩ := declare_ok hr
    have hrun := run_initialized tree pos
      (s := { s with vars := s.vars.push name ⟨name, t, false, s.vars.atModule⟩ })
      (Scopes.resolve?_push_self s.vars name _)
    rw [Scopes.update_push_self] at hrun
    rw [Pass.run_bind_of_ok hr, Pass.run_bind_of_ok hrun]
    refine ⟨fun a u hrun => ?_, fun h u hrun => ?_⟩ <;> cases hrun
    rw [hseen, ← List.append_assoc]
    exact ⟨hs.declares hfree t true, hD.concat trivial⟩

/-- The target of an assignment that was looked up can still be seen behind the value. -/
theorem assigned {E : History} (hE : ∀ e ∈ E, e.step = 0) :
    Traces (D ++ .looks pos name :: E) (initialized tree pos name) view
      fun _ => D ++ .looks pos name :: E ++ [.assigns name] := by
  intro s H hs hD
  have hlook : (D ++ .looks pos name :: E)[D.length]? = some (.looks pos name) := by simp
  obtain ⟨i, hi⟩ := hD _ _ hlook
  rw [List.take_left] at hi
  have hvisible : Visible (H ++ (D ++ .looks pos name :: E)) name i := by
    rw [← List.append_assoc]
    exact hi.1.append (List.forall_mem_cons.mpr ⟨rfl, hE⟩)
  rcases hres : s.vars.resolve? name with _ | ⟨v, k⟩
  · exact absurd hvisible (hs.unresolved hres i)
  have hrun := run_initialized tree pos hres
  refine ⟨fun a u hrun' => ?_, fun h u hrun' => ?_⟩ <;> rw [hrun] at hrun' <;> cases hrun'
  rw [← List.append_assoc]
  exact ⟨hs.assigns hres, hD.concat trivial⟩

/-- What happens in a scope of its own happens in a block. -/
theorem inScope (hp : Traces [] p view seen) (hnet : ∀ a, net (seen a) = 0) :
    Traces [] (inScope p) (fun t => block (view t)) fun a => block (seen a) := by
  intro s H hs hD
  rw [List.append_nil] at hs
  have hopened : Passed H [.opens] := (Passed.nil H).concat trivial
  obtain ⟨hok, herr⟩ := hp { s with vars := s.vars.enter } (H ++ [.opens])
    (by rw [List.append_nil]; exact hs.opens) (.nil _)
  refine ⟨fun a u hrun => ?_, fun h u hrun => ?_⟩
  · obtain ⟨t, ht, rfl⟩ := inScope_ok_iff.mp hrun
    obtain ⟨htracks, hpassed⟩ := hok a t ht
    have hlevel : 0 < level (H ++ [.opens] ++ seen a) (H ++ [Naming.opens] ++ seen a).length := by
      have hground := hs.ground _ (Nat.le_refl _)
      have hnone : level (seen a) (seen a).length = 0 := hnet a
      rw [level_length_append, level_length_concat, hnone, Naming.step]
      omega
    have hclosed := htracks.closes hlevel
    rw [List.append_assoc, List.append_assoc] at hclosed
    exact ⟨hclosed, hopened.append (hpassed.concat trivial)⟩
  · change ((p.run _).1, _) = (Except.error h, u) at hrun
    have hstop := herr h _ (Prod.ext (Prod.mk.inj hrun).1 rfl)
    have hafter := (Stopped.after hopened hstop).append (F := [.closes]) (by simp [Naming.IsUnread])
    rwa [List.append_assoc] at hafter

end Traces

end Analysis

end Augite
