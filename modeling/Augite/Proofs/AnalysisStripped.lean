import Augite.Proofs.Tracking
import Augite.Proofs.Stripped
import Augite.Analysis.Program

/-!
# Analysis reads no annotations

The analysis of a stripped tree follows the analysis of the tree itself: it stops with the
same error at the other position, or comes to the essence of the annotated tree. What a tree
was annotated with before therefore makes no difference.
-/

namespace Augite.Analysis

variable {τ υ α β : Type}

def State.move (place : Position → Position) (s : State) : State :=
  { s with ctx := s.ctx.move place }

/-- The second analysis does after a change of positions what the first one does. -/
abbrev Follows (place : Position → Position) (V : α → β) (p : Analysis τ α) (q : Analysis υ β) :
    Prop :=
  Pass.Tracks (State.move place) (CompileError.move place) V p q

variable {place : Position → Position}

/-! ### Tables -/

theorem reject_follows {V : α → β} {tree : τ} {tree' : υ} {e e' : SemanticError}
    (h : e' = e.move place) : Follows place V (reject tree e) (reject tree' e') :=
  .stop (by rw [h]; rfl)

theorem accept_follows {tree : τ} {tree' : υ} {x x' : Except SemanticError α}
    (h : x' = x.mapError (SemanticError.move place)) :
    Follows place id (accept tree x) (accept tree' x') := by
  subst h
  cases x with
  | ok a => exact .pure rfl
  | error e => exact reject_follows rfl

theorem find_move (vs : Variables) (pos : Position) (name : Text) :
    vs.find (place pos) name = (vs.find pos name).mapError (SemanticError.move place) := by
  unfold Variables.find
  split <;> rfl

theorem read_move (vs : Variables) (pos : Position) (name : Text) :
    vs.read (place pos) name = (vs.read pos name).mapError (SemanticError.move place) := by
  unfold Variables.read
  rw [find_move]
  rcases vs.find pos name with e | v
  · rfl
  · simp only [Except.mapError, bind, Except.bind]
    split <;> rfl

theorem declareAt_move (vs : Variables) (pos : Position) (name : Text) (t : Ty) (i : Bool) :
    vs.declareAt (place pos) name t i =
      (vs.declareAt pos name t i).mapError (SemanticError.move place) := by
  unfold Variables.declareAt
  simp only
  split <;> rfl

theorem markInitialized_move (vs : Variables) (pos : Position) (name : Text) :
    vs.markInitialized (place pos) name =
      (vs.markInitialized pos name).mapError (SemanticError.move place) := by
  unfold Variables.markInitialized
  rw [find_move]
  rcases vs.find pos name with e | v <;> rfl

theorem add_move (t : FuncTable) (pos : Position) (sig : Signature) :
    t.add (place pos) sig = (t.add pos sig).mapError (SemanticError.move place) := by
  unfold FuncTable.add
  split <;> rfl

/-! ### Expressions -/

/-- An access whose receiver has been annotated, and which has no type yet. -/
def receivedEssence (place : Position → Position) (a : Access) : Access :=
  { a.essence place with mark := { a.mark.essence place true true with type := .unresolved } }

/-- A field is accessed without parentheses. -/
theorem member_gives (wrap : Access → τ) (a : Access) (store : Bool) :
    Pass.Gives (fun _ => True)
      (fun r => r.1.parens = a.parens ∧ (r.2.kind ≠ .method → a.parens = false))
      (member wrap a store) := by
  unfold member
  refine .bind (.any _) fun s _ => .bind (.any _) fun v _ => ?_
  split
  · exact .stop trivial
  · simp only
    split
    · exact .stop trivial
    · rename_i m _
      split
      · split
        · exact .stop trivial
        · rename_i hparens
          split
          · exact .stop trivial
          · exact .pure ⟨rfl, fun _ => by simpa [receiverMarks] using hparens⟩
      · rename_i hkind
        split
        · exact .stop trivial
        · split
          · exact .stop trivial
          · exact .pure ⟨rfl, fun h => absurd hkind h⟩

theorem member_follows (wrap : Access → τ) (wrap' : Access → υ) (a : Access) (store : Bool) :
    Follows place (fun r => (receivedEssence place r.1, r.2)) (member wrap a store)
      (member wrap' (a.strip place) store) := by
  unfold member
  refine .bindState fun s => ?_
  refine .bind (accept_follows (find_move ..)) fun v => ?_
  simp only [id]
  refine .ite (fun _ => reject_follows rfl) fun _ => ?_
  have hlookup : (s.move place).ctx.members.lookup? v.type (receiverMarks (a.strip place) v).member =
      s.ctx.members.lookup? v.type (receiverMarks a v).member := rfl
  rw [hlookup]
  rcases s.ctx.members.lookup? v.type (receiverMarks a v).member with _ | m
  · exact reject_follows rfl
  · simp only
    cases m.kind with
    | field =>
      refine .ite (fun _ => reject_follows rfl) fun _ => ?_
      exact .ite (fun _ => reject_follows rfl) fun _ => .pure rfl
    | method =>
      refine .ite (fun _ => reject_follows rfl) fun _ => ?_
      exact .ite (fun _ => reject_follows rfl) fun _ => .pure rfl

theorem checkCount_gives (pos : Position) (name : Text) (params : List Ty) (xs : List Node) :
    Pass.Gives (fun _ => True) (fun _ => xs.length = params.length)
      (checkCount pos name params xs) := by
  unfold checkCount
  split
  · exact .pure ‹_›
  · exact .stop trivial

theorem checkCount_follows (pos : Position) (name : Text) (params : List Ty) (xs : List Node) :
    Follows place id (checkCount pos name params xs)
      (checkCount (place pos) name params (Node.stripAll place xs)) := by
  unfold checkCount
  rw [Node.length_stripAll]
  exact .ite (fun _ => .pure rfl) fun _ => reject_follows rfl

open Node (strip stripAll essence essenceAll stmtEssence bodyEssence Plain AllPlain)

section

variable (hplace : place .none = .none)

include hplace

theorem misplaced_follows {V : α → β} (n : Node) (w : Place) :
    Follows place V
      (Pass.stop n (.internal { pos := n.pos, cause := .misplaced n.className w }) : Analysis Node α)
      (Pass.stop (n.strip place) (.internal
        { pos := (n.strip place).pos, cause := .misplaced (n.strip place).className w })) := by
  refine .stop ?_
  rw [Node.pos_strip hplace, Node.className_strip]
  rfl

mutual

theorem expr_follows (n : Node) (hn : n.Plain) :
    Follows place (fun r => (r.1.essence place, r.2)) (expr n) (expr (n.strip place)) := by
  cases n with
  | int m v | float m v | char m v | string m v | bool m v => exact .pure rfl
  | var m name =>
    rw [strip, expr, expr]
    exact .bindState fun s => .bind (accept_follows (read_move ..)) fun v => .pure rfl
  | binary m op l r =>
    rw [strip, expr, expr]
    refine .bind (.inside (expr_follows l hn.1)) fun ⟨l, lt⟩ => ?_
    refine .bind (.inside (expr_follows r hn.2)) fun ⟨r, rt⟩ => ?_
    simp only
    rcases op.resultType? lt rt with _ | t
    · exact reject_follows rfl
    · exact .pure rfl
  | unary m op x =>
    rw [strip, expr, expr]
    refine .bind (.inside (expr_follows x hn)) fun ⟨x, xt⟩ => ?_
    simp only
    rcases op.resultType? xt with _ | t
    · exact reject_follows rfl
    · exact .pure rfl
  | call m name xs =>
    rw [strip, expr, expr]
    refine .bindState fun s => ?_
    change Follows _ _ (match s.ctx.funcs.lookup? name with | none => _ | some sig => _)
      (match s.ctx.funcs.lookup? name with | none => _ | some sig => _)
    rcases s.ctx.funcs.lookup? name with _ | sig
    · exact reject_follows rfl
    · refine .bindGives (.inside (checkCount_follows m.pos name sig.params xs))
        (.inside (checkCount_gives m.pos name sig.params xs)) fun _ hcount => ?_
      exact .bind (.inside (args_follows xs hn name 1 sig.params hcount)) fun xs => .pure rfl
  | dot a xs =>
    rw [strip, expr, expr]
    refine .bindGives (member_follows _ _ a false) (member_gives _ a false) fun ⟨a', m⟩ hm => ?_
    simp only
    refine .ite (fun hkind => ?_) fun hkind => ?_
    · refine .bindGives (.inside (checkCount_follows a'.mark.pos _ m.params xs))
        (.inside (checkCount_gives a'.mark.pos _ m.params xs)) fun _ hcount => ?_
      exact .bind (.inside (args_follows xs hn.1 _ 1 m.params hcount)) fun xs => .pure rfl
    · obtain rfl := hn.2 (hm.2 hkind)
      exact .pure rfl
  | ret m value =>
    cases value <;> exact misplaced_follows hplace _ _
  | branch m merge test yes no => cases no <;> exact misplaced_follows hplace _ _
  | _ => exact misplaced_follows hplace _ _
termination_by structural n

theorem args_follows (xs : List Node) (hxs : AllPlain xs) (name : Text) (arg : Nat)
    (ps : List Ty) (hcount : xs.length = ps.length) :
    Follows place (essenceAll place) (args name arg ps xs)
      (args name arg ps (stripAll place xs)) := by
  cases xs with
  | nil => cases ps <;> exact .pure rfl
  | cons x xs =>
    cases ps with
    | nil => cases hcount
    | cons p ps =>
      rw [stripAll, args, args]
      refine .bind (.inside (expr_follows x hxs.1)) fun ⟨x', t⟩ => ?_
      simp only
      refine .ite (fun _ => ?_) fun _ => ?_
      · exact .bind (.inside (args_follows xs hxs.2 name (arg + 1) ps (Nat.succ.inj hcount))) fun xs => .pure rfl
      · refine reject_follows ?_
        rw [Node.pos_strip hplace]
        rfl
termination_by structural xs

end

/-! ### Statements -/

omit hplace in
theorem inScope_follows {V : α → β} {p : Analysis τ α} {q : Analysis υ β}
    (h : Follows place V p q) : Follows place V (inScope p) (inScope q) := by
  intro s
  have hs := h { s with vars := s.vars.enter }
  have hp : (inScope p).run s = ((p.run { s with vars := s.vars.enter }).1,
      { (p.run { s with vars := s.vars.enter }).2 with
        vars := (p.run { s with vars := s.vars.enter }).2.vars.leave }) := rfl
  have hq : (inScope q).run (s.move place) =
      ((q.run (State.move place { s with vars := s.vars.enter })).1,
        { (q.run (State.move place { s with vars := s.vars.enter })).2 with
          vars := (q.run (State.move place { s with vars := s.vars.enter })).2.vars.leave }) := rfl
  rw [hp]
  rcases hr : p.run { s with vars := s.vars.enter } with ⟨e | a, t⟩
  · rw [hr] at hs
    obtain ⟨tree, htree⟩ := hs
    exact ⟨tree, by rw [hq, htree]; rfl⟩
  · rw [hr] at hs
    simp only at hs ⊢
    rw [hq, hs]
    rfl

omit hplace in
theorem resolveType_follows (tree : τ) (tree' : υ) (pos : Position) (t : Ty) :
    Follows place id (resolveType tree pos t) (resolveType tree' (place pos) t) := by
  unfold resolveType
  refine .bindState fun s => ?_
  have hclass : ((s.move place).ctx.class? t.className).isSome =
      (s.ctx.class? t.className).isSome := by
    rw [State.move, Context.class?_move, Option.isSome_map]
  simp only [hclass]
  split
  · exact .ite (fun _ => .pure rfl) fun _ => reject_follows rfl
  · exact .put rfl
  · exact .put rfl
  · exact .pure rfl

omit hplace in
theorem declare_follows (tree : τ) (tree' : υ) (pos : Position) (name : Text) (t : Ty) (i : Bool) :
    Follows place id (declare tree pos name t i) (declare tree' (place pos) name t i) := by
  unfold declare
  refine .bindState fun s => .bind (accept_follows (declareAt_move ..)) fun ⟨v, vars⟩ => ?_
  exact .bind (V := id) (.put rfl) fun _ => .pure rfl

omit hplace in
theorem initialized_follows (tree : τ) (tree' : υ) (pos : Position) (name : Text) :
    Follows place id (initialized tree pos name) (initialized tree' (place pos) name) := by
  unfold initialized
  exact .bindState fun s => .bind (accept_follows (markInitialized_move ..)) fun vars => .put rfl

omit hplace in
theorem declareAggregate_follows (tree : τ) (tree' : υ) (m : Mark) (name : Text) (t : Ty) :
    Follows place (Mark.essence place true false) (declareAggregate tree m name t)
      (declareAggregate tree' (m.strip place) name t) := by
  unfold declareAggregate
  refine .bind (resolveType_follows _ _ m.pos t) fun _ => ?_
  exact .bind (declare_follows _ _ m.pos name t true) fun v => .pure (by simp [Mark.essence, Mark.strip])

theorem condition_follows (n : Node) (hn : n.Plain) :
    Follows place (essence place) (condition n) (condition (n.strip place)) := by
  unfold condition
  refine .bind (expr_follows hplace n hn) fun ⟨n', t⟩ => ?_
  simp only
  refine .ite (fun _ => .pure rfl) fun _ => reject_follows ?_
  rw [Node.pos_strip hplace]
  rfl

theorem elements_follows (name : Text) (elem : Ty) (xs : List Node) (hxs : AllPlain xs) :
    Follows place (essenceAll place) (elements name elem xs)
      (elements name elem (stripAll place xs)) := by
  induction xs with
  | nil => exact .pure rfl
  | cons x xs ih =>
    rw [stripAll, elements, elements]
    refine .bind (.inside (expr_follows hplace x hxs.1)) fun ⟨x', t⟩ => ?_
    simp only
    refine .ite (fun _ => ?_) fun _ => ?_
    · exact .bind (.inside (ih hxs.2)) fun xs => .pure rfl
    · refine reject_follows ?_
      rw [Node.pos_strip hplace]
      rfl

omit hplace in
theorem checkFields_follows (tree : τ) (tree' : υ) (seen : List Text) (fields : List Param) :
    Follows place id (checkFields tree seen fields)
      (checkFields tree' seen (fields.map (Param.move place))) := by
  induction fields generalizing seen with
  | nil => exact .pure rfl
  | cons f fs ih =>
    rw [List.map_cons, checkFields, checkFields]
    refine .ite (fun _ => reject_follows rfl) fun _ => ?_
    exact .ite (fun _ => ih _) fun _ => reject_follows rfl

omit hplace in
theorem classDecl_follows (m : Mark) (name : Text) (fields : List Param) :
    Follows place (stmtEssence place) (classDecl m name fields)
      (classDecl (m.strip place) name (fields.map (Param.move place))) := by
  unfold classDecl
  refine .bind (checkFields_follows _ _ [] fields) fun _ => .bindState fun s => ?_
  have hadd : (s.move place).ctx.addClass? { name, fields := fields.map (Param.move place) } =
      (s.ctx.addClass? { name, fields }).map (Context.move place) :=
    Context.addClass?_move place s.ctx { name, fields }
  simp only [hadd]
  rcases s.ctx.addClass? { name, fields } with _ | ctx
  · exact reject_follows rfl
  · refine .bind (V := id) (.put rfl) fun _ => .pure ?_
    simp [stmtEssence, Node.cleared, essence, Mark.essence, Mark.strip]

omit hplace in
theorem checkReturn_follows (tree : τ) (tree' : υ) (m : Mark) (hasValue : Bool) (t : Ty) :
    Follows place id (checkReturn tree m hasValue t)
      (checkReturn tree' (m.strip place) hasValue t) := by
  unfold checkReturn
  refine .bindState fun s => ?_
  change Follows _ _ (match s.function with | none => _ | some f => _)
    (match s.function with | none => _ | some f => _)
  rcases s.function with _ | f
  · exact reject_follows rfl
  · refine .ite (fun _ => ?_) fun _ => ?_
    · exact .ite (fun _ => reject_follows rfl) fun _ => .pure rfl
    · exact .ite (fun _ => reject_follows rfl) fun _ => .pure rfl

omit hplace in
theorem beginFunction_follows (tree : τ) (tree' : υ) (m : Mark) (name : Text)
    (params : List Param) (result : Ty) :
    Follows place id (beginFunction tree m name params result)
      (beginFunction tree' (m.strip place) name (params.map (Param.move place)) result) := by
  unfold beginFunction
  refine .bindState fun s => ?_
  refine .ite (fun _ => .stop rfl) fun _ => ?_
  have hresolve := Pass.Tracks.forM (V := Param.move place)
    (g := fun p : Param => resolveType tree' p.pos p.type)
    (fun p : Param => resolveType_follows tree tree' p.pos p.type) params
  refine .bind hresolve fun _ => ?_
  refine .bind (resolveType_follows _ _ m.pos result) fun _ => .bindState fun s => ?_
  have hparams : (params.map (Param.move place)).map Param.type = params.map Param.type := by
    simp [Param.move]
  simp only [hparams]
  exact .bind (accept_follows (add_move ..)) fun funcs => .put rfl

omit hplace in
theorem endFunction_follows (tree : τ) (tree' : υ) (m : Mark) (name : Text) (params : List Param)
    (result : Ty) (body : List Node) :
    Follows place id (endFunction tree m name params result body)
      (endFunction tree' (m.strip place) name (params.map (Param.move place)) result
        (bodyEssence place body)) := by
  unfold endFunction
  have hleave : Follows place id
      (Pass.change fun s => { s with function := none } : Analysis τ Unit)
      (Pass.change fun s => { s with function := none } : Analysis υ Unit) :=
    .change fun _ => by rfl
  refine .bind hleave fun _ => ?_
  simp only [Node.alwaysReturns_essence, List.length_map]
  exact .ite (fun _ => reject_follows rfl) fun _ => .change fun _ => by rfl

omit hplace in
theorem declareParams_follows (tree : τ) (tree' : υ) (params : List Param) :
    Follows place id (declareParams tree params)
      (declareParams tree' (params.map (Param.move place))) := by
  refine Pass.Tracks.forM (V := Param.move place) (fun p => ?_) params
  exact .bind (declare_follows tree tree' p.pos p.name p.type true) fun _ => .pure rfl

mutual

theorem stmt_follows (n : Node) (hn : n.Plain) :
    Follows place (stmtEssence place) (stmt n) (stmt (n.strip place)) := by
  cases n with
  | includeLib m library => exact .pure rfl
  | classDecl m name fields => exact classDecl_follows m name fields
  | funcDef m name params result body =>
    rw [strip, stmt, stmt]
    refine .bind (beginFunction_follows _ _ m name params result) fun _ => ?_
    refine .bind (.inside (inScope_follows (.bind (declareParams_follows _ _ params) fun _ =>
      stmts_follows body hn))) fun body => ?_
    exact .bind (endFunction_follows _ _ m name params result body) fun _ => .pure rfl
  | varDecl m name t =>
    rw [strip, stmt, stmt]
    refine .bind (resolveType_follows _ _ m.pos t) fun _ => ?_
    refine .bind (declare_follows _ _ m.pos name t _) fun v => .pure ?_
    simp [stmtEssence, Node.cleared, essence, Mark.essence, Mark.strip]
  | varDef m name t x =>
    rw [strip, stmt, stmt]
    refine .bind (.inside (expr_follows hplace x hn)) fun ⟨x, xt⟩ => ?_
    refine .bind (resolveType_follows _ _ m.pos t) fun _ => ?_
    refine .ite (fun _ => reject_follows ?_) fun _ => ?_
    · simp only [Node.pos_essence hplace]
      rfl
    · refine .bind (declare_follows _ _ m.pos name t false) fun v => ?_
      refine .bind (initialized_follows _ _ m.pos name) fun _ => .pure ?_
      simp [stmtEssence, Node.cleared, essence, Mark.essence, Mark.strip]
  | assign m name x =>
    rw [strip, stmt, stmt]
    refine .bindState fun s => .bind (accept_follows (find_move s.vars m.pos name)) fun v => ?_
    refine .bind (.inside (expr_follows hplace x hn)) fun ⟨x, xt⟩ => ?_
    refine .ite (fun _ => reject_follows ?_) fun _ => ?_
    · simp only [Node.pos_essence hplace]
      rfl
    · refine .bind (initialized_follows _ _ m.pos name) fun _ => .pure ?_
      simp [stmtEssence, Node.cleared, essence, Mark.essence, Mark.strip]
  | fieldAssign m target xs x =>
    rw [strip, stmt, stmt]
    refine .bind (member_follows _ _ target true) fun ⟨a, f⟩ => ?_
    refine .bind (.inside (expr_follows hplace x hn)) fun ⟨x, xt⟩ => ?_
    refine .ite (fun _ => reject_follows ?_) fun _ => .pure ?_
    · simp only [Node.pos_essence hplace]
      rfl
    · simp [stmtEssence, Node.cleared, essence, Mark.essence, Mark.strip, accessTyped, Access.essence, receivedEssence, Mark.typed]
  | ret m value =>
    cases value with
    | none =>
      rw [strip, stmt, stmt]
      exact .bind (checkReturn_follows _ _ m false .void) fun t => .pure rfl
    | some x =>
      rw [strip, stmt, stmt]
      refine .bind (.inside (expr_follows hplace x hn)) fun ⟨x, xt⟩ => ?_
      exact .bind (checkReturn_follows _ _ m true xt) fun t => .pure rfl
  | branch m merge test yes no =>
    cases no with
    | none =>
      rw [strip, stmt, stmt]
      refine .bind (.inside (condition_follows hplace test hn.1)) fun test => ?_
      exact .bind (.inside (inScope_follows (stmts_follows yes hn.2))) fun yes => .pure rfl
    | some no =>
      rw [strip, stmt, stmt]
      refine .bind (.inside (condition_follows hplace test hn.1)) fun test => ?_
      refine .bind (.inside (inScope_follows (stmts_follows yes hn.2.1))) fun yes => ?_
      exact .bind (.inside (inScope_follows (stmts_follows no hn.2.2))) fun no => .pure rfl
  | whileLoop m merge test body =>
    rw [strip, stmt, stmt]
    refine .bind (.inside (condition_follows hplace test hn.1)) fun test => ?_
    exact .bind (.inside (inScope_follows (stmts_follows body hn.2))) fun body => .pure rfl
  | forLoop m merge init test step body =>
    rw [strip, stmt, stmt]
    refine inScope_follows ?_
    refine .bind (.inside (stmt_follows init hn.1)) fun init => ?_
    refine .bind (.inside (condition_follows hplace test hn.2.1)) fun test => ?_
    refine .bind (.inside (stmt_follows step hn.2.2.1)) fun step => ?_
    exact .bind (.inside (inScope_follows (stmts_follows body hn.2.2.2))) fun body => .pure rfl
  | print m x =>
    rw [strip, stmt, stmt]
    refine .bind (.inside (expr_follows hplace x hn)) fun ⟨x, xt⟩ => ?_
    refine .ite (fun _ => .pure rfl) fun _ => reject_follows ?_
    simp only [Node.pos_essence hplace]
    rfl
  | listDecl m name elem xs =>
    rw [strip, stmt, stmt]
    refine .bind (.inside (elements_follows hplace name (.scalar elem) xs hn)) fun xs => ?_
    exact .bind (declareAggregate_follows _ _ m name (.listOf elem)) fun m => .pure rfl
  | graphDecl m name elem =>
    rw [strip, stmt, stmt]
    exact .bind (declareAggregate_follows _ _ m name (.graphOf elem)) fun m => .pure rfl
  | exprStmt m x =>
    rw [strip, stmt, stmt]
    exact .bind (.inside (expr_follows hplace x hn)) fun ⟨x, xt⟩ => .pure rfl
  | _ => exact misplaced_follows hplace _ _
termination_by structural n

theorem stmts_follows (ns : List Node) (hns : AllPlain ns) :
    Follows place (bodyEssence place) (stmts ns) (stmts (stripAll place ns)) := by
  cases ns with
  | nil => exact .pure rfl
  | cons n rest =>
    rw [stripAll, stmts, stmts]
    refine .bind (.inside (stmt_follows n hns.1)) fun n => ?_
    exact .bind (.inside (stmts_follows rest hns.2)) fun rest => .pure rfl
termination_by structural ns

end

end

end Augite.Analysis

namespace Augite

/-! ### Programs -/

/-- The program with other positions and without annotations. -/
def Program.strip (place : Position → Position) (p : Program) : Program :=
  { p with mark := p.mark.strip place, body := Node.stripAll place p.body }

/-- The analysis of a stripped program follows that of the program. -/
theorem Program.analyse_strip {place : Position → Position} (hplace : place .none = .none)
    (ctx : Context) (p : Program) (hp : Node.AllPlain p.body) :
    match p.analyse ctx with
    | (.error e, _, _) => ((p.strip place).analyse (ctx.move place)).1 = .error (e.move place)
    | (.ok (), c, q) => (p.strip place).analyse (ctx.move place) =
        (.ok (), c.move place, { p.strip place with body := Node.bodyEssence place q.body }) := by
  have hrun := Analysis.stmts_follows hplace p.body hp { ctx := { ctx with certified := none } }
  have hstart : Analysis.State.move place { ctx := { ctx with certified := none } } =
      { ctx := { ctx.move place with certified := none } } := rfl
  rw [hstart] at hrun
  unfold analyse
  rcases hr : (Analysis.stmts p.body).run { ctx := { ctx with certified := none } }
    with ⟨h | body, t⟩
  · rw [hr] at hrun
    obtain ⟨tree, htree⟩ := hrun
    simp only [strip, htree, Pass.outcome]
  · rw [hr] at hrun
    simp only at hrun
    simp only [strip, hrun, Pass.outcome]
    simp [Context.record, Context.move, Analysis.State.move]

end Augite
