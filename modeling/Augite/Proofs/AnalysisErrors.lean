import Augite.Proofs.AnalysisProgram
import Augite.Proofs.KeptTree

/-!
# Errors of analysis

A program that was read is refused with semantic errors only, and such an error stands at a
position of the program's own tree: that of a node, a parameter or a field.
-/

namespace Augite

namespace Node

mutual

/-- The positions of all nodes, parameters and fields of a tree. -/
def positions : Node → List Position
  | .missing => []
  | .int m _ | .float m _ | .char m _ | .string m _ | .bool m _ | .var m _ => [m.pos]
  | .varDecl m _ _ | .graphDecl m _ _ | .includeLib m _ | .ret m none => [m.pos]
  | .binary m _ l r => m.pos :: (positions l ++ positions r)
  | .unary m _ x | .varDef m _ _ x | .assign m _ x | .print m x | .exprStmt m x
  | .ret m (some x) => m.pos :: positions x
  | .call m _ xs | .listDecl m _ _ xs | .program m xs => m.pos :: positionsAll xs
  | .dot a xs => a.mark.pos :: a.receiver.pos :: positionsAll xs
  | .fieldAssign m a xs x =>
    m.pos :: a.mark.pos :: a.receiver.pos :: (positionsAll xs ++ positions x)
  | .branch m _ test yes none => m.pos :: (positions test ++ positionsAll yes)
  | .branch m _ test yes (some no) =>
    m.pos :: (positions test ++ (positionsAll yes ++ positionsAll no))
  | .whileLoop m _ test body => m.pos :: (positions test ++ positionsAll body)
  | .forLoop m _ init test step body =>
    m.pos :: (positions init ++ (positions test ++ (positions step ++ positionsAll body)))
  | .funcDef m _ params _ body => m.pos :: (params.map Param.pos ++ positionsAll body)
  | .classDecl m _ fields => m.pos :: fields.map Param.pos
termination_by structural n => n

def positionsAll : List Node → List Position
  | [] => []
  | n :: rest => positions n ++ positionsAll rest
termination_by structural ns => ns

end

theorem pos_of_bare {n n' : Node} (h : n'.bare = n.bare) : n'.pos = n.pos := by
  have hpos (x : Node) : x.bare.pos = x.pos := by
    cases x with
    | ret m value => cases value <;> rfl
    | branch m merge test yes no => cases no <;> rfl
    | _ => rfl
  rw [← hpos n', h, hpos n]

/-- The position of an expression is one of the tree's. -/
theorem IsExpr.pos_mem {n : Node} (h : n.IsExpr) : n.pos ∈ n.positions := by
  cases n with
  | ret m value => cases value <;> exact h.elim
  | branch m merge test yes no => cases no <;> exact h.elim
  | int | float | char | string | bool | var | binary | unary | call | dot =>
    exact List.mem_cons_self
  | _ => exact h.elim

end Node

namespace Analysis

/-- The error lies with the program that is compiled. -/
def IsSemantic (e : CompileError) : Prop := ∃ x, e = .semantic x

/-- The error lies with the program that is compiled, at a position that satisfies `P`. -/
def IsSemanticAt (P : Position → Prop) (e : CompileError) : Prop := ∃ x, e = .semantic x ∧ P x.pos

/-- The function being analysed, and how many scopes are open inside the module's. -/
def Placed (fn : Option Signature) (k : Nat) (s : State) : Prop :=
  s.function = fn ∧ s.vars.inner.length = k

section

variable {τ α : Type} {fn : Option Signature} {k : Nat} {P : Position → Prop}

/-! ### Tables -/

/-- If a table refuses something, it does so at a position that satisfies `P`. -/
def RefusesAt (P : Position → Prop) (x : Except SemanticError α) : Prop :=
  ∀ e, x = .error e → P e.pos

theorem reject_safe (tree : τ) {e : SemanticError} (h : P e.pos) :
    (reject tree e : Analysis τ α).Safe (Placed fn k) (IsSemanticAt P) :=
  .stop ⟨e, rfl, h⟩

theorem accept_safe (tree : τ) {x : Except SemanticError α} (h : RefusesAt P x) :
    (accept tree x).Safe (Placed fn k) (IsSemanticAt P) := by
  cases x with
  | ok a => exact .pure a
  | error e => exact reject_safe tree (h e rfl)

theorem find_refusesAt (vs : Variables) {pos : Position} (h : P pos) (name : Text) :
    RefusesAt P (vs.find pos name) := by
  intro e he
  unfold Variables.find at he
  split at he <;> cases he
  exact h

theorem read_refusesAt (vs : Variables) {pos : Position} (h : P pos) (name : Text) :
    RefusesAt P (vs.read pos name) := by
  intro e he
  unfold Variables.read at he
  rcases hfind : vs.find pos name with e' | v <;> rw [hfind] at he
  · cases he
    exact find_refusesAt vs h name e hfind
  · by_cases hv : v.initialized = true
    · simp [hv, bind, Except.bind, pure, Except.pure] at he
    · simp only [bind, Except.bind, hv, if_neg, Bool.false_eq_true, not_false_eq_true] at he
      cases he
      exact h

theorem declareAt_refusesAt (vs : Variables) {pos : Position} (h : P pos) (name : Text) (t : Ty)
    (b : Bool) : RefusesAt P (vs.declareAt pos name t b) := by
  intro e he
  unfold Variables.declareAt at he
  simp only at he
  split at he <;> cases he
  exact h

theorem markInitialized_refusesAt (vs : Variables) {pos : Position} (h : P pos) (name : Text) :
    RefusesAt P (vs.markInitialized pos name) := by
  intro e he
  unfold Variables.markInitialized at he
  rcases hfind : vs.find pos name with e' | v <;> rw [hfind] at he
  · cases he
    exact find_refusesAt vs h name e hfind
  · cases he

theorem add_refusesAt (t : FuncTable) {pos : Position} (h : P pos) (sig : Signature) :
    RefusesAt P (t.add pos sig) := by
  intro e he
  unfold FuncTable.add at he
  split at he <;> cases he
  exact h

/-! ### Expressions -/

theorem member_safe (wrap : Access → τ) {a : Access} (ha : P a.mark.pos) (hr : P a.receiver.pos)
    (store : Bool) : (member wrap a store).Safe (Placed fn k) (IsSemanticAt P) := by
  refine .bindState fun s _ => .bind (accept_safe _ (find_refusesAt _ hr _)) fun v => ?_
  dsimp only
  repeat' split
  all_goals first | exact reject_safe _ ha | exact .pure _

/-- A member access keeps its position. -/
theorem member_pos (wrap : Access → τ) (a : Access) (store : Bool) :
    (member wrap a store).Gives (fun _ => True) fun r => r.1.mark.pos = a.mark.pos := by
  refine .bindState fun s => .bind (.any _) fun v _ => ?_
  dsimp only
  repeat' split
  all_goals first | exact .stop trivial | exact .pure rfl

theorem checkCount_safe {pos : Position} (h : P pos) (name : Text) (params : List Ty)
    (xs : List Node) : (checkCount pos name params xs).Safe (Placed fn k) (IsSemanticAt P) := by
  unfold checkCount
  split
  · exact .pure _
  · exact reject_safe _ h

theorem expr_pos (n : Node) : (expr n).Gives (fun _ => True) fun r => r.1.pos = n.pos :=
  (expr_keeps n).imp (fun _ _ => trivial) fun _ h => Node.pos_of_bare h

mutual

theorem expr_safe {n : Node} (hn : n.IsExpr) (hp : ∀ q ∈ n.positions, P q) :
    (expr n).Safe (Placed fn k) (IsSemanticAt P) := by
  have hpos : P n.pos := hp _ hn.pos_mem
  cases n with
  | int m v | float m v | char m v | string m v | bool m v => exact .pure _
  | var m name =>
    exact .bindState fun s _ => .bind (accept_safe _ (read_refusesAt _ hpos _)) fun v => .pure _
  | binary m op l r =>
    simp only [Node.positions, List.forall_mem_cons, List.forall_mem_append] at hp
    refine .bind (.inside (expr_safe hn.1 hp.2.1)) ?_
    rintro ⟨l', lt⟩
    refine .bind (.inside (expr_safe hn.2 hp.2.2)) ?_
    rintro ⟨r', rt⟩
    dsimp only
    split
    · exact .pure _
    · exact reject_safe _ hpos
  | unary m op x =>
    simp only [Node.positions, List.forall_mem_cons] at hp
    refine .bind (.inside (expr_safe (n := x) hn hp.2)) ?_
    rintro ⟨x', xt⟩
    dsimp only
    split
    · exact .pure _
    · exact reject_safe _ hpos
  | call m name xs =>
    simp only [Node.positions, List.forall_mem_cons] at hp
    refine .bindState fun s _ => ?_
    split
    · exact reject_safe _ hpos
    · exact .bind (.inside (checkCount_safe hpos _ _ _)) fun _ =>
        .bind (.inside (args_safe hn hp.2)) fun xs => .pure _
  | dot a xs =>
    simp only [Node.positions, List.forall_mem_cons] at hp
    refine .bindGives (member_safe _ hp.1 hp.2.1 _) (member_pos _ a _) ?_
    rintro ⟨b, f⟩ hb
    dsimp only at hb ⊢
    split
    · exact .bind (.inside (checkCount_safe (hb ▸ hpos) _ _ _)) fun _ =>
        .bind (.inside (args_safe hn.1 hp.2.2)) fun xs => .pure _
    · exact .pure _
  | _ => exact hn.elim
termination_by structural n

theorem args_safe {xs : List Node} (hn : Node.AllExpr xs) (hp : ∀ q ∈ Node.positionsAll xs, P q)
    {name : Text} {i : Nat} {ps : List Ty} :
    (args name i ps xs).Safe (Placed fn k) (IsSemanticAt P) := by
  cases xs with
  | nil => cases ps <;> exact .pure _
  | cons x xs =>
    simp only [Node.positionsAll, List.forall_mem_append] at hp
    cases ps with
    | nil => exact .pure _
    | cons p ps =>
      refine .bind (.inside (expr_safe hn.1 hp.1)) ?_
      rintro ⟨x', t⟩
      dsimp only
      split
      · exact .bind (.inside (args_safe hn.2 hp.2)) fun xs => .pure _
      · exact reject_safe _ (hp.1 _ hn.1.pos_mem)
termination_by structural xs

end

/-! ### Statements -/

theorem inScope_safe {p : Analysis τ α} (hp : p.Safe (Placed fn (k + 1)) (IsSemanticAt P)) :
    (inScope p).Safe (Placed fn k) (IsSemanticAt P) := by
  intro s hs
  obtain ⟨hok, herr⟩ := hp { s with vars := s.vars.enter } ⟨hs.1, congrArg Nat.succ hs.2⟩
  refine ⟨fun a t hrun => ?_, fun h t hrun => ?_⟩
  · obtain ⟨u, hu, rfl⟩ := inScope_ok_iff.mp hrun
    obtain ⟨hfun, hlen⟩ := hok a u hu
    refine ⟨hfun, ?_⟩
    change u.vars.inner.tail.length = k
    rw [List.length_tail, hlen, Nat.add_sub_cancel]
  · simp only [inScope, Pass.run] at hrun
    rcases hr : p { s with vars := s.vars.enter } with ⟨r, u⟩
    rw [hr] at hrun
    cases hrun
    exact herr _ _ hr

theorem resolveType_safe (tree : τ) {pos : Position} (h : P pos) (t : Ty) :
    (resolveType tree pos t).Safe (Placed fn k) (IsSemanticAt P) := by
  refine .bindState fun s hs => ?_
  split
  · split
    · exact .pure _
    · exact reject_safe _ h
  · exact .put hs
  · exact .put hs
  · exact .pure _

theorem declare_safe (tree : τ) {pos : Position} (h : P pos) (name : Text) (t : Ty) (b : Bool) :
    (declare tree pos name t b).Safe (Placed fn k) (IsSemanticAt P) := by
  intro s hs
  obtain ⟨-, herr⟩ := accept_safe tree (declareAt_refusesAt s.vars h name t b) s hs
  refine ⟨fun v u hrun => ?_, fun e u hrun => ?_⟩
  · obtain ⟨-, -, rfl⟩ := declare_ok hrun
    exact ⟨hs.1, (Scopes.length_inner_push _ _ _).trans hs.2⟩
  · rcases hx : s.vars.declareAt pos name t b with e' | ⟨v, vars⟩ <;> rw [hx] at herr
    · simp only [declare, Pass.run_bind, Pass.run_state, hx, accept, reject, Pass.run_stop] at hrun
      cases hrun
      exact herr _ _ rfl
    · simp only [declare, Pass.run_bind, Pass.run_state, hx, accept, Pass.run_pure,
        Pass.run_put] at hrun
      cases hrun

theorem initialized_safe (tree : τ) {pos : Position} (h : P pos) (name : Text) :
    (initialized tree pos name).Safe (Placed fn k) (IsSemanticAt P) := by
  intro s hs
  obtain ⟨-, herr⟩ := accept_safe tree (markInitialized_refusesAt s.vars h name) s hs
  refine ⟨fun _ u hrun => ?_, fun e u hrun => ?_⟩
  · obtain rfl := initialized_ok hrun
    exact ⟨hs.1, (Scopes.length_inner_update _ _ _).trans hs.2⟩
  · rcases hx : s.vars.markInitialized pos name with e' | vars <;> rw [hx] at herr
    · simp only [initialized, Pass.run_bind, Pass.run_state, hx, accept, reject,
        Pass.run_stop] at hrun
      cases hrun
      exact herr _ _ rfl
    · simp only [initialized, Pass.run_bind, Pass.run_state, hx, accept, Pass.run_pure,
        Pass.run_put] at hrun
      cases hrun

theorem declareAggregate_safe (tree : τ) {m : Mark} (h : P m.pos) (name : Text) (t : Ty) :
    (declareAggregate tree m name t).Safe (Placed fn k) (IsSemanticAt P) :=
  .bind (resolveType_safe _ h _) fun _ => .bind (declare_safe _ h _ _ _) fun _ => .pure _

theorem condition_safe {n : Node} (hn : n.IsExpr) (hp : ∀ q ∈ n.positions, P q) :
    (condition n).Safe (Placed fn k) (IsSemanticAt P) := by
  refine .bind (expr_safe hn hp) fun r => ?_
  dsimp only
  split
  · exact .pure _
  · exact reject_safe _ (hp _ hn.pos_mem)

theorem elements_safe {xs : List Node} (hn : Node.AllExpr xs)
    (hp : ∀ q ∈ Node.positionsAll xs, P q) (name : Text) (t : Ty) :
    (elements name t xs).Safe (Placed fn k) (IsSemanticAt P) := by
  induction xs with
  | nil => exact .pure _
  | cons x xs ih =>
    simp only [Node.positionsAll, List.forall_mem_append] at hp
    refine .bind (.inside (expr_safe hn.1 hp.1)) fun r => ?_
    dsimp only
    split
    · exact .bind (.inside (ih hn.2 hp.2)) fun _ => .pure _
    · exact reject_safe _ (hp.1 _ hn.1.pos_mem)

theorem checkReturn_safe (tree : τ) {m : Mark} (h : P m.pos) (hasValue : Bool) (t : Ty) :
    (checkReturn tree m hasValue t).Safe (Placed fn k) (IsSemanticAt P) := by
  refine .bindState fun s hs => ?_
  repeat' split
  all_goals first | exact reject_safe _ h | exact .pure _

theorem checkFields_safe (tree : τ) (seen : List Text) {fields : List Param}
    (hp : ∀ q ∈ fields.map Param.pos, P q) :
    (checkFields tree seen fields).Safe (Placed fn k) (IsSemanticAt P) := by
  induction fields generalizing seen with
  | nil => exact .pure _
  | cons f fs ih =>
    rw [List.map_cons, List.forall_mem_cons] at hp
    unfold checkFields
    split
    · exact reject_safe _ hp.1
    split
    · exact ih _ hp.2
    · exact reject_safe _ hp.1

theorem classDecl_safe {m : Mark} (hm : P m.pos) (name : Text) {fields : List Param}
    (hp : ∀ q ∈ fields.map Param.pos, P q) :
    (classDecl m name fields).Safe (Placed fn k) (IsSemanticAt P) := by
  refine .bind (checkFields_safe _ _ hp) fun _ => .bindState fun s hs => ?_
  split
  · exact reject_safe _ hm
  · exact .bind (.put hs) fun _ => .pure _

mutual

theorem stmt_safe {n : Node} (hn : n.IsStmt) (hp : ∀ q ∈ n.positions, P q) {j : Nat} :
    (stmt n).Safe (Placed fn j) (IsSemanticAt P) := by
  cases n with
  | varDecl m name t =>
    have hm : P m.pos := hp _ List.mem_cons_self
    exact .bind (resolveType_safe _ hm _) fun _ => .bind (declare_safe _ hm _ _ _) fun _ => .pure _
  | varDef m name t x =>
    simp only [Node.positions, List.forall_mem_cons] at hp
    refine .bindGives (.inside (expr_safe hn.2.2 hp.2)) (.inside (expr_pos x)) fun r hr =>
      .bind (resolveType_safe _ hp.1 _) fun _ => ?_
    split
    · exact reject_safe _ (hr ▸ hp.2 _ hn.2.2.pos_mem)
    · exact .bind (declare_safe _ hp.1 _ _ _) fun _ =>
        .bind (initialized_safe _ hp.1 _) fun _ => .pure _
  | assign m name x =>
    have hx : x.IsExpr := hn
    simp only [Node.positions, List.forall_mem_cons] at hp
    refine .bindState fun s hs => .bind (accept_safe _ (find_refusesAt _ hp.1 _)) fun v =>
      .bindGives (.inside (expr_safe hx hp.2)) (.inside (expr_pos x)) fun r hr => ?_
    dsimp only
    split
    · exact reject_safe _ (hr ▸ hp.2 _ hx.pos_mem)
    · exact .bind (initialized_safe _ hp.1 _) fun _ => .pure _
  | fieldAssign m a xs x =>
    simp only [Node.positions, List.forall_mem_cons, List.forall_mem_append] at hp
    obtain ⟨hm, ha, hr, hxs, hx⟩ := hp
    refine .bind (member_safe _ ha hr _) fun r =>
      .bindGives (.inside (expr_safe hn.2.2 hx)) (.inside (expr_pos x)) fun r hr => ?_
    dsimp only
    split
    · exact reject_safe _ (hr ▸ hx _ hn.2.2.pos_mem)
    · exact .pure _
  | listDecl m name k xs =>
    simp only [Node.positions, List.forall_mem_cons] at hp
    exact .bind (.inside (elements_safe hn.2 hp.2 _ _)) fun _ =>
      .bind (declareAggregate_safe _ hp.1 _ _) fun _ => .pure _
  | graphDecl m name k =>
    exact .bind (declareAggregate_safe _ (hp _ List.mem_cons_self) _ _) fun _ => .pure _
  | ret m value =>
    cases value with
    | none => exact .bind (checkReturn_safe _ (hp _ List.mem_cons_self) _ _) fun _ => .pure _
    | some x =>
      simp only [Node.positions, List.forall_mem_cons] at hp
      exact .bind (.inside (expr_safe (n := x) hn hp.2)) fun _ =>
        .bind (checkReturn_safe _ hp.1 _ _) fun _ => .pure _
  | branch m merge test yes no =>
    cases no with
    | none =>
      simp only [Node.positions, List.forall_mem_cons, List.forall_mem_append] at hp
      exact .bind (.inside (condition_safe hn.1 hp.2.1)) fun _ =>
        .bind (.inside (inScope_safe (stmts_safe hn.2 hp.2.2))) fun _ => .pure _
    | some no =>
      simp only [Node.positions, List.forall_mem_cons, List.forall_mem_append] at hp
      exact .bind (.inside (condition_safe hn.1 hp.2.1)) fun _ =>
        .bind (.inside (inScope_safe (stmts_safe hn.2.1 hp.2.2.1))) fun _ =>
          .bind (.inside (inScope_safe (stmts_safe hn.2.2 hp.2.2.2))) fun _ => .pure _
  | whileLoop m merge test body =>
    simp only [Node.positions, List.forall_mem_cons, List.forall_mem_append] at hp
    exact .bind (.inside (condition_safe hn.1 hp.2.1)) fun _ =>
      .bind (.inside (inScope_safe (stmts_safe hn.2 hp.2.2))) fun _ => .pure _
  | forLoop m merge init test step body =>
    simp only [Node.positions, List.forall_mem_cons, List.forall_mem_append] at hp
    obtain ⟨-, hinit, htest, hstep, hbody⟩ := hp
    exact inScope_safe <| .bind (.inside (stmt_safe hn.1.isStmt hinit)) fun _ =>
      .bind (.inside (condition_safe hn.2.1 htest)) fun _ =>
        .bind (.inside (stmt_safe hn.2.2.1.isStmt hstep)) fun _ =>
          .bind (.inside (inScope_safe (stmts_safe hn.2.2.2 hbody))) fun _ => .pure _
  | print m x =>
    have hx : x.IsExpr := hn
    simp only [Node.positions, List.forall_mem_cons] at hp
    refine .bindGives (.inside (expr_safe hx hp.2)) (.inside (expr_pos x)) fun r hr => ?_
    dsimp only
    split
    · exact .pure _
    · exact reject_safe _ (hr ▸ hp.2 _ hx.pos_mem)
  | exprStmt m x =>
    simp only [Node.positions, List.forall_mem_cons] at hp
    exact .bind (.inside (expr_safe (n := x) hn hp.2)) fun _ => .pure _
  | _ => exact hn.elim
termination_by structural n

theorem stmts_safe {ns : List Node} (hn : Node.AllStmt ns)
    (hp : ∀ q ∈ Node.positionsAll ns, P q) {j : Nat} :
    (stmts ns).Safe (Placed fn j) (IsSemanticAt P) := by
  cases ns with
  | nil => exact .pure _
  | cons n rest =>
    simp only [Node.positionsAll, List.forall_mem_append] at hp
    exact .bind (.inside (stmt_safe hn.1 hp.1)) fun _ =>
      .bind (.inside (stmts_safe hn.2 hp.2)) fun _ => .pure _
termination_by structural ns

end

/-! ### Programs -/

theorem beginFunction_leads (tree : τ) {m : Mark} (hm : P m.pos) (name : Text)
    {params : List Param} (hp : ∀ q ∈ params.map Param.pos, P q) (result : Ty) :
    (beginFunction tree m name params result).Leads (Placed none 0)
      (Placed (some ⟨name, params.map Param.type, result⟩) 0) (IsSemanticAt P) := by
  refine .bindState fun s hs => ?_
  have hplace : (s.function.isSome || !s.vars.atModule) = false := by
    rw [hs.1]
    simp [Scopes.atModule, List.length_eq_zero_iff.mp hs.2]
  rw [if_neg (by rw [hplace]; decide)]
  refine .bind (.forM fun p hmem => resolveType_safe _ (hp _ (List.mem_map_of_mem hmem)) _) fun _ =>
    .bind (resolveType_safe _ hm _) fun _ => .bindState fun s hs =>
      .bind (accept_safe _ (add_refusesAt _ hm _)) fun _ => ?_
  exact .put ⟨rfl, hs.2⟩

theorem endFunction_leads (tree : τ) {m : Mark} (hm : P m.pos) (name : Text) (params : List Param)
    (result : Ty) (body : List Node) :
    (endFunction tree m name params result body).Leads (Placed fn 0) (Placed none 0)
      (IsSemanticAt P) := by
  refine .bind (.change (J := Placed none 0) fun s hs => ⟨rfl, hs.2⟩) fun _ => ?_
  split
  · exact reject_safe _ hm
  · exact .change fun s hs => hs

/-- A function is never found where functions cannot be. -/
theorem function_safe {m : Mark} {name : Text} {params : List Param} {result : Ty}
    {body : List Node} (hn : (Node.funcDef m name params result body).IsItem)
    (hp : ∀ q ∈ (Node.funcDef m name params result body).positions, P q) :
    (stmt (.funcDef m name params result body)).Safe (Placed none 0) (IsSemanticAt P) := by
  simp only [Node.positions, List.forall_mem_cons, List.forall_mem_append] at hp
  obtain ⟨hm, hparams, hbody⟩ := hp
  refine .bind (beginFunction_leads _ hm _ hparams _) fun _ =>
    .bind (.inside (inScope_safe ?_)) fun _ =>
      .bind (endFunction_leads _ hm _ _ _ _) fun _ => .pure _
  refine .bind (.forM fun p hmem => ?_) fun _ => stmts_safe hn.2.2 hbody
  exact .bind (declare_safe _ (hparams _ (List.mem_map_of_mem hmem)) _ _ _) fun _ => .pure _

theorem items_safe {ns : List Node} (hn : ∀ n ∈ ns, n.IsItem)
    (hp : ∀ q ∈ Node.positionsAll ns, P q) :
    (stmts ns).Safe (Placed none 0) (IsSemanticAt P) := by
  induction ns with
  | nil => exact .pure _
  | cons n rest ih =>
    simp only [Node.positionsAll, List.forall_mem_append] at hp
    obtain ⟨hitem, hitems⟩ := List.forall_mem_cons.mp hn
    refine .bind (.inside ?_) fun _ => .bind (.inside (ih hitems hp.2)) fun _ => .pure _
    cases n with
    | includeLib m library => exact .pure _
    | classDecl m name fields =>
      have hfields := hp.1
      simp only [Node.positions, List.forall_mem_cons] at hfields
      exact classDecl_safe hfields.1 name hfields.2
    | funcDef m name params result body => exact function_safe hitem hp.1
    | _ => exact stmt_safe hitem hp.1

end

end Analysis

namespace Program

/-- A program that was read is refused, whatever the context, with semantic errors only, and
at positions of its tree. -/
theorem analyse_error_pos {p : Program} (hp : ∀ n ∈ p.body, n.IsItem) (ctx : Context)
    {e : CompileError} (h : (p.analyse ctx).1 = .error e) :
    Analysis.IsSemanticAt (· ∈ Node.positionsAll p.body) e := by
  have hsafe := Analysis.items_safe hp (P := (· ∈ Node.positionsAll p.body)) (fun _ hq => hq)
    { ctx := { ctx with certified := none } } ⟨rfl, rfl⟩
  unfold analyse at h
  rcases hr : (Analysis.stmts p.body).run { ctx := { ctx with certified := none } } with ⟨r, u⟩
  rw [hr] at h hsafe
  cases r with
  | ok body => cases h
  | error halt =>
    cases h
    exact hsafe.2 _ _ rfl

theorem analyse_error {p : Program} (hp : ∀ n ∈ p.body, n.IsItem) (ctx : Context)
    {e : CompileError} (h : (p.analyse ctx).1 = .error e) : Analysis.IsSemantic e := by
  obtain ⟨x, hx, -⟩ := analyse_error_pos hp ctx h
  exact ⟨x, hx⟩

end Program

end Augite
