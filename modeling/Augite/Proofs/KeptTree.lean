import Augite.Proofs.Tracking
import Augite.Proofs.Bare
import Augite.Proofs.LoweringEssence

/-!
# Passes keep the tree that was read

Analysis and lowering change annotations and nothing else, also where they stop: the tree
they give back is, without its annotations, the one they were given.
-/

namespace Augite

open Node (bare bareAll)

/-- The pass gives back the tree `n` with other annotations. -/
abbrev Pass.Keeps {ε σ : Type} (n : Node) (p : Pass ε σ Node Node) : Prop :=
  p.Gives (fun t => t.bare = n.bare) (fun t => t.bare = n.bare)

/-- The pass gives back the trees `ns` with other annotations. -/
abbrev Pass.KeepsAll {ε σ : Type} (ns : List Node) (p : Pass ε σ (List Node) (List Node)) : Prop :=
  p.Gives (fun ts => bareAll ts = bareAll ns) (fun ts => bareAll ts = bareAll ns)

/-! ### Analysis -/

namespace Analysis

variable {τ α : Type} {P : τ → Prop} {Q : α → Prop}

theorem accept_gives (tree : τ) (x : Except SemanticError α) :
    (accept tree x).Gives (· = tree) (fun _ => True) := by
  cases x with
  | ok a => exact .pure trivial
  | error e => exact .stop rfl

theorem inScope_gives {p : Analysis τ α} (h : p.Gives P Q) : (inScope p).Gives P Q :=
  fun s => h { s with vars := s.vars.enter }

theorem resolveType_gives (tree : τ) (pos : Position) (t : Ty) :
    (resolveType tree pos t).Gives (· = tree) (fun _ => True) := by
  refine .bindState fun s => ?_
  split
  · exact .ite (.pure trivial) (.stop rfl)
  · exact .put
  · exact .put
  · exact .pure trivial

theorem declare_gives (tree : τ) (pos : Position) (name : Text) (t : Ty) (i : Bool) :
    (declare tree pos name t i).Gives (· = tree) (fun _ => True) :=
  .bindState fun _ => .bind (accept_gives _ _) fun _ _ => .bind .put fun _ _ => .pure trivial

theorem initialized_gives (tree : τ) (pos : Position) (name : Text) :
    (initialized tree pos name).Gives (· = tree) (fun _ => True) :=
  .bindState fun _ => .bind (accept_gives _ _) fun _ _ => .put

theorem declareAggregate_gives (tree : τ) (m : Mark) (name : Text) (t : Ty) :
    (declareAggregate tree m name t).Gives (· = tree) (fun m' => m'.bare = m.bare) :=
  .bind (resolveType_gives _ _ _) fun _ _ => .bind (declare_gives _ _ _ _ _) fun _ _ => .pure rfl

theorem checkFields_gives (tree : τ) (seen : List Text) (fields : List Param) :
    (checkFields tree seen fields).Gives (· = tree) (fun _ => True) := by
  induction fields generalizing seen with
  | nil => exact .pure trivial
  | cons f fs ih => exact .ite (.stop rfl) (.ite (ih _) (.stop rfl))

theorem checkReturn_gives (tree : τ) (m : Mark) (hasValue : Bool) (t : Ty) :
    (checkReturn tree m hasValue t).Gives (· = tree) (fun _ => True) := by
  refine .bindState fun s => ?_
  split
  · exact .stop rfl
  · exact .ite (.ite (.stop rfl) (.pure trivial)) (.ite (.stop rfl) (.pure trivial))

theorem beginFunction_gives (tree : τ) (m : Mark) (name : Text) (params : List Param)
    (result : Ty) :
    (beginFunction tree m name params result).Gives (· = tree) (fun _ => True) := by
  refine .bindState fun s => .ite (.stop rfl) ?_
  refine .bind (.forM (fun p => resolveType_gives _ _ _) params) fun _ _ => ?_
  refine .bind (resolveType_gives _ _ _) fun _ _ => .bindState fun s => ?_
  exact .bind (accept_gives _ _) fun _ _ => .put

theorem endFunction_gives (tree : τ) (m : Mark) (name : Text) (params : List Param)
    (result : Ty) (body : List Node) :
    (endFunction tree m name params result body).Gives (· = tree) (fun _ => True) :=
  .bind .change fun _ _ => .ite (.stop rfl) .change

theorem declareParams_gives (tree : τ) (params : List Param) :
    (declareParams tree params).Gives (· = tree) (fun _ => True) :=
  .forM (fun _ => .bind (declare_gives _ _ _ _ _) fun _ _ => .pure trivial) params

theorem member_keeps (wrap : Access → τ) (a : Access) (store : Bool)
    (h : ∀ b : Access, b.bare = a.bare → P (wrap b)) :
    Pass.Gives P (fun r => r.1.bare = a.bare) (member wrap a store) := by
  refine .bindState fun s => .bindAt (accept_gives _ _) (h a rfl) fun v _ => ?_
  refine .ite (.stop (h a rfl)) ?_
  have hv : P (wrap (receiverMarks a v)) := h _ rfl
  simp only
  split
  · exact .stop hv
  · split
    · exact .ite (.stop hv) (.ite (.stop hv) (.pure rfl))
    · exact .ite (.stop hv) (.ite (.stop hv) (.pure rfl))

theorem checkCount_keeps (pos : Position) (name : Text) (params : List Ty) (xs : List Node) :
    Pass.Gives (fun ts => bareAll ts = bareAll xs) (fun _ => True)
      (checkCount pos name params xs) :=
  .ite (.pure trivial) (.stop rfl)

mutual

theorem expr_keeps (n : Node) :
    (expr n).Gives (fun t => t.bare = n.bare) (fun r => r.1.bare = n.bare) := by
  cases n with
  | int m v | float m v | char m v | string m v | bool m v => exact .pure rfl
  | var m name =>
    refine .bindState fun s => ?_
    exact .bindAt (accept_gives _ _) rfl fun v _ => .pure rfl
  | binary m op l r =>
    refine .bindInside (expr_keeps l) (fun t ht => by simp only [bare, ht]) fun ⟨l, lt⟩ hl => ?_
    refine .bindInside (expr_keeps r) (fun t ht => by simp only [bare, ht, hl]) fun ⟨r, rt⟩ hr => ?_
    simp only at hl hr ⊢
    split
    · exact .pure (by simp only [bare, hl, hr, Mark.bare_typed])
    · exact .stop (by simp only [bare, hl, hr])
  | unary m op x =>
    refine .bindInside (expr_keeps x) (fun t ht => by simp only [bare, ht]) fun ⟨x, xt⟩ hx => ?_
    simp only at hx ⊢
    split
    · exact .pure (by simp only [bare, hx, Mark.bare_typed])
    · exact .stop (by simp only [bare, hx])
  | call m name xs =>
    refine .bindState fun s => ?_
    split
    · exact .stop rfl
    · refine .bindInside (checkCount_keeps _ _ _ xs) (fun t ht => by simp only [bare, ht]) ?_
      intro _ _
      refine .bindInside (args_keeps xs _ _ _) (fun t ht => by simp only [bare, ht]) fun xs hxs => ?_
      exact .pure (by simp only [bare, hxs, Mark.bare_typed])
  | dot a xs =>
    refine .bind (member_keeps _ a false fun b hb => by simp only [bare, hb]) fun ⟨a, m⟩ ha => ?_
    have htyped : (accessTyped a m.result).bare = a.bare := rfl
    simp only at ha ⊢
    refine .ite ?_ (.pure (by simp only [bare, htyped, ha]))
    refine .bindInside (checkCount_keeps _ _ _ xs) (fun t ht => by simp only [bare, ht, ha]) ?_
    intro _ _
    refine .bindInside (args_keeps xs _ _ _) (fun t ht => by simp only [bare, ht, ha])
      fun xs hxs => ?_
    exact .pure (by simp only [bare, hxs, htyped, ha])
  | _ => exact .stop rfl
termination_by structural n

theorem args_keeps (xs : List Node) (name : Text) (arg : Nat) (params : List Ty) :
    Pass.KeepsAll xs (args name arg params xs) := by
  cases xs with
  | nil => cases params <;> exact .pure rfl
  | cons x xs =>
    cases params with
    | nil => exact .pure rfl
    | cons p ps =>
      refine .bindInside (expr_keeps x) (fun t ht => by simp only [bareAll, ht])
        fun ⟨x', t⟩ hx => ?_
      simp only at hx ⊢
      refine .ite ?_ (.stop (by simp only [bareAll, hx]))
      refine .bindInside (args_keeps xs _ _ ps) (fun t ht => by simp only [bareAll, ht, hx])
        fun xs hxs => ?_
      exact .pure (by simp only [bareAll, hxs, hx])
termination_by structural xs

end

theorem condition_keeps (n : Node) : Pass.Keeps n (condition n) :=
  .bind (expr_keeps n) fun _ hn => .ite (.pure hn) (.stop hn)

theorem elements_keeps (name : Text) (elem : Ty) (xs : List Node) :
    Pass.KeepsAll xs (elements name elem xs) := by
  induction xs with
  | nil => exact .pure rfl
  | cons x xs ih =>
    refine .bindInside (expr_keeps x) (fun t ht => by simp only [bareAll, ht])
      fun ⟨x', t⟩ hx => ?_
    simp only at hx ⊢
    refine .ite ?_ (.stop (by simp only [bareAll, hx]))
    refine .bindInside ih (fun t ht => by simp only [bareAll, ht, hx]) fun xs hxs => ?_
    exact .pure (by simp only [bareAll, hxs, hx])

theorem classDecl_keeps (m : Mark) (name : Text) (fields : List Param) :
    Pass.Keeps (.classDecl m name fields) (classDecl m name fields) := by
  refine .bindAt (checkFields_gives _ _ _) rfl fun _ _ => .bindState fun s => ?_
  split
  · exact .stop rfl
  · exact .bind .put fun _ _ => .pure rfl

mutual

theorem stmt_keeps (n : Node) : Pass.Keeps n (stmt n) := by
  cases n with
  | includeLib m library => exact .pure rfl
  | classDecl m name fields => exact classDecl_keeps m name fields
  | funcDef m name params result body =>
    have hscope : Pass.KeepsAll body (declareParams body params >>= fun _ => stmts body) :=
      .bindAt (declareParams_gives _ _) rfl fun _ _ => stmts_keeps body
    refine .bindAt (beginFunction_gives _ _ _ _ _) rfl fun _ _ => ?_
    refine .bindInside (inScope_gives hscope) (fun t ht => by simp only [bare, ht])
      fun body' hbody => ?_
    refine .bindAt (endFunction_gives _ _ _ _ _ _) (by simp only [bare, hbody]) fun _ _ => ?_
    exact .pure (by simp only [bare, hbody, Mark.bare_typed])
  | varDecl m name t =>
    refine .bindAt (resolveType_gives _ _ _) rfl fun _ _ => ?_
    exact .bindAt (declare_gives _ _ _ _ _) rfl fun _ _ => .pure rfl
  | varDef m name t x =>
    refine .bindInside (expr_keeps x) (fun t ht => by simp only [bare, ht]) fun ⟨x', xt⟩ hx => ?_
    have htree : (Node.varDef m name t x').bare = (Node.varDef m name t x).bare := by
      simp only [bare, hx]
    refine .bindAt (resolveType_gives _ _ _) htree fun _ _ => .ite (.stop htree) ?_
    refine .bindAt (declare_gives _ _ _ _ _) htree fun _ _ => ?_
    exact .bindAt (initialized_gives _ _ _) htree fun _ _ => .pure htree
  | assign m name x =>
    refine .bindState fun s => .bindAt (accept_gives _ _) rfl fun v _ => ?_
    refine .bindInside (expr_keeps x) (fun t ht => by simp only [bare, ht]) fun ⟨x', xt⟩ hx => ?_
    have htree : (Node.assign m name x').bare = (Node.assign m name x).bare := by
      simp only [bare, hx]
    refine .ite (.stop htree) ?_
    exact .bindAt (initialized_gives _ _ _) htree fun _ _ => .pure htree
  | fieldAssign m target xs x =>
    refine .bind (member_keeps _ target true fun b hb => by simp only [bare, hb])
      fun ⟨a, f⟩ ha => ?_
    refine .bindInside (expr_keeps x) (fun t ht => ?_) fun ⟨x', xt⟩ hx => ?_
    · have htyped : (accessTyped a f.result).bare = target.bare := ha
      simp only [bare, htyped, ht]
    · have htree : (Node.fieldAssign m (accessTyped a f.result) xs x').bare =
          (Node.fieldAssign m target xs x).bare := by
        have htyped : (accessTyped a f.result).bare = target.bare := ha
        simp only [bare, htyped, hx]
      exact .ite (.stop htree) (.pure htree)
  | ret m value =>
    cases value with
    | none => exact .bindAt (checkReturn_gives _ _ _ _) rfl fun _ _ => .pure rfl
    | some x =>
      refine .bindInside (expr_keeps x) (fun t ht => by simp only [bare, ht]) fun ⟨x', xt⟩ hx => ?_
      have htree : (Node.ret m (some x')).bare = (Node.ret m (some x)).bare := by
        simp only [bare, hx]
      exact .bindAt (checkReturn_gives _ _ _ _) htree fun _ _ => .pure htree
  | branch m merge test yes no =>
    cases no with
    | none =>
      refine .bindInside (condition_keeps test) (fun t ht => by simp only [bare, ht])
        fun test htest => ?_
      refine .bindInside (inScope_gives (stmts_keeps yes))
        (fun t ht => by simp only [bare, ht, htest]) fun yes hyes => ?_
      exact .pure (by simp only [bare, htest, hyes, Mark.bare_typed])
    | some no =>
      refine .bindInside (condition_keeps test) (fun t ht => by simp only [bare, ht])
        fun test htest => ?_
      refine .bindInside (inScope_gives (stmts_keeps yes))
        (fun t ht => by simp only [bare, ht, htest]) fun yes hyes => ?_
      refine .bindInside (inScope_gives (stmts_keeps no))
        (fun t ht => by simp only [bare, ht, htest, hyes]) fun no hno => ?_
      exact .pure (by simp only [bare, htest, hyes, hno, Mark.bare_typed])
  | whileLoop m merge test body =>
    refine .bindInside (condition_keeps test) (fun t ht => by simp only [bare, ht])
      fun test htest => ?_
    refine .bindInside (inScope_gives (stmts_keeps body))
      (fun t ht => by simp only [bare, ht, htest]) fun body hbody => ?_
    exact .pure (by simp only [bare, htest, hbody, Mark.bare_typed])
  | forLoop m merge init test step body =>
    refine inScope_gives ?_
    refine .bindInside (stmt_keeps init) (fun t ht => by simp only [bare, ht]) fun init hinit => ?_
    refine .bindInside (condition_keeps test) (fun t ht => by simp only [bare, ht, hinit])
      fun test htest => ?_
    refine .bindInside (stmt_keeps step) (fun t ht => by simp only [bare, ht, hinit, htest])
      fun step hstep => ?_
    refine .bindInside (inScope_gives (stmts_keeps body))
      (fun t ht => by simp only [bare, ht, hinit, htest, hstep]) fun body hbody => ?_
    exact .pure (by simp only [bare, hinit, htest, hstep, hbody, Mark.bare_typed])
  | print m x =>
    refine .bindInside (expr_keeps x) (fun t ht => by simp only [bare, ht]) fun ⟨x', xt⟩ hx => ?_
    have htree : (Node.print m x').bare = (Node.print m x).bare := by simp only [bare, hx]
    exact .ite (.pure htree) (.stop htree)
  | listDecl m name elem xs =>
    refine .bindInside (elements_keeps _ _ xs) (fun t ht => by simp only [bare, ht])
      fun xs' hxs => ?_
    refine .bindAt (declareAggregate_gives _ _ _ _) (by simp only [bare, hxs]) fun m' hm => ?_
    exact .pure (by simp only [bare, hxs, hm])
  | graphDecl m name elem =>
    refine .bindAt (declareAggregate_gives _ _ _ _) rfl fun m' hm => ?_
    exact .pure (by simp only [bare, hm])
  | exprStmt m x =>
    refine .bindInside (expr_keeps x) (fun t ht => by simp only [bare, ht]) fun ⟨x', xt⟩ hx => ?_
    exact .pure (by simp only at hx; simp only [bare, hx, Mark.bare_typed])
  | _ => exact .stop rfl
termination_by structural n

theorem stmts_keeps (ns : List Node) : Pass.KeepsAll ns (stmts ns) := by
  cases ns with
  | nil => exact .pure rfl
  | cons n rest =>
    refine .bindInside (stmt_keeps n) (fun t ht => by simp only [bareAll, ht]) fun n hn => ?_
    refine .bindInside (stmts_keeps rest) (fun t ht => by simp only [bareAll, ht, hn])
      fun rest hrest => ?_
    exact .pure (by simp only [bareAll, hn, hrest])
termination_by structural ns

end

end Analysis

/-! ### Lowering -/

namespace Lowering

variable {τ α : Type} {P : τ → Prop} {Q : α → Prop}

theorem emit_gives (tree : τ) (e : Emit α) : (emit tree e).Gives (· = tree) (fun _ => True) :=
  .inside ((Pass.Gives.any e).imp (fun _ _ => rfl) fun _ h => h)

theorem inScope_gives {p : Lowering τ α} (h : p.Gives P Q) : (inScope p).Gives P Q :=
  fun s => h { s with slots := s.slots.enter }

mutual

theorem stmt_keeps (n : Node) : Pass.Keeps n (stmt n) := by
  cases n with
  | includeLib m library | classDecl m name fields => exact .pure rfl
  | varDecl m name t | varDef m name t x | assign m name x | fieldAssign m a xs x
  | listDecl m name elem xs | graphDecl m name elem | ret m value | print m x | exprStmt m x =>
    exact .bindAt (emit_gives _ _) rfl fun _ _ => .pure rfl
  | branch m merge test yes no =>
    cases no with
    | none =>
      refine .bindAt (emit_gives _ _) rfl fun v _ => ?_
      refine .bindAt (emit_gives _ _) rfl fun thenBlock _ => ?_
      refine .bindAt (emit_gives _ _) rfl fun endBlock _ => ?_
      refine .bindAt (emit_gives _ _) rfl fun _ _ => .bindAt (emit_gives _ _) rfl fun _ _ => ?_
      refine .bindInside (inScope_gives (stmts_keeps yes)) (fun t ht => by simp only [bare, ht])
        fun yes' hyes => ?_
      have hkept : (Node.branch m (some endBlock) test yes' none).bare =
          (Node.branch m merge test yes none).bare := by simp only [bare, hyes]
      refine .bindAt (emit_gives _ _) hkept fun _ _ => .bindAt (emit_gives _ _) hkept fun _ _ => ?_
      exact .bindAt (emit_gives _ _) hkept fun _ _ => .pure hkept
    | some no =>
      refine .bindAt (emit_gives _ _) rfl fun v _ => ?_
      refine .bindAt (emit_gives _ _) rfl fun thenBlock _ => ?_
      refine .bindAt (emit_gives _ _) rfl fun endBlock _ => ?_
      refine .bindAt (emit_gives _ _) rfl fun elseBlock _ => ?_
      refine .bindAt (emit_gives _ _) rfl fun _ _ => .bindAt (emit_gives _ _) rfl fun _ _ => ?_
      refine .bindInside (inScope_gives (stmts_keeps yes)) (fun t ht => by simp only [bare, ht])
        fun yes' hyes => ?_
      have hthen : (Node.branch m (some endBlock) test yes' (some no)).bare =
          (Node.branch m merge test yes (some no)).bare := by simp only [bare, hyes]
      refine .bindAt (emit_gives _ _) hthen fun _ _ => .bindAt (emit_gives _ _) hthen fun _ _ => ?_
      refine .bindInside (inScope_gives (stmts_keeps no))
        (fun t ht => by simp only [bare, ht, hyes]) fun no' hno => ?_
      have hkept : (Node.branch m (some endBlock) test yes' (some no')).bare =
          (Node.branch m merge test yes (some no)).bare := by simp only [bare, hyes, hno]
      refine .bindAt (emit_gives _ _) hkept fun _ _ => .bindAt (emit_gives _ _) hkept fun _ _ => ?_
      exact .bindAt (emit_gives _ _) hkept fun _ _ => .pure hkept
  | whileLoop m merge test body =>
    refine .bindAt (emit_gives _ _) rfl fun testBlock _ => ?_
    refine .bindAt (emit_gives _ _) rfl fun bodyBlock _ => ?_
    refine .bindAt (emit_gives _ _) rfl fun endBlock _ => ?_
    refine .bindAt (emit_gives _ _) rfl fun _ _ => .bindAt (emit_gives _ _) rfl fun _ _ => ?_
    refine .bindAt (emit_gives _ _) rfl fun v _ => ?_
    refine .bindAt (emit_gives _ _) rfl fun _ _ => .bindAt (emit_gives _ _) rfl fun _ _ => ?_
    refine .bindInside (inScope_gives (stmts_keeps body)) (fun t ht => by simp only [bare, ht])
      fun body' hbody => ?_
    have hkept : (Node.whileLoop m (some endBlock) test body').bare =
        (Node.whileLoop m merge test body).bare := by simp only [bare, hbody]
    refine .bindAt (emit_gives _ _) hkept fun _ _ => ?_
    exact .bindAt (emit_gives _ _) hkept fun _ _ => .pure hkept
  | forLoop m merge init test step body =>
    refine inScope_gives ?_
    refine .bindInside (stmt_keeps init) (fun t ht => by simp only [bare, ht]) fun init' hinit => ?_
    have hentered (merge' : Option Nat) : (Node.forLoop m merge' init' test step body).bare =
        (Node.forLoop m merge init test step body).bare := by simp only [bare, hinit]
    refine .bindAt (emit_gives _ _) (hentered _) fun testBlock _ => ?_
    refine .bindAt (emit_gives _ _) (hentered _) fun bodyBlock _ => ?_
    refine .bindAt (emit_gives _ _) (hentered _) fun stepBlock _ => ?_
    refine .bindAt (emit_gives _ _) (hentered _) fun endBlock _ => ?_
    refine .bindAt (emit_gives _ _) (hentered _) fun _ _ => ?_
    refine .bindAt (emit_gives _ _) (hentered _) fun _ _ => ?_
    refine .bindAt (emit_gives _ _) (hentered _) fun v _ => ?_
    refine .bindAt (emit_gives _ _) (hentered _) fun _ _ => ?_
    refine .bindAt (emit_gives _ _) (hentered _) fun _ _ => ?_
    refine .bindInside (inScope_gives (stmts_keeps body))
      (fun t ht => by simp only [bare, ht, hinit]) fun body' hbody => ?_
    have hlooped : (Node.forLoop m (some endBlock) init' test step body').bare =
        (Node.forLoop m merge init test step body).bare := by simp only [bare, hinit, hbody]
    refine .bindAt (emit_gives _ _) hlooped fun _ _ => ?_
    refine .bindAt (emit_gives _ _) hlooped fun _ _ => ?_
    refine .bindState fun s => .ite ?_ ?_
    · refine .bindAt (emit_gives _ _) hlooped fun _ _ => ?_
      exact .bindAt (emit_gives _ _) hlooped fun _ _ => .pure hlooped
    · refine .bindInside (stmt_keeps step) (fun t ht => by simp only [bare, ht, hinit, hbody])
        fun step' hstep => ?_
      have hkept : (Node.forLoop m (some endBlock) init' test step' body').bare =
          (Node.forLoop m merge init test step body).bare := by
        simp only [bare, hinit, hstep, hbody]
      refine .bindAt (emit_gives _ _) hkept fun _ _ => ?_
      exact .bindAt (emit_gives _ _) hkept fun _ _ => .pure hkept
  | _ => exact fun _ => rfl
termination_by structural n

theorem stmts_keeps (ns : List Node) : Pass.KeepsAll ns (stmts ns) := by
  cases ns with
  | nil => exact .pure rfl
  | cons n rest =>
    refine .bindState fun s => .ite (.pure rfl) ?_
    refine .bindInside (stmt_keeps n) (fun t ht => by simp only [bareAll, ht]) fun n hn => ?_
    refine .bindInside (stmts_keeps rest) (fun t ht => by simp only [bareAll, ht, hn])
      fun rest hrest => ?_
    exact .pure (by simp only [bareAll, hn, hrest])
termination_by structural ns

end

theorem function_keeps (m : Mark) (name : Text) (params : List Param) (result : Ty)
    (body : List Node) :
    Pass.Keeps (.funcDef m name params result body) (function m name params result body) := by
  have hscope : ∀ func, Pass.KeepsAll body
      (emit body (Emit.parameters func 0 params) >>= fun _ => stmts body) :=
    fun _ => .bindAt (emit_gives _ _) rfl fun _ _ => stmts_keeps body
  refine .bindState fun s => .bindAt (emit_gives _ _) rfl fun _ _ => ?_
  refine .bindInside (inScope_gives (hscope _)) (fun t ht => by simp only [bare, ht])
    fun body' hbody => ?_
  have hkept : (Node.funcDef m name params result body').bare =
      (Node.funcDef m name params result body).bare := by simp only [bare, hbody]
  refine .bindAt (emit_gives _ _) hkept fun _ _ => ?_
  exact .bind .change fun _ _ => .pure hkept

theorem stmtItem_keeps (n : Node) {rest : List Node} (hrest : Pass.KeepsAll rest (items rest)) :
    Pass.KeepsAll (n :: rest) (stmtItem n rest) := by
  refine .bindState fun s => .ite ?_ ?_
  · refine .bindInside hrest (fun t ht => by simp only [bareAll, ht]) fun rest hrest => ?_
    exact .pure (by simp only [bareAll, hrest])
  · refine .bindInside (stmt_keeps n) (fun t ht => by simp only [bareAll, ht]) fun n hn => ?_
    refine .bindInside hrest (fun t ht => by simp only [bareAll, ht, hn]) fun rest hrest => ?_
    exact .pure (by simp only [bareAll, hn, hrest])

theorem items_keeps (ns : List Node) : Pass.KeepsAll ns (items ns) := by
  induction ns with
  | nil => exact .pure rfl
  | cons n rest ih =>
    have hstmt := stmtItem_keeps n ih
    cases n with
    | funcDef m name params result body =>
      refine .bindState fun s => ?_
      refine .bindInside (function_keeps m name params result body)
        (fun t ht => by simp only [bareAll, ht]) fun n hn => ?_
      refine .bind .change fun _ _ => ?_
      refine .bindInside ih (fun t ht => by simp only [bareAll, ht, hn]) fun rest hrest => ?_
      exact .pure (by simp only [bareAll, hn, hrest])
    | _ => exact hstmt

theorem program_keeps (ns : List Node) : Pass.KeepsAll ns (program ns) := by
  refine .bindState fun s => .bindAt (emit_gives _ _) rfl fun _ _ => ?_
  refine .bindAt (emit_gives _ _) rfl fun _ _ => .bindAt (emit_gives _ _) rfl fun main _ => ?_
  refine .bindAt (emit_gives _ _) rfl fun _ _ => .bind (items_keeps ns) fun body hbody => ?_
  refine .bindAt (emit_gives _ _) hbody fun _ _ => ?_
  exact .bind .change fun _ _ => .pure hbody

end Lowering

/-! ### Programs -/

theorem Pass.outcome_keeps {ε σ : Type} {ns : List Node} {p : Pass ε σ (List Node) (List Node)}
    (h : Pass.KeepsAll ns p) (s : σ) : bareAll (outcome (p.run s).1).2 = bareAll ns := by
  have hs := h s
  rcases hr : (p.run s).1 with e | body <;> rw [hr] at hs <;> exact hs

theorem Program.bareAll_analyse (ctx : Context) (p : Program) :
    bareAll (p.analyse ctx).2.2.body = bareAll p.body := by
  have hkept := Pass.outcome_keeps (Analysis.stmts_keeps p.body)
    { ctx := { ctx with certified := none } }
  unfold analyse
  rcases hr : (Analysis.stmts p.body).run { ctx := { ctx with certified := none } } with ⟨r, s⟩
  rw [hr] at hkept
  cases r with
  | error h => exact hkept
  | ok body => exact hkept

theorem Program.bareAll_lower (ctx : Context) (p : Program) :
    bareAll (p.lower ctx).2.2.body = bareAll p.body := by
  unfold lower
  split
  · rfl
  · split
    · rfl
    · exact Pass.outcome_keeps (Lowering.program_keeps p.body) { ctx }

end Augite
