import Augite.Proofs.NameResolution
import Augite.Proofs.ParsedPositions
import Augite.Proofs.ParsedShape
import Augite.Proofs.Recompilation

/-!
# Names in analysed programs

Every read of a variable that analysis comes to is judged by the lexical rule, for every
program that was read from a source. The program is gone through in the order of the source;
the way through the annotated tree shows what has been declared and assigned before a read,
also where analysis has stopped.
-/

namespace Augite

open History

namespace Node

/-! ### Blocks on the way through a tree -/

mutual

/-- Every block that is opened on the way through a tree is closed there. -/
theorem net_namings (n : Node) : net n.namings = 0 := by
  cases n with
  | binary m op l r => rw [namings, net_append, net_namings l, net_namings r, add_zero]
  | unary m op x => exact net_namings x
  | call m name xs => exact net_namingsAll xs
  | dot a xs => rw [namings, net_cons, net_namingsAll xs, Naming.step_looks, add_zero]
  | varDef m name t x =>
    rw [namings, net_append, net_namings x, net_singleton, Naming.step_declares, add_zero]
  | assign m name x =>
    rw [namings, net_cons, net_append, net_namings x, net_singleton, Naming.step_assigns,
      Naming.step_looks, add_zero, add_zero]
  | fieldAssign m a xs x => rw [namings, net_cons, net_namings x, Naming.step_looks, add_zero]
  | ret m value =>
    cases value with
    | none => rfl
    | some x => exact net_namings x
  | branch m merge test yes no =>
    cases no with
    | none => rw [namings, net_append, net_namings test, net_block, net_namingsAll yes, add_zero]
    | some no =>
      rw [namings, net_append, net_append, net_namings test, net_block, net_namingsAll yes,
        net_block, net_namingsAll no, add_zero, add_zero]
  | whileLoop m merge test body =>
    rw [namings, net_append, net_namings test, net_block, net_namingsAll body, add_zero]
  | forLoop m merge init test step body =>
    rw [namings, net_block, net_append, net_append, net_append, net_namings init,
      net_namings test, net_namings step, net_block, net_namingsAll body]
    rfl
  | print m x => exact net_namings x
  | listDecl m name elem xs =>
    rw [namings, net_append, net_namingsAll xs, net_singleton, Naming.step_declares, add_zero]
  | exprStmt m x => exact net_namings x
  | funcDef m name params result body =>
    have hparams : net (params.map fun p => .declares p.name p.type true) = 0 := by
      induction params with
      | nil => rfl
      | cons p ps ih => rw [List.map_cons, net_cons, ih, Naming.step_declares, add_zero]
    rw [namings, net_block, net_append, hparams, net_namingsAll body, add_zero]
  | _ => rfl
termination_by structural n

theorem net_namingsAll (ns : List Node) : net (namingsAll ns) = 0 := by
  cases ns with
  | nil => rfl
  | cons n rest => rw [namingsAll, net_append, net_namings n, net_namingsAll rest, add_zero]
termination_by structural ns

end

mutual

/-- An expression only reads names and looks them up. -/
theorem namings_still {n : Node} (hn : n.IsExpr) : ∀ e ∈ n.namings, e.step = 0 := by
  cases n with
  | int m v | float m v | char m v | string m v | bool m v => exact List.forall_mem_nil _
  | var m name => exact List.forall_mem_singleton.mpr rfl
  | binary m op l r =>
    exact List.forall_mem_append.mpr ⟨namings_still hn.1, namings_still hn.2⟩
  | unary m op x => exact namings_still (n := x) hn
  | call m name xs => exact namingsAll_still (show AllExpr xs from hn)
  | dot a xs => exact List.forall_mem_cons.mpr ⟨rfl, namingsAll_still hn.1⟩
  | _ => exact hn.elim
termination_by structural n

theorem namingsAll_still {xs : List Node} (hn : AllExpr xs) : ∀ e ∈ namingsAll xs, e.step = 0 := by
  cases xs with
  | nil => exact List.forall_mem_nil _
  | cons x xs => exact List.forall_mem_append.mpr ⟨namings_still hn.1, namingsAll_still hn.2⟩
termination_by structural xs

end

mutual

/-- No variable of a tree without annotations has been annotated. -/
theorem unread_bare (n : Node) : Unread n.bare.namings := by
  cases n with
  | var m name => exact unread_cons.mpr ⟨rfl, unread_nil⟩
  | binary m op l r => exact unread_append.mpr ⟨unread_bare l, unread_bare r⟩
  | unary m op x | print m x | exprStmt m x => exact unread_bare x
  | call m name xs => exact unreadAll_bare xs
  | dot a xs => exact unread_cons.mpr ⟨trivial, unreadAll_bare xs⟩
  | varDecl m name t | graphDecl m name elem => exact unread_cons.mpr ⟨trivial, unread_nil⟩
  | varDef m name t x =>
    exact unread_append.mpr ⟨unread_bare x, unread_cons.mpr ⟨trivial, unread_nil⟩⟩
  | assign m name x =>
    exact unread_cons.mpr ⟨trivial, unread_append.mpr
      ⟨unread_bare x, unread_cons.mpr ⟨trivial, unread_nil⟩⟩⟩
  | fieldAssign m a xs x => exact unread_cons.mpr ⟨trivial, unread_bare x⟩
  | ret m value =>
    cases value with
    | none => exact unread_nil
    | some x => exact unread_bare x
  | branch m merge test yes no =>
    cases no with
    | none => exact unread_append.mpr ⟨unread_bare test, unread_block.mpr (unreadAll_bare yes)⟩
    | some no =>
      exact unread_append.mpr ⟨unread_append.mpr
        ⟨unread_bare test, unread_block.mpr (unreadAll_bare yes)⟩,
        unread_block.mpr (unreadAll_bare no)⟩
  | whileLoop m merge test body =>
    exact unread_append.mpr ⟨unread_bare test, unread_block.mpr (unreadAll_bare body)⟩
  | forLoop m merge init test step body =>
    exact unread_block.mpr (unread_append.mpr ⟨unread_append.mpr ⟨unread_append.mpr
      ⟨unread_bare init, unread_bare test⟩, unread_bare step⟩,
      unread_block.mpr (unreadAll_bare body)⟩)
  | listDecl m name elem xs =>
    exact unread_append.mpr ⟨unreadAll_bare xs, unread_cons.mpr ⟨trivial, unread_nil⟩⟩
  | funcDef m name params result body =>
    exact unread_block.mpr (unread_append.mpr ⟨unread_params params, unreadAll_bare body⟩)
  | _ => exact unread_nil
termination_by structural n

theorem unreadAll_bare (ns : List Node) : Unread (namingsAll (bareAll ns)) := by
  cases ns with
  | nil => exact unread_nil
  | cons n rest => exact unread_append.mpr ⟨unread_bare n, unreadAll_bare rest⟩
termination_by structural ns

end

end Node

/-! ### Expressions -/

namespace Analysis

open Node (namings namingsAll)

variable {τ α : Type} {D F : History} {view : τ → History} {seen : α → History}

namespace Traces

theorem congr {p : Analysis τ α} {view' : τ → History} {seen' : α → History}
    (h : Traces D p view seen)
    (hgives : p.Gives (fun t => view' t = view t) fun a => seen' a = seen a) :
    Traces D p view' seen' := by
  intro s H hs hD
  have hs' := hgives s
  refine ⟨fun a u hrun => ?_, fun e u hrun => ?_⟩ <;> rw [hrun] at hs'
  · rw [show seen' a = seen a from hs']
    exact (h s H hs hD).1 a u hrun
  · rw [show view' e.tree = view e.tree from hs']
    exact (h s H hs hD).2 e u hrun

/-- The rule for two steps where the first one gives nothing but values of a kind. -/
theorem bindGives {β : Type} {p : Analysis τ α} {f : α → Analysis τ β} {seen' : β → History}
    {Q : α → Prop} (hp : Traces D p view seen) (hQ : p.Gives (fun _ => True) Q)
    (hf : ∀ a, Q a → Traces (seen a) (f a) view seen') : Traces D (p >>= f) view seen' := by
  refine hp.bindOk fun s a u hrun => hf a ?_
  have hs := hQ s
  rwa [hrun] at hs

/-- What lies before the way of a pass. -/
theorem behind {p : Analysis τ α} (h : Traces [] p view seen) (D : History) :
    Traces D p (fun t => D ++ view t) fun a => D ++ seen a := by
  intro s H hs hD
  obtain ⟨hok, herr⟩ := h s (H ++ D) (by rwa [List.append_nil]) (.nil _)
  refine ⟨fun a u hrun => ?_, fun e u hrun => Stopped.after hD (herr e u hrun)⟩
  obtain ⟨hu, hpassed⟩ := hok a u hrun
  rw [← List.append_assoc]
  exact ⟨hu, hD.append hpassed⟩

end Traces

theorem read_eq {vs : Variables} {name : Text} {v : Variable} {k : Nat}
    (h : vs.resolve? name = some (v, k)) (pos : Position) :
    vs.read pos name =
      if v.initialized then .ok v else .error { kind := .useBeforeInitialization, pos, name } := by
  unfold Variables.read Variables.find
  rw [h]
  rfl

theorem var_traces {m : Mark} (hm : m.type = .unresolved) (name : Text) :
    Traces [] (expr (.var m name)) namings fun r => namings r.1 := by
  intro s H hs _
  rw [List.append_nil] at hs
  simp only [expr, Pass.run_bind_of_ok Pass.run_state]
  rw [Pass.run_bind]
  have hunread : Unread [.reads m name] := unread_cons.mpr ⟨hm, unread_nil⟩
  rcases hres : s.vars.resolve? name with _ | ⟨v, k⟩
  · unfold Variables.read Variables.find
    rw [hres]
    refine ⟨fun a u hrun => ?_, fun h u hrun => ?_⟩ <;> cases hrun
    refine ⟨[], _, rfl, .nil H, hunread, .undeclared (fun i => ?_) rfl⟩
    rw [List.append_nil]
    exact hs.unresolved hres i
  obtain ⟨i, hi, -, hd⟩ := hs.resolved hres
  rw [read_eq hres]
  by_cases hv : v.initialized = true
  · rw [if_pos hv]
    refine ⟨fun a u hrun => ?_, fun h u hrun => ?_⟩ <;> cases hrun
    refine ⟨hs.keeps rfl nofun nofun, (Passed.nil H).concat ?_⟩
    rw [List.append_nil]
    obtain ⟨t, b, hdecl⟩ := hi.1.declared
    obtain ⟨other, c, htype⟩ := hd.type
    rw [hdecl] at htype
    cases htype
    exact ⟨i, hi, hd.initialized.mp hv, ⟨b, hdecl⟩, hd.isGlobal⟩
  · rw [if_neg hv]
    refine ⟨fun a u hrun => ?_, fun h u hrun => ?_⟩ <;> cases hrun
    refine ⟨[], _, rfl, .nil H, hunread, .uninitialized (i := i) ?_ ?_ rfl⟩ <;>
      rw [List.append_nil]
    · exact hi
    · exact fun hready => hv (hd.initialized.mpr hready)

theorem member_traces {wrap : Access → τ} {a : Access} (store : Bool)
    (hview : ∀ b : Access, b.receiver.pos = a.receiver.pos → b.name = a.name →
      view (wrap b) = D ++ .looks a.receiver.pos a.name :: F) (hF : Unread F) :
    Traces D (member wrap a store) view fun _ => D ++ [.looks a.receiver.pos a.name] := by
  have htree : ∀ b : Access, b.receiver.pos = a.receiver.pos → b.name = a.name →
      view (wrap b) = D ++ [.looks a.receiver.pos a.name] ++ F := by
    intro b hpos hname
    rw [hview b hpos hname, List.append_assoc]
    rfl
  refine .lookup (hview a rfl rfl) hF fun s v => ?_
  dsimp only
  repeat' split
  all_goals first | exact .reject rfl (htree _ rfl rfl) hF | exact .pure rfl

mutual

theorem expr_traces {n : Node} (hn : n.IsExpr) (hfresh : Unread n.namings) :
    Traces [] (expr n) namings fun r => namings r.1 := by
  cases n with
  | int m v | float m v | char m v | string m v | bool m v => exact .pure rfl
  | var m name => exact var_traces (unread_cons.mp hfresh).1 name
  | binary m op l r =>
    obtain ⟨hl, hr⟩ := unread_append.mp hfresh
    refine .bind ((expr_traces hn.1 hl).inside (F := r.namings) (fun _ => rfl) hr) ?_
    rintro ⟨l', lt⟩
    refine .bind ((expr_traces hn.2 hr).last fun _ => rfl) ?_
    rintro ⟨r', rt⟩
    dsimp only
    split
    · exact .pure rfl
    · exact .reject rfl (List.append_nil _).symm unread_nil
  | unary m op x =>
    refine .bind ((expr_traces (n := x) hn hfresh).last fun _ => rfl) ?_
    rintro ⟨x', xt⟩
    dsimp only
    split
    · exact .pure rfl
    · exact .reject rfl (List.append_nil _).symm unread_nil
  | call m name xs =>
    refine .bindState fun s => ?_
    split
    · exact .reject rfl (F := namingsAll xs) rfl hfresh
    · rename_i sig _
      have hcount : Traces [] (checkCount m.pos name sig.params xs) namingsAll fun _ => [] :=
        .quiet (fun _ => checkCount_quiet _ _ _ _) rfl hfresh
      refine .bindOk (hcount.last fun _ => rfl)
        fun _ _ _ hrun => ?_
      obtain ⟨hlen, -⟩ := checkCount_ok (Pass.inside_ok_iff.mp hrun)
      exact .bind ((args_traces hn hfresh hlen).last fun _ => rfl) fun _ => .pure rfl
  | dot a xs =>
    obtain ⟨hargs, hnone⟩ := hn
    have hfresh := (unread_cons.mp hfresh).2
    refine .bindOk (member_traces (F := namingsAll xs) false
      (fun b hpos hname => by simp only [namings, hpos, hname]; rfl) hfresh) ?_
    rintro s ⟨b, f⟩ u hrun
    obtain ⟨-, v, hv⟩ := member_ok hrun
    obtain rfl := hv.marks
    dsimp only
    split
    · have hcount : Traces [] (checkCount (receiverMarks a v).mark.pos
          ((receiverMarks a v).name ++ "." ++ (receiverMarks a v).member) f.params xs) namingsAll
          fun _ => [] :=
        .quiet (fun _ => checkCount_quiet _ _ _ _) rfl hfresh
      refine .bindOk (hcount.last fun _ => rfl)
        fun _ _ _ hrun => ?_
      obtain ⟨hlen, -⟩ := checkCount_ok (Pass.inside_ok_iff.mp hrun)
      exact .bind ((args_traces hargs hfresh hlen).last fun _ => rfl) fun _ => .pure rfl
    · rename_i hkind
      have hfield : f.kind = .field := by
        cases hk : f.kind with
        | field => rfl
        | method => exact absurd hk hkind
      rw [hnone (hv.field hfield)]
      exact .pure rfl
  | _ => exact hn.elim
termination_by structural n

theorem args_traces {xs : List Node} (hn : Node.AllExpr xs) (hfresh : Unread (namingsAll xs))
    {ps : List Ty} (hlen : xs.length = ps.length) {name : Text} {i : Nat} :
    Traces [] (args name i ps xs) namingsAll namingsAll := by
  cases xs with
  | nil => cases ps <;> exact .pure rfl
  | cons x xs =>
    cases ps with
    | nil => cases hlen
    | cons p ps =>
      obtain ⟨hx, hxs⟩ := unread_append.mp hfresh
      refine .bind ((expr_traces hn.1 hx).inside (F := namingsAll xs) (fun _ => rfl) hxs) ?_
      rintro ⟨x', t⟩
      dsimp only
      split
      · refine .bind ((args_traces hn.2 hxs (Nat.succ.inj hlen)).last fun _ => rfl) fun _ => .pure rfl
      · exact .reject rfl (F := namingsAll xs) rfl hxs
termination_by structural xs

end

/-! ### Statements -/

theorem condition_traces {n : Node} (hn : n.IsExpr) (hfresh : Unread n.namings) :
    Traces [] (condition n) namings namings := by
  refine .bind (expr_traces hn hfresh) ?_
  rintro ⟨n', t⟩
  dsimp only
  split
  · exact .pure rfl
  · exact .reject rfl (List.append_nil _).symm unread_nil

theorem elements_traces {xs : List Node} (hn : Node.AllExpr xs) (hfresh : Unread (namingsAll xs))
    (name : Text) (t : Ty) : Traces [] (elements name t xs) namingsAll namingsAll := by
  induction xs with
  | nil => exact .pure rfl
  | cons x xs ih =>
    obtain ⟨hx, hxs⟩ := unread_append.mp hfresh
    refine .bind ((expr_traces hn.1 hx).inside (F := namingsAll xs) (fun _ => rfl) hxs) ?_
    rintro ⟨x', xt⟩
    dsimp only
    split
    · exact .bind ((ih hn.2 hxs).last fun _ => rfl) fun _ => .pure rfl
    · exact .reject rfl (F := namingsAll xs) rfl hxs

theorem declareAggregate_traces {tree : τ} {m : Mark} {name : Text} {t : Ty}
    (htree : view tree = D ++ F) (hF : Unread F) :
    Traces D (declareAggregate tree m name t) view fun _ => D ++ [.declares name t true] :=
  .bind (.quiet (fun _ => resolveType_quiet _ _ _) htree hF) fun _ =>
    .bind (.declare htree hF) fun _ => .pure rfl

/-- Statements in a scope of their own. -/
theorem scope_traces {ns : List Node} (h : Traces [] (stmts ns) namingsAll namingsAll) :
    Traces [] (inScope (stmts ns)) (fun ns => block (namingsAll ns)) fun ns => block (namingsAll ns) :=
  h.inScope Node.net_namingsAll

end Analysis

namespace Node

/-- What happens inside the block of a counting loop. -/
def loopNamings : Node → History
  | .forLoop _ _ init test step body =>
    namings init ++ namings test ++ namings step ++ History.block (namingsAll body)
  | _ => []

theorem net_loopNamings (n : Node) : net n.loopNamings = 0 := by
  cases n with
  | forLoop m merge init test step body =>
    exact (net_block _).symm.trans (net_namings (.forLoop m merge init test step body))
  | _ => rfl

theorem namings_of_bare_forLoop {n : Node} {m : Mark} {merge : Option Nat} {init test step : Node}
    {body : List Node} (h : n.bare = (forLoop m merge init test step body).bare) :
    n.namings = block n.loopNamings := by
  cases n with
  | forLoop => rfl
  | ret m value => cases value <;> simp [bare] at h
  | branch m merge test yes no => cases no <;> simp [bare] at h
  | _ => simp [bare] at h

theorem namings_of_bare_classDecl {n : Node} {m : Mark} {name : Text} {fields : List Param}
    (h : n.bare = (classDecl m name fields).bare) : n.namings = [] := by
  cases n with
  | classDecl => rfl
  | ret m value => cases value <;> simp [bare] at h
  | branch m merge test yes no => cases no <;> simp [bare] at h
  | _ => simp [bare] at h

end Node

namespace Analysis

open Node (namings namingsAll loopNamings)

theorem loop_traces {p : Analysis Node Node} (h : Traces [] p loopNamings loopNamings) :
    Traces [] (inScope p) (fun n => block n.loopNamings) fun n => block n.loopNamings :=
  h.inScope Node.net_loopNamings

mutual

theorem stmt_traces {n : Node} (hn : n.IsStmt) (hfresh : Unread n.namings) :
    Traces [] (stmt n) namings namings := by
  cases n with
  | varDecl m name t =>
    have hready : (t.kind == .class_) = !t.kind.isScalar := by
      rcases hn.2 with hscalar | hclass
      · cases hk : t.kind <;> rw [hk] at hscalar <;> first | rfl | cases hscalar
      · rw [hclass]
        rfl
    refine .bind (.quiet (fun _ => resolveType_quiet _ _ _) rfl hfresh) fun _ => ?_
    refine .bind (.declare rfl hfresh) fun _ => .pure ?_
    rw [hready]
    rfl
  | varDef m name t x =>
    obtain ⟨hx, hdeclares⟩ := unread_append.mp hfresh
    refine .bind ((expr_traces hn.2.2 hx).inside (fun _ => rfl) hdeclares) ?_
    rintro ⟨x', xt⟩
    refine .bind (.quiet (fun _ => resolveType_quiet _ _ _) rfl hdeclares) fun _ => ?_
    dsimp only
    split
    · exact .reject rfl rfl hdeclares
    · exact .define rfl hdeclares fun _ => rfl
  | assign m name x =>
    obtain ⟨hx, hassigns⟩ := unread_append.mp (unread_cons.mp hfresh).2
    refine .lookup (D := []) rfl (unread_cons.mp hfresh).2 fun s v => ?_
    have hgives : ((expr x).inside fun x => Node.assign m name x).Gives (fun _ => True)
        fun r => r.1.bare = x.bare :=
      .inside ((expr_keeps x).imp (fun _ _ => trivial) fun _ h => h)
    refine .bindGives ((expr_traces (n := x) hn hx).inside (fun _ => rfl) hassigns) hgives ?_
    rintro ⟨x', xt⟩ hbare
    have hx' : x'.IsExpr := by
      rwa [← Node.isExpr_bare, show x'.bare = x.bare from hbare, Node.isExpr_bare]
    dsimp only
    split
    · exact .reject rfl rfl hassigns
    · exact .bind (.assigned (D := []) (Node.namings_still hx')) fun _ => .pure rfl
  | fieldAssign m a xs x =>
    have hx := (unread_cons.mp hfresh).2
    refine .bindOk (member_traces (D := []) (F := namings x) true
      (fun b hpos hname => by simp only [namings, hpos, hname]; rfl) hx) ?_
    rintro s ⟨b, f⟩ u hrun
    obtain ⟨-, v, hv⟩ := member_ok hrun
    obtain rfl := hv.marks
    refine .bind ((expr_traces hn.2.2 hx).last fun _ => rfl) ?_
    rintro ⟨x', xt⟩
    dsimp only
    split
    · exact .reject rfl (List.append_nil _).symm unread_nil
    · exact .pure rfl
  | listDecl m name k xs =>
    obtain ⟨hxs, hdeclares⟩ := unread_append.mp hfresh
    refine .bind ((elements_traces hn.2 hxs _ _).inside (fun _ => rfl) hdeclares) fun xs' => ?_
    exact .bind (declareAggregate_traces rfl hdeclares) fun _ => .pure rfl
  | graphDecl m name k => exact .bind (declareAggregate_traces rfl hfresh) fun _ => .pure rfl
  | ret m value =>
    cases value with
    | none =>
      exact .bind (.quiet (fun _ => checkReturn_quiet _ _ _ _) rfl unread_nil) fun _ => .pure rfl
    | some x =>
      refine .bind ((expr_traces (n := x) hn hfresh).last fun _ => rfl) ?_
      rintro ⟨x', xt⟩
      exact .bind (.quiet (fun _ => checkReturn_quiet _ _ _ _) (List.append_nil _).symm unread_nil)
        fun _ => .pure rfl
  | branch m merge test yes no =>
    cases no with
    | none =>
      obtain ⟨htest, hyes⟩ := unread_append.mp hfresh
      refine .bind ((condition_traces hn.1 htest).inside (fun _ => rfl) hyes) fun test' => ?_
      refine .bind ((scope_traces (stmts_traces hn.2 (unread_block.mp hyes))).last fun _ => rfl) fun yes' => .pure rfl
    | some no =>
      obtain ⟨hyes, hno⟩ := unread_append.mp hfresh
      obtain ⟨htest, hyes⟩ := unread_append.mp hyes
      refine .bind ((condition_traces hn.1 htest).inside (fun _ => List.append_assoc ..)
        (unread_append.mpr ⟨hyes, hno⟩)) fun test' => ?_
      refine .bind ((scope_traces (stmts_traces hn.2.1 (unread_block.mp hyes))).inside
        (fun _ => rfl) hno) fun yes' => ?_
      refine .bind ((scope_traces (stmts_traces hn.2.2 (unread_block.mp hno))).last fun _ => rfl) fun no' => .pure rfl
  | whileLoop m merge test body =>
    obtain ⟨htest, hbody⟩ := unread_append.mp hfresh
    refine .bind ((condition_traces hn.1 htest).inside (fun _ => rfl) hbody) fun test' => ?_
    refine .bind ((scope_traces (stmts_traces hn.2 (unread_block.mp hbody))).last fun _ => rfl) fun body' => .pure rfl
  | forLoop m merge init test step body =>
    obtain ⟨hinit, htest, hstep, hbody⟩ := hn
    obtain ⟨hrest, hb⟩ := unread_append.mp (unread_block.mp hfresh)
    obtain ⟨hrest, hs⟩ := unread_append.mp hrest
    obtain ⟨hi, ht⟩ := unread_append.mp hrest
    refine Traces.congr (loop_traces ?_) ((stmt_keeps (.forLoop m merge init test step body)).imp
        (fun _ => Node.namings_of_bare_forLoop) fun _ => Node.namings_of_bare_forLoop)
    refine .bind ((stmt_traces hinit.isStmt hi).inside (F := test.namings ++ (step.namings ++
      block (namingsAll body))) (fun _ => ?_) ?_) fun init' => ?_
    · simp only [loopNamings, List.append_assoc, List.nil_append]
    · exact unread_append.mpr ⟨ht, unread_append.mpr ⟨hs, hb⟩⟩
    refine .bind ((condition_traces htest ht).inside (fun _ => List.append_assoc ..)
      (unread_append.mpr ⟨hs, hb⟩)) fun test' => ?_
    refine .bind ((stmt_traces hstep.isStmt hs).inside (fun _ => rfl) hb) fun step' => ?_
    refine .bind ((scope_traces (stmts_traces hbody (unread_block.mp hb))).last fun _ => rfl) fun body' => .pure rfl
  | print m x =>
    refine .bind ((expr_traces (n := x) hn hfresh).last fun _ => rfl) ?_
    rintro ⟨x', xt⟩
    dsimp only
    split
    · exact .pure rfl
    · exact .reject rfl (List.append_nil _).symm unread_nil
  | exprStmt m x =>
    exact .bind ((expr_traces (n := x) hn hfresh).last fun _ => rfl) fun _ => .pure rfl
  | _ => exact hn.elim
termination_by structural n

theorem stmts_traces {ns : List Node} (hn : Node.AllStmt ns) (hfresh : Unread (namingsAll ns)) :
    Traces [] (stmts ns) namingsAll namingsAll := by
  cases ns with
  | nil => exact .pure rfl
  | cons n rest =>
    obtain ⟨hx, hrest⟩ := unread_append.mp hfresh
    refine .bind ((stmt_traces hn.1 hx).inside (fun _ => rfl) hrest) fun n' => ?_
    exact .bind ((stmts_traces hn.2 hrest).last fun _ => rfl) fun _ => .pure rfl
termination_by structural ns

end

/-! ### Programs -/

theorem declareParams_traces {τ : Type} {D F : History} {view : τ → History} {tree : τ}
    {params : List Param}
    (htree : view tree = D ++ (params.map (fun p => .declares p.name p.type true) ++ F))
    (hF : Unread F) :
    Traces D (declareParams tree params) view
      fun _ => D ++ params.map fun p => .declares p.name p.type true := by
  induction params generalizing D with
  | nil => exact .pure (List.append_nil D)
  | cons p params ih =>
    have hstep : view tree = D ++ [.declares p.name p.type true] ++
        (params.map (fun p => .declares p.name p.type true) ++ F) := by
      rw [htree, List.append_assoc]
      rfl
    have hunread := unread_append.mpr ⟨unread_params (p :: params), hF⟩
    have hrest := ih hstep
    rw [List.append_assoc] at hrest
    exact .bind (.bind (.declare htree hunread) fun _ => .pure rfl) fun _ => hrest

theorem item_traces {n : Node} (hn : n.IsItem) (hfresh : Unread n.namings) :
    Traces [] (stmt n) namings namings := by
  cases n with
  | includeLib m library => exact .pure rfl
  | classDecl m name fields =>
    have hquiet : Traces [] (stmt (.classDecl m name fields)) (fun _ => []) fun _ => [] :=
      .quiet (fun _ => classDecl_quiet m name fields) rfl unread_nil
    exact hquiet.congr ((stmt_keeps (.classDecl m name fields)).imp
      (fun _ => Node.namings_of_bare_classDecl) fun _ => Node.namings_of_bare_classDecl)
  | funcDef m name params result body =>
    obtain ⟨-, hbody⟩ := unread_append.mp (unread_block.mp hfresh)
    refine .bind (.quiet (fun _ => beginFunction_quiet _ _ _ _ _) rfl hfresh) fun _ => ?_
    have hinner : Traces [] (do declareParams body params; stmts body)
        (fun b => params.map (fun p => .declares p.name p.type true) ++ namingsAll b)
        fun b => params.map (fun p => .declares p.name p.type true) ++ namingsAll b :=
      .bind (declareParams_traces rfl hbody) fun _ => (stmts_traces hn.2.2 hbody).behind _
    have hnet : ∀ b, net (params.map (fun p => .declares p.name p.type true) ++ namingsAll b) = 0 :=
      fun b => (net_block _).symm.trans (Node.net_namings (.funcDef m name params result b))
    refine .bind ((hinner.inScope hnet).last fun _ => rfl) fun body' => ?_
    exact .bind (.quiet (fun _ => endFunction_quiet _ _ _ _ _ _) (List.append_nil _).symm unread_nil)
      fun _ => .pure rfl
  | _ => exact stmt_traces hn hfresh

theorem items_traces {ns : List Node} (hn : ∀ n ∈ ns, n.IsItem) (hfresh : Unread (namingsAll ns)) :
    Traces [] (stmts ns) namingsAll namingsAll := by
  induction ns with
  | nil => exact .pure rfl
  | cons n rest ih =>
    obtain ⟨hitem, hitems⟩ := List.forall_mem_cons.mp hn
    obtain ⟨hx, hrest⟩ := unread_append.mp hfresh
    refine .bind ((item_traces hitem hx).inside (fun _ => rfl) hrest) fun n' => ?_
    exact .bind ((ih hitems hrest).last fun _ => rfl) fun _ => .pure rfl

end Analysis

/-- Trees that have just been read carry no annotations. -/
theorem Program.parse_bare {key : Nat} {source : Text} {p : Program}
    (h : Program.parse key source = .ok p) : Node.bareAll p.body = p.body := by
  unfold Program.parse at h
  rcases hs : Feed.ofSource source with e | s <;> rw [hs] at h
  · cases h
  have hid : s.shift id id = s := by
    unfold Feed.shift
    rw [show s.rest.map (Token.move id) = s.rest from List.map_id s.rest]
    rfl
  have hshift := Parse.items_shift id id s
  rw [hid] at hshift
  rcases hi : (Parse.items s).1 with e | body <;>
    simp only [bind, Except.bind, hi] at h <;> cases h
  rw [hi] at hshift
  rw [← Node.stripAll_id]
  exact (Except.ok.inj hshift).symm

namespace History

/-- What analysis makes of the read of a variable after a history, and the error that it
reports there, if any. -/
structure Judged (H : History) (m : Mark) (name : Text) (error : Option CompileError) : Prop where
  undeclared : error = some (.semantic { kind := .undeclaredIdentifier, pos := m.pos, name }) ↔
    ∀ i, ¬H.Visible name i
  uninitialized :
    error = some (.semantic { kind := .useBeforeInitialization, pos := m.pos, name }) ↔
      ∃ i, H.Resolves name i ∧ ¬H.Ready i
  accepted : error = none ↔ ∃ i, H.Resolves name i ∧ H.Ready i
  /-- A read without an error carries the type and the place of its declaration. -/
  annotated : error = none → ∃ i, H.Resolves name i ∧
    (∃ b, H[i]? = some (.declares name m.type b)) ∧ (m.isGlobal = true ↔ H.level i = 0)

/-- Analysis with this result got through the first events of a way, and no further. -/
structure Reaches (E : History) (result : Except CompileError Unit) (n : Nat) : Prop where
  le_length : n ≤ E.length
  judged : ∀ j < n, ∀ m name, E[j]? = some (.reads m name) → Judged (E.take j) m name none
  unread : Unread (E.drop n)
  finished : result = .ok () → n = E.length
  halted : ∀ e, result = .error e → Halts (E.take n) e E[n]?
  reported : ∀ e m name, result = .error e → e.isNaming = true → E[n]? = some (.reads m name) →
    Judged (E.take n) m name (some e)

variable {H E : History} {m : Mark} {name : Text} {e : CompileError}

theorem Settled.judged (h : Settled H (.reads m name)) : Judged H m name none := by
  obtain ⟨i, hi, hready, htype, hglobal⟩ := h
  refine ⟨⟨nofun, fun h => absurd hi.1 (h i)⟩, ⟨nofun, ?_⟩, ⟨fun _ => ⟨i, hi, hready⟩, fun _ => rfl⟩,
    fun _ => ⟨i, hi, htype, hglobal⟩⟩
  rintro ⟨j, hj, hunready⟩
  exact absurd (hj.unique hi ▸ hready) hunready

theorem Halts.judged (h : Halts H e (some (.reads m name))) (he : e.isNaming = true) :
    Judged H m name (some e) := by
  cases h with
  | undeclared h he =>
    subst he
    refine ⟨⟨fun _ => h, fun _ => rfl⟩, ⟨nofun, ?_⟩, ⟨nofun, ?_⟩, nofun⟩ <;>
      rintro ⟨i, hi, -⟩ <;> exact absurd hi.1 (h i)
  | uninitialized hi hunready he =>
    subst he
    refine ⟨⟨nofun, fun h => absurd hi.1 (h _)⟩, ⟨fun _ => ⟨_, hi, hunready⟩, fun _ => rfl⟩,
      ⟨nofun, ?_⟩, nofun⟩
    rintro ⟨j, hj, hready⟩
    exact absurd (hj.unique hi ▸ hready) hunready
  | other hother =>
    rw [hother] at he
    cases he

theorem Passed.reaches (h : Passed [] E) : Reaches E (.ok ()) E.length where
  le_length := Nat.le_refl _
  judged j _ m name hj := Settled.judged (H := E.take j) (h j _ hj)
  unread := by rw [List.drop_length]; exact unread_nil
  finished _ := rfl
  halted _ he := nomatch he
  reported _ _ _ he := nomatch he

theorem Stopped.reaches (h : Stopped [] E e) : ∃ n, Reaches E (.error e) n := by
  obtain ⟨before, rest, rfl, hpassed, hunread, hhalts⟩ := h
  have hnext : (before ++ rest)[before.length]? = rest.head? := by
    rw [List.getElem?_append_right (Nat.le_refl _), Nat.sub_self, List.head?_eq_getElem?]
  rw [List.nil_append] at hhalts
  refine ⟨before.length, by simp, fun j hj m name hread => ?_, by rwa [List.drop_left], nofun, ?_, ?_⟩
  · rw [List.getElem?_append_left hj] at hread
    rw [List.take_append_of_le_length hj.le]
    exact (hpassed j _ hread).judged
  · rintro _ ⟨⟩
    rwa [List.take_left, hnext]
  · rintro _ m name ⟨⟩ hnaming hread
    rw [hnext] at hread
    rw [List.take_left]
    exact (hread ▸ hhalts).judged hnaming

end History

/-- Names are resolved by the lexical rule, and variables have values where they are read.
The way through the annotated tree is that through the tree that was read; analysis judges
every read that it comes to, and stops at the first one that is not accepted. -/
theorem Program.analyse_judges_reads {key : Nat} {source : Text} {p q : Program}
    {result : Except CompileError Unit} {ctx : Context}
    (h : Program.parse key source = .ok p) (hrun : p.analyse {} = (result, ctx, q)) :
    Node.bareAll q.body = p.body ∧ ∃ n, (Node.namingsAll q.body).Reaches result n := by
  have hbare := Program.parse_bare h
  have hkept : Node.bareAll q.body = p.body := by
    have := Program.bareAll_analyse {} p
    rw [hrun] at this
    exact this.trans hbare
  refine ⟨hkept, ?_⟩
  have hfresh : Unread (Node.namingsAll p.body) := hbare ▸ Node.unreadAll_bare p.body
  obtain ⟨hok, herr⟩ := Analysis.items_traces (Program.parse_isItem h) hfresh { ctx := {} } []
    Tracks.nil (.nil _)
  unfold Program.analyse at hrun
  rcases hr : (Analysis.stmts p.body).run { ctx := { ({} : Context) with certified := none } }
    with ⟨halt | body, s⟩
  · rw [hr] at hrun
    cases hrun
    exact (herr halt s hr).reaches
  · rw [hr] at hrun
    cases hrun
    exact ⟨_, (hok body s hr).2.reaches⟩

/-- Analysis has found a variable that is read before it has a value. -/
def unready : Except CompileError Unit → Bool
  | .error (.semantic e) => e.kind == .useBeforeInitialization
  | _ => false

/-- A block assigns to the one variable of the module, and hides the other one. -/
def shadowed : Text :=
  "total: int; count: int; if (true) { total = 1; count: int = 2; print(total + count); } " ++
  "print(total); print(count);"

theorem shadowed_judges_reads : ∃ p e ctx q n m name i, Program.parse 0 shadowed = .ok p ∧
    p.analyse {} = (.error e, ctx, q) ∧ (Node.namingsAll q.body).Reaches (.error e) n ∧
    (Node.namingsAll q.body)[n]? = some (.reads m name) ∧
    History.Resolves ((Node.namingsAll q.body).take n) name i ∧
    ¬History.Ready ((Node.namingsAll q.body).take n) i := by
  have hok : ((Program.parse 0 shadowed).toOption.any fun p => unready (p.analyse {}).1) = true := by
    decide +kernel
  rcases hp : Program.parse 0 shadowed with e | p
  · rw [hp] at hok
    cases hok
  simp only [hp, Except.toOption, Option.any_some] at hok
  rcases hrun : p.analyse {} with ⟨e | _, ctx, q⟩ <;> rw [hrun] at hok
  · obtain ⟨-, n, hreaches⟩ := Program.analyse_judges_reads hp hrun
    have hhalts := hreaches.halted e rfl
    generalize hnext : (Node.namingsAll q.body)[n]? = next at hhalts
    cases hhalts with
    | uninitialized hi hunready he =>
      exact ⟨p, e, ctx, q, n, _, _, _, rfl, hrun, hreaches, hnext, hi, hunready⟩
    | undeclared h he | unknown h he =>
      subst he
      cases hok
    | other he =>
      cases e with
      | semantic e =>
        simp only [unready, beq_iff_eq] at hok
        simp [CompileError.isNaming, hok] at he
      | grammar e | internal e => cases hok
  · cases hok

end Augite
