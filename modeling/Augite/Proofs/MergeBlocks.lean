import Augite.Proofs.FunctionEnds

/-!
# Merge blocks

Behind each conditional and loop of the living code there is a block of its own, where control
comes together again and where the code of the next statement starts. Lowering writes its number
into the tree. What stands in dead code gets no such block.
-/

namespace Augite

/-- The statements behind which control comes together. -/
inductive Construct where
  | conditional
  | whileLoop
  | forLoop

/-- The role of the block behind the statement. -/
def Construct.exit : Construct → IR.Role
  | .conditional => .ifEnd
  | .whileLoop => .whileEnd
  | .forLoop => .forEnd

/-- The role of the block with the test of a loop, and how far ahead of the block behind the loop
it stands. -/
def Construct.test? : Construct → Option (IR.Role × Nat)
  | .conditional => none
  | .whileLoop => some (.whileCond, 2)
  | .forLoop => some (.forCond, 3)

/-- A conditional or loop of a tree: the function it stands in, whether it is in living code, the
block that was noted for it, and how many branches are to lead there. -/
structure Junction where
  func : Text
  alive : Bool
  construct : Construct
  merge : Option Nat
  branches : Nat

namespace Node

/-- The block that is noted in a conditional or a loop. -/
def merge? : Node → Option (Option Nat)
  | .branch _ merge _ _ _ | .whileLoop _ merge _ _ | .forLoop _ merge _ _ _ _ => some merge
  | _ => none

mutual

/-- The conditionals and loops of a statement or a function, in their order. -/
def junctions (func : Text) (alive : Bool) : Node → List Junction
  | .branch _ merge _ yes none =>
    ⟨func, alive, .conditional, merge, (if alwaysReturns yes then 0 else 1) + 1⟩ ::
      junctionsIn func alive yes
  | .branch _ merge _ yes (some no) =>
    ⟨func, alive, .conditional, merge,
        (if alwaysReturns yes then 0 else 1) + if alwaysReturns no then 0 else 1⟩ ::
      (junctionsIn func alive yes ++ junctionsIn func alive no)
  | .whileLoop _ merge _ body => ⟨func, alive, .whileLoop, merge, 1⟩ :: junctionsIn func alive body
  | .forLoop _ merge _ _ _ body => ⟨func, alive, .forLoop, merge, 1⟩ :: junctionsIn func alive body
  | .funcDef _ name _ _ body => junctionsIn name alive body
  | _ => []
termination_by structural n => n

/-- Behind a statement that returns the code is dead. -/
def junctionsIn (func : Text) (alive : Bool) : List Node → List Junction
  | [] => []
  | n :: rest => junctions func alive n ++ junctionsIn func (alive && !n.returns) rest
termination_by structural ns => ns

end

mutual

theorem alive_of_mem_junctions {func : Text} {n : Node} {j : Junction}
    (h : j ∈ junctions func false n) : j.alive = false := by
  cases n with
  | branch m merge test yes no =>
    cases no with
    | none =>
      rcases List.mem_cons.mp h with rfl | h
      · rfl
      · exact alive_of_mem_junctionsIn h
    | some no =>
      rcases List.mem_cons.mp h with rfl | h
      · rfl
      · exact (List.mem_append.mp h).elim alive_of_mem_junctionsIn alive_of_mem_junctionsIn
  | whileLoop m merge test body =>
    rcases List.mem_cons.mp h with rfl | h
    · rfl
    · exact alive_of_mem_junctionsIn h
  | forLoop m merge init test step body =>
    rcases List.mem_cons.mp h with rfl | h
    · rfl
    · exact alive_of_mem_junctionsIn h
  | funcDef m name params result body => exact alive_of_mem_junctionsIn h
  | _ => cases h
termination_by structural n

theorem alive_of_mem_junctionsIn {func : Text} {ns : List Node} {j : Junction}
    (h : j ∈ junctionsIn func false ns) : j.alive = false := by
  cases ns with
  | nil => cases h
  | cons n rest =>
    exact (List.mem_append.mp h).elim alive_of_mem_junctions alive_of_mem_junctionsIn
termination_by structural ns

end

theorem junctions_of_isPlain {n : Node} (hn : n.IsPlain) (func : Text) (alive : Bool) :
    junctions func alive n = [] := by
  cases n with
  | branch m merge test yes no => cases no <;> exact hn.elim
  | whileLoop | forLoop | funcDef => exact hn.elim
  | _ => rfl

/-- No block is noted in the statement. -/
def Unmerged (func : Text) (n : Node) : Prop :=
  ∀ alive, ∀ j ∈ n.junctions func alive, j.merge = none

def AllUnmerged (func : Text) (ns : List Node) : Prop :=
  ∀ alive, ∀ j ∈ junctionsIn func alive ns, j.merge = none

section

variable {func : Text} {n : Node} {rest : List Node} (h : AllUnmerged func (n :: rest))
include h

theorem AllUnmerged.head : n.Unmerged func :=
  fun alive j hj => h alive j (List.mem_append_left _ hj)

theorem AllUnmerged.tail (hn : n.returns = false) : AllUnmerged func rest := by
  intro alive j hj
  refine h alive j (List.mem_append_right _ ?_)
  rwa [hn, Bool.not_false, Bool.and_true]

/-- What stands behind a statement that returns. -/
theorem AllUnmerged.dead (hn : n.returns = true) :
    ∀ j ∈ junctionsIn func false rest, j.alive = false ∧ j.merge = none := by
  refine fun j hj => ⟨alive_of_mem_junctionsIn hj, h true j (List.mem_append_right _ ?_)⟩
  rwa [hn]

end

end Node

/-! ### Analysis -/

namespace Analysis

open Node (Unmerged AllUnmerged)

mutual

/-- Analysis takes all blocks out of the tree. -/
theorem stmt_unmerged (func : Text) (n : Node) :
    (stmt n).Gives (fun _ => True) (Unmerged func) := by
  have hnil (n : Node) (h : ∀ alive, n.junctions func alive = []) : n.Unmerged func :=
    fun alive => h alive ▸ List.forall_mem_nil _
  have hinner {τ : Type} {f : Text} {p : Analysis τ (List Node)}
      (h : p.Gives (fun _ => True) (AllUnmerged f)) :
      (inScope p).Gives (fun _ => True) (AllUnmerged f) :=
    fun s => h { s with vars := s.vars.enter }
  cases n with
  | branch m merge test yes no =>
    cases no with
    | none =>
      refine .bind (.any _) fun test _ => .bind (.inside (hinner (stmts_unmerged func yes))) fun yes hyes => ?_
      exact .pure fun alive => List.forall_mem_cons.mpr ⟨rfl, hyes alive⟩
    | some no =>
      refine .bind (.any _) fun test _ => .bind (.inside (hinner (stmts_unmerged func yes))) fun yes hyes => ?_
      refine .bind (.inside (hinner (stmts_unmerged func no))) fun no hno => ?_
      exact .pure fun alive => List.forall_mem_cons.mpr
        ⟨rfl, List.forall_mem_append.mpr ⟨hyes alive, hno alive⟩⟩
  | whileLoop m merge test body =>
    refine .bind (.any _) fun test _ => .bind (.inside (hinner (stmts_unmerged func body))) fun body hbody => ?_
    exact .pure fun alive => List.forall_mem_cons.mpr ⟨rfl, hbody alive⟩
  | forLoop m merge init test step body =>
    have hloop : Pass.Gives (fun _ => True) (Unmerged func)
        (stmt (.forLoop m merge init test step body)) := by
      refine fun s => Pass.Gives.bind (.any _) (fun init _ => .bind (.any _) fun test _ =>
        .bind (.any _) fun step _ => .bind (.inside (hinner (stmts_unmerged func body))) fun body hbody => ?_)
        { s with vars := s.vars.enter }
      exact .pure fun alive => List.forall_mem_cons.mpr ⟨rfl, hbody alive⟩
    exact hloop
  | funcDef m name params result body =>
    refine .bind (.any _) fun _ _ => .bind (.inside (hinner (f := name) ?_)) fun body hbody => ?_
    · exact .bind (.any _) fun _ _ => stmts_unmerged name body
    · exact .bind (.any _) fun _ _ => .pure hbody
  | includeLib => exact .pure (hnil _ fun _ => rfl)
  | classDecl m name fields =>
    refine .bind (.any _) fun _ _ => .bindState fun s => ?_
    split
    · exact .stop trivial
    · exact .bind (.any _) fun _ _ => .pure (hnil _ fun _ => rfl)
  | varDecl => exact .bind (.any _) fun _ _ => .bind (.any _) fun _ _ => .pure (hnil _ fun _ => rfl)
  | varDef =>
    refine .bind (.any _) fun _ _ => .bind (.any _) fun _ _ => .ite (.stop trivial) ?_
    exact .bind (.any _) fun _ _ => .bind (.any _) fun _ _ => .pure (hnil _ fun _ => rfl)
  | assign =>
    refine .bindState fun _ => .bind (.any _) fun _ _ => .bind (.any _) fun _ _ => ?_
    exact .ite (.stop trivial) (.bind (.any _) fun _ _ => .pure (hnil _ fun _ => rfl))
  | fieldAssign =>
    refine .bind (.any _) fun _ _ => .bind (.any _) fun _ _ => ?_
    exact .ite (.stop trivial) (.pure (hnil _ fun _ => rfl))
  | ret m value =>
    cases value with
    | none => exact .bind (.any _) fun _ _ => .pure (hnil _ fun _ => rfl)
    | some x =>
      exact .bind (.any _) fun _ _ => .bind (.any _) fun _ _ => .pure (hnil _ fun _ => rfl)
  | print => exact .bind (.any _) fun _ _ => .ite (.pure (hnil _ fun _ => rfl)) (.stop trivial)
  | listDecl => exact .bind (.any _) fun _ _ => .bind (.any _) fun _ _ => .pure (hnil _ fun _ => rfl)
  | graphDecl | exprStmt => exact .bind (.any _) fun _ _ => .pure (hnil _ fun _ => rfl)
  | _ => exact .stop trivial
termination_by structural n

theorem stmts_unmerged (func : Text) (ns : List Node) :
    (stmts ns).Gives (fun _ => True) (AllUnmerged func) := by
  cases ns with
  | nil => exact .pure fun _ => List.forall_mem_nil _
  | cons n rest =>
    refine .bind (.inside (stmt_unmerged func n)) fun n hn => ?_
    refine .bind (.inside (stmts_unmerged func rest)) fun rest hrest => .pure fun alive => ?_
    exact List.forall_mem_append.mpr ⟨hn alive, hrest _⟩
termination_by structural ns

end

end Analysis

theorem Program.analyse_unmerged {p p' : Program} {ctx : Context}
    (hrun : p.analyse {} = (.ok (), ctx, p')) (func : Text) : Node.AllUnmerged func p'.body := by
  have hgives := Analysis.stmts_unmerged func p.body { ctx := {} }
  unfold Program.analyse at hrun
  rcases hr : (Analysis.stmts p.body).run { ctx := {} } with ⟨e | body, u⟩ <;> rw [hr] at hrun hgives
  · cases hrun
  · cases hrun
    exact hgives

/-! ### Lowering -/

namespace Lowering

open State

namespace State

/-- The block is there for the conditional or loop: it belongs to the function, has its role, and
as many branches lead there as they should, behind a loop the one of the test. -/
structure Joins (s : State) (j : Junction) (b f : Nat) : Prop where
  merge : j.merge = some b
  block : ∃ x, s.outline b = some (f, x)
  role : s.roles[b]? = some j.construct.exit
  entering : s.entering b = j.branches
  test : ∀ role k, j.construct.test? = some (role, k) → ∃ c v body, c + k = b ∧
    s.roles[c]? = some role ∧ s.outline c = some (f, some (.condBr v body b))

/-- In the later state there are the blocks of the earlier one, and no more branches lead to those
from a number on. -/
structure Later (lo : Nat) (s u : State) : Prop where
  grows : s.outline.Grows u.outline
  roles : s.roles <+: u.roles
  entering : ∀ b, lo ≤ b → b < s.arena.length → u.entering b = s.entering b

variable {s t u w : State} {P : Set Nat} {lo hi mid b f : Nat} {j : Junction}
  {js ks : List Junction} {home : Text → Nat → Prop}

theorem Later.length_le (h : Later lo s u) : s.arena.length ≤ u.arena.length := by
  have hlen := h.roles.length_le
  rwa [State.roles, State.roles, List.length_map, List.length_map] at hlen

theorem Later.trans (h : Later lo s t) (k : Later lo t u) : Later lo s u :=
  ⟨h.grows.trans k.grows, h.roles.trans k.roles, fun b hlo hb =>
    (k.entering b hlo (hb.trans_le h.length_le)).trans (h.entering b hlo hb)⟩

theorem Later.mono (h : Later lo s u) (hle : lo ≤ mid) : Later mid s u :=
  { h with entering := fun b hb => h.entering b (hle.trans hb) }

theorem Continues.later (h : s.Continues u)
    (hent : ∀ b, lo ≤ b → b < s.arena.length → u.entering b = s.entering b) : Later lo s u :=
  ⟨h.grows, h.roles, hent⟩

theorem later_of_arena (harena : u.arena = s.arena) : Later lo s u := by
  refine ⟨?_, ?_, fun b _ _ => ?_⟩
  · have hout : u.outline = s.outline := by
      funext b
      rw [outline, outline, draft?, draft?, harena]
    exact hout ▸ .refl _
  · rw [State.roles, State.roles, harena]
  · rw [State.entering, State.entering, harena]

theorem later_left (s : State) : Later lo s s.left := later_of_arena rfl

theorem Passage.later {d : Bool} (h : Passage P s u d) : Later 0 s u :=
  h.continues.later fun b _ => h.entering b

theorem Joins.later (h : s.Joins j b f) (k : Later lo s u) (hb : lo ≤ b) : u.Joins j b f := by
  obtain ⟨x, hx⟩ := h.block
  obtain ⟨y, hy, -⟩ := k.grows b f x hx
  have hlt : b < s.arena.length := by
    by_contra hle
    rw [outline_eq_none s b (by omega)] at hx
    cases hx
  refine ⟨h.merge, ⟨y, hy⟩, getElem?_of_prefix k.roles h.role, (k.entering b hb hlt).trans h.entering, fun role n hn => ?_⟩
  obtain ⟨c, v, body, hc, hrole, hout⟩ := h.test role n hn
  obtain ⟨z, hz, hterm⟩ := k.grows c f _ hout
  exact ⟨c, v, body, hc, getElem?_of_prefix k.roles hrole, hterm (by simp) ▸ hz⟩

/-- The conditionals and loops have their blocks in a state, one behind the other, all of them
between two numbers, but for those in dead code, for which no block is noted. Each function has
a place in the module. -/
structure Wired (home : Text → Nat → Prop) (lo hi : Nat) (s : State) (js : List Junction) :
    Prop where
  joins : ∀ j ∈ js, if j.alive then ∃ b f, home j.func f ∧ s.Joins j b f else j.merge = none
  order : (js.filterMap Junction.merge).Pairwise (· < ·)
  range : ∀ b ∈ js.filterMap Junction.merge, lo ≤ b ∧ b < hi

namespace Wired

theorem dead (h : ∀ j ∈ js, j.alive = false ∧ j.merge = none) : Wired home lo hi s js := by
  have hnil : js.filterMap Junction.merge = [] :=
    List.filterMap_eq_nil_iff.mpr fun j hj => (h j hj).2
  refine ⟨fun j hj => ?_, hnil ▸ .nil, hnil ▸ nofun⟩
  rw [(h j hj).1]
  exact (h j hj).2

theorem append (h : Wired home lo mid s js) (k : Wired home mid hi s ks) (hlo : lo ≤ mid) (hhi : mid ≤ hi) :
    Wired home lo hi s (js ++ ks) := by
  refine ⟨List.forall_mem_append.mpr ⟨h.joins, k.joins⟩, ?_, ?_⟩ <;> rw [List.filterMap_append]
  · exact List.pairwise_append.mpr ⟨h.order, k.order, fun a ha b hb =>
      (h.range a ha).2.trans_le (k.range b hb).1⟩
  · exact List.forall_mem_append.mpr ⟨fun b hb => ⟨(h.range b hb).1, (h.range b hb).2.trans_le hhi⟩,
      fun b hb => ⟨hlo.trans (k.range b hb).1, (k.range b hb).2⟩⟩

theorem single (h : s.Joins j b f) (hf : home j.func f) (halive : j.alive = true) (hlo : lo ≤ b) (hhi : b < hi) :
    Wired home lo hi s [j] := by
  have hmerge : [j].filterMap Junction.merge = [b] := by rw [List.filterMap_cons, h.merge]; rfl
  refine ⟨List.forall_mem_singleton.mpr ?_, hmerge ▸ List.pairwise_singleton _ _, ?_⟩
  · rw [halive]
    exact ⟨b, f, hf, h⟩
  · rw [hmerge]
    exact List.forall_mem_singleton.mpr ⟨hlo, hhi⟩

theorem later (h : Wired home lo hi s js) (k : Later lo s u) : Wired home lo hi u js := by
  refine ⟨fun j hj => ?_, h.order, h.range⟩
  have hjoins := h.joins j hj
  cases halive : j.alive <;> rw [halive] at hjoins
  · exact hjoins
  · obtain ⟨b, f, hf, hb⟩ := hjoins
    exact ⟨b, f, hf, hb.later k (h.range b (List.mem_filterMap.mpr ⟨j, hj, hb.merge⟩)).1⟩

theorem mono {lo' hi' : Nat} (h : Wired home lo hi s js) (hlo : lo' ≤ lo) (hhi : hi ≤ hi') :
    Wired home lo' hi' s js :=
  { h with range := fun b hb => ⟨hlo.trans (h.range b hb).1, (h.range b hb).2.trans_le hhi⟩ }

end Wired

theorem Merge.joins {role : IR.Role} {d : Bool} {k : Nat} (h : Merge P s w b role d k) {a : Text}
    {x : Construct} (hrole : role = x.exit)
    (htest : ∀ role n, x.test? = some (role, n) → ∃ c, c + n = b ∧ w.Tests c role b) :
    w.Joins ⟨a, true, x, some b, k⟩ b s.body.func := by
  obtain ⟨e, he, hfunc, -⟩ := h.empty
  have hw : w.body.func = s.body.func := h.continues.func
  refine ⟨rfl, ⟨e.term, outline_eq_some_iff.mpr ⟨e, he, hfunc.trans hw, rfl⟩⟩, hrole ▸ h.role,
    h.count, fun role n hn => ?_⟩
  obtain ⟨c, hc, hrole, v, body, hout⟩ := htest role n hn
  exact ⟨c, v, body, hc, hrole, hw ▸ hout⟩

/-- Branches to a block that was there at the start of an arm do not count for those in it. -/
theorem Mapped.later_joined {l : Nat} (h : s.Mapped P) (hb : b < l) (c : Nat) :
    Later l s ((s.joined b).moved c) := by
  refine ((Continues.joined h.cur b).trans (.moved _ c)).later fun d hd _ => ?_
  refine (entering_joined h.isOpen_cur b d).trans ?_
  rw [if_neg fun hd => by omega, Nat.add_zero]

theorem Mapped.later_sealed {l : Nat} (h : s.Mapped (insert b P)) (hb : b ∉ P) (hl : b < l) :
    Later l s ((s.joined b).moved b).sealed := by
  refine (h.joined_sealed hb).continues.later fun d hd _ => ?_
  rw [h.entering_sealed, if_neg fun hd => by omega, Nat.add_zero]

/-- The block behind a statement comes ahead of those in it. -/
theorem Wired.cons (hj : w.Joins j b f) (hf : home j.func f) (halive : j.alive = true) (h : Wired home mid hi w js)
    (hlo : lo ≤ b) (hb : b < mid) (hhi : mid ≤ hi) (hw : hi ≤ w.arena.length) :
    Wired home lo w.arena.length w (j :: js) :=
  ((Wired.single hj hf halive hlo hb).append h (by omega) hhi).mono le_rfl hw

/-- A list goes on behind a statement. -/
theorem Wired.andThen (h : Wired home s.arena.length t.arena.length t js)
    (hs : s.arena.length ≤ t.arena.length) (hlater : Later 0 t u)
    (k : Wired home t.arena.length u.arena.length u ks) :
    Wired home s.arena.length u.arena.length u (js ++ ks) :=
  (h.later (hlater.mono (Nat.zero_le _))).append k hs hlater.length_le

end State

theorem Lowers.alwaysReturns_eq {P : Set Nat} {ns ns' : List Node} {s u : State}
    (h : Lowers P ns s ns' u) : Node.alwaysReturns ns' = Node.alwaysReturns ns := by
  induction h with
  | nil | ret => rfl
  | plain _ _ _ _ ih | branch _ _ _ _ _ ih | whileLoop _ _ _ _ _ ih | forLoop _ _ _ _ _ _ _ _ _ ih
  | forOnce _ _ _ _ _ _ _ _ ih =>
    simp only [Node.alwaysReturns, Node.returns, ih]
  | branchElse _ _ _ _ _ _ ihyes ihno ih =>
    simp only [Node.alwaysReturns, Node.returns, ihyes, ihno, ih]
  | bothReturn _ _ _ _ _ ihyes ihno => simp only [Node.alwaysReturns, Node.returns, ihyes, ihno]

theorem Lowers.passage {P : Set Nat} {ns ns' : List Node} {s u : State} (h : Lowers P ns s ns' u)
    (hn : Node.AllStmt ns) : Passage P s u (Node.alwaysReturns ns) :=
  stmts_passage hn h.ahead.mapped h.ahead.isOpen (h.run hn)

section

variable {P : Set Nat} {home : Text → Nat → Prop} {a : Text} {s s₁ t t₁ t₂ : State} {test init step : Node}
  {yes yes' no no' body body' : List Node} {v : IR.Value}

/-! What is behind each kind of statement, with the blocks of the statements in it. -/

theorem branch_wired {w : State} (hs : Ahead P s s) (ha : home a s.body.func)
    (htest : (Emit.expr test).run s = (.ok v, t))
    (hyes : Lowers (insert (t.arena.length + 1) P) yes (t.ifStart v).entered yes' t₁)
    (hn : Node.AllStmt yes)
    (h : home a t.body.func → Wired home (t.ifStart v).entered.arena.length t₁.arena.length t₁
      (Node.junctionsIn a true yes'))
    (hw : ((t₁.left.joined (t.arena.length + 1)).moved (t.arena.length + 1)).sealed = w) (m : Mark) :
    Passage P s w false ∧ Wired home s.arena.length w.arena.length w
      (Node.junctions a true (.branch m (some (t.arena.length + 1)) test yes' none)) := by
  subst hw
  have ht := hs.along (test_straight htest)
  have harm := hyes.passage hn
  have hmerge := ht.ahead.branch harm.scoped
  have hfunc : home a t.body.func := ht.continues.func.symm ▸ ha
  have hjoins := hmerge.joins (a := a) (x := .conditional) rfl nofun
  replace h := h hfunc
  have hcount : (if Node.alwaysReturns yes then 1 else 2) =
      (if Node.alwaysReturns yes' then 0 else 1) + 1 := by
    rw [hyes.alwaysReturns_eq]
    split <;> rfl
  rw [hcount] at hjoins
  have hlen : (t.ifStart v).entered.arena.length = t.arena.length + 2 := by
    simp [State.entered, State.ifStart, State.moved, State.closed]
  rw [hlen] at h
  have hlater := (later_left t₁).trans (harm.scoped.mapped.later_sealed (l := t.arena.length + 2)
    (ht.mapped.not_mem_of_le (Nat.le_succ _)) (by omega))
  have hstart := ht.later.length_le
  have hgrow := harm.later.length_le
  exact ⟨ht.trans hmerge.toPassage, .cons hjoins hfunc rfl (h.later hlater) (by omega) (by omega) (by omega)
    hlater.length_le⟩

theorem branchElse_wired {w : State} (hs : Ahead P s s) (ha : home a s.body.func)
    (htest : (Emit.expr test).run s = (.ok v, t))
    (hyes : Lowers (insert (t.arena.length + 2) (insert (t.arena.length + 1) P)) yes
      (t.ifElseStart v).entered yes' t₁)
    (hno : Lowers (insert (t.arena.length + 1) P) no
      ((t₁.left.joined (t.arena.length + 1)).moved (t.arena.length + 2)).entered no' t₂)
    (hn : Node.AllStmt yes ∧ Node.AllStmt no)
    (h : home a t.body.func → Wired home (t.ifElseStart v).entered.arena.length t₁.arena.length
      t₁ (Node.junctionsIn a true yes'))
    (k : home a ((t₁.left.joined (t.arena.length + 1)).moved (t.arena.length + 2)).body.func →
      Wired home ((t₁.left.joined (t.arena.length + 1)).moved
        (t.arena.length + 2)).entered.arena.length t₂.arena.length t₂ (Node.junctionsIn a true no'))
    (hw : ((t₂.left.joined (t.arena.length + 1)).moved (t.arena.length + 1)).sealed = w) (m : Mark) :
    Passage P s w (Node.alwaysReturns yes && Node.alwaysReturns no) ∧
      Wired home s.arena.length w.arena.length w
        (Node.junctions a true (.branch m (some (t.arena.length + 1)) test yes' (some no'))) := by
  subst hw
  have ht := hs.along (test_straight htest)
  have hfirst := hyes.passage hn.1
  have hsecond := hno.passage hn.2
  have hmerge := ht.ahead.branchElse hfirst.scoped hsecond.scoped
  have hfunc : home a t.body.func := ht.continues.func.symm ▸ ha
  have hjoins := hmerge.joins (a := a) (x := .conditional) rfl nofun
  rw [← hyes.alwaysReturns_eq, ← hno.alwaysReturns_eq] at hjoins
  replace h := h hfunc
  replace k := k ((hfirst.scoped.continues.trans
    (Continues.joined hfirst.scoped.mapped.cur _)).func.symm ▸ hfunc)
  have hlen : (t.ifElseStart v).entered.arena.length = t.arena.length + 3 := by
    simp [State.entered, State.ifElseStart, State.moved, State.closed]
  rw [hlen] at h
  have hstart := ht.later.length_le
  have hgrow := hfirst.later.length_le
  -- From the first arm to the second one, and from there to the end.
  have hmiddle := (later_left t₁).trans (hfirst.scoped.mapped.later_joined
    (l := t.arena.length + 3) (b := t.arena.length + 1) (by omega) (t.arena.length + 2))
  have hend := hsecond.scoped.mapped.later_sealed (l := t.arena.length + 3)
    (ht.mapped.not_mem_of_le (Nat.le_succ _)) (by omega)
  have hjoint : t.arena.length + 3 ≤
      ((t₁.left.joined (t.arena.length + 1)).moved (t.arena.length + 2)).entered.arena.length :=
    (hlen ▸ hgrow).trans hmiddle.length_le
  have hyes' := h.later (hmiddle.trans ((hsecond.scoped.later.mono (Nat.zero_le _)).trans hend))
  have hno' := k.later ((later_left t₂).trans (hend.mono hjoint))
  exact ⟨ht.trans hmerge.toPassage, .cons hjoins hfunc rfl
    ((hyes'.mono le_rfl hmiddle.length_le).append hno' hjoint hsecond.later.length_le)
    (by omega) (by omega) (hjoint.trans hsecond.later.length_le) hend.length_le⟩

theorem whileLoop_wired {w : State} (hs : Ahead P s s) (ha : home a s.body.func)
    (htest : (Emit.expr test).run s.whileStart = (.ok v, t))
    (hbody : Lowers (insert (s.arena.length + 2) P) body
      (t.loopBody v (s.arena.length + 1) (s.arena.length + 2)).entered body' t₁)
    (hn : Node.AllStmt body)
    (h : home a t.body.func → Wired home
      (t.loopBody v (s.arena.length + 1) (s.arena.length + 2)).entered.arena.length
      t₁.arena.length t₁ (Node.junctionsIn a true body'))
    (hw : (t₁.left.joined s.arena.length).moved (s.arena.length + 2) = w) (m : Mark) :
    Passage P s w false ∧ Wired home s.arena.length w.arena.length w
      (Node.junctions a true (.whileLoop m (some (s.arena.length + 2)) test body')) := by
  subst hw
  have hst := test_straight htest
  have hinner := hbody.passage hn
  obtain ⟨hmerge, htests⟩ := hs.whileLoop hst hinner.scoped
  have hfunc := ha
  have hjoins := hmerge.joins (a := a) (x := .whileLoop) rfl (by
    rintro _ _ ⟨⟩
    exact ⟨_, rfl, htests⟩)
  replace h := h ((hs.whileStart.straight hst).continues.func.symm ▸ ha)
  have hlt := (hs.whileBody hst v).1.mapped.lt_of_mem (.inl rfl)
  have hlater := (later_left t₁).trans (hinner.scoped.mapped.later_joined
    (l := (t.loopBody v (s.arena.length + 1) (s.arena.length + 2)).entered.arena.length)
    (b := s.arena.length) (Nat.lt_trans (by omega) hlt) (s.arena.length + 2))
  exact ⟨hmerge.toPassage, .cons hjoins hfunc rfl (h.later hlater) (Nat.le_add_right ..) hlt
    hinner.later.length_le hlater.length_le⟩

/-- A counting loop, from the end of its body on. -/
theorem counted_wired {w : State} {lo : Nat} {js : List Junction} (ha : home a s.body.func)
    (h₁ : Passage P s.entered s₁ false)
    (hmerge : Merge P s₁ w (s₁.arena.length + 3) .forEnd false 1)
    (htests : w.Tests s₁.arena.length .forCond (s₁.arena.length + 3))
    (h : Wired home lo t₁.arena.length t₁ js) (hlo : s₁.arena.length + 3 < lo) (ht₁ : lo ≤ t₁.arena.length)
    (hlater : Later (s₁.arena.length + 4) t₁.left w) :
    Passage P s w.left false ∧ Wired home s.arena.length w.left.arena.length w.left
      (⟨a, true, .forLoop, some (s₁.arena.length + 3), 1⟩ :: js) := by
  have hfunc : home a s₁.body.func := h₁.continues.func.symm ▸ ha
  have hjoins := (hmerge.joins (a := a) (x := .forLoop) rfl (by
    rintro _ _ ⟨⟩
    exact ⟨_, rfl, htests⟩)).later (later_left w) (Nat.zero_le _)
  have hstart : s.arena.length ≤ s₁.arena.length := h₁.later.length_le
  have hend := ((later_left t₁).trans (hlater.trans (later_left w))).mono hlo
  exact ⟨(h₁.trans hmerge.toPassage).scoped, .cons hjoins hfunc rfl (h.later hend) (by omega) hlo ht₁
    hend.length_le⟩

/-- Through the step of a counting loop, and back to its test. -/
theorem later_forLoop (h₁ : Ahead P s₁ s₁)
    (hbody : Passage (insert (s₁.arena.length + 3) (insert (s₁.arena.length + 2) P))
      (t.loopBody v (s₁.arena.length + 1) (s₁.arena.length + 3)) t₁.left false)
    (hst : (t₁.stepStart (s₁.arena.length + 2)).Straight t₂) :
    Later (s₁.arena.length + 4) t₁.left
      ((t₂.joined s₁.arena.length).moved (s₁.arena.length + 3)) := by
  have hstep := (h₁.stepStart hbody).straight hst
  have hthrough : Later (s₁.arena.length + 4) t₁.left t₂ := by
    refine hstep.continues.later fun b hb _ => (hst.entering b).trans ?_
    refine (entering_joined hbody.mapped.isOpen_cur (s₁.arena.length + 2) b).trans ?_
    rw [if_neg fun h => by omega, Nat.add_zero]
  exact hthrough.trans (hstep.mapped.later_joined (b := s₁.arena.length) (by omega) _)

/-- Past the step of a counting loop, which is marked. -/
theorem later_forOnce (h₁ : Ahead P s₁ s₁) (hst : s₁.forStart.Straight t)
    (hbody : Passage (insert (s₁.arena.length + 3) (insert (s₁.arena.length + 2) P))
      (t.loopBody v (s₁.arena.length + 1) (s₁.arena.length + 3)) t₁.left true) :
    Later (s₁.arena.length + 4) t₁.left (((t₁.stepStart (s₁.arena.length + 2)).closed
      .unreachable).moved (s₁.arena.length + 3)) := by
  have hmapped := hbody.mapped
  rw [Set.insert_comm] at hmapped
  have hmark := hmapped.later_sealed (l := s₁.arena.length + 4)
    (h₁.mapped.not_mem_insert (by omega) (by omega)) (by omega)
  have hsealed : (t₁.stepStart (s₁.arena.length + 2)).sealed =
      (t₁.stepStart (s₁.arena.length + 2)).closed .unreachable :=
    if_pos ((h₁.entering_step hst hbody).mpr rfl)
  exact (hsealed ▸ hmark).trans (later_of_arena rfl)

end

/-- The blocks behind the conditionals and loops of lowered statements. -/
theorem Lowers.wired {P : Set Nat} {home : Text → Nat → Prop} {a : Text} {ns ns' : List Node} {s u : State}
    (h : Lowers P ns s ns' u) (hn : Node.AllStmt ns) (ha : home a s.body.func)
    (hnone : Node.AllUnmerged a ns) :
    Wired home s.arena.length u.arena.length u (Node.junctionsIn a true ns') := by
  induction h with
  | nil => exact .dead nofun
  | plain hs hplain hrun h ih =>
    have hpass := plain_passage hs hrun hplain
    rw [Node.junctionsIn, Node.junctions_of_isPlain hplain, hplain.returns]
    exact (ih hn.2 (hpass.continues.func.symm ▸ ha) (hnone.tail hplain.returns)).mono
      hpass.later.length_le le_rfl
  | ret => exact .dead (hnone.dead rfl)
  | @branch _ m _ _ _ _ _ _ _ _ _ _ _ hs htest hyes h ihyes ih =>
    obtain ⟨hpass, hwired⟩ := branch_wired hs ha htest hyes hn.1.2 (fun hfunc => ihyes hn.1.2 hfunc
      fun alive j hj => hnone.head alive j (.tail _ hj)) rfl m
    exact hwired.andThen hpass.later.length_le (h.passage hn.2).later
      (ih hn.2 (hpass.continues.func.symm ▸ ha) (hnone.tail rfl))
  | @branchElse _ m _ _ _ _ _ _ _ _ _ _ _ _ _ _ hs htest hyes hno hreturns h ihyes ihno ih =>
    obtain ⟨hpass, hwired⟩ := branchElse_wired hs ha htest hyes hno hn.1.2
      (fun hfunc => ihyes hn.1.2.1 hfunc fun alive j hj =>
        hnone.head alive j (.tail _ (List.mem_append_left _ hj)))
      (fun hfunc => ihno hn.1.2.2 hfunc fun alive j hj =>
        hnone.head alive j (.tail _ (List.mem_append_right _ hj))) rfl m
    rw [Node.junctionsIn, Node.returns, hyes.alwaysReturns_eq, hno.alwaysReturns_eq, hreturns]
    exact hwired.andThen hpass.later.length_le (h.passage hn.2).later
      (ih hn.2 (hpass.continues.func.symm ▸ ha) (hnone.tail hreturns))
  | @bothReturn _ m _ _ _ _ _ _ _ _ _ _ _ _ hs htest hyes hno hreturns ihyes ihno =>
    obtain ⟨hpass, hwired⟩ := branchElse_wired hs ha htest hyes hno hn.1.2
      (fun hfunc => ihyes hn.1.2.1 hfunc fun alive j hj =>
        hnone.head alive j (.tail _ (List.mem_append_left _ hj)))
      (fun hfunc => ihno hn.1.2.2 hfunc fun alive j hj =>
        hnone.head alive j (.tail _ (List.mem_append_right _ hj))) rfl m
    rw [Node.junctionsIn, Node.returns, hyes.alwaysReturns_eq, hno.alwaysReturns_eq, hreturns]
    exact hwired.append (.dead (hnone.dead hreturns)) hpass.later.length_le le_rfl
  | @whileLoop _ m _ _ _ _ _ _ _ _ _ _ _ hs htest hbody h ihbody ih =>
    obtain ⟨hpass, hwired⟩ := whileLoop_wired hs ha htest hbody hn.1.2 (fun hfunc => ihbody hn.1.2
      hfunc fun alive j hj => hnone.head alive j (.tail _ hj)) rfl m
    exact hwired.andThen hpass.later.length_le (h.passage hn.2).later
      (ih hn.2 (hpass.continues.func.symm ▸ ha) (hnone.tail rfl))
  | forLoop hs hsimple hinit htest hbody hreturns hstep h ihbody ih =>
    have h₁ := hs.forInit hsimple.1 hinit
    have hst := test_straight htest
    have hst' := straight_of_run (plain_straight hsimple.2.isPlain) hstep
    have hinner := hreturns ▸ hbody.passage hn.1.2.2.2
    obtain ⟨hmerge, htests⟩ := h₁.ahead.forLoop hst hinner.scoped hst'
    have hwired := ihbody hn.1.2.2.2
      ((h₁.continues.trans (h₁.ahead.forStart.straight hst).continues).func.symm ▸ ha)
      fun alive j hj => hnone.head alive j (.tail _ hj)
    obtain ⟨hpass, hwired⟩ := counted_wired ha h₁ hmerge htests hwired
      ((h₁.ahead.forBody hst _).1.mapped.lt_of_mem (.inl rfl)) hinner.later.length_le
      (later_forLoop h₁.ahead hinner.scoped hst')
    exact hwired.andThen hpass.later.length_le (h.passage hn.2).later
      (ih hn.2 (hpass.continues.func.symm ▸ ha) (hnone.tail rfl))
  | forOnce hs hsimple hinit htest hbody hreturns h ihbody ih =>
    have h₁ := hs.forInit hsimple.1 hinit
    have hst := test_straight htest
    have hinner := hreturns ▸ hbody.passage hn.1.2.2.2
    obtain ⟨hmerge, htests⟩ := h₁.ahead.forOnce hst hinner.scoped
    have hwired := ihbody hn.1.2.2.2
      ((h₁.continues.trans (h₁.ahead.forStart.straight hst).continues).func.symm ▸ ha)
      fun alive j hj => hnone.head alive j (.tail _ hj)
    obtain ⟨hpass, hwired⟩ := counted_wired ha h₁ hmerge htests hwired
      ((h₁.ahead.forBody hst _).1.mapped.lt_of_mem (.inl rfl)) hinner.later.length_le
      (later_forOnce h₁.ahead hst hinner.scoped)
    exact hwired.andThen hpass.later.length_le (h.passage hn.2).later
      (ih hn.2 (hpass.continues.func.symm ▸ ha) (hnone.tail rfl))

/-! ### Items -/

theorem State.Spans.later {f : Nat} {s u : State} (h : s.Spans f u) :
    Later 0 s { u with body := s.body } := by
  refine ⟨fun b f x hx => ?_, h.roles, fun b _ => h.entering b⟩
  obtain ⟨d, hd, rfl, rfl⟩ := outline_eq_some_iff.mp hx
  exact ⟨d.term, outline_eq_some_iff.mpr ⟨d, h.kept b d hd, rfl, rfl⟩, fun _ => rfl⟩

theorem LowersItems.wired {home : Text → Nat → Prop} {ns ns' : List Node} {s u : State}
    (h : LowersItems ns s ns' u) (hshape : ∀ n ∈ ns, n.IsItem)
    (hnodup : (Node.functionNames ns).Nodup) (hs : s.Paced (Node.functionNames ns))
    (hopen : s.done = false) (hgoes : ∀ n ∈ ns, n.returns = false) (hnone : Node.AllUnmerged "main" ns)
    (hmain : home "main" s.body.func)
    (hplace : ∀ name ∈ Node.functionNames ns, home name (s.funcOf name)) :
    u.Paced [] ∧ u.done = false ∧ Later 0 s u ∧
      Wired home s.arena.length u.arena.length u (ns'.flatMap (Node.junctions "main" true)) := by
  induction h with
  | nil => exact ⟨hs, hopen, later_of_arena rfl, .dead nofun⟩
  | @function m name params result body body' rest rest' s s₁ s₂ s₃ u hnew hparams hbody hfinish _
      ih =>
    obtain ⟨hitem, hshape'⟩ := List.forall_mem_cons.mp hshape
    rw [Node.functionNames] at hnodup hs hplace
    have hn := (function_ok_iff hitem.2.2 hs.mapped hnew).mpr
      ⟨s₁, body', s₂, s₃, hparams, hbody, hfinish, rfl, rfl⟩
    have hspans := function_spans hitem.2.2 hs.mapped hnew hn
    have h₁ := parameters_passage hs.mapped hnew hparams
    have h₂ := (hbody.passage hitem.2.2).congr (u := s₂.left) rfl rfl rfl rfl
    have h₃ := (finish_passage h₂.mapped hfinish).later
    obtain ⟨hpaced, hdone, hlater, hrest⟩ := ih hshape' (List.nodup_cons.mp hnodup).2
      (hs.function hnodup hitem.2.2 hn) ((hspans.done hs.mapped).trans hopen)
      (List.forall_mem_cons.mp hgoes).2 (hnone.tail rfl) hmain fun other hother =>
        (hspans.funcOf other).symm ▸ hplace other (List.mem_cons_of_mem _ hother)
    have hfunc : s₁.body.func = s.funcOf name := h₁.continues.func
    have hwired := hbody.wired (a := name) hitem.2.2 (hfunc ▸ hplace name List.mem_cons_self)
      hnone.head
    -- From the body of the function to its end, and back to the entry point.
    have hend : Later 0 s₂ (s.resumed s₃ (.generatedFunction name (s₃.blockCount (s.funcOf name)))) :=
      (later_left s₂).trans (h₃.trans (later_of_arena rfl))
    have hstart : s.arena.length ≤ s₁.arena.length :=
      Nat.le_trans (by simp [State.begun, State.opened]) h₁.later.length_le
    refine ⟨hpaced, hdone, hspans.later.trans hlater, ?_⟩
    rw [List.flatMap_cons]
    exact ((hwired.later (hend.mono (Nat.zero_le _))).mono hstart hend.length_le).andThen
      hspans.later.length_le hlater hrest
  | @inert n rest rest' s u hn _ _ ih =>
    have hnot : n.NotFunction := by
      rintro m name params result body rfl
      exact hn
    rw [Node.functionNames.eq_3 _ _ hnot] at hnodup hs hplace
    obtain ⟨hreturns, hgoes⟩ := List.forall_mem_cons.mp hgoes
    have hrest := ih (List.forall_mem_cons.mp hshape).2 hnodup hs hopen hgoes (hnone.tail hreturns)
      hmain hplace
    cases n with
    | includeLib | classDecl => exact hrest
    | _ => exact hn.elim
  | @statement n n' rest rest' s t u hn hrun _ ih =>
    have hnot : n.NotFunction := by
      rintro m name params result body rfl
      exact hn.elim
    rw [Node.functionNames.eq_3 _ _ hnot] at hnodup hs hplace
    obtain ⟨hreturns, hgoes⟩ := List.forall_mem_cons.mp hgoes
    have hpass := hrun.passage ⟨hn, trivial⟩
    have hwired := hrun.wired (a := "main") ⟨hn, trivial⟩ hmain fun alive j hj =>
      hnone.head alive j (by simpa [Node.junctionsIn] using hj)
    obtain ⟨hpaced, hdone, hlater, hrest⟩ := ih (List.forall_mem_cons.mp hshape).2 hnodup
      (hs.onward hpass.toOnward) (hpass.done.trans (by simp [Node.alwaysReturns, hreturns])) hgoes
      (hnone.tail hreturns) (hpass.continues.func.symm ▸ hmain) fun name hname =>
        hpass.toOnward.funcOf name ▸ hplace name hname
    refine ⟨hpaced, hdone, hpass.later.trans hlater, ?_⟩
    rw [Node.junctionsIn, Node.junctionsIn, List.append_nil] at hwired
    rw [List.flatMap_cons]
    exact hwired.andThen hpass.later.length_le hlater hrest
  | skipped hnot hdone _ ih =>
    rw [hopen] at hdone
    cases hdone

/-! ### The statement that follows -/

/-- The block is open and there is no code in it. -/
def State.Blank (s : State) (b : Nat) : Prop :=
  ∃ d, s.draft? b = some d ∧ d.insts = [] ∧ d.term = none

/-- Behind a conditional or loop, unless it returns, lowering goes on in the block that is noted
for it, and there is nothing in the block yet. -/
theorem stmt_merges {P : Set Nat} {n n' : Node} {s u : State} (hn : n.IsStmt) (hs : Ahead P s s)
    (hrun : (stmt n).run s = (.ok n', u)) (hopen : u.done = false) {merge : Option Nat}
    (hmerge : n'.merge? = some merge) : merge = some u.body.cur ∧ u.Blank u.body.cur := by
  have key {Q : Set Nat} {s w : State} {b k : Nat} {role : IR.Role} {d : Bool}
      (h : Merge Q s w b role d k) (hopen : w.done = false) :
      some b = some w.body.cur ∧ w.Blank w.body.cur := by
    obtain ⟨x, hx, -, hempty⟩ := h.empty
    rw [← h.cur] at hx
    refine ⟨congrArg some h.cur.symm, x, hx, hempty, ?_⟩
    unfold State.done at hopen
    rw [hx] at hopen
    simpa using hopen
  cases (stmt_ok_iff hn hs).mp hrun with
  | plain _ hplain =>
    cases n with
    | branch m merge test yes no => cases no <;> exact hplain.elim
    | whileLoop | forLoop => exact hplain.elim
    | _ => cases hmerge
  | ret => cases hmerge
  | branch hs htest hyes h =>
    cases h
    cases hmerge
    have ht := (hs.along (test_straight htest)).ahead
    exact key (ht.branch (hyes.passage hn.2).scoped) hopen
  | branchElse hs htest hyes hno hreturns h =>
    cases h
    cases hmerge
    have ht := (hs.along (test_straight htest)).ahead
    exact key (ht.branchElse (hyes.passage hn.2.1).scoped (hno.passage hn.2.2).scoped) hopen
  | bothReturn hs htest hyes hno hreturns =>
    have ht := (hs.along (test_straight htest)).ahead
    have hdone := (ht.branchElse (hyes.passage hn.2.1).scoped (hno.passage hn.2.2).scoped).done
    rw [hopen, hreturns] at hdone
    cases hdone
  | whileLoop hs htest hbody h =>
    cases h
    cases hmerge
    exact key (hs.whileLoop (test_straight htest) (hbody.passage hn.2).scoped).1 hopen
  | forLoop hs hsimple hinit htest hbody hreturns hstep h =>
    cases h
    cases hmerge
    have hinner := hreturns ▸ hbody.passage hn.2.2.2
    have hbehind := key ((hs.forInit hsimple.1 hinit).ahead.forLoop (test_straight htest)
      hinner.scoped (straight_of_run (plain_straight hsimple.2.isPlain) hstep)).1 hopen
    exact hbehind
  | forOnce hs hsimple hinit htest hbody hreturns h =>
    cases h
    cases hmerge
    have hinner := hreturns ▸ hbody.passage hn.2.2.2
    have hbehind := key ((hs.forInit hsimple.1 hinit).ahead.forOnce (test_straight htest)
      hinner.scoped).1 hopen
    exact hbehind

/-- On the way through the items of a program, from a state on, lowering comes to an item of the
entry point in a second state, with other items behind it. -/
inductive Comes : List Node → State → List Node → State → Prop
  | here {ns : List Node} {s : State} : Comes ns s ns s
  | function {m : Mark} {name : Text} {params : List Param} {result : Ty} {n' : Node}
      {body rest ms : List Node} {s t u : State}
      (hrun : (function m name params result body).run s = (.ok n', t))
      (h : Comes rest { t with body := s.body } ms u) :
      Comes (.funcDef m name params result body :: rest) s ms u
  | passed {n n' : Node} {rest ms : List Node} {s t u : State} (hnot : n.NotFunction)
      (hopen : s.done = false) (hrun : (stmt n).run s = (.ok n', t)) (h : Comes rest t ms u) :
      Comes (n :: rest) s ms u

/-- Only functions and items without code stand between the first list and the second. -/
inductive Skips : List Node → State → List Node → State → Prop
  | here {ns : List Node} {s : State} : Skips ns s ns s
  | function {m : Mark} {name : Text} {params : List Param} {result : Ty} {n' : Node}
      {body rest ms : List Node} {s t u : State}
      (hrun : (function m name params result body).run s = (.ok n', t))
      (h : Skips rest { t with body := s.body } ms u) :
      Skips (.funcDef m name params result body :: rest) s ms u
  | inert {n : Node} {rest ms : List Node} {s u : State} (hn : n.IsInert) (h : Skips rest s ms u) :
      Skips (n :: rest) s ms u

/-- On the way through the items of a program lowering has made the given node of a statement, and
in the given state it comes to the statement that follows it in its list. -/
inductive Follows (items : List Node) (start : State) : Node → State → Prop
  | inFunction {m : Mark} {name : Text} {params : List Param} {result : Ty} {n n' k : Node}
      {body rest : List Node} {s t u : State}
      (hbegins : Begins items start (.funcDef m name params result body) s)
      (hmeets : Meets body s (n :: k :: rest) t) (hrun : (stmt n).run t = (.ok n', u))
      (hopen : t.done = false) (hgoes : u.done = false) : Follows items start n' u
  | nested {m n n' k : Node} {later rest : List Node} {s t u : State}
      (hcomes : Comes items start (m :: later) s) (hm : m.IsStmt) (hmeets : Meets [m] s (n :: k :: rest) t)
      (hrun : (stmt n).run t = (.ok n', u)) (hopen : t.done = false) (hgoes : u.done = false) :
      Follows items start n' u
  | entry {n n' k : Node} {later rest : List Node} {s t u : State}
      (hcomes : Comes items start (n :: later) s) (hn : n.IsStmt) (hrun : (stmt n).run s = (.ok n', t))
      (hopen : s.done = false) (hgoes : t.done = false) (hskips : Skips later t (k :: rest) u) :
      Follows items start n' u

section

variable {ns ms : List Node} {s u : State} (hshape : ∀ n ∈ ns, n.IsItem)
  (hnodup : (Node.functionNames ns).Nodup) (hs : s.Paced (Node.functionNames ns))
include hshape hnodup hs

theorem Comes.paced (h : Comes ns s ms u) :
    (∀ n ∈ ms, n.IsItem) ∧ (Node.functionNames ms).Nodup ∧ u.Paced (Node.functionNames ms) := by
  induction h with
  | here => exact ⟨hshape, hnodup, hs⟩
  | function hrun _ ih =>
    obtain ⟨hitem, hshape⟩ := List.forall_mem_cons.mp hshape
    rw [Node.functionNames] at hnodup hs
    exact ih hshape (List.nodup_cons.mp hnodup).2 (hs.function hnodup hitem.2.2 hrun)
  | passed hnot hopen hrun _ ih =>
    obtain ⟨hitem, hshape⟩ := List.forall_mem_cons.mp hshape
    rw [Node.functionNames.eq_3 _ _ hnot] at hnodup hs
    exact ih hshape hnodup (hs.onward (item_onward hitem hnot hs.mapped hopen hrun))

/-- Functions leave the entry point as it is. -/
theorem Skips.kept (h : Skips ns s ms u) :
    u.body = s.body ∧ ∀ b d, s.draft? b = some d → u.draft? b = some d := by
  induction h with
  | here => exact ⟨rfl, fun _ _ hd => hd⟩
  | function hrun _ ih =>
    obtain ⟨hitem, hshape⟩ := List.forall_mem_cons.mp hshape
    rw [Node.functionNames] at hnodup hs
    have hspans := function_spans hitem.2.2 hs.mapped (hs.awaits _ List.mem_cons_self) hrun
    obtain ⟨hbody, hkept⟩ := ih hshape (List.nodup_cons.mp hnodup).2
      (hs.function hnodup hitem.2.2 hrun)
    exact ⟨hbody, fun b d hd => hkept b d (hspans.kept b d hd)⟩
  | @inert n _ _ _ _ hn _ ih =>
    have hnot : n.NotFunction := by
      rintro m name params result body rfl
      exact hn
    rw [Node.functionNames.eq_3 _ _ hnot] at hnodup hs
    exact ih (List.forall_mem_cons.mp hshape).2 hnodup hs

/-- The code of the statement that follows a conditional or loop starts in the block behind it. -/
theorem Follows.merges {n : Node} (h : Follows ns s n u) {merge : Option Nat}
    (hmerge : n.merge? = some merge) : merge = some u.body.cur ∧ u.Blank u.body.cur := by
  cases h with
  | inFunction hbegins hmeets hrun hopen hgoes =>
    obtain ⟨hmem, hmapped, -⟩ := hbegins.isOpen hshape hnodup hs
    obtain ⟨hns, P, hP⟩ := hmeets.mapped (hshape _ hmem).2.2 hmapped
    exact stmt_merges hns.1 (hP.ahead hopen) hrun hgoes hmerge
  | nested hcomes hm hmeets hrun hopen hgoes =>
    obtain ⟨-, -, hpaced⟩ := hcomes.paced hshape hnodup hs
    obtain ⟨hns, P, hP⟩ := hmeets.mapped ⟨hm, trivial⟩ hpaced.mapped
    exact stmt_merges hns.1 (hP.ahead hopen) hrun hgoes hmerge
  | @entry n _ _ _ _ _ _ _ hcomes hn hrun hopen hgoes hskips =>
    obtain ⟨hshape, hnodup, hpaced⟩ := hcomes.paced hshape hnodup hs
    have hnot : n.NotFunction := by
      rintro m name params result body rfl
      exact hn.elim
    rw [Node.functionNames.eq_3 _ _ hnot] at hnodup hpaced
    have hahead := hpaced.mapped.ahead hopen
    have hpaced' := hpaced.onward (stmt_lowers hn hahead hrun).1.toOnward
    obtain ⟨hcur, d, hd, hempty⟩ := stmt_merges hn hahead hrun hgoes hmerge
    obtain ⟨hbody, hkept⟩ := hskips.kept (List.forall_mem_cons.mp hshape).2 hnodup hpaced'
    rw [hbody]
    exact ⟨hcur, d, hkept _ _ hd, hempty⟩

end

end Lowering

/-! ### The module -/

/-- The branches of a module that lead to a block. -/
def IR.Module.entering (m : IR.Module) (b : Nat) : Nat :=
  ((m.funcs.flatMap IR.Func.blocks).flatMap fun x =>
    (x.term.map Lowering.State.targets).getD []).count b

/-- The block that is noted for a conditional or loop is one of its function and has its role. As
many branches lead there as they should, to the block behind a loop the one of its test. -/
def IR.Module.Joins (m : IR.Module) (j : Junction) : Prop :=
  ∃ f ∈ m.funcs, f.name = j.func ∧ ∃ b ∈ f.blocks, j.merge = some b.id ∧
    b.role = j.construct.exit ∧ m.entering b.id = j.branches ∧
    ∀ role k, j.construct.test? = some (role, k) → ∃ c ∈ f.blocks, c.id + k = b.id ∧
      c.role = role ∧ ∃ v body, c.term = some (.condBr v body b.id)

namespace Lowering

open State

theorem entering_module {s : State} (h : ∀ d ∈ s.arena, d.func < s.heads.length) (b : Nat) :
    s.module.entering b = s.entering b := by
  unfold IR.Module.entering
  rw [((State.perm_module_blocks h).flatMap_right _).count_eq, State.entering, List.flatMap_def,
    List.flatMap_def]
  congr 2
  refine List.ext_getElem? fun i => ?_
  simp only [List.getElem?_map, List.getElem?_mapIdx, Option.map_map]
  rfl

theorem module_joins {s : State} (h : ∀ d ∈ s.arena, d.func < s.heads.length) {j : Junction}
    {b f : Nat} {head : IR.Func} (hhead : s.heads[f]? = some head) (hname : head.name = j.func)
    (hj : s.Joins j b f) : s.module.Joins j := by
  have hf : s.module.funcs[f]? = some { head with blocks := blocksFrom f 0 s.arena } := by
    rw [State.module_funcs, hhead]
    rfl
  have hblock {c : Nat} {x : Option IR.Term} {role : IR.Role} (hc : s.outline c = some (f, x))
      (hrole : s.roles[c]? = some role) :
      ∃ y ∈ blocksFrom f 0 s.arena, y.id = c ∧ y.role = role ∧ y.term = x := by
    obtain ⟨d, hd, hfunc, hterm⟩ := outline_eq_some_iff.mp hc
    obtain ⟨e, he, hrole⟩ := roles_eq_some_iff.mp hrole
    rw [hd] at he
    cases he
    exact ⟨d.block c, State.mem_blocks_iff.mpr ⟨c, d, hd, hfunc, rfl⟩, rfl, hrole, hterm⟩
  obtain ⟨x, hx⟩ := hj.block
  obtain ⟨y, hy, rfl, hrole, -⟩ := hblock hx hj.role
  refine ⟨_, List.mem_of_getElem? hf, hname, y, hy, hj.merge, hrole,
    (entering_module h y.id).trans hj.entering, fun role k hk => ?_⟩
  obtain ⟨c, v, body, hc, hcrole, hout⟩ := hj.test role k hk
  obtain ⟨z, hz, rfl, hzrole, hterm⟩ := hblock hout hcrole
  exact ⟨z, hz, hc, hzrole, v, body, hterm⟩

end Lowering

open Lowering State in
/-- In the tree of a lowered program each conditional or loop of the living code has a block of its
own noted, which is a block of the module as it should be, and in dead code none is. The code of
the statement that follows starts in that block. All the blocks that lowering has made are in the
module once. -/
theorem Program.lower_merges {key : Nat} {source : Text} {p p' p'' : Program} {ctx ctx' : Context}
    {m : IR.Module} (h : Program.parse key source = .ok p)
    (hrun : p.analyse {} = (.ok (), ctx, p')) (hlower : p'.lower ctx = (.ok m, ctx', p'')) :
    (∀ j ∈ p''.body.flatMap (Node.junctions "main" true),
      if j.alive then m.Joins j else j.merge = none) ∧
    ((p''.body.flatMap (Node.junctions "main" true)).filterMap Junction.merge).Nodup ∧
    (∀ n u, Follows p'.body (startState ctx p'.body) n u → ∀ merge, n.merge? = some merge →
      merge = some u.body.cur ∧ u.Blank u.body.cur) ∧
    ∃ u, (program p'.body).run { ctx } = (.ok p''.body, u) ∧ m = u.module ∧
      ((m.funcs.flatMap IR.Func.blocks).map IR.Block.id).Perm (List.range u.arena.length) := by
  have hp := Program.parse_isItem h
  have hc := Program.analyse_certified hp hrun
  have hshape := Node.isItem_of_bare hc.bare hp
  have hnodup : (Node.functionNames p'.body).Nodup := hc.names ▸ hc.sound.names
  have hpaced := startState_paced ctx hnodup
  obtain ⟨u, hr, rfl⟩ := hc.run_of_lower hlower
  obtain ⟨-, hheads, howned⟩ := program_mapped hc.sound hshape hc.names hc.checked hr
  have hfuncs : ∀ d ∈ u.arena, d.func < u.heads.length := by
    intro d hd
    obtain ⟨b, hb⟩ := List.mem_iff_getElem?.mp hd
    have hle := howned b _ (outline_eq_some_iff.mpr ⟨d, hb, rfl, rfl⟩)
    have hlen := hheads.length_le
    rw [List.length_append] at hlen
    exact Nat.lt_of_le_of_lt hle hlen
  obtain ⟨t, hitems, rfl⟩ := (program_ok_iff hc.sound hshape hc.names hc.checked).mp hr
  have hopen : (startState ctx p'.body).done = false := by
    rw [startState_eq]
    rfl
  -- The places of the functions and of the entry point.
  let home : Text → Nat → Prop := fun name f =>
    ∃ h, (p'.body.filterMap Node.head? ++ [mainHead])[f]? = some h ∧ h.name = name
  have hmain : home "main" (startState ctx p'.body).body.func := by
    rw [startState_eq]
    exact ⟨mainHead, List.getElem?_concat_length, rfl⟩
  have hplace : ∀ name ∈ Node.functionNames p'.body,
      home name ((startState ctx p'.body).funcOf name) := by
    intro name hname
    obtain ⟨h, hget, hname⟩ := startState_funcOf ctx hnodup hname
    exact ⟨h, getElem?_of_prefix (List.prefix_append _ _) hget, hname⟩
  obtain ⟨hlast, hdone, -, hwired⟩ := hitems.wired hshape hnodup hpaced hopen
    (returns_of_checkedItems hc.checked) (Program.analyse_unmerged hrun _) hmain hplace
  have hend : Later 0 t t.concluded := by
    unfold State.concluded
    rw [hdone]
    exact ((hlast.mapped.ahead hdone).returned _).later.trans (later_of_arena rfl)
  have hfinal := hwired.later (hend.mono (Nat.zero_le _))
  refine ⟨fun j hj => ?_, hfinal.order.imp ne_of_lt, fun n u hfollows merge hmerge =>
    hfollows.merges hshape hnodup hpaced hmerge, _, hr, rfl, ?_⟩
  · have hjoins := hfinal.joins j hj
    cases halive : j.alive <;> rw [halive] at hjoins
    · exact hjoins
    · obtain ⟨b, f, ⟨head, hhead, hname⟩, hjoins⟩ := hjoins
      have hhead' := getElem?_of_prefix hheads hhead
      exact module_joins hfuncs hhead' hname hjoins
  · refine ((perm_module_blocks hfuncs).map IR.Block.id).trans (.of_eq ?_)
    exact List.ext_getElem (by simp) fun i _ _ => by simp [Draft.block]

/-- A program with conditionals and loops one behind the other and in each other, and with a loop in
dead code. -/
def forking : Text :=
  "def least(a: int, b: int) -> int \x7b while (a < b) \x7b if (a == 3) \x7b b = a; \x7d " ++
  "else \x7b return a; \x7d print(b); \x7d return b; while (true) \x7b a = 1; \x7d \x7d " ++
  "for (i: int = 0; i < 2; i = i + 1) \x7b print(least(i, 2)); \x7d print(7);"

theorem forking_lower_merges : ∃ p ctx p' m ctx' p'', Program.parse 0 forking = .ok p ∧
    p.analyse {} = (.ok (), ctx, p') ∧ p'.lower ctx = (.ok m, ctx', p'') ∧
    (p''.body.flatMap (Node.junctions "main" true)).map (fun j => (j.alive, j.branches)) =
      [(true, 1), (true, 1), (false, 1), (true, 1)] ∧
    ∀ j ∈ p''.body.flatMap (Node.junctions "main" true),
      if j.alive then m.Joins j else j.merge = none := by
  have hok : ((Program.parse 0 forking).toOption.any fun p =>
      (p.analyse {}).1.isOk && ((p.analyse {}).2.2.lower (p.analyse {}).2.1).1.isOk &&
        (((p.analyse {}).2.2.lower (p.analyse {}).2.1).2.2.body.flatMap
          (Node.junctions "main" true)).map (fun j => (j.alive, j.branches)) ==
            [(true, 1), (true, 1), (false, 1), (true, 1)]) = true := by
    decide +kernel
  rcases hp : Program.parse 0 forking with e | p
  · rw [hp] at hok
    cases hok
  simp only [hp, Except.toOption, Option.any_some, Bool.and_eq_true, beq_iff_eq] at hok
  rcases hrun : p.analyse {} with ⟨_ | ⟨⟨⟩⟩, ctx, p'⟩
  · rw [hrun] at hok
    cases hok.1.1
  simp only [hrun] at hok
  rcases hlower : p'.lower ctx with ⟨_ | m, ctx', p''⟩
  · rw [hlower] at hok
    cases hok.1.2
  simp only [hlower] at hok
  exact ⟨p, ctx, p', m, ctx', p'', rfl, hrun, hlower, hok.2,
    (Program.lower_merges hp hrun hlower).1⟩

end Augite
