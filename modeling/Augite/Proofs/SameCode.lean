import Augite.Proofs.Annotations
import Augite.Proofs.Orderly
import Augite.Proofs.Recompilation

/-!
# Code in two contexts

Two trees were read from one text and annotated rightly, each in a context of its own. If the
contexts have the same functions and classes, the two trees have the same essence, and the
contexts agree on the members that the trees ask for. So the two trees have the same code.
-/

namespace Augite

namespace Context

/-- The members of a type in use. -/
def membersOf (c : Context) (t : Ty) : List Member :=
  match t.kind with
  | .list => Member.ofList t.elem
  | .graph => Member.ofGraph t.elem
  | _ => ((c.class? t.className).map fun d => Member.ofFields 0 d.fields).getD []

theorem Sound.listed?_of_inUse {c : Context} (h : c.Sound) {t : Ty} (ht : t.InUse c)
    (haggregate : t.isAggregate = true) : c.members.listed? t.name = some (c.membersOf t) := by
  cases ht with
  | @scalar k hk => cases k <;> cases hk <;> cases haggregate
  | list hk hlisted => exact hlisted
  | graph hk hlisted => exact hlisted
  | @class_ d hd =>
    have hmembers := h.members d (mem_of_class? hd).1
    have hof : c.membersOf (.classOf d.name) = Member.ofFields 0 d.fields := by
      change ((c.class? d.name).map fun d => Member.ofFields 0 d.fields).getD [] = _
      rw [hd]
      rfl
    rw [hof]
    exact hmembers

/-- Two sound contexts with the same functions and classes. -/
structure Twins (F G : Context) : Prop where
  left : F.Sound
  right : G.Sound
  funcs : G.funcs = F.funcs
  classes : G.classes = F.classes

/-- Both contexts know the same members of a type that is in use in both. -/
theorem Twins.agrees {F G : Context} (h : F.Twins G) {t : Ty} (hF : t.InUse F) (hG : t.InUse G)
    (haggregate : t.isAggregate = true) (name : Text) : F.Agrees G (t, name) := by
  have hof : G.membersOf t = F.membersOf t := by
    unfold membersOf class?
    rw [h.classes]
  unfold Agrees MemberTable.lookup?
  rw [MemberTable.members_eq, MemberTable.members_eq, h.left.listed?_of_inUse hF haggregate,
    h.right.listed?_of_inUse hG haggregate, hof]

end Context

/-! ### Marks -/

namespace Mark

variable {m m' : Mark}

theorem pos_of_bare (h : m'.bare = m.bare) : m'.pos = m.pos := (Mark.mk.inj h).1

theorem essence_eq {g c : Bool} (hb : m'.bare = m.bare) (ht : m'.type = m.type)
    (hg : (g && m'.isGlobal) = (g && m.isGlobal)) (hc : (c && m'.isClass) = (c && m.isClass)) :
    m'.essence id g c = m.essence id g c := by
  simp only [essence, pos_of_bare hb, ht, hg, hc]

/-- Two uses of a name in one place are uses of one declaration. -/
theorem Uses.eq {Γ : Environment} {name : Text} {d d' : Declaration} (h : m.Uses Γ name d)
    (h' : m'.Uses Γ name d') : d' = d ∧ m'.type = m.type ∧ m'.isGlobal = m.isGlobal := by
  obtain ⟨k, hk, hglobal⟩ := h.found
  obtain ⟨k', hk', hglobal'⟩ := h'.found
  rw [hk] at hk'
  cases hk'
  exact ⟨rfl, h'.type.trans h.type.symm, hglobal'.trans hglobal.symm⟩

theorem Declares.essence_eq {Γ : Environment} {t : Ty} (h : m.Declares Γ t) (h' : m'.Declares Γ t)
    (hb : m'.bare = m.bare) : m'.essence id true false = m.essence id true false :=
  Mark.essence_eq hb (h'.type.trans h.type.symm) (by rw [h'.isGlobal, h.isGlobal]) rfl

end Mark

namespace Node

theorem bare_ret (m : Mark) (value : Option Node) :
    (Node.ret m value).bare = .ret m.bare (value.map bare) := by
  cases value <;> rfl

theorem bare_branch (m : Mark) (merge : Option Nat) (test : Node) (yes : List Node)
    (no : Option (List Node)) : (Node.branch m merge test yes no).bare =
      .branch m.bare none test.bare (bareAll yes) (no.map bareAll) := by
  cases no <;> rfl

end Node

theorem Environment.after_of_bare {n n' : Node} (h : n'.bare = n.bare) (Γ : Environment) (π : Path) :
    Γ.after π n' = Γ.after π n := by
  unfold after
  rw [← Node.declared?_bare n', h, Node.declared?_bare]

namespace Typing

variable {F G : Context} {Γ : Environment} (hFG : F.Twins G)

include hFG

theorem RefersTo.same (hF : Γ.InUse F) (hG : Γ.InUse G) {a b : Access} {d d' : Declaration}
    {f f' : Member} (h : a.RefersTo F Γ d f) (h' : b.RefersTo G Γ d' f') (ha : a.Flagged F)
    (hb : b.Flagged G) (hbare : b.bare = a.bare) :
    f' = f ∧ b.essence id = a.essence id ∧ F.Agrees G (a.receiver.type, a.member) := by
  obtain ⟨hmark, hreceiver, hname, hmember, hparens⟩ := Access.mk.inj hbare
  have huses := h'.receiver
  rw [show b.name = a.name from hname] at huses
  obtain ⟨rfl, htype, hglobal⟩ := h.receiver.eq huses
  obtain ⟨k, hk, -⟩ := h.receiver.found
  have hagrees := hFG.agrees (hF _ _ k hk) (hG _ _ k hk) h.aggregate a.member
  have hfound := h'.member
  rw [show b.member = a.member from hmember, hagrees, h.member] at hfound
  cases hfound
  have hclass : b.receiver.isClass = a.receiver.isClass := by rw [hb.receiver, ha.receiver, htype]
  refine ⟨rfl, ?_, h.receiver.type ▸ hagrees⟩
  simp only [Access.essence, Access.mk.injEq]
  refine ⟨Mark.essence_eq hmark (h'.type.trans h.type.symm) ?_ ?_, Mark.essence_eq hreceiver htype ?_ ?_,
    hname, hmember, hparens⟩
  · rw [hb.isGlobal, ha.isGlobal, hglobal]
  · rw [hb.isClass, ha.isClass, hclass]
  · rw [hglobal]
  · rw [hclass]

mutual

/-- One expression has one type and one essence in both contexts. -/
theorem HasType.same (hF : Γ.InUse F) (hG : Γ.InUse G) {x y : Node} {t t' : Ty}
    (h : HasType F Γ x t) (h' : HasType G Γ y t') (hx : x.Flagged F) (hy : y.Flagged G)
    (hb : y.bare = x.bare) :
    t' = t ∧ y.essence id = x.essence id ∧ ∀ q ∈ x.lookups, F.Agrees G q := by
  cases x with
  | int | float | char | string | bool =>
    cases h
    cases h' <;> simp_all [Node.bare, Node.essence, Node.lookups, Mark.essence, Mark.bare]
  | var m name =>
    obtain ⟨d, huses, rfl⟩ := h.of_var
    cases h' <;> simp only [Node.bare, reduceCtorEq, Node.var.injEq] at hb
    obtain ⟨hmark, rfl⟩ := hb
    rename_i m' _ d' huses'
    obtain ⟨rfl, htype, hglobal⟩ := huses.eq huses'
    refine ⟨rfl, ?_, List.forall_mem_nil _⟩
    have hclass : m'.isClass = m.isClass := by
      rw [show m'.isClass = _ from hy, show m.isClass = _ from hx, htype]
    rw [Node.essence, Node.essence, Mark.essence_eq hmark htype (by rw [hglobal]) (by rw [hclass])]
  | binary m op l r =>
    obtain ⟨lt, rt, hl, hr, hres, hm⟩ := h.of_binary
    cases h' <;> simp only [Node.bare, reduceCtorEq, Node.binary.injEq] at hb
    obtain ⟨hmark, rfl, hbl, hbr⟩ := hb
    rename_i m' l' r' lt' rt' hl' hr' hres' hm'
    obtain ⟨rfl, hleft, hls⟩ := HasType.same hF hG hl hl' hx.1 hy.1 hbl
    obtain ⟨rfl, hright, hrs⟩ := HasType.same hF hG hr hr' hx.2 hy.2 hbr
    rw [hres] at hres'
    cases hres'
    refine ⟨rfl, ?_, List.forall_mem_append.mpr ⟨hls, hrs⟩⟩
    rw [Node.essence, Node.essence, hleft, hright, Mark.essence_eq hmark (hm'.trans hm.symm) rfl rfl]
  | unary m op x =>
    obtain ⟨xt, hxt, hres, hm⟩ := h.of_unary
    cases h' <;> simp only [Node.bare, reduceCtorEq, Node.unary.injEq] at hb
    obtain ⟨hmark, rfl, hbx⟩ := hb
    rename_i m' x' xt' hxt' hres' hm'
    obtain ⟨rfl, hoperand, hxs⟩ := HasType.same hF hG hxt hxt' hx hy hbx
    rw [hres] at hres'
    cases hres'
    refine ⟨rfl, ?_, hxs⟩
    rw [Node.essence, Node.essence, hoperand, Mark.essence_eq hmark (hm'.trans hm.symm) rfl rfl]
  | call m name xs =>
    have hm := h.type_eq
    obtain ⟨sig, hsig, hxs, rfl⟩ := h.of_call
    cases h' <;> simp only [Node.bare, reduceCtorEq, Node.call.injEq] at hb
    obtain ⟨hmark, rfl, hbxs⟩ := hb
    rename_i m' _ xs' sig' hsig' hxs' hm'
    rw [hFG.funcs, hsig] at hsig'
    cases hsig'
    obtain ⟨hargs, hlook⟩ := HasTypes.same hF hG hxs hxs' hx hy hbxs
    refine ⟨rfl, ?_, hlook⟩
    rw [Node.essence, Node.essence, hargs, Mark.essence_eq hmark (hm'.trans hm.symm) rfl rfl]
  | dot a xs =>
    obtain ⟨d, f, ha, hxs, rfl⟩ := h.of_dot
    cases h' <;> simp only [Node.bare, reduceCtorEq, Node.dot.injEq] at hb
    rename_i a' xs' d' f' ha' hxs'
    obtain ⟨rfl, haccess, hagrees⟩ := RefersTo.same hFG hF hG ha ha' hx.1 hy.1 hb.1
    obtain ⟨hargs, hlook⟩ := HasTypes.same hF hG hxs hxs' hx.2 hy.2 hb.2
    refine ⟨rfl, ?_, List.forall_mem_cons.mpr ⟨hagrees, hlook⟩⟩
    rw [Node.essence, Node.essence, haccess, hargs]
  | _ => cases h
termination_by structural x

theorem HasTypes.same (hF : Γ.InUse F) (hG : Γ.InUse G) {xs ys : List Node} {ps qs : List Ty}
    (h : HasTypes F Γ ps xs) (h' : HasTypes G Γ qs ys) (hx : Node.AllFlagged F xs)
    (hy : Node.AllFlagged G ys) (hb : Node.bareAll ys = Node.bareAll xs) :
    Node.essenceAll id ys = Node.essenceAll id xs ∧ ∀ q ∈ Node.lookupsAll xs, F.Agrees G q := by
  cases xs with
  | nil =>
    cases h' <;> simp only [Node.bareAll, reduceCtorEq] at hb
    exact ⟨rfl, List.forall_mem_nil _⟩
  | cons x xs =>
    obtain ⟨p, ps', xt, rfl, hxt, -, hxs⟩ := h.of_cons
    cases h' <;> simp only [Node.bareAll, reduceCtorEq, List.cons.injEq] at hb
    rename_i hxt' _ hxs'
    obtain ⟨rfl, hhead, hlook⟩ := HasType.same hF hG hxt hxt' hx.1 hy.1 hb.1
    obtain ⟨hargs, hlooks⟩ := HasTypes.same hF hG hxs hxs' hx.2 hy.2 hb.2
    refine ⟨?_, List.forall_mem_append.mpr ⟨hlook, hlooks⟩⟩
    rw [Node.essenceAll, Node.essenceAll, hhead, hargs]
termination_by structural xs

end

theorem AllAccepted.same (hF : Γ.InUse F) (hG : Γ.InUse G) {xs ys : List Node} {t t' : Ty}
    (h : AllAccepted F Γ t xs) (h' : AllAccepted G Γ t' ys) (hx : Node.AllFlagged F xs)
    (hy : Node.AllFlagged G ys) (hb : Node.bareAll ys = Node.bareAll xs) :
    Node.essenceAll id ys = Node.essenceAll id xs ∧ ∀ q ∈ Node.lookupsAll xs, F.Agrees G q := by
  induction xs generalizing ys with
  | nil =>
    cases ys <;> simp only [Node.bareAll, reduceCtorEq] at hb
    exact ⟨rfl, List.forall_mem_nil _⟩
  | cons x xs ih =>
    cases ys <;> simp only [Node.bareAll, reduceCtorEq, List.cons.injEq] at hb
    rename_i y ys
    obtain ⟨⟨xt, hxt, -⟩, hxs⟩ := List.forall_mem_cons.mp h
    obtain ⟨⟨yt, hyt, -⟩, hys⟩ := List.forall_mem_cons.mp h'
    obtain ⟨-, hhead, hlook⟩ := HasType.same hFG hF hG hxt hyt hx.1 hy.1 hb.1
    obtain ⟨hrest, hlooks⟩ := ih hxs hys hx.2 hy.2 hb.2
    refine ⟨?_, List.forall_mem_append.mpr ⟨hlook, hlooks⟩⟩
    rw [Node.essenceAll, Node.essenceAll, hhead, hrest]

variable {fn : Option Signature}

mutual

/-- One statement has one essence in both contexts. -/
theorem Checked.same {n n' : Node} {π : Path} {Γ : Environment} (hF : Γ.InUse F) (hG : Γ.InUse G)
    (h : Checked F fn π Γ n) (h' : Checked G fn π Γ n') (hm : n.Marked F fn) (hm' : n'.Marked G fn)
    (hb : n'.bare = n.bare) :
    n'.stmtEssence id = n.stmtEssence id ∧ ∀ q ∈ n.lookups, F.Agrees G q := by
  cases n with
  | varDecl m name t =>
    cases n' <;> simp only [Node.bare, Node.bare_ret, Node.bare_branch, reduceCtorEq,
      Node.varDecl.injEq] at hb
    obtain ⟨hmark, rfl, rfl⟩ := hb
    obtain ⟨-, -, hd, hc⟩ := h
    obtain ⟨-, -, hd', hc'⟩ := h'
    refine ⟨?_, List.forall_mem_nil _⟩
    have hm := Mark.essence_eq (g := true) (c := true) hmark (hd'.type.trans hd.type.symm)
      (by rw [hd'.isGlobal, hd.isGlobal]) (by rw [hc', hc])
    simp only [Node.stmtEssence, Node.essence, hm]
  | varDef m name t x =>
    cases n' <;> simp only [Node.bare, Node.bare_ret, Node.bare_branch, reduceCtorEq,
      Node.varDef.injEq] at hb
    obtain ⟨hmark, rfl, rfl, hbx⟩ := hb
    obtain ⟨-, -, hd, xt, hx, -⟩ := h
    obtain ⟨-, -, hd', xt', hx', -⟩ := h'
    obtain ⟨-, hvalue, hlook⟩ := HasType.same hFG hF hG hx hx' hm hm' hbx
    refine ⟨?_, hlook⟩
    simp only [Node.stmtEssence, Node.essence, hvalue, hd.essence_eq hd' hmark]
  | assign m name x =>
    cases n' <;> simp only [Node.bare, Node.bare_ret, Node.bare_branch, reduceCtorEq,
      Node.assign.injEq] at hb
    obtain ⟨hmark, rfl, hbx⟩ := hb
    obtain ⟨d, xt, huses, hx, -⟩ := h
    obtain ⟨d', xt', huses', hx', -⟩ := h'
    obtain ⟨-, hvalue, hlook⟩ := HasType.same hFG hF hG hx hx' hm hm' hbx
    obtain ⟨-, htype, hglobal⟩ := huses.eq huses'
    refine ⟨?_, hlook⟩
    have hm := Mark.essence_eq (g := true) (c := false) hmark htype (by rw [hglobal]) rfl
    simp only [Node.stmtEssence, Node.essence, hvalue, hm]
  | fieldAssign m a xs x =>
    cases n' <;> simp only [Node.bare, Node.bare_ret, Node.bare_branch, reduceCtorEq,
      Node.fieldAssign.injEq] at hb
    obtain ⟨hmark, hba, -, hbx⟩ := hb
    obtain ⟨d, f, xt, ha, -, -, htype, hx, -⟩ := h
    obtain ⟨d', f', xt', ha', -, -, htype', hx', -⟩ := h'
    obtain ⟨hclass, hfa, rfl, hfx⟩ := hm
    obtain ⟨hclass', hfa', rfl, hfx'⟩ := hm'
    obtain ⟨rfl, haccess, hagrees⟩ := RefersTo.same hFG hF hG ha ha' hfa hfa' hba
    obtain ⟨-, hvalue, hlook⟩ := HasType.same hFG hF hG hx hx' hfx hfx' hbx
    refine ⟨?_, List.forall_mem_cons.mpr ⟨hagrees, hlook⟩⟩
    have hm := Mark.essence_eq (g := false) (c := true) hmark (htype'.trans htype.symm) rfl
      (by rw [hclass', hclass])
    simp only [Node.stmtEssence, Node.essence, haccess, hvalue, hm]
  | ret m value =>
    cases n' <;> simp only [Node.bare, Node.bare_ret, Node.bare_branch, reduceCtorEq,
      Node.ret.injEq] at hb
    rename_i m' value'
    cases value with
    | none =>
      obtain ⟨hmark, hb⟩ := hb
      obtain rfl := Option.map_eq_none_iff.mp hb
      obtain ⟨sig, hsig, htype⟩ := hm
      obtain ⟨sig', hsig', htype'⟩ := hm'
      rw [hsig] at hsig'
      cases hsig'
      refine ⟨?_, List.forall_mem_nil _⟩
      have hm := Mark.essence_eq (g := false) (c := false) hmark (htype'.trans htype.symm) rfl rfl
      simp only [Node.stmtEssence, Node.essence, hm]
    | some x =>
      obtain ⟨hmark, hb⟩ := hb
      obtain ⟨x', rfl, hbx⟩ := Option.map_eq_some_iff.mp hb
      obtain ⟨⟨sig, hsig, htype⟩, hfx⟩ := hm
      obtain ⟨⟨sig', hsig', htype'⟩, hfx'⟩ := hm'
      obtain ⟨-, xt, -, -, hx, -⟩ := h
      obtain ⟨-, xt', -, -, hx', -⟩ := h'
      rw [hsig] at hsig'
      cases hsig'
      obtain ⟨-, hvalue, hlook⟩ := HasType.same hFG hF hG hx hx' hfx hfx' hbx
      refine ⟨?_, hlook⟩
      have hm := Mark.essence_eq (g := false) (c := false) hmark (htype'.trans htype.symm) rfl rfl
      simp only [Node.stmtEssence, Node.essence, hvalue, hm]
  | branch m merge test yes no =>
    cases n' <;> simp only [Node.bare, Node.bare_ret, Node.bare_branch, reduceCtorEq,
      Node.branch.injEq] at hb
    rename_i m' merge' test' yes' no'
    obtain ⟨hmark, -, hbtest, hbyes, hb⟩ := hb
    cases no with
    | none =>
      obtain rfl := Option.map_eq_none_iff.mp hb
      obtain ⟨-, htest, hlook⟩ := HasType.same hFG hF hG h.1 h'.1 hm.2.1 hm'.2.1 hbtest
      obtain ⟨hyes, hlooks⟩ := AllChecked.same hF.enter hG.enter h.2 h'.2 hm.2.2 hm'.2.2 hbyes
      refine ⟨?_, List.forall_mem_append.mpr ⟨hlook, hlooks⟩⟩
      have hm := Mark.essence_eq (g := false) (c := false) hmark (hm'.1.trans hm.1.symm) rfl rfl
      simp only [Node.stmtEssence, Node.essence, htest, hyes, hm]
    | some no =>
      obtain ⟨no', rfl, hbno⟩ := Option.map_eq_some_iff.mp hb
      obtain ⟨-, htest, hlook⟩ := HasType.same hFG hF hG h.1 h'.1 hm.2.1 hm'.2.1 hbtest
      obtain ⟨hyes, hlook₁⟩ := AllChecked.same hF.enter hG.enter h.2.1 h'.2.1 hm.2.2.1 hm'.2.2.1 hbyes
      obtain ⟨hno, hlook₂⟩ := AllChecked.same hF.enter hG.enter h.2.2 h'.2.2 hm.2.2.2 hm'.2.2.2 hbno
      refine ⟨?_, List.forall_mem_append.mpr ⟨List.forall_mem_append.mpr ⟨hlook, hlook₁⟩, hlook₂⟩⟩
      have hm := Mark.essence_eq (g := false) (c := false) hmark (hm'.1.trans hm.1.symm) rfl rfl
      simp only [Node.stmtEssence, Node.essence, htest, hyes, hno, hm]
  | whileLoop m merge test body =>
    cases n' <;> simp only [Node.bare, Node.bare_ret, Node.bare_branch, reduceCtorEq,
      Node.whileLoop.injEq] at hb
    obtain ⟨hmark, -, hbtest, hbbody⟩ := hb
    obtain ⟨-, htest, hlook⟩ := HasType.same hFG hF hG h.1 h'.1 hm.2.1 hm'.2.1 hbtest
    obtain ⟨hbody, hlooks⟩ := AllChecked.same hF.enter hG.enter h.2 h'.2 hm.2.2 hm'.2.2 hbbody
    refine ⟨?_, List.forall_mem_append.mpr ⟨hlook, hlooks⟩⟩
    have hm := Mark.essence_eq (g := false) (c := false) hmark (hm'.1.trans hm.1.symm) rfl rfl
    simp only [Node.stmtEssence, Node.essence, htest, hbody, hm]
  | forLoop m merge init test step body =>
    cases n' <;> simp only [Node.bare, Node.bare_ret, Node.bare_branch, reduceCtorEq,
      Node.forLoop.injEq] at hb
    rename_i m' merge' init' test' step' body'
    obtain ⟨hmark, -, hbinit, hbtest, hbstep, hbbody⟩ := hb
    obtain ⟨hi, ht, hs, hbd⟩ := h
    obtain ⟨hi', ht', hs', hbd'⟩ := h'
    obtain ⟨htype, hmi, hmt, hms, hmb⟩ := hm
    obtain ⟨htype', hmi', hmt', hms', hmb'⟩ := hm'
    have hF₁ := hF.enter.after hi
    have hG₁ := hG.enter.after hi'
    rw [Environment.after_of_bare hbinit] at ht' hs' hbd' hG₁
    have hF₂ := hF₁.after hs
    have hG₂ := hG₁.after hs'
    rw [Environment.after_of_bare hbstep] at hbd' hG₂
    obtain ⟨hinit, hlook₁⟩ := Checked.same hF.enter hG.enter hi hi' hmi hmi' hbinit
    obtain ⟨-, htest, hlook₂⟩ := HasType.same hFG hF₁ hG₁ ht ht' hmt hmt' hbtest
    obtain ⟨hstep, hlook₃⟩ := Checked.same hF₁ hG₁ hs hs' hms hms' hbstep
    obtain ⟨hbody, hlook₄⟩ := AllChecked.same hF₂.enter hG₂.enter hbd hbd' hmb hmb' hbbody
    refine ⟨?_, List.forall_mem_append.mpr ⟨List.forall_mem_append.mpr
      ⟨List.forall_mem_append.mpr ⟨hlook₁, hlook₂⟩, hlook₃⟩, hlook₄⟩⟩
    have hm := Mark.essence_eq (g := false) (c := false) hmark (htype'.trans htype.symm) rfl rfl
    simp only [Node.stmtEssence] at hinit hstep
    simp only [Node.stmtEssence, Node.essence, hinit, htest, hstep, hbody, hm]
  | print m x =>
    cases n' <;> simp only [Node.bare, Node.bare_ret, Node.bare_branch, reduceCtorEq,
      Node.print.injEq] at hb
    obtain ⟨xt, hx, -⟩ := h
    obtain ⟨xt', hx', -⟩ := h'
    obtain ⟨-, hvalue, hlook⟩ := HasType.same hFG hF hG hx hx' hm.2 hm'.2 hb.2
    refine ⟨?_, hlook⟩
    have hm := Mark.essence_eq (g := false) (c := false) hb.1 (hm'.1.trans hm.1.symm) rfl rfl
    simp only [Node.stmtEssence, Node.essence, hvalue, hm]
  | listDecl m name k xs =>
    cases n' <;> simp only [Node.bare, Node.bare_ret, Node.bare_branch, reduceCtorEq,
      Node.listDecl.injEq] at hb
    obtain ⟨hmark, rfl, rfl, hbxs⟩ := hb
    obtain ⟨-, huse, hd, hxs⟩ := h
    obtain ⟨-, huse', hd', hxs'⟩ := h'
    obtain ⟨helems, hlook⟩ := AllAccepted.same hFG hF hG hxs hxs' hm hm' hbxs
    refine ⟨?_, List.forall_mem_cons.mpr ⟨hd.type ▸ hFG.agrees huse huse' rfl "add", hlook⟩⟩
    simp only [Node.stmtEssence, Node.essence, helems, hd.essence_eq hd' hmark]
  | graphDecl m name k =>
    cases n' <;> simp only [Node.bare, Node.bare_ret, Node.bare_branch, reduceCtorEq,
      Node.graphDecl.injEq] at hb
    obtain ⟨hmark, rfl, rfl⟩ := hb
    refine ⟨?_, List.forall_mem_nil _⟩
    simp only [Node.stmtEssence, Node.essence, h.2.2.essence_eq h'.2.2 hmark]
  | exprStmt m x =>
    cases n' <;> simp only [Node.bare, Node.bare_ret, Node.bare_branch, reduceCtorEq,
      Node.exprStmt.injEq] at hb
    obtain ⟨xt, hx⟩ := h
    obtain ⟨xt', hx'⟩ := h'
    obtain ⟨rfl, hvalue, hlook⟩ := HasType.same hFG hF hG hx hx' hm.2 hm'.2 hb.2
    refine ⟨?_, hlook⟩
    have hm := Mark.essence_eq (g := false) (c := false) hb.1
      ((hm'.1.trans hx'.type_eq).trans (hm.1.trans hx.type_eq).symm) rfl rfl
    simp only [Node.stmtEssence, Node.essence, hvalue, hm]
  | includeLib m library =>
    cases n' <;> simp only [Node.bare, Node.bare_ret, Node.bare_branch, reduceCtorEq,
      Node.includeLib.injEq] at hb
    refine ⟨?_, List.forall_mem_nil _⟩
    simp only [Node.stmtEssence, Node.essence, Node.cleared, Mark.essence, Mark.bare, id,
      Mark.pos_of_bare hb.1, hb.2]
  | classDecl m name fields =>
    cases n' <;> simp only [Node.bare, Node.bare_ret, Node.bare_branch, reduceCtorEq,
      Node.classDecl.injEq] at hb
    obtain ⟨hmark, rfl, rfl⟩ := hb
    refine ⟨?_, List.forall_mem_nil _⟩
    have hm := Mark.essence_eq (g := false) (c := true) hmark (hm'.1.trans hm.1.symm) rfl
      (by rw [hm'.2, hm.2])
    simp only [Node.stmtEssence, Node.essence, hm]
  | _ => exact h.elim
termination_by structural n

theorem AllChecked.same {ns ns' : List Node} {π : Path} {i : Nat} {Γ : Environment}
    (hF : Γ.InUse F) (hG : Γ.InUse G) (h : AllChecked F fn π i Γ ns)
    (h' : AllChecked G fn π i Γ ns') (hm : Node.AllMarked F fn ns) (hm' : Node.AllMarked G fn ns')
    (hb : Node.bareAll ns' = Node.bareAll ns) :
    Node.bodyEssence id ns' = Node.bodyEssence id ns ∧
      ∀ q ∈ Node.lookupsAll ns, F.Agrees G q := by
  cases ns with
  | nil =>
    cases ns' <;> simp only [Node.bareAll, reduceCtorEq] at hb
    exact ⟨rfl, List.forall_mem_nil _⟩
  | cons n rest =>
    cases ns' <;> simp only [Node.bareAll, reduceCtorEq, List.cons.injEq] at hb
    rename_i n' rest'
    obtain ⟨hhead, hlook⟩ := Checked.same hF hG h.1 h'.1 hm.1 hm'.1 hb.1
    have hrest' := h'.2
    have hG' := hG.after h'.1
    rw [Environment.after_of_bare hb.1] at hrest' hG'
    obtain ⟨hrest, hlooks⟩ := AllChecked.same (hF.after h.1) hG' h.2 hrest' hm.2 hm'.2 hb.2
    refine ⟨?_, List.forall_mem_append.mpr ⟨hlook, hlooks⟩⟩
    simp only [Node.stmtEssence] at hhead
    rw [Node.bodyEssence, Node.bodyEssence, hhead, hrest]
termination_by structural ns

end

theorem CheckedItems.same {ns ns' : List Node} {i : Nat} {Γ : Environment} (hF : Γ.InUse F)
    (hG : Γ.InUse G) (h : CheckedItems F i Γ ns) (h' : CheckedItems G i Γ ns')
    (hm : Node.AllMarked F none ns) (hm' : Node.AllMarked G none ns')
    (hb : Node.bareAll ns' = Node.bareAll ns) :
    Node.bodyEssence id ns' = Node.bodyEssence id ns ∧
      ∀ q ∈ Node.lookupsAll ns, F.Agrees G q := by
  induction ns generalizing ns' i Γ with
  | nil =>
    cases ns' <;> simp only [Node.bareAll, reduceCtorEq] at hb
    exact ⟨rfl, List.forall_mem_nil _⟩
  | cons n rest ih =>
    cases ns' <;> simp only [Node.bareAll, reduceCtorEq, List.cons.injEq] at hb
    rename_i n' rest'
    rcases n.function_or with ⟨m, name, params, result, body, rfl⟩ | hnot
    · cases n' <;> simp only [Node.bare, Node.bare_ret, Node.bare_branch, reduceCtorEq, false_and,
        Node.funcDef.injEq] at hb
      obtain ⟨⟨hmark, rfl, rfl, rfl, hbody⟩, hbrest⟩ := hb
      obtain ⟨⟨htype, hmbody⟩, hm⟩ := hm
      obtain ⟨⟨htype', hmbody'⟩, hm'⟩ := hm'
      obtain ⟨hsame, hlook⟩ := AllChecked.same hFG
        (hF.enter.withParams (hFG.left.params_of_lookup h.1.entered) _ _)
        (hG.enter.withParams (hFG.right.params_of_lookup h'.1.entered) _ _)
        h.1.checked h'.1.checked hmbody hmbody' hbody
      obtain ⟨hrest, hlooks⟩ := ih hF hG h.2 h'.2 hm hm' hbrest
      refine ⟨?_, List.forall_mem_append.mpr ⟨hlook, hlooks⟩⟩
      have hm := Mark.essence_eq (g := false) (c := false) hmark (htype'.trans htype.symm) rfl rfl
      simp only [Node.bodyEssence, Node.essence, hm, hsame, hrest]
    · have hnot' := Analysis.not_funcDef_of_bare hb.1 hnot
      rw [CheckedItems.eq_3 _ _ _ _ _ hnot] at h
      rw [CheckedItems.eq_3 _ _ _ _ _ hnot', Environment.after_of_bare hb.1] at h'
      have hG' := hG.after h'.1
      rw [Environment.after_of_bare hb.1] at hG'
      obtain ⟨hhead, hlook⟩ := Checked.same hFG hF hG h.1 h'.1 hm.1 hm'.1 hb.1
      obtain ⟨hrest, hlooks⟩ := ih (hF.after h.1) hG' h.2 h'.2 hm.2 hm'.2 hb.2
      refine ⟨?_, List.forall_mem_append.mpr ⟨hlook, hlooks⟩⟩
      simp only [Node.stmtEssence] at hhead
      rw [Node.bodyEssence, Node.bodyEssence, hhead, hrest]

end Typing

/-- Bodies that were read from one text, and annotated rightly in contexts with the same functions
and classes, have one module. -/
theorem lowered_eq_of_bareAll {F G : Context} (hFG : F.Twins G) {ns ns' : List Node}
    (h : Typing.CheckedItems F 0 {} ns) (h' : Typing.CheckedItems G 0 {} ns')
    (hm : Node.AllMarked F none ns) (hm' : Node.AllMarked G none ns')
    (hb : Node.bareAll ns' = Node.bareAll ns) : lowered G ns' = lowered F ns := by
  obtain ⟨hessence, hlook⟩ := Typing.CheckedItems.same hFG Environment.inUse_nil
    Environment.inUse_nil h h' hm hm' hb
  have hmove : ClassDef.move id = id := by
    funext d
    exact congrArg (ClassDef.mk d.name) (List.map_id d.fields)
  have hclasses (c : Context) : c.classes = c.classes.map (ClassDef.move id) := by
    rw [hmove, List.map_id]
  have hsame (r : Except InternalError IR.Module) : r.mapError (InternalError.move id) = r := by
    cases r <;> rfl
  calc
    lowered G ns' = lowered G (Node.bodyEssence id ns') := by
      rw [lowered_essence rfl (F := G) ⟨rfl, hclasses G⟩ fun _ _ => rfl, hsame]
    _ = lowered F ns := by
      rw [hessence, lowered_essence rfl ⟨hFG.funcs, by rw [hFG.classes, ← hclasses]⟩ hlook, hsame]

end Augite
