import Augite.Proofs.Pass
import Augite.Proofs.Typing
import Augite.Proofs.Bare
import Augite.Analysis.Expression

/-!
# Analysis of expressions is right

An expression that analysis lets pass is annotated as the typing rules ask, in every context
that extends the present one. The analysis leaves the state alone.
-/

namespace Augite.Analysis

open Typing

/-- The variables of an analysis are in step with the declarations they stand for, and all
of their types are in use. -/
def InStep (c : Context) (vs : Variables) (Γ : Environment) : Prop :=
  Scopes.Matches (fun v d => v.type = d.type ∧ v.isGlobal = false ∧ d.type.InUse c)
    (fun v d => v.type = d.type ∧ v.isGlobal = true ∧ d.type.InUse c) vs Γ

theorem InStep.mono {c d : Context} {vs : Variables} {Γ : Environment} (h : InStep c vs Γ)
    (hcd : c.Extends d) : InStep d vs Γ :=
  h.imp (fun _ _ h => ⟨h.1, h.2.1, h.2.2.mono hcd⟩) fun _ _ h => ⟨h.1, h.2.1, h.2.2.mono hcd⟩

section Lookup

variable {c : Context} {vs : Variables} {Γ : Environment} {pos : Position} {name : Text}
  {v : Variable}

theorem find_ok (h : vs.find pos name = .ok v) : ∃ k, vs.resolve? name = some (v, k) := by
  unfold Variables.find at h
  split at h
  · rename_i w k hw
    cases h
    exact ⟨k, hw⟩
  · cases h

theorem read_ok (h : vs.read pos name = .ok v) : vs.find pos name = .ok v := by
  unfold Variables.read at h
  rcases hf : vs.find pos name with e | w
  · rw [hf] at h
    cases h
  · rw [hf] at h
    simp only [bind, Except.bind] at h
    split at h
    · exact h
    · cases h

/-- The variable that analysis finds stands for the declaration that the scopes give. -/
theorem InStep.find (h : InStep c vs Γ) (hv : vs.find pos name = .ok v) :
    ∃ d, (∀ m : Mark, m.type = v.type → m.isGlobal = v.isGlobal → m.Uses Γ name d) ∧
      v.type = d.type ∧ d.type.InUse c := by
  obtain ⟨k, hk⟩ := find_ok hv
  obtain ⟨d, hd, houter, hinner⟩ := h.resolve_some hk
  have hkey : v.type = d.type ∧ v.isGlobal = (k == 1) ∧ d.type.InUse c := by
    by_cases h1 : k = 1
    · obtain ⟨ht, hg, hu⟩ := houter h1
      exact ⟨ht, by simp [hg, h1], hu⟩
    · obtain ⟨ht, hg, hu⟩ := hinner h1
      exact ⟨ht, by simp [hg, h1], hu⟩
  obtain ⟨htype, hglobal, huse⟩ := hkey
  exact ⟨d, fun m hm hg => ⟨⟨k, hd, hg.trans hglobal⟩, hm.trans htype⟩, htype, huse⟩

end Lookup

@[simp] theorem accept_ok_iff {τ α : Type} {tree : τ} {x : Except SemanticError α} {a : α}
    {s t : State} : (accept tree x).run s = (.ok a, t) ↔ x = .ok a ∧ s = t := by
  cases x with
  | ok b => simp [accept]
  | error e => simp [accept, reject]

@[simp] theorem reject_ok_iff {τ α : Type} {tree : τ} {e : SemanticError} {a : α} {s t : State} :
    (reject tree e : Analysis τ α).run s = (.ok a, t) ↔ False := by
  simp [reject]

/-- What a successful look at a member has found. -/
structure MemberFound (s : State) (a : Access) (store : Bool) (b : Access) (f : Member)
    (v : Variable) : Prop where
  found : s.vars.find a.receiver.pos a.name = .ok v
  aggregate : v.type.isAggregate = true
  marks : b = receiverMarks a v
  member : s.ctx.members.lookup? v.type a.member = some f
  field : f.kind = .field → a.parens = false
  method : f.kind = .method → a.parens = true
  stored : store = true → f.kind = .field ∧ v.type.kind = .class_

theorem member_ok {τ : Type} {wrap : Access → τ} {a b : Access} {store : Bool} {f : Member}
    {s t : State} (h : (member wrap a store).run s = (.ok (b, f), t)) :
    s = t ∧ ∃ v, MemberFound s a store b f v := by
  simp only [member, Pass.bind_ok_iff, Pass.run_state] at h
  obtain ⟨_, _, hs, v, _, hv, h⟩ := h
  cases hs
  obtain ⟨hfind, rfl⟩ := accept_ok_iff.mp hv
  split at h
  · simp at h
  rename_i hagg
  have hagg : v.type.isAggregate = true := by simpa using hagg
  split at h
  · simp at h
  rename_i m hm
  split at h
  · rename_i hkind
    split at h
    · simp at h
    rename_i hparens
    split at h
    · simp at h
    rename_i hstore
    obtain ⟨hr, rfl⟩ := Pass.pure_ok_iff.mp h
    cases hr
    refine ⟨rfl, v, hfind, hagg, rfl, hm, fun _ => by simpa [receiverMarks] using hparens, ?_, ?_⟩
    · intro hmethod
      rw [hkind] at hmethod
      cases hmethod
    rintro rfl
    exact ⟨hkind, by simpa [receiverMarks, useMark] using hstore⟩
  · rename_i hkind
    split at h
    · simp at h
    rename_i hparens
    split at h
    · simp at h
    rename_i hstore
    obtain ⟨hr, rfl⟩ := Pass.pure_ok_iff.mp h
    cases hr
    refine ⟨rfl, v, hfind, hagg, rfl, hm, ?_, fun _ => by simpa [receiverMarks] using hparens,
      fun h => absurd h hstore⟩
    intro hfield
    rw [hkind] at hfield
    cases hfield

section

variable {s : State} {Γ : Environment}

theorem MemberFound.refersTo {a b : Access} {store : Bool} {f : Member} {v : Variable}
    (h : MemberFound s a store b f v) (hstep : InStep s.ctx s.vars Γ) {F : Context}
    (hF : s.ctx.Extends F) :
    ∃ d, (accessTyped b f.result).RefersTo F Γ d f ∧ v.type = d.type ∧ d.type.InUse s.ctx := by
  obtain ⟨d, huses, htype, huse⟩ := hstep.find h.found
  obtain rfl := h.marks
  refine ⟨d, ⟨huses _ rfl rfl, htype ▸ h.aggregate, ?_, ?_, rfl⟩, htype, huse⟩
  · rw [← htype]
    rfl
  · rw [← htype]
    exact hF.lookup? h.member

theorem MemberFound.flagged {a b : Access} {store : Bool} {f : Member} {v : Variable}
    (h : MemberFound s a store b f v) {F : Context} (hF : s.ctx.Extends F) :
    (accessTyped b f.result).Flagged F := by
  obtain rfl := h.marks
  refine ⟨rfl, rfl, rfl, f, hF.lookup? h.member, fun hparens => ?_, h.method⟩
  cases hk : f.kind with
  | method => rfl
  | field =>
    have hnone : (accessTyped (receiverMarks a v) f.result).parens = false := h.field hk
    rw [hnone] at hparens
    cases hparens

theorem MemberFound.bare_eq {a b : Access} {store : Bool} {f : Member} {v : Variable}
    (h : MemberFound s a store b f v) (t : Ty) : (accessTyped b t).bare = a.bare := by
  obtain rfl := h.marks
  rfl

theorem checkCount_ok {pos : Position} {name : Text} {params : List Ty} {xs : List Node}
    {u t : State} (h : (checkCount pos name params xs).run u = (.ok (), t)) :
    xs.length = params.length ∧ u = t := by
  unfold checkCount at h
  split at h
  · exact ⟨by assumption, (Pass.pure_ok_iff.mp h).2⟩
  · simp at h

mutual

/-- An expression that analysis lets pass is annotated rightly. -/
theorem expr_typed (hs : s.ctx.Sound) (hstep : InStep s.ctx s.vars Γ) {n : Node}
    (hn : n.IsExpr) {n' : Node} {t : Ty} {u : State}
    (h : (expr n).run s = (.ok (n', t), u)) :
    s = u ∧ n'.bare = n.bare ∧ (∀ F, s.ctx.Extends F → HasType F Γ n' t) ∧
      ∀ F, s.ctx.Extends F → n'.Flagged F := by
  cases n with
  | int m v =>
    obtain ⟨hr, rfl⟩ := Pass.pure_ok_iff.mp h
    cases hr
    exact ⟨rfl, rfl, fun _ _ => .int rfl, fun _ _ => trivial⟩
  | float m v =>
    obtain ⟨hr, rfl⟩ := Pass.pure_ok_iff.mp h
    cases hr
    exact ⟨rfl, rfl, fun _ _ => .float rfl, fun _ _ => trivial⟩
  | char m v =>
    obtain ⟨hr, rfl⟩ := Pass.pure_ok_iff.mp h
    cases hr
    exact ⟨rfl, rfl, fun _ _ => .char rfl, fun _ _ => trivial⟩
  | string m v =>
    obtain ⟨hr, rfl⟩ := Pass.pure_ok_iff.mp h
    cases hr
    exact ⟨rfl, rfl, fun _ _ => .string rfl, fun _ _ => trivial⟩
  | bool m v =>
    obtain ⟨hr, rfl⟩ := Pass.pure_ok_iff.mp h
    cases hr
    exact ⟨rfl, rfl, fun _ _ => .bool rfl, fun _ _ => trivial⟩
  | var m name =>
    simp only [expr, Pass.bind_ok_iff, Pass.run_state] at h
    obtain ⟨_, _, hst, v, _, hv, h⟩ := h
    cases hst
    obtain ⟨hread, rfl⟩ := accept_ok_iff.mp hv
    obtain ⟨hr, rfl⟩ := Pass.pure_ok_iff.mp h
    cases hr
    obtain ⟨d, huses, htype, -⟩ := hstep.find (read_ok hread)
    exact ⟨rfl, rfl, fun _ _ => htype ▸ .var (huses _ rfl rfl), fun _ _ => rfl⟩
  | binary m op l r =>
    simp only [expr, Pass.bind_ok_iff] at h
    obtain ⟨⟨l', lt⟩, _, hl, ⟨r', rt⟩, _, hr, h⟩ := h
    obtain ⟨rfl, hlb, hlt, hlf⟩ := expr_typed hs hstep hn.1 (Pass.inside_ok_iff.mp hl)
    obtain ⟨rfl, hrb, hrt, hrf⟩ := expr_typed hs hstep hn.2 (Pass.inside_ok_iff.mp hr)
    split at h
    · rename_i t hop
      obtain ⟨hr, rfl⟩ := Pass.pure_ok_iff.mp h
      cases hr
      exact ⟨rfl, by simp only [Node.bare, hlb, hrb, Mark.bare_typed],
        fun F hF => .binary (hlt F hF) (hrt F hF) hop rfl, fun F hF => ⟨hlf F hF, hrf F hF⟩⟩
    · simp at h
  | unary m op x =>
    simp only [expr, Pass.bind_ok_iff] at h
    obtain ⟨⟨x', xt⟩, _, hx, h⟩ := h
    obtain ⟨rfl, hxb, hxt, hxf⟩ := expr_typed (n := x) hs hstep hn (Pass.inside_ok_iff.mp hx)
    split at h
    · rename_i t hop
      obtain ⟨hr, rfl⟩ := Pass.pure_ok_iff.mp h
      cases hr
      exact ⟨rfl, by simp only [Node.bare, hxb, Mark.bare_typed],
        fun F hF => .unary (hxt F hF) hop rfl, hxf⟩
    · simp at h
  | call m name xs =>
    simp only [expr, Pass.bind_ok_iff, Pass.run_state] at h
    obtain ⟨_, _, hst, h⟩ := h
    cases hst
    split at h
    · simp at h
    rename_i sig hsig
    simp only [Pass.bind_ok_iff] at h
    obtain ⟨_, _, hcount, xs', _, hxs, h⟩ := h
    obtain ⟨hlen, rfl⟩ := checkCount_ok (Pass.inside_ok_iff.mp hcount)
    obtain ⟨rfl, hxb, hxt, hxf⟩ := args_typed hs hstep hn hlen (Pass.inside_ok_iff.mp hxs)
    obtain ⟨hr, rfl⟩ := Pass.pure_ok_iff.mp h
    cases hr
    exact ⟨rfl, by simp only [Node.bare, hxb, Mark.bare_typed],
      fun F hF => .call (hF.funcs _ _ hsig) (hxt F hF) rfl, hxf⟩
  | dot a xs =>
    simp only [expr, Pass.bind_ok_iff] at h
    obtain ⟨⟨b, f⟩, _, hm, h⟩ := h
    obtain ⟨rfl, v, hv⟩ := member_ok hm
    split at h
    · simp only [Pass.bind_ok_iff] at h
      obtain ⟨_, _, hcount, xs', _, hxs, h⟩ := h
      obtain ⟨hlen, rfl⟩ := checkCount_ok (Pass.inside_ok_iff.mp hcount)
      obtain ⟨rfl, hxb, hxt, hxf⟩ := args_typed hs hstep hn.1 hlen (Pass.inside_ok_iff.mp hxs)
      obtain ⟨hr, rfl⟩ := Pass.pure_ok_iff.mp h
      cases hr
      refine ⟨rfl, by simp only [Node.bare, hxb, hv.bare_eq], fun F hF => ?_,
        fun F hF => ⟨hv.flagged hF, hxf F hF⟩⟩
      obtain ⟨d, hd, -, -⟩ := hv.refersTo hstep hF
      exact .dot hd (hxt F hF)
    · rename_i hkind
      obtain ⟨hr, rfl⟩ := Pass.pure_ok_iff.mp h
      cases hr
      have hfield : f.kind = .field := by
        cases hk : f.kind with
        | field => rfl
        | method => exact absurd hk hkind
      rw [hn.2 (hv.field hfield)]
      refine ⟨rfl, by simp only [Node.bare, hv.bare_eq], fun F hF => ?_,
        fun F hF => ⟨hv.flagged hF, trivial⟩⟩
      obtain ⟨d, hd, htype, huse⟩ := hv.refersTo hstep hF
      have hparams := (Member.form_of_lookup? hs huse (htype ▸ hv.aggregate)
        (htype ▸ hv.member)).params_of_field hfield
      exact .dot hd (by rw [hparams]; exact .nil)
  | _ => exact hn.elim
termination_by structural n

theorem args_typed (hs : s.ctx.Sound) (hstep : InStep s.ctx s.vars Γ) {name : Text}
    {xs : List Node} (hn : Node.AllExpr xs) {ps : List Ty} {i : Nat} {xs' : List Node} {u : State}
    (hlen : xs.length = ps.length)
    (h : (args name i ps xs).run s = (.ok xs', u)) :
    s = u ∧ Node.bareAll xs' = Node.bareAll xs ∧ (∀ F, s.ctx.Extends F → HasTypes F Γ ps xs') ∧
      ∀ F, s.ctx.Extends F → Node.AllFlagged F xs' := by
  cases xs with
  | nil =>
    cases ps with
    | nil =>
      obtain ⟨rfl, rfl⟩ := Pass.pure_ok_iff.mp h
      exact ⟨rfl, rfl, fun _ _ => .nil, fun _ _ => trivial⟩
    | cons p ps => cases hlen
  | cons x xs =>
    cases ps with
    | nil => cases hlen
    | cons p ps =>
      simp only [args, Pass.bind_ok_iff] at h
      obtain ⟨⟨x', t⟩, _, hx, h⟩ := h
      obtain ⟨rfl, hxb, hxt, hxf⟩ := expr_typed hs hstep hn.1 (Pass.inside_ok_iff.mp hx)
      split at h
      · rename_i hacc
        simp only [Pass.bind_ok_iff] at h
        obtain ⟨xs', _, hxs, h⟩ := h
        obtain ⟨rfl, hxsb, hxst, hxsf⟩ :=
          args_typed hs hstep hn.2 (Nat.succ.inj hlen) (Pass.inside_ok_iff.mp hxs)
        obtain ⟨rfl, rfl⟩ := Pass.pure_ok_iff.mp h
        exact ⟨rfl, by simp only [Node.bareAll, hxb, hxsb],
          fun F hF => .cons (hxt F hF) hacc (hxst F hF), fun F hF => ⟨hxf F hF, hxsf F hF⟩⟩
      · simp at h
termination_by structural xs

end

end

end Augite.Analysis
