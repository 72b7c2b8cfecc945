import Augite.Proofs.AnalysisProgram
import Augite.Proofs.Operators
import Augite.Proofs.ParsedShape
import Augite.Tree.Rows

/-!
# Complete annotations

A program that analysis has found correct is annotated throughout. Each of its expressions and
statements has a type, an inclusion aside, and the annotations agree with each other and with
the tables of the context, as the rules of typing and of marks ask.
-/

namespace Augite

/-! ### Declarations in use -/

namespace Environment

/-- The types of the declarations that can be seen are in use. -/
def InUse (F : Context) (Γ : Environment) : Prop :=
  ∀ name d k, Γ.resolve? name = some (d, k) → d.type.InUse F

variable {F : Context} {Γ : Environment}

theorem inUse_nil : InUse F {} := by
  intro name d k h
  cases h

theorem InUse.enter (h : InUse F Γ) : InUse F Γ.enter := by
  intro name d k hk
  exact h name d k hk

theorem InUse.push (h : InUse F Γ) {t : Ty} (ht : t.InUse F) (name : Text) (π : Path) :
    InUse F (Γ.push name ⟨π, t⟩) := by
  intro other d k hk
  by_cases heq : other = name
  · subst heq
    rw [Scopes.resolve?_push_self] at hk
    cases hk
    exact ht
  · rw [Scopes.resolve?_push_of_ne _ heq] at hk
    exact h other d k hk

theorem InUse.withParams (h : InUse F Γ) {ps : List Param} (hps : ∀ p ∈ ps, p.type.InUse F)
    (π : Path) (i : Nat) : InUse F (Γ.withParams π i ps) := by
  induction ps generalizing Γ i with
  | nil => exact h
  | cons p ps ih =>
    exact ih (h.push (hps p List.mem_cons_self) p.name (i :: π))
      (fun q hq => hps q (List.mem_cons_of_mem _ hq)) (i + 1)

/-- What a statement declares is in use. -/
theorem InUse.after (h : InUse F Γ) {fn : Option Signature} {π : Path} {n : Node}
    (hn : Typing.Checked F fn π Γ n) : InUse F (Γ.after π n) := by
  cases n with
  | varDecl m name t => exact h.push hn.2.1 name π
  | varDef m name t x => exact h.push hn.2.1 name π
  | listDecl m name k xs => exact h.push hn.2.1 name π
  | graphDecl m name k => exact h.push hn.2.1 name π
  | _ => exact h

end Environment

/-! ### Rows with a type -/

/-- The node that the row shows has a type. -/
def Row.Typed (r : Row) : Prop := r.mark.type.kind ≠ .unresolved

namespace Typing

open Environment (InUse)

variable {F : Context} {Γ : Environment}

theorem resolved_void : Ty.void.kind ≠ .unresolved := nofun

theorem resolved_of_inUse {t : Ty} (h : t.InUse F ∨ t = .void) : t.kind ≠ .unresolved := by
  rcases h with h | rfl
  · exact h.ne_unresolved
  · exact resolved_void

/-- The variable that a mark refers to has a type. -/
theorem resolved_of_uses (hΓ : InUse F Γ) {m : Mark} {name : Text} {d : Declaration}
    (h : m.Uses Γ name d) : m.type.kind ≠ .unresolved := by
  obtain ⟨k, hk, -⟩ := h.found
  rw [h.type]
  exact (hΓ name d k hk).ne_unresolved

theorem resolved_of_declares {m : Mark} {t : Ty} (h : m.Declares Γ t) (ht : t.InUse F) :
    m.type.kind ≠ .unresolved := by
  rw [h.type]
  exact ht.ne_unresolved

mutual

theorem HasType.rows_typed (hF : F.Sound) (hΓ : InUse F Γ) {n : Node} {t : Ty}
    (h : HasType F Γ n t) (depth : Nat) : ∀ r ∈ n.rows depth, r.Typed := by
  have hown : n.mark.type.kind ≠ .unresolved := by
    have htype : n.mark.type = t := h.type_eq
    rw [htype]
    exact resolved_of_inUse (h.inUse hF hΓ)
  cases n with
  | int | float | char | string | bool | var =>
    simp only [Node.rows, List.forall_mem_singleton]
    exact hown
  | binary m op l r =>
    obtain ⟨lt, rt, hl, hr, -⟩ := h.of_binary
    simp only [Node.rows, List.cons_append, List.forall_mem_cons, List.forall_mem_append]
    exact ⟨hown, hl.rows_typed hF hΓ _, hr.rows_typed hF hΓ _⟩
  | unary m op x =>
    obtain ⟨xt, hx, -⟩ := h.of_unary
    simp only [Node.rows, List.forall_mem_cons]
    exact ⟨hown, hx.rows_typed hF hΓ _⟩
  | call m name xs =>
    obtain ⟨sig, -, hxs, -⟩ := h.of_call
    simp only [Node.rows, List.forall_mem_cons]
    exact ⟨hown, hxs.rows_typed hF hΓ _⟩
  | dot a xs =>
    obtain ⟨d, f, ha, hxs, -⟩ := h.of_dot
    simp only [Node.rows, List.forall_mem_cons]
    exact ⟨hown, resolved_of_uses hΓ ha.receiver, hxs.rows_typed hF hΓ _⟩
  | _ => cases h
termination_by structural n

theorem HasTypes.rows_typed (hF : F.Sound) (hΓ : InUse F Γ) {ps : List Ty} {xs : List Node}
    (h : HasTypes F Γ ps xs) (depth : Nat) : ∀ r ∈ Node.rowsOf depth xs, r.Typed := by
  cases xs with
  | nil => exact fun _ hr => absurd hr List.not_mem_nil
  | cons x xs =>
    obtain ⟨p, qs, xt, rfl, hx, -, hxs⟩ := h.of_cons
    simp only [Node.rowsOf, List.forall_mem_append]
    exact ⟨hx.rows_typed hF hΓ _, hxs.rows_typed hF hΓ _⟩
termination_by structural xs

end

theorem AllAccepted.rows_typed (hF : F.Sound) (hΓ : InUse F Γ) {t : Ty} {xs : List Node}
    (h : AllAccepted F Γ t xs) (depth : Nat) : ∀ r ∈ Node.rowsOf depth xs, r.Typed := by
  induction xs with
  | nil => exact fun _ hr => absurd hr List.not_mem_nil
  | cons x xs ih =>
    obtain ⟨xt, hx, -⟩ := h x List.mem_cons_self
    simp only [Node.rowsOf, List.forall_mem_append]
    exact ⟨hx.rows_typed hF hΓ _, ih fun y hy => h y (List.mem_cons_of_mem _ hy)⟩

mutual

theorem Checked.rows_typed (hF : F.Sound) {n : Node} (hshape : n.IsStmt) {fn : Option Signature}
    (hfn : ∀ sig, fn = some sig → sig.result.InUse F ∨ sig.result = .void) {π : Path}
    {Γ : Environment} (hΓ : InUse F Γ) (h : Checked F fn π Γ n) (hm : n.Marked F fn)
    (depth : Nat) : ∀ r ∈ n.rows depth, r.Typed := by
  cases n with
  | varDecl m name t =>
    simp only [Node.rows, List.forall_mem_singleton]
    exact resolved_of_declares h.2.2.1 h.2.1
  | varDef m name t x =>
    obtain ⟨-, huse, hdecl, xt, hx, -⟩ := h
    simp only [Node.rows, List.forall_mem_cons]
    exact ⟨resolved_of_declares hdecl huse, hx.rows_typed hF hΓ _⟩
  | assign m name x =>
    obtain ⟨d, xt, huses, hx, -⟩ := h
    simp only [Node.rows, List.forall_mem_cons]
    exact ⟨resolved_of_uses hΓ huses, hx.rows_typed hF hΓ _⟩
  | fieldAssign m a xs x =>
    obtain ⟨d, f, xt, ha, hclass, -, htype, hx, -⟩ := h
    obtain ⟨k, hk, -⟩ := ha.receiver.found
    have hfield := (Member.form_of_lookup? hF (hΓ _ d k hk) ha.aggregate ha.member).result_of_class
      hF hclass
    rw [hm.2.2.1]
    simp only [Node.rows, Node.rowsOf, List.cons_append, List.nil_append, List.forall_mem_cons,
      Row.Typed, htype, ha.type]
    exact ⟨hfield.ne_unresolved, hfield.ne_unresolved, resolved_of_uses hΓ ha.receiver,
      hx.rows_typed hF hΓ _⟩
  | listDecl m name k xs =>
    obtain ⟨-, huse, hdecl, hxs⟩ := h
    simp only [Node.rows, List.forall_mem_cons]
    exact ⟨resolved_of_declares hdecl huse, hxs.rows_typed hF hΓ _⟩
  | graphDecl m name k =>
    simp only [Node.rows, List.forall_mem_singleton]
    exact resolved_of_declares h.2.2 h.2.1
  | ret m value =>
    cases value with
    | none =>
      obtain ⟨sig, hsig, htype⟩ := hm
      simp only [Node.rows, List.forall_mem_singleton, Row.Typed, htype]
      exact resolved_of_inUse (hfn sig hsig)
    | some x =>
      obtain ⟨-, xt, -, -, hx, -⟩ := h
      obtain ⟨⟨sig, hsig, htype⟩, -⟩ := hm
      simp only [Node.rows, List.forall_mem_cons, Row.Typed, htype]
      exact ⟨resolved_of_inUse (hfn sig hsig), hx.rows_typed hF hΓ _⟩
  | branch m merge test yes no =>
    cases no with
    | none =>
      obtain ⟨htest, hyes⟩ := h
      obtain ⟨htype, -, hmyes⟩ := hm
      simp only [Node.rows, List.cons_append, List.forall_mem_cons, List.forall_mem_append,
        Row.Typed, htype]
      exact ⟨resolved_void, htest.rows_typed hF hΓ _, hyes.rows_typed hF hshape.2 hfn hΓ.enter hmyes _⟩
    | some no =>
      obtain ⟨htest, hyes, hno⟩ := h
      obtain ⟨htype, -, hmyes, hmno⟩ := hm
      simp only [Node.rows, List.cons_append, List.forall_mem_cons, List.forall_mem_append,
        Row.Typed, htype]
      exact ⟨resolved_void, ⟨htest.rows_typed hF hΓ _,
        hyes.rows_typed hF hshape.2.1 hfn hΓ.enter hmyes _⟩,
        hno.rows_typed hF hshape.2.2 hfn hΓ.enter hmno _⟩
  | whileLoop m merge test body =>
    obtain ⟨htest, hbody⟩ := h
    obtain ⟨htype, -, hmbody⟩ := hm
    simp only [Node.rows, List.cons_append, List.forall_mem_cons, List.forall_mem_append,
      Row.Typed, htype]
    exact ⟨resolved_void, htest.rows_typed hF hΓ _, hbody.rows_typed hF hshape.2 hfn hΓ.enter hmbody _⟩
  | forLoop m merge init test step body =>
    obtain ⟨hinit, htest, hstep, hbody⟩ := h
    obtain ⟨htype, hminit, -, hmstep, hmbody⟩ := hm
    have hΓ₁ := hΓ.enter.after hinit
    simp only [Node.rows, List.cons_append, List.forall_mem_cons, List.forall_mem_append,
      Row.Typed, htype]
    exact ⟨resolved_void, ⟨⟨hinit.rows_typed hF hshape.1.isStmt hfn hΓ.enter hminit _,
      htest.rows_typed hF hΓ₁ _⟩, hstep.rows_typed hF hshape.2.2.1.isStmt hfn hΓ₁ hmstep _⟩,
      hbody.rows_typed hF hshape.2.2.2 hfn (hΓ₁.after hstep).enter hmbody _⟩
  | print m x =>
    obtain ⟨t, hx, -⟩ := h
    simp only [Node.rows, List.forall_mem_cons, Row.Typed, hm.1]
    exact ⟨resolved_void, hx.rows_typed hF hΓ _⟩
  | exprStmt m x =>
    obtain ⟨t, hx⟩ := h
    simp only [Node.rows, List.forall_mem_cons, Row.Typed, hm.1, hx.type_eq]
    exact ⟨resolved_of_inUse (hx.inUse hF hΓ), hx.rows_typed hF hΓ _⟩
  | _ => exact hshape.elim
termination_by structural n

theorem AllChecked.rows_typed (hF : F.Sound) {ns : List Node} (hshape : Node.AllStmt ns)
    {fn : Option Signature} (hfn : ∀ sig, fn = some sig → sig.result.InUse F ∨ sig.result = .void)
    {π : Path} {i : Nat} {Γ : Environment} (hΓ : InUse F Γ) (h : AllChecked F fn π i Γ ns)
    (hm : Node.AllMarked F fn ns) (depth : Nat) : ∀ r ∈ Node.rowsOf depth ns, r.Typed := by
  cases ns with
  | nil => exact fun _ hr => absurd hr List.not_mem_nil
  | cons n rest =>
    simp only [Node.rowsOf, List.forall_mem_append]
    exact ⟨h.1.rows_typed hF hshape.1 hfn hΓ hm.1 _,
      h.2.rows_typed hF hshape.2 hfn (hΓ.after h.1) hm.2 _⟩
termination_by structural ns

end

/-- An inclusion has no type, but every other item has. -/
theorem item_rows_typed (hF : F.Sound) {n : Node} (hshape : n.IsItem)
    (hnot : n.NotFunction) {π : Path} (hΓ : InUse F Γ) (h : Checked F none π Γ n) (hm : n.Marked F none) (depth : Nat) :
    ∀ r ∈ n.rows depth, r.className ≠ "Include" → r.Typed := by
  have houtside : ∀ sig, (none : Option Signature) = some sig →
      sig.result.InUse F ∨ sig.result = .void := nofun
  cases n with
  | includeLib m library =>
    simp only [Node.rows, List.forall_mem_singleton]
    exact fun hne => absurd rfl hne
  | classDecl m name fields =>
    simp only [Node.rows, List.forall_mem_singleton, Row.Typed, Node.mark, hm.1]
    nofun
  | funcDef m name params result body => exact absurd rfl (hnot m name params result body)
  | _ => exact fun r hr _ => h.rows_typed hF hshape houtside hΓ hm depth r hr

theorem function_rows_typed (hF : F.Sound) {m : Mark} {name : Text} {params : List Param}
    {result : Ty} {body : List Node} (hbody : Node.AllStmt body) {π : Path} (hΓ : InUse F Γ)
    (h : CheckedFunction F π Γ name params result body)
    (hm : (Node.funcDef m name params result body).Marked F none) (depth : Nat) :
    ∀ r ∈ (Node.funcDef m name params result body).rows depth, r.Typed := by
  obtain ⟨htype, hbodyMarked⟩ := hm
  have hmem := (FuncTable.mem_of_lookup? h.entered).1
  have hresult : result.InUse F ∨ result = .void := hF.results _ hmem
  have hparams : ∀ p ∈ params, p.type.InUse F :=
    fun p hp => hF.params _ hmem _ (List.mem_map_of_mem hp)
  simp only [Node.rows, List.forall_mem_cons, Row.Typed, htype]
  refine ⟨resolved_of_inUse hresult, h.checked.rows_typed hF hbody ?_
    (hΓ.enter.withParams hparams _ 0) hbodyMarked _⟩
  rintro sig hsig
  cases hsig
  exact hresult

theorem CheckedItems.rows_typed (hF : F.Sound) {ns : List Node} (hshape : ∀ n ∈ ns, n.IsItem)
    {i : Nat} {Γ : Environment} (hΓ : InUse F Γ) (h : CheckedItems F i Γ ns)
    (hm : Node.AllMarked F none ns) (depth : Nat) :
    ∀ r ∈ Node.rowsOf depth ns, r.className ≠ "Include" → r.Typed := by
  induction ns generalizing i Γ with
  | nil => exact fun _ hr => absurd hr List.not_mem_nil
  | cons n rest ih =>
    have hitem := hshape n List.mem_cons_self
    have hshape' := fun k hk => hshape k (List.mem_cons_of_mem _ hk)
    simp only [Node.rowsOf, List.forall_mem_append]
    rcases n.function_or with ⟨m, name, params, result, body, rfl⟩ | hnot
    · exact ⟨fun r hr _ => function_rows_typed hF hitem.2.2 hΓ h.1 hm.1 depth r hr,
        ih hshape' hΓ h.2 hm.2⟩
    · rw [CheckedItems.eq_3 _ _ _ _ _ hnot] at h
      exact ⟨item_rows_typed hF hitem hnot hΓ h.1 hm.1 depth, ih hshape' (hΓ.after h.1) h.2 hm.2⟩

end Typing

/-- A program that is found correct is annotated completely and consistently. -/
theorem Program.analyse_annotates {key : Nat} {source : Text} {p p' : Program} {ctx : Context}
    (h : Program.parse key source = .ok p) (hrun : p.analyse {} = (.ok (), ctx, p')) :
    Typing.CheckedItems ctx 0 {} p'.body ∧ Node.AllMarked ctx none p'.body ∧
      ∀ r ∈ Node.rowsOf 1 p'.body, r.className ≠ "Include" → r.mark.type.kind ≠ .unresolved := by
  have hp := Program.parse_isItem h
  have hc := Program.analyse_certified hp hrun
  exact ⟨hc.checked, hc.marked, hc.checked.rows_typed hc.sound (Node.isItem_of_bare hc.bare hp)
    Environment.inUse_nil hc.marked 1⟩

/-- A class, a list and a function, with an access to a field and to a method. -/
def stocking : Text :=
  "include list; class Item { price: float; } def twice(n: int) -> int { return n + n; } " ++
  "item: Item; item.price = twice(2); stock: list<int> = [1, 2]; stock.add(3); " ++
  "if (item.price > 1) { print(item.price); }"

theorem stocking_annotated : ∃ p ctx p', Program.parse 0 stocking = .ok p ∧
    p.analyse {} = (.ok (), ctx, p') ∧ Typing.CheckedItems ctx 0 {} p'.body ∧
    Node.AllMarked ctx none p'.body ∧
    ∃ r ∈ Node.rowsOf 1 p'.body, r.className = "DotCall" ∧ r.mark.type.kind ≠ .unresolved := by
  have hok : ((Program.parse 0 stocking).toOption.any fun p =>
      (p.analyse {}).1.isOk &&
        (Node.rowsOf 1 (p.analyse {}).2.2.body).any fun r => r.className == "DotCall") = true := by
    decide +kernel
  rcases hp : Program.parse 0 stocking with e | p
  · rw [hp] at hok
    cases hok
  simp only [hp, Except.toOption, Option.any_some, Bool.and_eq_true] at hok
  rcases hrun : p.analyse {} with ⟨_ | ⟨⟨⟩⟩, ctx, p'⟩
  · rw [hrun] at hok
    cases hok.1
  simp only [hrun, List.any_eq_true, beq_iff_eq] at hok
  obtain ⟨-, r, hr, hname⟩ := hok
  obtain ⟨hchecked, hmarked, hrows⟩ := Program.analyse_annotates hp hrun
  exact ⟨p, ctx, p', rfl, hrun, hchecked, hmarked, r, hr, hname,
    hrows r hr (by rw [hname]; decide)⟩

end Augite
