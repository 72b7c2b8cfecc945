import Augite.Proofs.AnalysisStatement
import Augite.Analysis.Program

/-!
# Analysis of programs is right

A program that is found correct is annotated as the rules ask, the context that certifies
it is sound, and the functions of that context are those of the program.
-/

namespace Augite

namespace Analysis

open Typing

/-! ### Classes -/

theorem checkFields_ok {τ : Type} {tree : τ} {seen : List Text} {fields : List Param}
    {s u : State} (h : (checkFields tree seen fields).run s = (.ok (), u)) :
    s = u ∧ (fields.map Param.name).Nodup ∧ (∀ f ∈ fields, f.name ∉ seen) ∧
      ∀ f ∈ fields, f.type.kind.isScalar = true := by
  induction fields generalizing seen with
  | nil => exact ⟨(Pass.pure_ok_iff.mp h).2, .nil, nofun, nofun⟩
  | cons f fs ih =>
    simp only [checkFields] at h
    split at h
    · simp at h
    rename_i hseen
    split at h
    · rename_i hscalar
      obtain ⟨rfl, hnodup, hout, hall⟩ := ih h
      refine ⟨rfl, ?_, ?_, ?_⟩
      · rw [List.map_cons, List.nodup_cons]
        refine ⟨fun hmem => ?_, hnodup⟩
        obtain ⟨g, hg, hname⟩ := List.mem_map.mp hmem
        exact hout g hg (by simp [hname])
      · intro g hg
        rcases List.mem_cons.mp hg with rfl | hg
        · simpa using hseen
        · exact fun hmem => hout g hg (List.mem_cons_of_mem _ hmem)
      · intro g hg
        rcases List.mem_cons.mp hg with rfl | hg
        · exact hscalar
        · exact hall g hg
    · simp at h

theorem Ty.IsWritten.scalar_of_kind {t : Ty} (h : t.IsWritten) (hk : t.kind.isScalar = true) :
    ∃ k : Kind, k.isScalar = true ∧ t = .scalar k := by
  cases h with
  | @scalar k hk => exact ⟨k, hk, rfl⟩
  | list | graph | class_ => cases hk

theorem classDecl_annotated {s u : State} {Γ : Environment} (hs : s.ctx.Sound)
    (hstep : InStep s.ctx s.vars Γ) {m : Mark} {name : Text} {fields : List Param} {n' : Node}
    (π : Path) (hn : (Node.classDecl m name fields).IsItem)
    (h : (stmt (.classDecl m name fields)).run s = (.ok n', u)) :
    Annotated π Γ (.classDecl m name fields) n' s u := by
  simp only [stmt, classDecl, Pass.bind_ok_iff, Pass.run_state] at h
  obtain ⟨_, _, hfields, _, _, hst, h⟩ := h
  cases hst
  obtain ⟨rfl, hnodup, -, hscalar⟩ := checkFields_ok hfields
  split at h
  · simp at h
  rename_i c hadd
  simp only [Pass.bind_ok_iff] at h
  obtain ⟨_, _, hput, h⟩ := h
  cases hput
  obtain ⟨rfl, rfl⟩ := Pass.pure_ok_iff.mp h
  have hclass : ClassDef.Sound { name, fields } :=
    ⟨hn.1, hnodup, fun f hf => Ty.IsWritten.scalar_of_kind (hn.2 f hf) (hscalar f hf)⟩
  obtain ⟨hsound, hext⟩ := hs.addClass hclass hadd
  have hfuncs : c.funcs = s.ctx.funcs := by
    unfold Context.addClass? at hadd
    split at hadd
    · cases hadd
    · cases hadd
      rfl
  exact ⟨⟨hsound, hext, hfuncs⟩, hstep.mono hext, rfl, rfl, fun _ _ => trivial,
    fun _ _ => ⟨rfl, rfl⟩⟩

/-! ### Functions -/

theorem resolveParams_ok {τ : Type} {tree : τ} {ps : List Param} {s u : State}
    (hs : s.ctx.Sound) (hps : ∀ p ∈ ps, p.type.IsWritten)
    (h : (ps.forM fun p => resolveType tree p.pos p.type).run s = (.ok (), u)) :
    Grown s u ∧ (∀ p ∈ ps, p.type.InUse u.ctx) ∧ u = { s with ctx := u.ctx } := by
  induction ps generalizing s with
  | nil =>
    obtain ⟨-, rfl⟩ := Pass.pure_ok_iff.mp h
    exact ⟨.refl hs, nofun, rfl⟩
  | cons p ps ih =>
    obtain ⟨s₁, hp, h⟩ := Pass.forM_cons_ok_iff.mp h
    obtain ⟨hg₁, huse, hs₁⟩ := resolveType_ok hs (hps p List.mem_cons_self) hp
    obtain ⟨hg₂, hall, hu⟩ := ih hg₁.sound (fun q hq => hps q (List.mem_cons_of_mem _ hq)) h
    refine ⟨hg₁.trans hg₂, ?_, ?_⟩
    · intro q hq
      rcases List.mem_cons.mp hq with rfl | hq
      · exact huse.mono hg₂.extends_
      · exact hall q hq
    · rw [hu, hs₁]

/-- A function that has been begun is in the context, and its types are in use. -/
theorem beginFunction_ok {τ : Type} {tree : τ} {m : Mark} {name : Text} {params : List Param}
    {result : Ty} {s u : State} (hs : s.ctx.Sound) (hparams : ∀ p ∈ params, p.type.IsWritten)
    (hresult : result.IsWritten ∨ result = .void)
    (h : (beginFunction tree m name params result).run s = (.ok (), u)) :
    u.ctx.Sound ∧ s.ctx.Extends u.ctx ∧ u.vars = s.vars ∧
      u.function = some ⟨name, params.map Param.type, result⟩ ∧
      u.ctx.funcs.lookup? name = some ⟨name, params.map Param.type, result⟩ ∧
      u.ctx.funcs.names = s.ctx.funcs.names ++ [name] ∧ ∀ p ∈ params, p.type.InUse u.ctx := by
  simp only [beginFunction, Pass.bind_ok_iff, Pass.run_state] at h
  obtain ⟨_, _, hst, h⟩ := h
  cases hst
  split at h
  · simp at h
  simp only [Pass.bind_ok_iff, Pass.run_state] at h
  obtain ⟨_, s₁, hps, _, s₂, hres, _, _, hst, funcs, _, hadd, h⟩ := h
  cases hst
  cases h
  obtain ⟨hg₁, huse, hs₁⟩ := resolveParams_ok hs hparams hps
  have hres' : Grown s₁ s₂ ∧ (result.InUse s₂.ctx ∨ result = .void) ∧
      s₂ = { s₁ with ctx := s₂.ctx } := by
    rcases hresult with hw | rfl
    · obtain ⟨hg₂, huse₂, hs₂⟩ := resolveType_ok hg₁.sound hw hres
      exact ⟨hg₂, .inl huse₂, hs₂⟩
    · obtain rfl := resolveType_void hres
      exact ⟨.refl hg₁.sound, .inr rfl, rfl⟩
  obtain ⟨hg₂, huse₂, hs₂⟩ := hres'
  obtain ⟨hfuncs, -⟩ := accept_ok_iff.mp hadd
  obtain ⟨hnew, hfree, rfl⟩ := FuncTable.add_ok hfuncs
  have hin : ∀ t ∈ params.map Param.type, t.InUse s₂.ctx := by
    intro t ht
    obtain ⟨p, hp, rfl⟩ := List.mem_map.mp ht
    exact (huse p hp).mono hg₂.extends_
  obtain ⟨hsound, hext, hlookup⟩ := hg₂.sound.addFunction hnew hfree hin huse₂
  refine ⟨hsound, (hg₁.trans hg₂).extends_.trans hext, by rw [hs₂, hs₁], rfl, hlookup, ?_, ?_⟩
  · unfold FuncTable.names
    rw [List.map_append, (hg₁.trans hg₂).funcs]
    rfl
  · exact fun p hp => ((huse p hp).mono hg₂.extends_).mono hext

theorem declareParams_ok {τ : Type} {tree : τ} {ps : List Param} {s u : State} {Γ : Environment}
    (hstep : InStep s.ctx s.vars Γ) (huse : ∀ p ∈ ps, p.type.InUse s.ctx) (π : Path) (i : Nat)
    (h : (declareParams tree ps).run s = (.ok (), u)) :
    u.ctx = s.ctx ∧ u.function = s.function ∧ InStep u.ctx u.vars (Γ.withParams π i ps) ∧
      (ps.map Param.name).Nodup := by
  have key : u.ctx = s.ctx ∧ u.function = s.function ∧
      InStep u.ctx u.vars (Γ.withParams π i ps) ∧
      (∀ p ∈ ps, s.vars.current.lookup p.name = none) ∧ (ps.map Param.name).Nodup := by
    unfold declareParams at h
    induction ps generalizing s Γ i with
    | nil =>
      obtain ⟨-, rfl⟩ := Pass.pure_ok_iff.mp h
      exact ⟨rfl, rfl, hstep, nofun, .nil⟩
    | cons p ps ih =>
      obtain ⟨s₁, hp, h⟩ := Pass.forM_cons_ok_iff.mp h
      simp only [Pass.bind_ok_iff] at hp
      obtain ⟨v, _, hdecl, hp⟩ := hp
      obtain ⟨hfresh, rfl, rfl⟩ := declare_ok hdecl
      obtain ⟨-, rfl⟩ := Pass.pure_ok_iff.mp hp
      obtain ⟨hctx, hfun, hin, hnone, hnodup⟩ := ih
        (s := { s with vars := s.vars.push p.name _ })
        (InStep.push hstep (huse p List.mem_cons_self) true (i :: π))
        (fun q hq => huse q (List.mem_cons_of_mem _ hq)) (i + 1) h
      have hlookup : ∀ q ∈ ps, q.name ≠ p.name ∧ s.vars.current.lookup q.name = none := by
        intro q hq
        have := hnone q hq
        simp only [Scopes.current_push, Frame.lookup_cons] at this
        split at this
        · cases this
        · exact ⟨by assumption, this⟩
      refine ⟨hctx, hfun, hin, ?_, ?_⟩
      · intro q hq
        rcases List.mem_cons.mp hq with rfl | hq
        · exact hfresh
        · exact (hlookup q hq).2
      · rw [List.map_cons, List.nodup_cons]
        refine ⟨fun hmem => ?_, hnodup⟩
        obtain ⟨q, hq, hname⟩ := List.mem_map.mp hmem
        exact (hlookup q hq).1 hname
  exact ⟨key.1, key.2.1, key.2.2.1, key.2.2.2.2⟩

theorem endFunction_ok {τ : Type} {tree : τ} {m : Mark} {name : Text} {params : List Param}
    {result : Ty} {body : List Node} {s u : State}
    (h : (endFunction tree m name params result body).run s = (.ok (), u)) :
    (result ≠ .void → Node.alwaysReturns body = true) ∧
      u = { s with
        ctx := s.ctx.record (.analysedFunction name params.length result.name)
        function := none } := by
  simp only [endFunction, Pass.bind_ok_iff] at h
  obtain ⟨_, _, hchange, h⟩ := h
  cases hchange
  split at h
  · simp at h
  rename_i hret
  cases h
  refine ⟨fun hne => ?_, rfl⟩
  by_contra hfalse
  exact hret ⟨hne, by simpa using hfalse⟩

/-- What a successful analysis of a function at `π` leaves behind. -/
structure FunctionAnnotated (π : Path) (Γ : Environment) (m : Mark) (name : Text)
    (params : List Param) (result : Ty) (body body' : List Node) (s u : State) : Prop where
  sound : u.ctx.Sound
  extends_ : s.ctx.Extends u.ctx
  inStep : InStep u.ctx u.vars Γ
  function : u.function = none
  bare : Node.bareAll body' = Node.bareAll body
  names : u.ctx.funcs.names = s.ctx.funcs.names ++ [name]
  checked : ∀ F, u.ctx.Extends F → CheckedFunction F π Γ name params result body'
  marked : ∀ F, u.ctx.Extends F →
    Node.AllMarked F (some ⟨name, params.map Param.type, result⟩) body'

theorem function_annotated {s u : State} {Γ : Environment} (hs : s.ctx.Sound)
    (hstep : InStep s.ctx s.vars Γ) {m : Mark} {name : Text} {params : List Param} {result : Ty}
    {body : List Node} {n' : Node} (π : Path)
    (hn : (Node.funcDef m name params result body).IsItem)
    (h : (stmt (.funcDef m name params result body)).run s = (.ok n', u)) :
    ∃ body', n' = .funcDef (m.typed result) name params result body' ∧
      FunctionAnnotated π Γ m name params result body body' s u := by
  obtain ⟨hparams, hresult, hbody⟩ := hn
  simp only [stmt, Pass.bind_ok_iff] at h
  obtain ⟨_, s₁, hbegin, body', s₃, hscope, _, _, hend, h⟩ := h
  obtain ⟨hsound, hext, hvars, hfun, hlookup, hnames, huse⟩ :=
    beginFunction_ok hs hparams hresult hbegin
  obtain ⟨t, hrun, rfl⟩ := inScope_ok_iff.mp (Pass.inside_ok_iff.mp hscope)
  obtain ⟨_, s₂, hdecl, hstmts⟩ := Pass.bind_ok_iff.mp hrun
  have hstep₁ : InStep s₁.ctx s₁.vars Γ := by
    rw [hvars]
    exact hstep.mono hext
  obtain ⟨hctx₂, hfun₂, hstep₂, hdistinct⟩ := declareParams_ok
    (s := { s₁ with vars := s₁.vars.enter }) (Γ := Γ.enter) hstep₁.enter huse (0 :: π) 0 hdecl
  obtain ⟨hg, hi, hf, hb, hc, hm⟩ :=
    stmts_annotated hbody (by rw [hctx₂]; exact hsound) hstep₂ (1 :: π) 0 hstmts
  obtain ⟨hreturns, rfl⟩ := endFunction_ok hend
  obtain ⟨rfl, rfl⟩ := Pass.pure_ok_iff.mp h
  have hfinal : t.ctx.Extends (t.ctx.record
      (.analysedFunction name params.length result.name)) :=
    ⟨fun _ _ h => h, fun _ _ h => h, fun _ _ h => h⟩
  have hgrow : s₁.ctx.Extends t.ctx := hctx₂ ▸ hg.extends_
  refine ⟨body', rfl, hg.sound.congr rfl rfl rfl,
    (hext.trans hgrow).trans hfinal, ?_, rfl, hb, ?_, ?_, ?_⟩
  · have hout := hi.leave
    rw [Environment.leave_afterAll _ (by rw [Environment.atModule_withParams]; rfl),
      Environment.leave_withParams _ rfl] at hout
    exact InStep.mono hout hfinal
  · change t.ctx.funcs.names = _
    rw [hg.funcs, hctx₂, hnames]
  · intro F hF
    have hF' : t.ctx.Extends F := hfinal.trans hF
    refine ⟨hF'.funcs _ _ (hgrow.funcs _ _ hlookup), hdistinct, ?_, hreturns⟩
    have := hc F hF'
    rw [hfun₂, hfun] at this
    exact this
  · intro F hF
    have := hm F (hfinal.trans hF)
    rw [hfun₂, hfun] at this
    exact this

/-! ### Items -/

/-- Items other than functions are analysed as statements. -/
theorem item_annotated {s u : State} {Γ : Environment} (hs : s.ctx.Sound)
    (hstep : InStep s.ctx s.vars Γ) {n n' : Node} (π : Path) (hn : n.IsItem)
    (hfun : n.NotFunction) (h : (stmt n).run s = (.ok n', u)) : Annotated π Γ n n' s u := by
  cases n with
  | includeLib m library =>
    obtain ⟨rfl, rfl⟩ := Pass.pure_ok_iff.mp h
    exact ⟨.refl hs, hstep, rfl, rfl, fun _ _ => trivial, fun _ _ => trivial⟩
  | classDecl m name fields => exact classDecl_annotated hs hstep π hn h
  | funcDef m name params result body => exact absurd rfl (hfun m name params result body)
  | _ => exact stmt_annotated hn hs hstep π h

/-- A statement stays the statement it is; only its annotations change. -/
theorem not_funcDef_of_bare {n n' : Node} (h : n'.bare = n.bare) (hfun : n.NotFunction) :
    n'.NotFunction := by
  rintro m name params result body rfl
  cases n with
  | funcDef m name params result body => exact absurd rfl (hfun m name params result body)
  | ret m value => cases value <;> simp [Node.bare] at h
  | branch m merge test yes no => cases no <;> simp [Node.bare] at h
  | _ => simp [Node.bare] at h

/-- What a successful analysis of the items from place `i` on leaves behind. -/
structure ItemsAnnotated (i : Nat) (Γ : Environment) (ns ns' : List Node) (s u : State) : Prop where
  sound : u.ctx.Sound
  extends_ : s.ctx.Extends u.ctx
  bare : Node.bareAll ns' = Node.bareAll ns
  names : u.ctx.funcs.names = s.ctx.funcs.names ++ Node.functionNames ns'
  checked : ∀ F, u.ctx.Extends F → CheckedItems F i Γ ns'
  marked : ∀ F, u.ctx.Extends F → Node.AllMarked F none ns'

theorem items_annotated {ns : List Node} (hn : ∀ n ∈ ns, n.IsItem) {s u : State} {Γ : Environment}
    (hs : s.ctx.Sound) (hstep : InStep s.ctx s.vars Γ) (hnone : s.function = none)
    {ns' : List Node} (i : Nat) (h : (stmts ns).run s = (.ok ns', u)) :
    ItemsAnnotated i Γ ns ns' s u := by
  induction ns generalizing s Γ i ns' with
  | nil =>
    obtain ⟨rfl, rfl⟩ := Pass.pure_ok_iff.mp h
    exact ⟨hs, .refl _, rfl, by simp [Node.functionNames], fun _ _ => trivial, fun _ _ => trivial⟩
  | cons n rest ih =>
    simp only [stmts, Pass.bind_ok_iff] at h
    obtain ⟨n', s₁, hn', rest', _, hrest, h⟩ := h
    have hn₁ := Pass.inside_ok_iff.mp hn'
    have hr₁ := Pass.inside_ok_iff.mp hrest
    obtain ⟨rfl, rfl⟩ := Pass.pure_ok_iff.mp h
    have hitem := hn n List.mem_cons_self
    have hitems := fun k hk => hn k (List.mem_cons_of_mem _ hk)
    rcases n.function_or.symm with hfun | ⟨m, name, params, result, body, rfl⟩
    · obtain ⟨hg, hi, hf, hb, hc, hm⟩ := item_annotated hs hstep [i] hitem hfun hn₁
      obtain ⟨hs₂, he₂, hb₂, hnm₂, hc₂, hm₂⟩ := ih hitems hg.sound hi (hf.trans hnone) (i + 1) hr₁
      have hfun' := not_funcDef_of_bare hb hfun
      refine ⟨hs₂, hg.extends_.trans he₂, by simp only [Node.bareAll, hb, hb₂], ?_, ?_,
        fun F hF => ⟨hnone ▸ hm F (he₂.trans hF), hm₂ F hF⟩⟩
      · rw [hnm₂, hg.funcs, Node.functionNames.eq_3 _ _ hfun']
      · intro F hF
        rw [CheckedItems.eq_3 _ _ _ _ _ hfun']
        exact ⟨hnone ▸ hc F (he₂.trans hF), hc₂ F hF⟩
    · obtain ⟨body', rfl, hfa⟩ := function_annotated hs hstep [i] hitem hn₁
      obtain ⟨hs₂, he₂, hb₂, hnm₂, hc₂, hm₂⟩ :=
        ih hitems hfa.sound hfa.inStep hfa.function (i + 1) hr₁
      refine ⟨hs₂, hfa.extends_.trans he₂, ?_, ?_, ?_,
        fun F hF => ⟨⟨rfl, hfa.marked F (he₂.trans hF)⟩, hm₂ F hF⟩⟩
      · simp only [Node.bareAll, Node.bare, hfa.bare, hb₂, Mark.bare_typed]
      · rw [hnm₂, hfa.names, Node.functionNames, List.append_assoc]
        rfl
      · exact fun F hF => ⟨hfa.checked F (he₂.trans hF), hc₂ F hF⟩

end Analysis

namespace Program

open Typing

/-- What is known of a program that was found correct in a fresh context. -/
structure Certified (p : Program) (ctx : Context) (p' : Program) : Prop where
  sound : ctx.Sound
  certified : ctx.certified = some p'.key
  bare : Node.bareAll p'.body = Node.bareAll p.body
  names : ctx.funcs.names = Node.functionNames p'.body
  checked : CheckedItems ctx 0 {} p'.body
  marked : Node.AllMarked ctx none p'.body

theorem analyse_certified {p p' : Program} (hp : ∀ n ∈ p.body, n.IsItem) {ctx : Context}
    (h : p.analyse {} = (.ok (), ctx, p')) : Certified p ctx p' := by
  unfold analyse at h
  rcases hr : (Analysis.stmts p.body).run { ctx := {} } with ⟨r, u⟩
  rw [hr] at h
  cases r with
  | error halt => cases h
  | ok body =>
    cases h
    have hann := Analysis.items_annotated hp (s := { ctx := {} }) (Γ := {}) .empty ⟨.nil, .nil⟩
      rfl 0 hr
    have hext : u.ctx.Extends
        (({ u.ctx with certified := some p.key } : Context).record
          (.analysisComplete u.ctx.funcs.names.length u.ctx.classes.length)) :=
      ⟨fun _ _ h => h, fun _ _ h => h, fun _ _ h => h⟩
    exact ⟨hann.sound.congr rfl rfl rfl, rfl, hann.bare, hann.names, hann.checked _ hext,
      hann.marked _ hext⟩

end Program

end Augite
