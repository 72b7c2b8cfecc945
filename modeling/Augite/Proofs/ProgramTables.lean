import Augite.Proofs.Sessions

/-!
# The tables of a program

A program that is found correct in a fresh context leaves there its own functions and classes,
in their order, and no others.
-/

namespace Augite

/-- The signature of a function. -/
def Node.signature? : Node → Option Signature
  | .funcDef _ name params result _ => some ⟨name, params.map Param.type, result⟩
  | _ => none

/-- The class that an item declares. -/
def Node.classDef? : Node → Option ClassDef
  | .classDecl _ name fields => some { name, fields }
  | _ => none

theorem Context.tables_of_registers {c d : Context} (h : Relation.ReflTransGen Registers c d) :
    d.funcs = c.funcs ∧ d.classes = c.classes := by
  induction h with
  | refl => exact ⟨rfl, rfl⟩
  | tail _ hstep ih => cases hstep <;> exact ih

namespace Analysis

variable {s u : State}

theorem Registering.tables {τ α : Type} {p : Analysis τ α} (h : Registering p) {a : α}
    (hrun : p.run s = (.ok a, u)) : u.ctx.funcs = s.ctx.funcs ∧ u.ctx.classes = s.ctx.classes := by
  have hmoved := h s
  rw [hrun] at hmoved
  exact Context.tables_of_registers hmoved

theorem classDecl_tables {m : Mark} {name : Text} {fields : List Param} {n' : Node}
    (hrun : (classDecl m name fields).run s = (.ok n', u)) :
    u.ctx.funcs = s.ctx.funcs ∧ u.ctx.classes = s.ctx.classes ++ [⟨name, fields⟩] := by
  simp only [classDecl, Pass.bind_ok_iff, Pass.run_state] at hrun
  obtain ⟨_, _, hfields, _, _, hst, hrun⟩ := hrun
  cases hst
  obtain ⟨rfl, -⟩ := checkFields_ok hfields
  split at hrun
  · simp at hrun
  · rename_i c hadd
    simp only [Pass.bind_ok_iff] at hrun
    obtain ⟨_, _, hput, hrun⟩ := hrun
    cases hput
    cases hrun
    unfold Context.addClass? at hadd
    split at hadd
    · cases hadd
    · cases hadd
      exact ⟨rfl, rfl⟩

theorem beginFunction_tables {τ : Type} {tree : τ} {m : Mark} {name : Text} {params : List Param}
    {result : Ty} (hparams : ∀ p ∈ params, p.type.IsWritten)
    (hresult : result.IsWritten ∨ result = .void)
    (hrun : (beginFunction tree m name params result).run s = (.ok (), u)) :
    u.ctx.funcs.entries = s.ctx.funcs.entries ++ [⟨name, params.map Param.type, result⟩] ∧
      u.ctx.classes = s.ctx.classes := by
  simp only [beginFunction, Pass.bind_ok_iff, Pass.run_state] at hrun
  obtain ⟨_, _, hst, hrun⟩ := hrun
  cases hst
  split at hrun
  · simp at hrun
  simp only [Pass.bind_ok_iff, Pass.run_state] at hrun
  obtain ⟨_, s₁, hps, _, s₂, hres, _, _, hst, funcs, _, hadd, hrun⟩ := hrun
  cases hst
  cases hrun
  obtain ⟨hfuncs₁, hclasses₁⟩ := (resolveParams_registers tree hparams).tables hps
  obtain ⟨hfuncs₂, hclasses₂⟩ := (resolveType_registers tree m.pos hresult).tables hres
  obtain ⟨hadded, -⟩ := accept_ok_iff.mp hadd
  obtain ⟨-, -, rfl⟩ := FuncTable.add_ok hadded
  exact ⟨by rw [hfuncs₂, hfuncs₁], hclasses₂.trans hclasses₁⟩

theorem item_tables {n n' : Node} (hn : n.IsItem) (hrun : (stmt n).run s = (.ok n', u)) :
    u.ctx.funcs.entries = s.ctx.funcs.entries ++ n.signature?.toList ∧
      u.ctx.classes = s.ctx.classes ++ n.classDef?.toList := by
  have hstmt : n.IsStmt → n.signature? = none → n.classDef? = none →
      u.ctx.funcs.entries = s.ctx.funcs.entries ++ n.signature?.toList ∧
        u.ctx.classes = s.ctx.classes ++ n.classDef?.toList := by
    intro hshape hsig hclass
    obtain ⟨hfuncs, hclasses⟩ := (stmt_registers hshape).tables hrun
    rw [hfuncs, hclasses, hsig, hclass]
    simp
  cases n with
  | includeLib m library =>
    cases hrun
    exact ⟨(List.append_nil _).symm, (List.append_nil _).symm⟩
  | classDecl m name fields =>
    obtain ⟨hfuncs, hclasses⟩ := classDecl_tables hrun
    exact ⟨by rw [hfuncs]; exact (List.append_nil _).symm, hclasses⟩
  | funcDef m name params result body =>
    simp only [stmt, Pass.bind_ok_iff] at hrun
    obtain ⟨_, s₁, hbegin, body', s₂, hscope, _, _, hend, hrun⟩ := hrun
    obtain ⟨-, rfl⟩ := endFunction_ok hend
    cases hrun
    obtain ⟨hfuncs, hclasses⟩ := beginFunction_tables hn.1 hn.2.1 hbegin
    have hbody : Registering (inScope do declareParams body params; stmts body) :=
      inScope_registers (.bind (declareParams_registers _ _) fun _ => stmts_registers hn.2.2)
    obtain ⟨hfuncs', hclasses'⟩ := hbody.tables (Pass.inside_ok_iff.mp hscope)
    refine ⟨?_, ?_⟩
    · change s₂.ctx.funcs.entries = _
      rw [hfuncs', hfuncs]
      rfl
    · change s₂.ctx.classes = _
      rw [hclasses', hclasses]
      exact (List.append_nil _).symm
  | _ => exact hstmt hn rfl rfl

theorem items_tables {ns ns' : List Node} (hn : ∀ n ∈ ns, n.IsItem)
    (hrun : (stmts ns).run s = (.ok ns', u)) :
    u.ctx.funcs.entries = s.ctx.funcs.entries ++ ns.filterMap Node.signature? ∧
      u.ctx.classes = s.ctx.classes ++ ns.filterMap Node.classDef? := by
  induction ns generalizing s ns' with
  | nil =>
    cases hrun
    exact ⟨(List.append_nil _).symm, (List.append_nil _).symm⟩
  | cons n rest ih =>
    simp only [stmts, Pass.bind_ok_iff, Pass.inside_ok_iff] at hrun
    obtain ⟨n', s₁, hfirst, rest', _, hrest, hend⟩ := hrun
    cases hend
    obtain ⟨hitem, hitems⟩ := List.forall_mem_cons.mp hn
    obtain ⟨hfuncs₁, hclasses₁⟩ := item_tables hitem hfirst
    obtain ⟨hfuncs₂, hclasses₂⟩ := ih hitems hrest
    rw [hfuncs₂, hfuncs₁, hclasses₂, hclasses₁, List.append_assoc, List.append_assoc]
    constructor
    · cases hsig : n.signature? <;> simp [hsig]
    · cases hclass : n.classDef? <;> simp [hclass]

end Analysis

/-- The functions and classes of a context are those of the program that is certified in it. -/
theorem Program.analyse_tables {p p' : Program} (hp : ∀ n ∈ p.body, n.IsItem) {ctx : Context}
    (h : p.analyse {} = (.ok (), ctx, p')) :
    ctx.funcs.entries = p.body.filterMap Node.signature? ∧
      ctx.classes = p.body.filterMap Node.classDef? := by
  unfold analyse at h
  rcases hr : (Analysis.stmts p.body).run { ctx := {} } with ⟨_ | body, u⟩
  · rw [hr] at h
    cases h
  · rw [hr] at h
    cases h
    exact Analysis.items_tables hp hr

end Augite
