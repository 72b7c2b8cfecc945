import Augite.Proofs.LoweringSteps
import Augite.Proofs.Tables

/-!
# Tables of a lowering

How types are represented, and what the tables of functions, external functions, strings
and structures hold. The name of an external function fixes its type: all of them are
among a list of run-time functions with distinct names.
-/

namespace Augite

/-- The representation of a type. -/
def Ty.ir (t : Ty) : IR.Typ :=
  match t.kind with
  | .int => .i64
  | .float => .double
  | .char => .i8
  | .bool => .i1
  | .string | .list | .graph => .i8ptr
  | .class_ => .named t.className
  | _ => .void

theorem Ty.InUse.ir_ne_void {c : Context} {t : Ty} (h : t.InUse c) : t.ir ≠ .void := by
  cases h with
  | @scalar k hk => cases k <;> cases hk <;> exact nofun
  | list | graph | class_ => exact nofun

theorem Ty.ir_ne_void_of_scalar {t : Ty} (h : t.kind.isScalar = true) : t.ir ≠ .void := by
  obtain ⟨k, e, n⟩ := t
  cases k <;> cases h <;> exact nofun

/-- The structure of a class. -/
def ClassDef.ir (d : ClassDef) : Text × List IR.Typ := (d.name, d.fields.map fun f => f.type.ir)

/-- The structure of a class is found by the name of the class. -/
theorem Context.lookup_structs {c : Context} {name : Text} {d : ClassDef}
    (h : c.class? name = some d) :
    (c.classes.map ClassDef.ir).lookup name = some (d.fields.map fun f => f.type.ir) := by
  unfold class? at h
  generalize c.classes = ds at h
  induction ds with
  | nil => cases h
  | cons e ds ih =>
    rw [List.map_cons, ClassDef.ir, Frame.lookup_cons]
    rw [List.find?_cons] at h
    split at h
    · rename_i heq
      cases h
      rw [if_pos (by simpa using Eq.symm (by simpa using heq))]
    · rename_i hne
      rw [if_neg (fun heq => by simp [heq] at hne)]
      exact ih h

namespace Lowering

open State

/-! ### Run-time functions -/

namespace Runtime

def printer : IR.Func := externalHead "printf" .i32 [.i8ptr] true

def comparer : IR.Func := externalHead "strcmp" .i32 [.i8ptr, .i8ptr] false

/-- The function that makes a list or a graph. -/
def maker (family : Text) : IR.Func := externalHead ("pyrx_" ++ family ++ "_new") .i8ptr [] false

/-- The function of a list's or graph's member. -/
def ofMember (m : Member) : IR.Func :=
  externalHead m.symbol m.result.ir (.i8ptr :: m.params.map Ty.ir) false

/-- All functions that the code of a program may need beside its own. -/
def heads : List IR.Func :=
  [printer, comparer, maker "list", maker "graph"] ++
    [Kind.int, .float, .char, .string, .bool].flatMap fun k =>
      (Member.ofList k ++ Member.ofGraph k).map ofMember

theorem eq_of_name {g h : IR.Func} (hg : g ∈ heads) (hh : h ∈ heads) (hname : g.name = h.name) :
    g = h := by
  -- the names differ at their ends, so these are compared first
  have key : ∀ g ∈ heads, heads.find? (fun h => h.name.reverse == g.name.reverse) = some g := by
    decide +kernel
  have hfound := key g hg
  rw [hname, key h hh] at hfound
  exact (Option.some.inj hfound).symm

theorem isReserved_name {h : IR.Func} (hh : h ∈ heads) :
    Signature.isReserved h.name = true ∧ h.name ≠ Text.ofString "main" := by
  have key : ∀ h ∈ heads, Signature.isReserved h.name = true ∧ h.name ≠ Text.ofString "main" := by
    decide +kernel
  exact key h hh

theorem ofMember_list_mem {k : Kind} (hk : k.isScalar = true) {m : Member}
    (hm : m ∈ Member.ofList k) : ofMember m ∈ heads := by
  refine List.mem_append_right _ (List.mem_flatMap.mpr ⟨k, ?_, ?_⟩)
  · cases k <;> cases hk <;> simp
  · exact List.mem_map_of_mem (List.mem_append_left _ hm)

theorem ofMember_graph_mem {k : Kind} (hk : k.isScalar = true) {m : Member}
    (hm : m ∈ Member.ofGraph k) : ofMember m ∈ heads := by
  refine List.mem_append_right _ (List.mem_flatMap.mpr ⟨k, ?_, ?_⟩)
  · cases k <;> cases hk <;> simp
  · exact List.mem_map_of_mem (List.mem_append_right _ hm)

end Runtime

/-! ### Stocked tables -/

/-- The tables of a lowering hold what a context asks for. -/
structure Stocked (F : Context) (s : State) : Prop where
  funcs : s.ctx.funcs = F.funcs
  members : s.ctx.members = F.members
  structs : s.structs = F.classes.map ClassDef.ir
  functions : ∀ name sig, F.funcs.lookup? name = some sig →
    ∃ i h, s.functions.lookup name = some (.func i h.type) ∧ s.heads[i]? = some h ∧
      h.params.map Prod.snd = sig.params.map Ty.ir ∧ h.result = sig.result.ir ∧
      h.variadic = false ∧ h.name = name
  externals : ∀ name v, s.externals.lookup name = some v →
    ∃ i, ∃ h ∈ Runtime.heads, v = .func i h.type ∧ s.heads[i]? = some h ∧ h.name = name
  strings : ∀ t v, s.strings.lookup t = some v →
    ∃ i g, v = .chars i (t.length + 1) ∧ s.globals[i]? = some g ∧ g.init = .chars (t ++ [0])
  names : (s.heads.map IR.Func.name).Nodup
  known : ∀ h ∈ s.heads, Signature.isReserved h.name = false ∨ h.name = Text.ofString "main" ∨
    (s.externals.lookup h.name).isSome = true

/-- Nothing but the tables of strings and of external functions has grown. -/
structure Tabled (s u : State) : Prop where
  arena : u.arena = s.arena
  body : u.body = s.body
  nextId : u.nextId = s.nextId
  slots : u.slots = s.slots
  globalSlots : u.globalSlots = s.globalSlots
  functions : u.functions = s.functions
  ctx : u.ctx = s.ctx
  structs : u.structs = s.structs
  globals : s.globals <+: u.globals
  heads : s.heads <+: u.heads

theorem Tabled.refl (s : State) : Tabled s s :=
  ⟨rfl, rfl, rfl, rfl, rfl, rfl, rfl, rfl, List.prefix_rfl, List.prefix_rfl⟩

theorem Tabled.grows {s u : State} (h : Tabled s u) : s.Grows u :=
  .of_arena h.arena h.structs h.globals h.heads h.nextId

theorem Tabled.good {s u : State} (h : Tabled s u) (hs : s.Good) : u.Good :=
  hs.congr h.arena h.body h.grows

/-- Tables that a state shares with a stocked one are stocked. -/
theorem Stocked.congr {F : Context} {s u : State} (hs : Stocked F s) (hfuncs : u.ctx.funcs = s.ctx.funcs)
    (hmembers : u.ctx.members = s.ctx.members) (hstructs : u.structs = s.structs)
    (hfunctions : u.functions = s.functions) (hexternals : u.externals = s.externals)
    (hstrings : u.strings = s.strings) (hheads : u.heads = s.heads)
    (hglobals : s.globals <+: u.globals) : Stocked F u where
  funcs := hfuncs.trans hs.funcs
  members := hmembers.trans hs.members
  structs := hstructs.trans hs.structs
  functions := by
    rw [hfunctions, hheads]
    exact hs.functions
  externals := by
    rw [hexternals, hheads]
    exact hs.externals
  strings := by
    rw [hstrings]
    intro t v hv
    obtain ⟨i, g, hi, hg, hinit⟩ := hs.strings t v hv
    exact ⟨i, g, hi, getElem?_of_prefix hglobals hg, hinit⟩
  names := hheads ▸ hs.names
  known := by
    rw [hheads, hexternals]
    exact hs.known

theorem typeOf_run_of_structs {F : Context} {s : State}
    (hstructs : s.structs = F.classes.map ClassDef.ir) {t : Ty} (ht : t.InUse F ∨ t = .void) :
    (Emit.typeOf t).run s = (.ok t.ir, s) := by
  rcases ht with ht | rfl
  · cases ht with
    | @scalar k hk => cases k <;> cases hk <;> rfl
    | list | graph => rfl
    | @class_ d hd =>
      have hmem : (s.structs.lookup d.name).isSome = true := by
        rw [hstructs, Context.lookup_structs hd]
        rfl
      simp only [Emit.typeOf, Ty.classOf, Pass.run_bind, Pass.run_state, hmem]
      rfl
  · rfl

section

variable {F : Context} {s : State} (hs : Stocked F s)
include hs

theorem typeOf_run {t : Ty} (ht : t.InUse F ∨ t = .void) :
    (Emit.typeOf t).run s = (.ok t.ir, s) :=
  typeOf_run_of_structs hs.structs ht

theorem string_run (t : Text) :
    ∃ i u, (Emit.string t).run s = (.ok (.chars i (t.length + 1)), u) ∧ Tabled s u ∧
      Stocked F u ∧ ∃ g, u.globals[i]? = some g ∧ g.init = .chars (t ++ [0]) := by
  rcases hv : s.strings.lookup t with _ | v
  · refine ⟨s.globals.length, s.withString t, ?_, ?_, ?_, ?_⟩
    · simp only [Emit.string, Pass.run_bind, Pass.run_state, hv]
      rfl
    · exact ⟨rfl, rfl, rfl, rfl, rfl, rfl, rfl, rfl, List.prefix_append _ _, List.prefix_rfl⟩
    · refine ⟨hs.funcs, hs.members, hs.structs, hs.functions, hs.externals, ?_, hs.names, hs.known⟩
      intro t' v' hv'
      simp only [withString, Frame.lookup_cons] at hv'
      split at hv'
      · rename_i heq
        subst heq
        cases hv'
        exact ⟨_, _, rfl, List.getElem?_concat_length, rfl⟩
      · obtain ⟨i, g, hi, hg, hinit⟩ := hs.strings t' v' hv'
        exact ⟨i, g, hi, getElem?_of_prefix (List.prefix_append _ _) hg, hinit⟩
    · exact ⟨_, List.getElem?_concat_length, rfl⟩
  · obtain ⟨i, g, rfl, hg, hinit⟩ := hs.strings t v hv
    refine ⟨i, s, ?_, .refl s, hs, g, hg, hinit⟩
    simp only [Emit.string, Pass.run_bind, Pass.run_state, hv]
    rfl

theorem external_run {name : Text} {result : IR.Typ} {params : List IR.Typ} {variadic : Bool}
    (hh : externalHead name result params variadic ∈ Runtime.heads) :
    ∃ i u, (Emit.external name result params variadic).run s =
        (.ok (.func i (externalHead name result params variadic).type), u) ∧ Tabled s u ∧
      Stocked F u ∧ u.heads[i]? = some (externalHead name result params variadic) := by
  set h := externalHead name result params variadic with hdef
  rcases hv : s.externals.lookup name with _ | v
  · refine ⟨s.heads.length, s.withExternal h, ?_, ?_, ?_, ?_⟩
    · simp only [Emit.external, Pass.run_bind, Pass.run_state, hv]
      rfl
    · exact ⟨rfl, rfl, rfl, rfl, rfl, rfl, rfl, rfl, List.prefix_rfl, List.prefix_append _ _⟩
    · obtain ⟨hres, hmain⟩ := Runtime.isReserved_name hh
      have hext : ∀ n, (s.withExternal h).externals.lookup n =
          if n = name then some (.func s.heads.length h.type) else s.externals.lookup n :=
        fun n => Frame.lookup_cons n name _ _
      refine ⟨hs.funcs, hs.members, hs.structs, ?_, ?_, hs.strings, ?_, ?_⟩
      · intro n sig hsig
        obtain ⟨i, g, hi, hg, hrest⟩ := hs.functions n sig hsig
        exact ⟨i, g, hi, getElem?_of_prefix (List.prefix_append _ _) hg, hrest⟩
      · intro n v hn
        rw [hext] at hn
        split at hn
        · rename_i heq
          subst heq
          cases hn
          exact ⟨_, h, hh, rfl, by simp [withExternal, withHead], rfl⟩
        · obtain ⟨i, g, hg, hv, hget, hname⟩ := hs.externals n v hn
          exact ⟨i, g, hg, hv, getElem?_of_prefix (List.prefix_append _ _) hget, hname⟩
      · change ((s.heads ++ [h]).map IR.Func.name).Nodup
        rw [List.map_append, List.nodup_append]
        refine ⟨hs.names, List.nodup_singleton _, ?_⟩
        intro a ha b hb hab
        obtain ⟨g, hg, rfl⟩ := List.mem_map.mp ha
        cases List.mem_singleton.mp hb
        rcases hs.known g hg with hfree | hm | hsome
        · rw [hab, hres] at hfree
          cases hfree
        · exact hmain (hab ▸ hm)
        · rw [hab] at hsome
          change (s.externals.lookup name).isSome = true at hsome
          rw [hv] at hsome
          cases hsome
      · intro g hg
        rcases List.mem_append.mp hg with hg | hg
        · refine (hs.known g hg).imp_right fun hor => hor.imp_right fun hsome => ?_
          rw [hext]
          split
          · rfl
          · exact hsome
        · cases List.mem_singleton.mp hg
          refine .inr (.inr ?_)
          rw [hext, if_pos (show h.name = name from rfl)]
          rfl
    · simp [withExternal, withHead]
  · obtain ⟨i, g, hg, rfl, hget, hname⟩ := hs.externals name v hv
    obtain rfl : g = h := Runtime.eq_of_name hg hh hname
    refine ⟨i, s, ?_, .refl s, hs, hget⟩
    simp only [Emit.external, Pass.run_bind, Pass.run_state, hv]
    rfl

end

end Lowering

end Augite
