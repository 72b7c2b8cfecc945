import Augite.Proofs.FunctionEnds
import Augite.Proofs.LocalNames

/-!
# Names of a module

The functions and the global variables of a module, its string constants among them, have
different names, and so have its structure types. Each string that the living code of the
program uses is held by one constant. The names that a program gives have no dots in them, and
neither have those of the run-time library; variables and constants are told apart by where
their names have the first one.
-/

namespace Augite

/-! ### Trees that were read -/

namespace Node

mutual

theorem legible_bare (libs : List Library) (n : Node) : n.bare.Legible libs ↔ n.Legible libs := by
  cases n with
  | binary m op l r => simp only [bare, Legible, legible_bare libs l, legible_bare libs r]
  | unary m op x => simp only [bare, Legible, legible_bare libs x]
  | print m x => simp only [bare, Legible, legible_bare libs x]
  | exprStmt m x => simp only [bare, Legible, legible_bare libs x]
  | call m name xs => simp only [bare, Legible, allLegible_bare libs xs]
  | dot a xs => simp only [bare, Legible, Access.bare, allLegible_bare libs xs]
  | varDef m name t x => simp only [bare, Legible, legible_bare libs x]
  | assign m name x => simp only [bare, Legible, legible_bare libs x]
  | fieldAssign m a xs x => simp only [bare, Legible, Access.bare, legible_bare libs x]
  | ret m x =>
    cases x with
    | none => rfl
    | some x => simp only [bare, Legible, legible_bare libs x]
  | branch m merge test yes no =>
    cases no with
    | none => simp only [bare, Legible, legible_bare libs test, allLegible_bare libs yes]
    | some no =>
      simp only [bare, Legible, legible_bare libs test, allLegible_bare libs yes,
        allLegible_bare libs no]
  | whileLoop m merge test body =>
    simp only [bare, Legible, legible_bare libs test, allLegible_bare libs body]
  | forLoop m merge init test step body =>
    simp only [bare, Legible, legible_bare libs init, legible_bare libs test,
      legible_bare libs step, allLegible_bare libs body]
  | listDecl m name k xs => simp only [bare, Legible, allLegible_bare libs xs]
  | funcDef m name params result body => simp only [bare, Legible, allLegible_bare libs body]
  | _ => rfl
termination_by structural n

theorem allLegible_bare (libs : List Library) (ns : List Node) :
    AllLegible libs (bareAll ns) ↔ AllLegible libs ns := by
  cases ns with
  | nil => rfl
  | cons n ns => simp only [bareAll, AllLegible, legible_bare libs n, allLegible_bare libs ns]
termination_by structural ns

end

theorem ItemsLegible.exists_legible {libs : List Library} {ns : List Node}
    (h : ItemsLegible libs ns) : ∀ n ∈ ns, ∃ libs, n.Legible libs := by
  induction ns generalizing libs with
  | nil => exact List.forall_mem_nil _
  | cons n rest ih => exact List.forall_mem_cons.mpr ⟨⟨libs, h.2.1⟩, ih h.2.2⟩

theorem exists_legible_of_bare {ns ms : List Node} (h : bareAll ns = bareAll ms)
    (hms : ∀ m ∈ ms, ∃ libs, m.Legible libs) : ∀ n ∈ ns, ∃ libs, n.Legible libs := by
  intro n hn
  have hmem : n.bare ∈ ms.map bare := by
    rw [← bareAll_eq_map, ← h, bareAll_eq_map]
    exact List.mem_map_of_mem hn
  obtain ⟨m, hm, heq⟩ := List.mem_map.mp hmem
  obtain ⟨libs, hlegible⟩ := hms m hm
  exact ⟨libs, (legible_bare libs n).mp (heq ▸ (legible_bare libs m).mpr hlegible)⟩

end Node

/-! ### Global variables -/

namespace Typing

open Node

variable {F : Context} {fn : Option Signature}

mutual

/-- Within scopes of its own a statement makes no global variable. -/
theorem Checked.no_globals {n : Node} {π : Path} {Γ : Environment} (hn : Checked F fn π Γ n)
    (hΓ : n.declared? = none ∨ Γ.atModule = false) : ∀ r ∈ n.rooms, r.global? = none := by
  have hslot {m : Mark} {t : Ty} (h : m.Declares Γ t) (hΓ : Γ.atModule = false) (name : Text) :
      ∀ r ∈ [Room.of m.isGlobal name], r.global? = none := by
    rw [h.isGlobal, hΓ]
    exact List.forall_mem_singleton.mpr rfl
  cases n with
  | varDecl m name t => exact hslot hn.2.2.1 (hΓ.resolve_left nofun) name
  | varDef m name t x => exact hslot hn.2.2.1 (hΓ.resolve_left nofun) name
  | listDecl m name k xs => exact hslot hn.2.2.1 (hΓ.resolve_left nofun) name
  | graphDecl m name k => exact hslot hn.2.2 (hΓ.resolve_left nofun) name
  | branch m merge test yes no =>
    cases no with
    | none => exact AllChecked.no_globals hn.2 rfl
    | some no =>
      exact List.forall_mem_append.mpr
        ⟨AllChecked.no_globals hn.2.1 rfl, AllChecked.no_globals hn.2.2 rfl⟩
  | whileLoop m merge test body => exact AllChecked.no_globals hn.2 rfl
  | forLoop m merge init test step body =>
    refine List.forall_mem_append.mpr ⟨Checked.no_globals hn.1 (.inr rfl), ?_⟩
    refine List.forall_mem_append.mpr ⟨AllChecked.no_globals hn.2.2.2 rfl, ?_⟩
    split
    · exact List.forall_mem_nil _
    · exact Checked.no_globals hn.2.2.1 (.inr (Environment.atModule_after ..))
  | ret m x => cases x <;> exact List.forall_mem_nil _
  | funcDef => exact hn.elim
  | _ => exact List.forall_mem_nil _
termination_by structural n

theorem AllChecked.no_globals {ns : List Node} {π : Path} {i : Nat} {Γ : Environment}
    (hns : AllChecked F fn π i Γ ns) (hΓ : Γ.atModule = false) :
    ∀ r ∈ livingRooms ns, r.global? = none := by
  cases ns with
  | nil => exact List.forall_mem_nil _
  | cons n ns =>
    refine List.forall_mem_append.mpr ⟨Checked.no_globals hns.1 (.inr hΓ), ?_⟩
    split
    · exact List.forall_mem_nil _
    · exact AllChecked.no_globals hns.2 ((Environment.atModule_after ..).trans hΓ)
termination_by structural ns

end

/-- A statement of the entry point makes the global variable that it declares. -/
theorem Checked.globals_eq {n : Node} {π : Path} {Γ : Environment} (hn : Checked F fn π Γ n)
    (hΓ : Γ.atModule = true) : n.globals = (n.declared?.map Prod.fst).toList := by
  have hglobal {m : Mark} {t : Ty} (h : m.Declares Γ t) (name : Text) :
      [Room.of m.isGlobal name].filterMap Room.global? = [name] := by
    rw [h.isGlobal, hΓ]
    rfl
  rcases hd : n.declared? with - | d
  · exact List.filterMap_eq_nil_iff.mpr (hn.no_globals (.inl hd))
  · cases n with
    | varDecl m name t => exact hd ▸ hglobal hn.2.2.1 name
    | varDef m name t x => exact hd ▸ hglobal hn.2.2.1 name
    | listDecl m name k xs => exact hd ▸ hglobal hn.2.2.1 name
    | graphDecl m name k => exact hd ▸ hglobal hn.2.2 name
    | _ => cases hd

theorem Checked.fresh {n : Node} {π : Path} {Γ : Environment} (hn : Checked F fn π Γ n)
    {name : Text} {t : Ty} (h : n.declared? = some (name, t)) : Γ.Fresh name := by
  cases n with
  | varDecl | varDef | listDecl | graphDecl =>
    cases h
    exact hn.1
  | _ => cases h

theorem fresh_of_push {Γ : Environment} {x name : Text} {d : Declaration}
    (h : Environment.Fresh (Γ.push name d) x) : x ≠ name ∧ Γ.Fresh x := by
  rw [Environment.Fresh, Scopes.current_push, List.lookup_cons] at h
  by_cases hx : x = name
  · simp [hx] at h
  · have hne : (x == name) = false := beq_eq_false_iff_ne.mpr hx
    rw [hne] at h
    exact ⟨hx, h⟩

/-- The global variables of a program are distinct, and new where the program begins. -/
theorem CheckedItems.nodup_globals {ns : List Node} {i : Nat} {Γ : Environment}
    (hns : CheckedItems F i Γ ns) (hΓ : Γ.atModule = true) :
    (ns.flatMap Node.globals).Nodup ∧ ∀ x ∈ ns.flatMap Node.globals, Γ.Fresh x := by
  induction ns generalizing i Γ with
  | nil => exact ⟨.nil, List.forall_mem_nil _⟩
  | cons n rest ih =>
    rw [List.flatMap_cons]
    rcases n.function_or with ⟨m, name, params, result, body, rfl⟩ | hnot
    · have hbody := hns.1.checked.no_globals (Environment.atModule_withParams ..)
      have hnone : (Node.funcDef m name params result body).globals = [] :=
        List.filterMap_eq_nil_iff.mpr
          (List.forall_mem_append.mpr ⟨List.forall_mem_map.mpr fun _ _ => rfl, hbody⟩)
      rw [hnone, List.nil_append]
      exact ih hns.2 hΓ
    · obtain ⟨hn, hrest⟩ := Lowering.checkedItems_cons hnot hns
      have hafter : (Γ.after [i] n).atModule = true := by
        rw [Environment.atModule_after]
        exact hΓ
      obtain ⟨hnodup, hfresh⟩ := ih hrest hafter
      rw [hn.globals_eq hΓ]
      rcases hdecl : n.declared? with - | ⟨name, t⟩
      · rw [Environment.after, hdecl] at hfresh
        exact ⟨hnodup, hfresh⟩
      · rw [Environment.after, hdecl] at hfresh
        have hpush := fun x hx => fresh_of_push (hfresh x hx)
        refine ⟨List.nodup_cons.mpr ⟨fun hmem => (hpush name hmem).1 rfl, hnodup⟩, ?_⟩
        exact List.forall_mem_cons.mpr ⟨hn.fresh hdecl, fun x hx => (hpush x hx).2⟩

end Typing

/-! ### External functions -/

/-- The function of a member is named by a word that no function of a program has. -/
theorem Context.Sound.symbol_cases {F : Context} (hF : F.Sound) {t : Ty} {member : Text}
    {m : Member} (h : F.members.lookup? t member = some m) :
    m.symbol = [] ∨ ∃ h ∈ Lowering.Runtime.heads, h.name = m.symbol := by
  have hmem : m ∈ F.members.members t := List.mem_of_find?_eq_some h
  rw [MemberTable.members_eq] at hmem
  rcases hlisted : F.members.listed? t.name with - | ms
  · rw [hlisted] at hmem
    cases hmem
  rw [hlisted, Option.getD_some] at hmem
  rcases hF.kinds t.name ms hlisted with hword | ⟨k, hk, hkey | hkey⟩
  · obtain ⟨d, hd, hname⟩ := hF.keys t.name ms hlisted hword
    have hfields := hF.members d hd
    rw [hname, hlisted] at hfields
    cases hfields
    left
    obtain ⟨i, f, -, rfl⟩ := Member.mem_ofFields hmem
    rfl
  · rw [hkey] at hlisted
    cases hF.lists k ms hk hlisted
    exact .inr ⟨_, Lowering.Runtime.ofMember_list_mem hk hmem, rfl⟩
  · rw [hkey] at hlisted
    cases hF.graphs k ms hk hlisted
    exact .inr ⟨_, Lowering.Runtime.ofMember_graph_mem hk hmem, rfl⟩

namespace Lowering

open State

theorem Summoned.cases {F : Context} (hF : F.Sound) {name : Text} (h : Summoned F.members name) :
    name = [] ∨ ∃ h ∈ Runtime.heads, h.name = name := by
  rcases h with rfl | rfl | rfl | rfl | ⟨t, member, m, hm, rfl⟩
  · exact .inr ⟨Runtime.printer, by simp [Runtime.heads], rfl⟩
  · exact .inr ⟨Runtime.comparer, by simp [Runtime.heads], rfl⟩
  · exact .inr ⟨Runtime.maker "list", by simp [Runtime.heads], rfl⟩
  · exact .inr ⟨Runtime.maker "graph", by simp [Runtime.heads], rfl⟩
  · exact hF.symbol_cases hm

variable {M : MemberTable} {s u : State} {ts ts' : List Text} {rs rs' : List Room}

/-- The functions of the module are those that the program has and the external ones in use. -/
structure State.Declared (M : MemberTable) (names : List Text) (s : State) : Prop where
  names : s.heads.map IR.Func.name = names ++ (s.externals.map Prod.fst).reverse
  distinct : (s.externals.map Prod.fst).Nodup
  summoned : ∀ x ∈ s.externals.map Prod.fst, Summoned M x
  params : ∀ h ∈ s.heads, h.paramNames.Nodup ∧ ∀ x ∈ h.paramNames, x.IsWord

theorem paramNames_externalHead (name : Text) (result : IR.Typ) (params : List IR.Typ)
    (variadic : Bool) : (externalHead name result params variadic).paramNames = [] := by
  simp [IR.Func.paramNames, externalHead]

theorem mem_of_lookup {α : Type} {l : List (Text × α)} {x : Text} {v : α}
    (h : l.lookup x = some v) : x ∈ l.map Prod.fst := by
  obtain ⟨l₁, l₂, rfl, -⟩ := List.lookup_eq_some_iff.mp h
  simp

theorem not_mem_of_lookup {α : Type} {l : List (Text × α)} {x : Text} (h : l.lookup x = none) :
    x ∉ l.map Prod.fst := by
  rintro hmem
  obtain ⟨e, he, rfl⟩ := List.mem_map.mp hmem
  have hne := List.lookup_eq_none_iff.mp h e he
  simp at hne

theorem Step.declared (h : Step M s ts rs u) {names : List Text} (hs : s.Declared M names) :
    u.Declared M names := by
  have hsame (hheads : u.heads = s.heads) (hexternals : u.externals = s.externals) :
      u.Declared M names :=
    ⟨hheads ▸ hexternals ▸ hs.names, hexternals ▸ hs.distinct, hexternals ▸ hs.summoned,
      hheads ▸ hs.params⟩
  obtain ⟨h, -⟩ := h
  cases h with
  | stroke h =>
    cases h with
    | @withExternal name result params variadic hname hnone =>
      refine ⟨?_, ?_, List.forall_mem_cons.mpr ⟨hname, hs.summoned⟩, ?_⟩
      · simp only [State.withExternal, State.withHead, List.map_append, hs.names, List.map_cons,
          List.map_nil, List.reverse_cons, List.append_assoc]
      · exact List.nodup_cons.mpr ⟨not_mem_of_lookup hnone, hs.distinct⟩
      · refine List.forall_mem_append.mpr ⟨hs.params, List.forall_mem_singleton.mpr ?_⟩
        rw [paramNames_externalHead]
        exact ⟨.nil, List.forall_mem_nil _⟩
    | _ => exact hsame rfl rfl
  | _ => exact hsame rfl rfl

theorem Chain.declared (h : Steps M s ts rs u) {names : List Text} (hs : s.Declared M names) :
    u.Declared M names := by
  induction h with
  | refl => exact hs
  | tail _ k ih => exact k.declared ih

theorem ItemSteps.declared (h : ItemSteps M s ts rs u) {names : List Text}
    (hs : s.Declared M names) : u.Declared M names := by
  induction h with
  | refl => exact hs
  | step _ k ih => exact k.declared ih
  | function _ _ k e ih =>
    have hu := k.declared ⟨ih.names, ih.distinct, ih.summoned, ih.params⟩
    exact ⟨hu.names, hu.distinct, hu.summoned, hu.params⟩
  | logged _ e ih => exact ⟨ih.names, ih.distinct, ih.summoned, ih.params⟩

/-! ### Structures -/

theorem Step.structs (h : Step M s ts rs u) : u.structs = s.structs := by
  obtain ⟨h, -⟩ := h
  cases h with
  | stroke h => cases h <;> rfl
  | _ => rfl

theorem Chain.structs (h : Steps M s ts rs u) : u.structs = s.structs :=
  h.keeps (f := State.structs) fun _ _ _ _ k => k.structs

theorem ItemSteps.structs (h : ItemSteps M s ts rs u) : u.structs = s.structs := by
  induction h with
  | refl => rfl
  | step _ k ih => exact k.structs.trans ih
  | function _ _ k e ih => exact k.structs.trans ih
  | logged _ _ ih => exact ih

/-! ### Strings -/

/-- The constant that holds a string, the number of which is given. -/
def constant (i : Nat) (t : Text) : IR.Global :=
  { name := ".str." ++ Text.decimal i, init := .chars (t ++ [0]), isConstant := true }

/-- The name that a global variable has in the module. -/
def variableText (name : Text) : Text := "g." ++ name

/-- The constants of the module hold the strings `ts`, and its variables are those of `rs`. -/
structure State.Pooled (ts : List Text) (rs : List Room) (s : State) : Prop where
  strings : ∀ t, t ∈ s.strings.map Prod.fst ↔ t ∈ ts
  distinct : (s.strings.map Prod.fst).Nodup
  constants : s.globals.filter (·.isConstant) =
    (s.strings.map Prod.fst).reverse.mapIdx constant
  globals : (s.globals.filter (!·.isConstant)).map IR.Global.name =
    (rs.filterMap Room.global?).map variableText

theorem Stroke.pooled (h : Stroke M s ts' rs' u) (hs : s.Pooled ts rs) :
    u.Pooled (ts ++ ts') (rs ++ rs') := by
  cases h with
  | @known t v hknown =>
    refine ⟨fun x => ?_, hs.distinct, hs.constants, by simpa using hs.globals⟩
    have ht : t ∈ ts := (hs.strings t).mp (mem_of_lookup hknown)
    rw [hs.strings]
    simp only [List.mem_append, List.mem_singleton, iff_self_or]
    rintro rfl
    exact ht
  | @withString t hnone =>
    refine ⟨fun x => ?_, ?_, ?_, ?_⟩
    · simp [State.withString, ← hs.strings, or_comm]
    · exact List.nodup_cons.mpr ⟨not_mem_of_lookup hnone, hs.distinct⟩
    · simp only [State.withString, List.filter_append, hs.constants, List.map_cons,
        List.reverse_cons, List.mapIdx_concat]
      simp [constant]
    · simp only [State.withString, List.filter_append, List.map_append, hs.globals]
      simp
  | withGlobal name init =>
    refine ⟨?_, hs.distinct, ?_, ?_⟩
    · rw [List.append_nil]
      exact hs.strings
    · simp only [State.withGlobal, List.filter_append, hs.constants]
      simp
    · simp only [State.withGlobal, List.filter_append, List.map_append, hs.globals,
        List.filterMap_append]
      rfl
  | emitted | rescoped | withExternal =>
    rw [List.append_nil, List.append_nil]
    exact ⟨hs.strings, hs.distinct, hs.constants, hs.globals⟩
  | reserved name t =>
    rw [List.append_nil]
    refine ⟨hs.strings, hs.distinct, hs.constants, hs.globals.trans ?_⟩
    rw [List.filterMap_append]
    exact congrArg _ (List.append_nil _).symm

theorem Step.pooled (h : Step M s ts' rs' u) (hs : s.Pooled ts rs) :
    u.Pooled (ts ++ ts') (rs ++ rs') := by
  obtain ⟨h, -⟩ := h
  cases h with
  | stroke h => exact h.pooled hs
  | _ =>
    rw [List.append_nil, List.append_nil]
    exact ⟨hs.strings, hs.distinct, hs.constants, hs.globals⟩

theorem Chain.pooled (h : Steps M s ts' rs' u) (hs : s.Pooled ts rs) :
    u.Pooled (ts ++ ts') (rs ++ rs') := by
  induction h with
  | refl =>
    rw [List.append_nil, List.append_nil]
    exact hs
  | tail _ k ih =>
    rw [← List.append_assoc, ← List.append_assoc]
    exact k.pooled ih

theorem ItemSteps.pooled (h : ItemSteps M s ts rs u) (hs : s.Pooled [] []) : u.Pooled ts rs := by
  induction h with
  | refl => exact hs
  | step _ k ih => exact k.pooled ih
  | function _ _ k e ih =>
    have hu := k.pooled ⟨ih.strings, ih.distinct, ih.constants, ih.globals⟩
    exact ⟨hu.strings, hu.distinct, hu.constants, hu.globals⟩
  | logged _ e ih => exact ⟨ih.strings, ih.distinct, ih.constants, ih.globals⟩

/-! ### Modules -/

theorem nodup_constants (ts : List Text) :
    ((ts.mapIdx constant).map IR.Global.name).Nodup := by
  have hnames : (ts.mapIdx constant).map IR.Global.name =
      (List.range ts.length).map fun i => ".str." ++ Text.decimal i := by
    apply List.ext_getElem
    · simp
    · intro i hi hi'
      simp [constant]
  rw [hnames]
  apply List.Nodup.map _ List.nodup_range
  intro i j h
  exact Text.decimal_injective (List.append_cancel_left h)

theorem exists_of_mem_constants {ts : List Text} {g : IR.Global} (h : g ∈ ts.mapIdx constant) :
    ∃ i, ∃ t ∈ ts, g = constant i t := by
  obtain ⟨i, hi, rfl⟩ := List.mem_mapIdx.mp h
  exact ⟨i, ts[i], List.getElem_mem hi, rfl⟩

namespace State

/-- The names of the global variables and of the constants are distinct and have dots in them. -/
theorem Pooled.nodup_names (hs : s.Pooled ts rs) (hrs : (rs.filterMap Room.global?).Nodup) :
    (s.globals.map IR.Global.name).Nodup ∧ ∀ x ∈ s.globals.map IR.Global.name, byte '.' ∈ x := by
  have hperm := (List.filter_append_perm (fun g : IR.Global => g.isConstant) s.globals).map
    IR.Global.name
  rw [List.map_append, hs.constants, hs.globals] at hperm
  constructor
  · rw [← hperm.nodup_iff, List.nodup_append]
    refine ⟨nodup_constants _, hrs.map fun x y h => List.append_cancel_left h, ?_⟩
    rintro x hx y hy rfl
    obtain ⟨g, hg, rfl⟩ := List.mem_map.mp hx
    obtain ⟨i, t, -, rfl⟩ := exists_of_mem_constants hg
    obtain ⟨v, -, hv⟩ := List.mem_map.mp hy
    have hfirst := (List.cons.inj hv).1
    revert hfirst
    decide
  · intro x hx
    rcases List.mem_append.mp (hperm.mem_iff.mpr hx) with hx | hx
    · obtain ⟨g, hg, rfl⟩ := List.mem_map.mp hx
      obtain ⟨i, t, -, rfl⟩ := exists_of_mem_constants hg
      exact List.mem_append_left _ (by decide)
    · obtain ⟨v, -, rfl⟩ := List.mem_map.mp hx
      exact List.mem_append_left _ (by decide)

/-- Each string has one constant. -/
theorem Pooled.existsUnique_constant (hs : s.Pooled ts rs) {t : Text} (ht : t ∈ ts) :
    ∃! g, g ∈ s.globals ∧ g.isConstant = true ∧ g.init = .chars (t ++ [0]) := by
  have hmem : ∀ g, g ∈ s.globals ∧ g.isConstant = true ↔
      g ∈ (s.strings.map Prod.fst).reverse.mapIdx constant := by
    intro g
    rw [← hs.constants, List.mem_filter]
  have hnodup := List.nodup_reverse.mpr hs.distinct
  have ht' := List.mem_reverse.mpr ((hs.strings t).mpr ht)
  generalize (s.strings.map Prod.fst).reverse = keys at hmem hnodup ht'
  obtain ⟨i, hi, rfl⟩ := List.mem_iff_getElem.mp ht'
  refine ⟨constant i keys[i], ⟨?_, ?_, rfl⟩, ?_⟩
  · exact ((hmem _).mpr (List.mem_mapIdx.mpr ⟨i, hi, rfl⟩)).1
  · rfl
  · rintro g ⟨hg, hconstant, hinit⟩
    obtain ⟨j, hj, rfl⟩ := List.mem_mapIdx.mp ((hmem g).mp ⟨hg, hconstant⟩)
    have hkeys : keys[j] = keys[i] := List.append_cancel_right (IR.Const.chars.inj hinit)
    have hij := (hnodup.getElem_inj_iff).mp hkeys
    subst hij
    rfl

theorem Pooled.exists_string (hs : s.Pooled ts rs) {g : IR.Global} (hg : g ∈ s.globals)
    (hconstant : g.isConstant = true) : ∃ t ∈ ts, g.init = .chars (t ++ [0]) := by
  have hmem : g ∈ s.globals.filter (·.isConstant) := List.mem_filter.mpr ⟨hg, hconstant⟩
  rw [hs.constants] at hmem
  obtain ⟨i, t, ht, rfl⟩ := exists_of_mem_constants hmem
  exact ⟨t, (hs.strings t).mp (List.mem_reverse.mp ht), rfl⟩

/-- The functions of the module have distinct names, and there are no dots in these. -/
theorem Declared.nodup_names {F : Context} (hF : F.Sound) {names : List Text}
    (hs : s.Declared F.members (names ++ [mainHead.name])) (hnodup : names.Nodup)
    (hnames : ∀ x ∈ names, x.IsName) (hfree : ∀ x ∈ names, Signature.isReserved x = false) :
    (s.heads.map IR.Func.name).Nodup ∧ ∀ x ∈ s.heads.map IR.Func.name, byte '.' ∉ x := by
  have hruntime : ∀ h ∈ Runtime.heads, byte '.' ∉ h.name := by decide +kernel
  have hmain : mainHead.name ∉ names := by
    intro hmem
    have := hfree _ hmem
    revert this
    decide
  have hexternal : ∀ x ∈ s.externals.map Prod.fst, x ∉ names ∧ x ≠ mainHead.name := by
    intro x hx
    rcases (hs.summoned x hx).cases hF with rfl | ⟨h, hh, rfl⟩
    · refine ⟨fun hmem => ?_, by decide⟩
      obtain ⟨b, r, heq, -⟩ := (hnames _ hmem).first
      cases heq
    · obtain ⟨hreserved, hne⟩ := Runtime.isReserved_name hh
      refine ⟨fun hmem => ?_, hne⟩
      rw [hfree _ hmem] at hreserved
      cases hreserved
  rw [hs.names]
  constructor
  · rw [List.nodup_append, List.nodup_append]
    refine ⟨⟨hnodup, List.nodup_singleton _, ?_⟩, List.nodup_reverse.mpr hs.distinct, ?_⟩
    · rintro x hx y hy rfl
      exact hmain (List.mem_singleton.mp hy ▸ hx)
    · rintro x hx y hy rfl
      obtain ⟨hnot, hne⟩ := hexternal x (List.mem_reverse.mp hy)
      rcases List.mem_append.mp hx with hx | hx
      · exact hnot hx
      · exact hne (List.mem_singleton.mp hx)
  · intro x hx
    rcases List.mem_append.mp hx with hx | hx
    · rcases List.mem_append.mp hx with hx | hx
      · exact (hnames x hx).word.dot_notMem
      · rw [List.mem_singleton.mp hx]
        decide
    · rcases (hs.summoned x (List.mem_reverse.mp hx)).cases hF with rfl | ⟨h, hh, rfl⟩
      · exact List.not_mem_nil
      · exact hruntime h hh

end State

theorem startState_pooled (F : Context) (ns : List Node) : (startState F ns).Pooled [] [] := by
  rw [startState_eq]
  exact ⟨fun t => Iff.rfl, .nil, rfl, rfl⟩

theorem startState_declared {F : Context} {ns : List Node} (hn : Typing.CheckedItems F 0 {} ns)
    (hw : ∀ n ∈ ns, ∃ libs, n.Legible libs) :
    (startState F ns).Declared F.members (Node.functionNames ns ++ [mainHead.name]) := by
  rw [startState_eq]
  refine ⟨?_, .nil, List.forall_mem_nil _, ?_⟩
  · rw [List.map_append, map_name_heads]
    simp
  · intro h hmem
    rcases List.mem_append.mp hmem with hmem | hmem
    · obtain ⟨n, hn', hhead⟩ := List.mem_filterMap.mp hmem
      cases n with
      | funcDef m name params result body =>
        cases hhead
        obtain ⟨π, Δ, hfunction⟩ := checkedFunction_of_mem hn hn'
        obtain ⟨libs, hlegible⟩ := hw _ hn'
        have hparams : (params.map fun p => (p.name, p.type.ir)).map Prod.fst =
            params.map Param.name := by
          rw [List.map_map]
          rfl
        unfold IR.Func.paramNames
        rw [hparams]
        refine ⟨hfunction.distinct.filter _, fun x hx => ?_⟩
        obtain ⟨p, hp, rfl⟩ := List.mem_map.mp (List.mem_of_mem_filter hx)
        exact (hlegible.2.1 p hp).1.word
      | _ => cases hhead
    · rw [List.mem_singleton.mp hmem]
      exact ⟨.nil, List.forall_mem_nil _⟩

theorem State.map_name_funcs (s : State) :
    s.module.funcs.map IR.Func.name = s.heads.map IR.Func.name := by
  apply List.ext_getElem?
  intro i
  simp only [State.module, List.getElem?_map, List.getElem?_mapIdx, Option.map_map]
  rfl

theorem isName_of_mem_functionNames {ns : List Node} (hw : ∀ n ∈ ns, ∃ libs, n.Legible libs) :
    ∀ x ∈ Node.functionNames ns, x.IsName := by
  intro x hx
  rw [← map_name_heads] at hx
  obtain ⟨h, hmem, rfl⟩ := List.mem_map.mp hx
  obtain ⟨n, hn, hhead⟩ := List.mem_filterMap.mp hmem
  obtain ⟨libs, hlegible⟩ := hw n hn
  cases n with
  | funcDef m name params result body =>
    cases hhead
    exact hlegible.1
  | _ => cases hhead

end Lowering

/-- The names in the module of a correct program are distinct, and each string that its living
code uses has one constant. -/
theorem Program.lower_distinct_names {key : Nat} {source : Text} {p p' p'' : Program}
    {ctx ctx' : Context} {m : IR.Module} (h : Program.parse key source = .ok p)
    (hrun : p.analyse {} = (.ok (), ctx, p')) (hlower : p'.lower ctx = (.ok m, ctx', p'')) :
    (m.funcs.map IR.Func.name ++ m.globals.map IR.Global.name).Nodup ∧
    (m.structs.map Prod.fst).Nodup ∧
    (∀ f ∈ m.funcs, f.localNames.Nodup) ∧
    (∀ t ∈ p'.body.flatMap Node.texts,
      ∃! g, g ∈ m.globals ∧ g.isConstant = true ∧ g.init = .chars (t ++ [0])) ∧
    ∀ g ∈ m.globals, g.isConstant = true →
      ∃ t ∈ p'.body.flatMap Node.texts, g.init = .chars (t ++ [0]) := by
  have hp := Program.parse_isItem h
  have hc := Program.analyse_certified hp hrun
  obtain ⟨s, hprogram, rfl⟩ := hc.run_of_lower hlower
  have hw := Node.exists_legible_of_bare hc.bare (Program.parse_legible h).exists_legible
  have hsteps := Lowering.program_steps hc.sound (Node.isItem_of_bare hc.bare hp) hc.names
    hc.checked hprogram
  have hpooled := hsteps.pooled (Lowering.startState_pooled ctx p'.body)
  have hdeclared := hsteps.declared (Lowering.startState_declared hc.checked hw)
  have hwords : ∀ r ∈ p'.body.flatMap Node.rooms, r.IsWorded :=
    List.forall_mem_flatMap.mpr fun n hn => (hw n hn).elim fun _ => Node.Legible.isWorded
  have hlabelled := hsteps.labelled hwords (Lowering.labelled_startState ctx p'.body)
    (Lowering.homed_startState ctx p'.body)
  have hglobals := List.filterMap_flatMap ▸ (hc.checked.nodup_globals rfl).1
  obtain ⟨hvars, hdots⟩ := hpooled.nodup_names hglobals
  have hfree : ∀ x ∈ Node.functionNames p'.body, Signature.isReserved x = false := by
    rw [← hc.names]
    intro x hx
    obtain ⟨sig, hsig, rfl⟩ := List.mem_map.mp hx
    exact hc.sound.free sig hsig
  obtain ⟨hfuncs, hnodots⟩ := hdeclared.nodup_names hc.sound (hc.names ▸ hc.sound.names)
    (Lowering.isName_of_mem_functionNames hw) hfree
  refine ⟨?_, ?_, ?_, fun t ht => hpooled.existsUnique_constant ht,
    fun g hg => hpooled.exists_string hg⟩
  · rw [Lowering.State.map_name_funcs, List.nodup_append]
    refine ⟨hfuncs, hvars, ?_⟩
    rintro x hx y hy rfl
    exact hnodots x hx (hdots x hy)
  · have hstructs : s.structs = ctx.classes.map ClassDef.ir := by
      rw [hsteps.structs, Lowering.startState_eq]
    show (s.structs.map Prod.fst).Nodup
    rw [hstructs, List.map_map]
    exact hc.sound.distinct
  · intro f hf
    obtain ⟨i, hi⟩ := List.mem_iff_getElem?.mp hf
    obtain ⟨head, hhead, rfl⟩ := Lowering.State.exists_head hi
    obtain ⟨hparams, hwords⟩ := hdeclared.params head (List.mem_of_getElem? hhead)
    exact Lowering.nodup_localNames hlabelled hi hparams hwords

/-- A global variable, a parameter and a local variable have one name, and a string is written
twice. -/
def shadowing : Text :=
  "n: int = 1; def f(n: int) -> int \x7b if (n > 0) \x7b n: int = 2; print(\"a\"); return n; \x7d " ++
  "print(\"a\"); return n; \x7d print(f(n));"

theorem shadowing_lower_names : ∃ p ctx p' m ctx' p'', Program.parse 0 shadowing = .ok p ∧
    p.analyse {} = (.ok (), ctx, p') ∧ p'.lower ctx = (.ok m, ctx', p'') ∧
    (m.funcs.map IR.Func.name ++ m.globals.map IR.Global.name).Nodup ∧
    (m.structs.map Prod.fst).Nodup ∧ (∀ f ∈ m.funcs, f.localNames.Nodup) ∧
    ∃! g, g ∈ m.globals ∧ g.isConstant = true ∧ g.init = .chars (Text.ofString "a" ++ [0]) := by
  have hok : ((Program.parse 0 shadowing).toOption.any fun p =>
      (p.analyse {}).1.isOk && (p.analyse {}).2.2.body.any (fun n => n.texts.contains "a") &&
        ((p.analyse {}).2.2.lower (p.analyse {}).2.1).1.isOk) = true := by
    decide +kernel
  rcases hp : Program.parse 0 shadowing with e | p
  · rw [hp] at hok
    cases hok
  simp only [hp, Except.toOption, Option.any_some, Bool.and_eq_true] at hok
  rcases hrun : p.analyse {} with ⟨_ | ⟨⟨⟩⟩, ctx, p'⟩
  · rw [hrun] at hok
    cases hok.1.1
  simp only [hrun, List.any_eq_true, List.contains_iff_mem] at hok
  rcases hlower : p'.lower ctx with ⟨_ | m, ctx', p''⟩
  · rw [hlower] at hok
    cases hok.2
  obtain ⟨⟨-, hmem⟩, -⟩ := hok
  obtain ⟨hnames, hstructs, hlocals, htexts, -⟩ := Program.lower_distinct_names hp hrun hlower
  exact ⟨p, ctx, p', m, ctx', p'', rfl, hrun, hlower, hnames, hstructs, hlocals,
    htexts _ (List.mem_flatMap.mpr hmem)⟩

end Augite
