import Augite.Proofs.Scopes
import Augite.Proofs.Shape
import Augite.Context

/-!
# Tables of a context

What an analysis enters into a context stays there: tables only grow. A sound context has
for every class exactly its fields as members, for every list and graph type met so far
the members of that type, and functions over types that are in use.
-/

namespace Augite

/-! ### Names of types -/

theorem Text.IsWord.no_angle {t : Text} (h : t.IsWord) : byte '<' ∉ t := by
  intro hmem
  exact absurd (h _ hmem) (by decide)

namespace Ty

theorem angle_mem_name_listOf (k : Kind) : byte '<' ∈ (listOf k).name := by
  have h : (listOf k).name = Text.ofString "list<" ++ (k.name ++ Text.ofString ">") := by
    simp only [listOf, name, Kind.name, List.append_assoc]
    rfl
  rw [h]
  exact List.mem_append_left _ (by decide)

theorem angle_mem_name_graphOf (k : Kind) : byte '<' ∈ (graphOf k).name := by
  have h : (graphOf k).name = Text.ofString "graph<" ++ (k.name ++ Text.ofString ">") := by
    simp only [graphOf, name, Kind.name, List.append_assoc]
    rfl
  rw [h]
  exact List.mem_append_left _ (by decide)

theorem name_listOf_inj {j k : Kind} (hj : j.isScalar = true) (hk : k.isScalar = true)
    (h : (listOf j).name = (listOf k).name) : j = k := by
  cases j <;> cases hj <;> cases k <;> cases hk <;> revert h <;> decide

theorem name_graphOf_inj {j k : Kind} (hj : j.isScalar = true) (hk : k.isScalar = true)
    (h : (graphOf j).name = (graphOf k).name) : j = k := by
  cases j <;> cases hj <;> cases k <;> cases hk <;> revert h <;> decide

theorem name_listOf_ne_graphOf {j k : Kind} (hj : j.isScalar = true) (hk : k.isScalar = true) :
    (listOf j).name ≠ (graphOf k).name := by
  cases j <;> cases hj <;> cases k <;> cases hk <;> decide

theorem name_classOf (c : Text) : (classOf c).name = c := rfl

end Ty

/-! ### Member tables -/

namespace MemberTable

/-- The members under a type name, if it has an entry. -/
def listed? (t : MemberTable) (key : Text) : Option (List Member) := t.entries.lookup key

theorem lookup_alter (key name : Text) (f : List Member → List Member)
    (es : List (Text × List Member)) :
    (alter key f es).lookup name =
      if name = key then some (f ((es.lookup key).getD [])) else es.lookup name := by
  induction es with
  | nil =>
    simp only [alter, Frame.lookup_cons, List.lookup_nil, Option.getD_none]
  | cons e es ih =>
    obtain ⟨k, ms⟩ := e
    simp only [alter]
    split
    · rename_i hk
      subst hk
      simp only [Frame.lookup_cons]
      split <;> simp_all
    · rename_i hk
      simp only [Frame.lookup_cons, ih]
      split
      · simp_all
      · rw [if_neg (Ne.symm hk)]

theorem listed?_add (t : MemberTable) (key name : Text) (ms : List Member) :
    (t.add key ms).listed? name =
      if name = key then
        some (ms.foldl (fun acc m => m.insert acc) ((t.listed? key).getD []))
      else t.listed? name :=
  lookup_alter key name _ t.entries

theorem insert_eq_append {m : Member} {ms : List Member} (h : ∀ x ∈ ms, x.name ≠ m.name) :
    m.insert ms = ms ++ [m] := by
  induction ms with
  | nil => rfl
  | cons x xs ih =>
    rw [Member.insert, if_neg (h x List.mem_cons_self),
      ih fun y hy => h y (List.mem_cons_of_mem _ hy), List.cons_append]

/-- Members of distinct names are added in their order. -/
theorem foldl_insert {ms acc : List Member} (h : ((acc ++ ms).map Member.name).Nodup) :
    ms.foldl (fun acc m => m.insert acc) acc = acc ++ ms := by
  induction ms generalizing acc with
  | nil => simp
  | cons m ms ih =>
    have hne : ∀ x ∈ acc, x.name ≠ m.name := by
      intro x hx heq
      rw [List.map_append, List.nodup_append] at h
      exact h.2.2 x.name (List.mem_map_of_mem hx) m.name (by simp) heq
    rw [List.foldl_cons, insert_eq_append hne, ih (by simpa using h), List.append_assoc]
    rfl

theorem listed?_add_fresh {t : MemberTable} {key : Text} {ms : List Member}
    (h : t.listed? key = none) (hms : (ms.map Member.name).Nodup) (name : Text) :
    (t.add key ms).listed? name = if name = key then some ms else t.listed? name := by
  rw [listed?_add, h]
  simp only [Option.getD_none]
  rw [foldl_insert (by simpa using hms), List.nil_append]

theorem nodup_ofList (k : Kind) : ((Member.ofList k).map Member.name).Nodup := by
  simp only [Member.ofList, Member.runtimeMethod, Member.size, List.map_cons, List.map_nil]
  decide

theorem nodup_ofGraph (k : Kind) : ((Member.ofGraph k).map Member.name).Nodup := by
  simp only [Member.ofGraph, Member.runtimeMethod, Member.size, List.map_cons, List.map_nil]
  decide

theorem map_name_ofFields (first : Nat) (fs : List Param) :
    (Member.ofFields first fs).map Member.name = fs.map Param.name := by
  induction fs generalizing first with
  | nil => rfl
  | cons f fs ih => simp only [Member.ofFields, List.map_cons, ih]

theorem listed?_addOnce (t : MemberTable) {key : Text} {ms : List Member}
    (hms : (ms.map Member.name).Nodup) (name : Text) :
    (t.addOnce key ms).listed? name =
      if name = key ∧ t.listed? key = none then some ms else t.listed? name := by
  unfold addOnce
  rcases h : t.listed? key with _ | old
  · rw [if_neg (by rw [← listed?, h]; simp), listed?_add_fresh h hms]
    simp
  · rw [if_pos (by rw [← listed?, h]; simp), if_neg (by simp)]

theorem listed?_registerClass {t : MemberTable} {name : Text} {fields : List Param}
    (h : t.listed? name = none) (hf : (fields.map Param.name).Nodup) (key : Text) :
    (t.registerClass name fields).listed? key =
      if key = name then some (Member.ofFields 0 fields) else t.listed? key := by
  unfold registerClass
  cases fields with
  | nil => exact lookup_alter name key _ t.entries
  | cons f fs =>
    rw [List.isEmpty_cons, if_neg (by decide)]
    exact listed?_add_fresh h (by rw [map_name_ofFields]; exact hf) key

theorem members_eq (t : MemberTable) (type : Ty) : t.members type = (t.listed? type.name).getD [] :=
  rfl

end MemberTable

/-! ### Growth -/

/-- What the tables of a context hold is in the tables of the other. -/
structure Context.Extends (c d : Context) : Prop where
  funcs : ∀ name sig, c.funcs.lookup? name = some sig → d.funcs.lookup? name = some sig
  classes : ∀ name k, c.class? name = some k → d.class? name = some k
  members : ∀ key ms, c.members.listed? key = some ms → d.members.listed? key = some ms

namespace Context.Extends

variable {c d e : Context}

theorem refl (c : Context) : c.Extends c :=
  ⟨fun _ _ h => h, fun _ _ h => h, fun _ _ h => h⟩

theorem trans (h : c.Extends d) (k : d.Extends e) : c.Extends e where
  funcs name sig hs := k.funcs name sig (h.funcs name sig hs)
  classes name x hx := k.classes name x (h.classes name x hx)
  members key ms hms := k.members key ms (h.members key ms hms)

/-- A member that is found stays the one that is found. -/
theorem lookup? (h : c.Extends d) {t : Ty} {name : Text} {m : Member}
    (hm : c.members.lookup? t name = some m) : d.members.lookup? t name = some m := by
  unfold MemberTable.lookup? at hm ⊢
  rw [MemberTable.members_eq] at hm ⊢
  rcases he : c.members.listed? t.name with _ | ms
  · rw [he] at hm
    cases hm
  · rw [h.members _ _ he]
    rw [he] at hm
    exact hm

end Context.Extends

/-- The types that values may have in a context: scalars, lists and graphs whose members
are known, and classes that exist. -/
inductive Ty.InUse (c : Context) : Ty → Prop
  | scalar {k : Kind} : k.isScalar = true → InUse c (.scalar k)
  | list {k : Kind} : k.isScalar = true →
      c.members.listed? (Ty.listOf k).name = some (Member.ofList k) → InUse c (.listOf k)
  | graph {k : Kind} : k.isScalar = true →
      c.members.listed? (Ty.graphOf k).name = some (Member.ofGraph k) → InUse c (.graphOf k)
  | class_ {d : ClassDef} : c.class? d.name = some d → InUse c (.classOf d.name)

namespace Ty.InUse

variable {c d : Context} {t : Ty}

theorem mono (ht : t.InUse c) (h : c.Extends d) : t.InUse d := by
  cases ht with
  | scalar hk => exact .scalar hk
  | list hk hm => exact .list hk (h.members _ _ hm)
  | graph hk hm => exact .graph hk (h.members _ _ hm)
  | class_ hd => exact .class_ (h.classes _ _ hd)

theorem ne_unresolved (ht : t.InUse c) : t.kind ≠ .unresolved := by
  cases ht with
  | @scalar k hk => cases k <;> cases hk <;> exact nofun
  | list | graph | class_ => exact nofun

end Ty.InUse

/-! ### Sound contexts -/

structure ClassDef.Sound (d : ClassDef) : Prop where
  word : d.name.IsWord
  nodup : (d.fields.map Param.name).Nodup
  scalar : ∀ f ∈ d.fields, ∃ k : Kind, k.isScalar = true ∧ f.type = .scalar k

structure Context.Sound (c : Context) : Prop where
  classes : ∀ d ∈ c.classes, d.Sound
  distinct : (c.classes.map ClassDef.name).Nodup
  members : ∀ d ∈ c.classes, c.members.listed? d.name = some (Member.ofFields 0 d.fields)
  /-- A word with members is the name of a class. -/
  keys : ∀ key ms, c.members.listed? key = some ms → key.IsWord → ∃ d ∈ c.classes, d.name = key
  /-- Any other name with members is that of a list or graph type. -/
  kinds : ∀ key ms, c.members.listed? key = some ms → key.IsWord ∨
    ∃ k : Kind, k.isScalar = true ∧ (key = (Ty.listOf k).name ∨ key = (Ty.graphOf k).name)
  lists : ∀ k ms, k.isScalar = true → c.members.listed? (Ty.listOf k).name = some ms →
    ms = Member.ofList k
  graphs : ∀ k ms, k.isScalar = true → c.members.listed? (Ty.graphOf k).name = some ms →
    ms = Member.ofGraph k
  params : ∀ sig ∈ c.funcs.entries, ∀ t ∈ sig.params, t.InUse c
  results : ∀ sig ∈ c.funcs.entries, sig.result.InUse c ∨ sig.result = .void
  names : c.funcs.names.Nodup
  free : ∀ sig ∈ c.funcs.entries, Signature.isReserved sig.name = false

namespace Context

theorem mem_of_class? {c : Context} {name : Text} {d : ClassDef} (h : c.class? name = some d) :
    d ∈ c.classes ∧ d.name = name :=
  ⟨List.mem_of_find?_eq_some h, by simpa using List.find?_some h⟩

namespace Sound

variable {c d : Context}

theorem empty : Sound {} where
  classes := nofun
  distinct := .nil
  members := nofun
  keys := nofun
  kinds := nofun
  lists := nofun
  graphs := nofun
  params := nofun
  results := nofun
  names := .nil
  free := nofun

/-- Soundness looks at the tables only. -/
theorem congr (h : c.Sound) (hf : d.funcs = c.funcs) (hm : d.members = c.members)
    (hc : d.classes = c.classes) : d.Sound := by
  have hext : c.Extends d :=
    ⟨fun _ _ hs => hf ▸ hs, fun _ _ hs => by unfold class?; rw [hc]; exact hs,
      fun _ _ hs => hm ▸ hs⟩
  exact
    { classes := hc ▸ h.classes
      distinct := hc ▸ h.distinct
      members := hc ▸ hm ▸ h.members
      keys := hc ▸ hm ▸ h.keys
      kinds := hm ▸ h.kinds
      lists := hm ▸ h.lists
      graphs := hm ▸ h.graphs
      params := by
        rw [hf]
        exact fun sig hs t ht => (h.params sig hs t ht).mono hext
      results := by
        rw [hf]
        exact fun sig hs => (h.results sig hs).imp_left fun ht => ht.mono hext
      names := hf ▸ h.names
      free := hf ▸ h.free }

/-- More members under names that are no words, and unchanged ones elsewhere. -/
theorem withMembers (h : c.Sound) {t : MemberTable}
    (hext : ∀ key ms, c.members.listed? key = some ms → t.listed? key = some ms)
    (hkeys : ∀ key ms, t.listed? key = some ms → key.IsWord → c.members.listed? key = some ms)
    (hkinds : ∀ key ms, t.listed? key = some ms → key.IsWord ∨
      ∃ k : Kind, k.isScalar = true ∧ (key = (Ty.listOf k).name ∨ key = (Ty.graphOf k).name))
    (hlists : ∀ k ms, k.isScalar = true → t.listed? (Ty.listOf k).name = some ms →
      ms = Member.ofList k)
    (hgraphs : ∀ k ms, k.isScalar = true → t.listed? (Ty.graphOf k).name = some ms →
      ms = Member.ofGraph k) :
    Sound { c with members := t } ∧ c.Extends { c with members := t } := by
  have ext : c.Extends { c with members := t } := ⟨fun _ _ h => h, fun _ _ h => h, hext⟩
  refine ⟨?_, ext⟩
  exact
    { classes := h.classes
      distinct := h.distinct
      members := fun d hd => hext _ _ (h.members d hd)
      keys := fun key ms hms hw => h.keys key ms (hkeys key ms hms hw) hw
      kinds := hkinds
      lists := hlists
      graphs := hgraphs
      params := fun sig hs t ht => (h.params sig hs t ht).mono ext
      results := fun sig hs => (h.results sig hs).imp_left fun ht => ht.mono ext
      names := h.names
      free := h.free }

/-- The members of a list or graph type, entered once under the name of the type. -/
theorem addOnce (h : c.Sound) {key : Text} {ms : List Member} (hms : (ms.map Member.name).Nodup)
    (hangle : byte '<' ∈ key)
    (hkey : ∃ k : Kind, k.isScalar = true ∧ (key = (Ty.listOf k).name ∨ key = (Ty.graphOf k).name))
    (hlist : ∀ k : Kind, k.isScalar = true → (Ty.listOf k).name = key → ms = Member.ofList k)
    (hgraph : ∀ k : Kind, k.isScalar = true → (Ty.graphOf k).name = key → ms = Member.ofGraph k)
    (hold : ∀ old, c.members.listed? key = some old → old = ms) :
    let e : Context := { c with members := c.members.addOnce key ms }
    Sound e ∧ c.Extends e ∧ e.members.listed? key = some ms := by
  have entry : ∀ name, (c.members.addOnce key ms).listed? name =
      if name = key ∧ c.members.listed? key = none then some ms else c.members.listed? name :=
    c.members.listed?_addOnce hms
  obtain ⟨hs, hext⟩ := h.withMembers (t := c.members.addOnce key ms)
    (by
      intro name old hname
      rw [entry, if_neg]
      · exact hname
      · rintro ⟨rfl, hnone⟩
        rw [hnone] at hname
        cases hname)
    (by
      intro name old hname hw
      rw [entry, if_neg] at hname
      · exact hname
      · rintro ⟨rfl, -⟩
        exact hw.no_angle hangle)
    (by
      intro name old hname
      rw [entry] at hname
      split at hname
      · rename_i heq
        exact .inr (heq.1 ▸ hkey)
      · exact h.kinds name old hname)
    (by
      intro k old hk hname
      rw [entry] at hname
      split at hname
      · rename_i heq
        cases hname
        exact hlist k hk heq.1
      · exact h.lists k old hk hname)
    (by
      intro k old hk hname
      rw [entry] at hname
      split at hname
      · rename_i heq
        cases hname
        exact hgraph k hk heq.1
      · exact h.graphs k old hk hname)
  refine ⟨hs, hext, ?_⟩
  change (c.members.addOnce key ms).listed? key = _
  rcases he : c.members.listed? key with _ | old
  · rw [entry, if_pos ⟨rfl, he⟩]
  · rw [hext.members _ _ he, hold old he]

theorem registerList (h : c.Sound) {k : Kind} (hk : k.isScalar = true) :
    let e : Context := { c with members := c.members.registerList k }
    Sound e ∧ c.Extends e ∧ (Ty.listOf k).InUse e := by
  obtain ⟨hs, hext, hentry⟩ := h.addOnce (MemberTable.nodup_ofList k) (Ty.angle_mem_name_listOf k)
    ⟨k, hk, .inl rfl⟩ (fun j hj heq => by rw [Ty.name_listOf_inj hj hk heq])
    (fun j hj heq => absurd heq.symm (Ty.name_listOf_ne_graphOf hk hj)) fun ms hms => h.lists k ms hk hms
  exact ⟨hs, hext, .list hk hentry⟩

theorem registerGraph (h : c.Sound) {k : Kind} (hk : k.isScalar = true) :
    let e : Context := { c with members := c.members.registerGraph k }
    Sound e ∧ c.Extends e ∧ (Ty.graphOf k).InUse e := by
  obtain ⟨hs, hext, hentry⟩ := h.addOnce (MemberTable.nodup_ofGraph k)
    (Ty.angle_mem_name_graphOf k) ⟨k, hk, .inr rfl⟩ (fun j hj heq => absurd heq (Ty.name_listOf_ne_graphOf hj hk))
    (fun j hj heq => by rw [Ty.name_graphOf_inj hj hk heq]) fun ms hms => h.graphs k ms hk hms
  exact ⟨hs, hext, .graph hk hentry⟩

theorem addClass (h : c.Sound) {k : ClassDef} (hk : k.Sound) (hadd : c.addClass? k = some d) :
    d.Sound ∧ c.Extends d := by
  unfold addClass? at hadd
  split at hadd
  · cases hadd
  rename_i hnew
  cases hadd
  have hnone : c.class? k.name = none := by simpa using hnew
  have hfresh : c.members.listed? k.name = none := by
    rcases he : c.members.listed? k.name with _ | ms
    · rfl
    · obtain ⟨d, hd, hname⟩ := h.keys _ _ he hk.word
      exact absurd hname (by simpa using List.find?_eq_none.mp hnone d hd)
  have entry := MemberTable.listed?_registerClass hfresh hk.nodup
  have ext : c.Extends
      { c with
        classes := c.classes ++ [k]
        members := c.members.registerClass k.name k.fields } := by
    refine ⟨fun _ _ hs => hs, ?_, ?_⟩
    · intro name x hx
      unfold class? at hx ⊢
      rw [List.find?_append, hx]
      rfl
    · intro key ms hms
      change (c.members.registerClass k.name k.fields).listed? key = _
      rw [entry, if_neg]
      · exact hms
      · rintro rfl
        rw [hfresh] at hms
        cases hms
  have noWord : ∀ name, (byte '<') ∈ name → name ≠ k.name := by
    rintro name hname rfl
    exact hk.word.no_angle hname
  refine ⟨?_, ext⟩
  exact
    { classes := by
        intro x hx
        rcases List.mem_append.mp hx with hx | hx
        · exact h.classes x hx
        · cases List.mem_singleton.mp hx
          exact hk
      distinct := by
        rw [List.map_append, List.nodup_append]
        refine ⟨h.distinct, List.nodup_singleton _, ?_⟩
        intro a ha b hb hab
        cases List.mem_singleton.mp hb
        obtain ⟨x, hx, rfl⟩ := List.mem_map.mp ha
        exact absurd hab (by simpa using List.find?_eq_none.mp hnone x hx)
      members := by
        intro x hx
        change (c.members.registerClass k.name k.fields).listed? x.name = _
        rcases List.mem_append.mp hx with hx | hx
        · exact ext.members _ _ (h.members x hx)
        · cases List.mem_singleton.mp hx
          rw [entry, if_pos rfl]
      keys := by
        intro key ms hms hw
        change (c.members.registerClass k.name k.fields).listed? key = _ at hms
        rw [entry] at hms
        split at hms
        · rename_i heq
          exact ⟨k, List.mem_append_right _ (List.mem_singleton.mpr rfl), heq.symm⟩
        · obtain ⟨x, hx, hname⟩ := h.keys key ms hms hw
          exact ⟨x, List.mem_append_left _ hx, hname⟩
      kinds := by
        intro key ms hms
        change (c.members.registerClass k.name k.fields).listed? key = _ at hms
        rw [entry] at hms
        split at hms
        · rename_i heq
          exact .inl (heq ▸ hk.word)
        · exact h.kinds key ms hms
      lists := by
        intro j ms hj hms
        change (c.members.registerClass k.name k.fields).listed? _ = _ at hms
        rw [entry, if_neg (noWord _ (Ty.angle_mem_name_listOf j))] at hms
        exact h.lists j ms hj hms
      graphs := by
        intro j ms hj hms
        change (c.members.registerClass k.name k.fields).listed? _ = _ at hms
        rw [entry, if_neg (noWord _ (Ty.angle_mem_name_graphOf j))] at hms
        exact h.graphs j ms hj hms
      params := fun sig hs t ht => (h.params sig hs t ht).mono ext
      results := fun sig hs => (h.results sig hs).imp_left fun ht => ht.mono ext
      names := h.names
      free := h.free }

end Sound

end Context

/-! ### Function tables -/

namespace FuncTable

theorem mem_of_lookup? {t : FuncTable} {name : Text} {sig : Signature}
    (h : t.lookup? name = some sig) : sig ∈ t.entries ∧ sig.name = name :=
  ⟨List.mem_of_find?_eq_some h, by simpa using List.find?_some h⟩

theorem add_ok {t u : FuncTable} {pos : Position} {sig : Signature}
    (h : t.add pos sig = .ok u) :
    t.lookup? sig.name = none ∧ Signature.isReserved sig.name = false ∧
      u = { entries := t.entries ++ [sig] } := by
  unfold add at h
  split at h
  · cases h
  · rename_i hnew
    cases h
    simpa using hnew

end FuncTable

namespace Context.Sound

variable {c : Context}

/-- The parameters of a function have types that values may have. -/
theorem params_of_lookup (h : c.Sound) {name : Text} {ps : List Param} {result : Ty}
    (hl : c.funcs.lookup? name = some ⟨name, ps.map Param.type, result⟩) :
    ∀ p ∈ ps, p.type.InUse c := by
  intro p hp
  exact h.params _ (FuncTable.mem_of_lookup? hl).1 p.type (List.mem_map_of_mem hp)

theorem addFunction (h : c.Sound) {sig : Signature} (hnew : c.funcs.lookup? sig.name = none)
    (hfree : Signature.isReserved sig.name = false)
    (hparams : ∀ t ∈ sig.params, t.InUse c) (hresult : sig.result.InUse c ∨ sig.result = .void) :
    let d : Context := { c with funcs := { entries := c.funcs.entries ++ [sig] } }
    d.Sound ∧ c.Extends d ∧ d.funcs.lookup? sig.name = some sig := by
  have ext : c.Extends { c with funcs := { entries := c.funcs.entries ++ [sig] } } := by
    refine ⟨?_, fun _ _ hs => hs, fun _ _ hs => hs⟩
    intro name s hs
    unfold FuncTable.lookup? at hs ⊢
    rw [List.find?_append, hs]
    rfl
  refine ⟨?_, ext, ?_⟩
  · exact
      { classes := h.classes
        distinct := h.distinct
        members := h.members
        keys := h.keys
        kinds := h.kinds
        lists := h.lists
        graphs := h.graphs
        params := by
          intro s hs t ht
          rcases List.mem_append.mp hs with hs | hs
          · exact (h.params s hs t ht).mono ext
          · cases List.mem_singleton.mp hs
            exact (hparams t ht).mono ext
        results := by
          intro s hs
          rcases List.mem_append.mp hs with hs | hs
          · exact (h.results s hs).imp_left fun ht => ht.mono ext
          · cases List.mem_singleton.mp hs
            exact hresult.imp_left fun ht => ht.mono ext
        names := by
          unfold FuncTable.names
          rw [List.map_append, List.nodup_append]
          refine ⟨h.names, List.nodup_singleton _, ?_⟩
          intro a ha b hb hab
          cases List.mem_singleton.mp hb
          obtain ⟨s, hs, rfl⟩ := List.mem_map.mp ha
          exact absurd hab (by simpa using List.find?_eq_none.mp hnew s hs)
        free := by
          intro s hs
          rcases List.mem_append.mp hs with hs | hs
          · exact h.free s hs
          · cases List.mem_singleton.mp hs
            exact hfree }
  · unfold FuncTable.lookup? at hnew ⊢
    rw [List.find?_append, hnew]
    simp

end Context.Sound

end Augite
