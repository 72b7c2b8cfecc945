import Augite.Proofs.Tables

/-!
# Forms of members

What a member of a list, of a graph or of a class instance may be.
-/

namespace Augite

namespace Member

/-- The members of values of a type. -/
inductive Form (F : Context) : Ty → Member → Prop
  | list {k : Kind} {f : Member} : k.isScalar = true → f ∈ ofList k → Form F (.listOf k) f
  | graph {k : Kind} {f : Member} : k.isScalar = true → f ∈ ofGraph k → Form F (.graphOf k) f
  | field {d : ClassDef} {i : Nat} {p : Param} {f : Member} : F.class? d.name = some d →
      d.fields[i]? = some p → f = { name := p.name, kind := .field, result := p.type, index := i } →
      Form F (.classOf d.name) f

theorem mem_ofFields {first : Nat} {fs : List Param} {f : Member} (h : f ∈ ofFields first fs) :
    ∃ i p, fs[i]? = some p ∧
      f = { name := p.name, kind := .field, result := p.type, index := first + i } := by
  induction fs generalizing first with
  | nil => cases h
  | cons p fs ih =>
    rcases List.mem_cons.mp h with rfl | h
    · exact ⟨0, p, rfl, rfl⟩
    · obtain ⟨i, q, hq, rfl⟩ := ih h
      exact ⟨i + 1, q, hq, by rw [Nat.add_right_comm, Nat.add_assoc]⟩

theorem form_of_lookup? {F : Context} (hF : F.Sound) {t : Ty} (ht : t.InUse F)
    (hagg : t.isAggregate = true) {name : Text} {f : Member}
    (h : F.members.lookup? t name = some f) : Form F t f := by
  have hmem : f ∈ F.members.members t := List.mem_of_find?_eq_some h
  rw [MemberTable.members_eq] at hmem
  cases ht with
  | @scalar k hk => cases k <;> cases hk <;> cases hagg
  | list hk he =>
    rw [he] at hmem
    exact .list hk hmem
  | graph hk he =>
    rw [he] at hmem
    exact .graph hk hmem
  | @class_ d hd =>
    rw [Ty.name_classOf, hF.members d (Context.mem_of_class? hd).1] at hmem
    obtain ⟨i, p, hp, rfl⟩ := mem_ofFields hmem
    exact .field hd hp (by rw [Nat.zero_add])

namespace Form

variable {F : Context} {t : Ty} {f : Member}

/-- A field has no parameters. -/
theorem params_of_field (h : Form F t f) (hf : f.kind = .field) : f.params = [] := by
  cases h with
  | list hk hm =>
    simp only [ofList, List.mem_cons, List.not_mem_nil, or_false] at hm
    rcases hm with rfl | rfl | rfl | rfl | rfl <;> first | rfl | cases hf
  | graph hk hm =>
    simp only [ofGraph, List.mem_cons, List.not_mem_nil, or_false] at hm
    rcases hm with rfl | rfl | rfl | rfl | rfl | rfl <;> first | rfl | cases hf
  | field hd hp heq =>
    rw [heq]

theorem params_inUse (h : Form F t f) : ∀ p ∈ f.params, p.InUse F := by
  have hint : Ty.InUse F .int := .scalar (k := .int) rfl
  cases h with
  | list hk hm =>
    simp only [ofList, List.mem_cons, List.not_mem_nil, or_false] at hm
    rcases hm with rfl | rfl | rfl | rfl | rfl <;> simp [size, runtimeMethod, hint, Ty.InUse.scalar hk]
  | graph hk hm =>
    simp only [ofGraph, List.mem_cons, List.not_mem_nil, or_false] at hm
    rcases hm with rfl | rfl | rfl | rfl | rfl | rfl <;> simp [size, runtimeMethod, Ty.InUse.scalar hk]
  | field hd hp heq =>
    subst heq
    exact fun p hp => absurd hp List.not_mem_nil

/-- A field of a class holds a value. -/
theorem result_of_class (hF : F.Sound) (h : Form F t f) (hclass : t.kind = .class_) :
    f.result.InUse F := by
  cases h with
  | list | graph => cases hclass
  | field hd hp heq =>
    obtain ⟨k, hk, htype⟩ :=
      (hF.classes _ (Context.mem_of_class? hd).1).scalar _ (List.mem_of_getElem? hp)
    subst heq
    exact htype ▸ .scalar hk

theorem result_inUse (hF : F.Sound) (h : Form F t f) : f.result.InUse F ∨ f.result = .void := by
  have hint : Ty.InUse F .int := .scalar (k := .int) rfl
  have hbool : Ty.InUse F .bool := .scalar (k := .bool) rfl
  cases h with
  | list hk hm =>
    simp only [ofList, List.mem_cons, List.not_mem_nil, or_false] at hm
    rcases hm with rfl | rfl | rfl | rfl | rfl <;>
      simp [size, runtimeMethod, hint, Ty.InUse.scalar hk]
  | graph hk hm =>
    simp only [ofGraph, List.mem_cons, List.not_mem_nil, or_false] at hm
    rcases hm with rfl | rfl | rfl | rfl | rfl | rfl <;>
      simp [size, runtimeMethod, hint, hbool]
  | field hd hp heq => exact .inl (result_of_class hF (.field hd hp heq) rfl)

end Form

end Member

end Augite
