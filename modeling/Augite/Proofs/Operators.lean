import Augite.Proofs.Typing
import Augite.Lowering.Expression

/-!
# Forms of operators

What an operator does follows from the types of its operands: the operator tables allow
the forms listed here and no others. An expression has a type that values may have, or
none at all.
-/

namespace Augite

/-- Ints and floats. -/
def Ty.IsNumeric (t : Ty) : Prop := t = .int ∨ t = .float

/-- The forms of `left op right` and the type it yields. -/
inductive BinaryOp.Form (op : BinaryOp) : Ty → Ty → Ty → Prop
  | floatArith {a : IR.Arith} {lt rt : Ty} : op.floatArith? = some a → lt.IsNumeric →
      rt.IsNumeric → lt = .float ∨ rt = .float → Form op lt rt .float
  | intArith {a : IR.Arith} : op.intArith? = some a → Form op .int .int .int
  | floatTest {lt rt : Ty} : op.isComparison = true → lt.IsNumeric → rt.IsNumeric →
      lt = .float ∨ rt = .float → Form op lt rt .bool
  | intTest : op.isComparison = true → Form op .int .int .bool
  | charTest : op.isComparison = true → Form op .char .char .bool
  | boolTest : op = .eq ∨ op = .ne → Form op .bool .bool .bool
  | stringTest : op = .eq ∨ op = .ne → Form op .string .string .bool
  | logic : op = .and ∨ op = .or → Form op .bool .bool .bool

namespace BinaryOp

/-- The kinds that arithmetic takes. -/
theorem form_of_arithmetic? {op : BinaryOp} {l r k : Kind} (hl : l.isScalar = true)
    (hr : r.isScalar = true) (hop : op = .add ∨ op = .sub ∨ op = .mul ∨ op = .div)
    (h : arithmetic? l r = some k) : op.Form (.scalar l) (.scalar r) (.scalar k) := by
  have hint : ∃ a, op.intArith? = some a := by rcases hop with rfl | rfl | rfl | rfl <;> exact ⟨_, rfl⟩
  have hfloat : ∃ a, op.floatArith? = some a := by
    rcases hop with rfl | rfl | rfl | rfl <;> exact ⟨_, rfl⟩
  obtain ⟨i, hi⟩ := hint
  obtain ⟨f, hf⟩ := hfloat
  cases l <;> cases hl <;> cases r <;> cases hr <;> cases h
  · exact .intArith hi
  · exact .floatArith hf (.inl rfl) (.inr rfl) (.inr rfl)
  · exact .floatArith hf (.inr rfl) (.inl rfl) (.inl rfl)
  · exact .floatArith hf (.inr rfl) (.inr rfl) (.inl rfl)

/-- The kinds that comparisons for order take. -/
theorem form_of_order {op : BinaryOp} {l r k : Kind} (hl : l.isScalar = true)
    (hr : r.isScalar = true) (hop : op.isComparison = true)
    (h : (if comparable (fun k => k == .char) l r then some Kind.bool else none) = some k) :
    op.Form (.scalar l) (.scalar r) (.scalar k) := by
  cases l <;> cases hl <;> cases r <;> cases hr <;> cases h
  · exact .intTest hop
  · exact .floatTest hop (.inl rfl) (.inr rfl) (.inr rfl)
  · exact .floatTest hop (.inr rfl) (.inl rfl) (.inl rfl)
  · exact .floatTest hop (.inr rfl) (.inr rfl) (.inl rfl)
  · exact .charTest hop

/-- The kinds that comparisons for being equal take. -/
theorem form_of_equality {op : BinaryOp} {l r k : Kind} (hl : l.isScalar = true)
    (hr : r.isScalar = true) (hop : op = .eq ∨ op = .ne)
    (h : (if comparable (fun k => k == .char || k == .bool || k == .string) l r then
      some Kind.bool else none) = some k) :
    op.Form (.scalar l) (.scalar r) (.scalar k) := by
  have hcmp : op.isComparison = true := by rcases hop with rfl | rfl <;> rfl
  cases l <;> cases hl <;> cases r <;> cases hr <;> cases h
  · exact .intTest hcmp
  · exact .floatTest hcmp (.inl rfl) (.inr rfl) (.inr rfl)
  · exact .floatTest hcmp (.inr rfl) (.inl rfl) (.inl rfl)
  · exact .floatTest hcmp (.inr rfl) (.inr rfl) (.inl rfl)
  · exact .charTest hcmp
  · exact .stringTest hop
  · exact .boolTest hop

theorem form_of_resultType? {op : BinaryOp} {l r : Kind} {t : Ty} (hl : l.isScalar = true)
    (hr : r.isScalar = true) (h : op.resultType? (.scalar l) (.scalar r) = some t) :
    op.Form (.scalar l) (.scalar r) t := by
  simp only [resultType?, Ty.scalar, hl, hr, Bool.and_self, if_true, Option.map_eq_some_iff] at h
  obtain ⟨k, hk, rfl⟩ := h
  cases op with
  | add => exact form_of_arithmetic? hl hr (by simp) hk
  | sub => exact form_of_arithmetic? hl hr (by simp) hk
  | mul => exact form_of_arithmetic? hl hr (by simp) hk
  | div => exact form_of_arithmetic? hl hr (by simp) hk
  | rem =>
    simp only [resultKind?] at hk
    split at hk
    · rename_i hint
      obtain ⟨rfl, rfl⟩ := hint
      cases hk
      exact .intArith rfl
    · cases hk
  | lt => exact form_of_order hl hr rfl hk
  | le => exact form_of_order hl hr rfl hk
  | gt => exact form_of_order hl hr rfl hk
  | ge => exact form_of_order hl hr rfl hk
  | eq => exact form_of_equality hl hr (by simp) hk
  | ne => exact form_of_equality hl hr (by simp) hk
  | and =>
    simp only [resultKind?] at hk
    split at hk
    · rename_i hbool
      obtain ⟨rfl, rfl⟩ := hbool
      cases hk
      exact .logic (by simp)
    · cases hk
  | or =>
    simp only [resultKind?] at hk
    split at hk
    · rename_i hbool
      obtain ⟨rfl, rfl⟩ := hbool
      cases hk
      exact .logic (by simp)
    · cases hk
  | other s => cases hk

end BinaryOp

/-- The forms of `op operand`. -/
inductive UnaryOp.Form : UnaryOp → Ty → Prop
  | negInt : Form .neg .int
  | negFloat : Form .neg .float
  | not : Form .not .bool

theorem UnaryOp.form_of_resultType? {op : UnaryOp} {xt t : Ty} (h : op.resultType? xt = some t) :
    t = xt ∧ op.Form xt := by
  cases op with
  | neg =>
    simp only [resultType?] at h
    split at h
    · rename_i hnum
      cases h
      rcases hnum with rfl | rfl
      · exact ⟨rfl, .negInt⟩
      · exact ⟨rfl, .negFloat⟩
    · cases h
  | not =>
    simp only [resultType?] at h
    split at h
    · rename_i hbool
      cases h
      subst hbool
      exact ⟨rfl, .not⟩
    · cases h
  | other s => cases h

namespace Typing

/-- The operands of an operator have scalar types. -/
theorem scalar_of_binary {op : BinaryOp} {lt rt t : Ty} (h : op.resultType? lt rt = some t) :
    lt.kind.isScalar = true ∧ rt.kind.isScalar = true ∧
      ∃ k : Kind, k.isScalar = true ∧ t = .scalar k := by
  unfold BinaryOp.resultType? at h
  split at h
  · rename_i hscalar
    obtain ⟨hl, hr⟩ := Bool.and_eq_true_iff.mp hscalar
    obtain ⟨k, hk, rfl⟩ := Option.map_eq_some_iff.mp h
    refine ⟨hl, hr, k, ?_, rfl⟩
    cases op with
    | other s => cases hk
    | _ =>
      simp only [BinaryOp.resultKind?, BinaryOp.arithmetic?] at hk
      split at hk
      · cases hk
        first | rfl | (split <;> rfl)
      · cases hk
  · cases h

/-- The types of expressions. -/
theorem HasType.inUse {F : Context} (hF : F.Sound) {Γ : Environment}
    (hΓ : ∀ name d k, Γ.resolve? name = some (d, k) → d.type.InUse F) {n : Node} {t : Ty}
    (h : HasType F Γ n t) : t.InUse F ∨ t = .void := by
  cases h with
  | int | float | char | string | bool => exact .inl (.scalar rfl)
  | var h =>
    obtain ⟨k, hk, -⟩ := h.found
    exact .inl (hΓ _ _ k hk)
  | binary _ _ h _ =>
    obtain ⟨-, -, k, hk, rfl⟩ := scalar_of_binary h
    exact .inl (.scalar hk)
  | unary _ h _ =>
    obtain ⟨rfl, hform⟩ := UnaryOp.form_of_resultType? h
    cases hform <;> exact .inl (.scalar rfl)
  | call h _ _ => exact hF.results _ (FuncTable.mem_of_lookup? h).1
  | dot h _ =>
    obtain ⟨k, hk, -⟩ := h.receiver.found
    exact (Member.form_of_lookup? hF (hΓ _ _ k hk) h.aggregate h.member).result_inUse hF

/-- A type in use that is a scalar. -/
theorem scalar_of_inUse {F : Context} {t : Ty} (ht : t.InUse F ∨ t = .void)
    (h : t.kind.isScalar = true) : t = .scalar t.kind := by
  rcases ht with ht | rfl
  · cases ht with
    | scalar => rfl
    | list | graph | class_ => cases h
  · cases h

theorem form_of_binary {F : Context} {op : BinaryOp} {lt rt t : Ty} (hl : lt.InUse F ∨ lt = .void)
    (hr : rt.InUse F ∨ rt = .void) (h : op.resultType? lt rt = some t) : op.Form lt rt t := by
  obtain ⟨hls, hrs, -⟩ := scalar_of_binary h
  have hlt := scalar_of_inUse hl hls
  have hrt := scalar_of_inUse hr hrs
  rw [hlt, hrt] at h ⊢
  exact BinaryOp.form_of_resultType? hls hrs h

/-- A type takes itself, and float takes int. -/
theorem eq_of_accepts {target source : Ty} (h : target.accepts source = true) :
    target = source ∨ (target = .float ∧ source = .int) := by
  unfold Ty.accepts at h
  split at h
  · cases h
  · simpa using h

end Typing

end Augite
