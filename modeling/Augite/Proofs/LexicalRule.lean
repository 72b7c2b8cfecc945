import Mathlib
import Augite.Tree.Basic
import Augite.Scope.Variables
import Augite.Proofs.InnerScopes

/-!
# The lexical rule

A history lists what happens to names on the way through a program: blocks are opened and
closed, variables are declared, assigned to, looked up and read. The rule says which
declaration a name stands for at the end of a history, and whether it has a value there, by
looking at the whole history. Scopes, which keep only the open frames, give the same answers:
they track the history, event by event.
-/

namespace Augite

/-- What happens to names. -/
inductive Naming where
  | opens
  | closes
  /-- A variable is declared; it is ready if it needs no assignment before it is read. -/
  | declares (name : Text) (type : Ty) (ready : Bool)
  /-- An assignment to a variable is complete. -/
  | assigns (name : Text)
  /-- A variable is looked up: the target of an assignment, or a receiver. -/
  | looks (pos : Position) (name : Text)
  | reads (mark : Mark) (name : Text)

/-- What has happened to names, the earliest first. -/
abbrev History := List Naming

/-- The number of blocks that an event adds to the open ones. -/
def Naming.step : Naming → Int
  | .opens => 1
  | .closes => -1
  | _ => 0

@[simp] theorem Naming.step_declares (name : Text) (t : Ty) (b : Bool) :
    (Naming.declares name t b).step = 0 := rfl

@[simp] theorem Naming.step_assigns (name : Text) : (Naming.assigns name).step = 0 := rfl

@[simp] theorem Naming.step_looks (pos : Position) (name : Text) : (Naming.looks pos name).step = 0 :=
  rfl

namespace History

/-- The number of blocks that are open after the first events of a history. -/
def level (H : History) (k : Nat) : Int := ((H.take k).map Naming.step).sum

/-- A declaration of a name can be seen at the end of a history: its block, and so every
block around it, has been open ever since. -/
structure Visible (H : History) (name : Text) (i : Nat) : Prop where
  declared : ∃ t b, H[i]? = some (.declares name t b)
  isOpen : ∀ k, i ≤ k → k ≤ H.length → H.level i ≤ H.level k

/-- A name stands for the innermost declaration of it that can be seen. -/
def Resolves (H : History) (name : Text) (i : Nat) : Prop :=
  H.Visible name i ∧ ∀ j, H.Visible name j → j ≠ i → H.level j < H.level i

/-- A declared variable has a value at the end of a history: it never needed one, or an
assignment to a name that stood for this very declaration is complete. -/
def Ready (H : History) (i : Nat) : Prop :=
  ∃ name t b, H[i]? = some (.declares name t b) ∧
    (b = true ∨ ∃ k, H[k]? = some (.assigns name) ∧ Resolves (H.take k) name i)

variable {H : History} {name : Text} {i : Nat}

/-! ### One event more -/

theorem level_append {k : Nat} (h : k ≤ H.length) (E : History) : level (H ++ E) k = H.level k := by
  unfold level
  rw [List.take_append_of_le_length h]

theorem level_length_append (H E : History) :
    level (H ++ E) (H ++ E).length = H.level H.length + level E E.length := by
  unfold level
  rw [List.take_length, List.take_length, List.take_length, List.map_append, List.sum_append]

theorem level_length_concat (H : History) (e : Naming) :
    level (H ++ [e]) (H ++ [e]).length = H.level H.length + e.step := by
  rw [level_length_append]
  simp [level]

theorem Visible.lt (h : H.Visible name i) : i < H.length := by
  obtain ⟨_, _, hi⟩ := h.declared
  exact (List.getElem?_eq_some_iff.mp hi).1

theorem Visible.name_eq {other : Text} (h : H.Visible name i) (h' : H.Visible other i) :
    name = other := by
  obtain ⟨_, _, hi⟩ := h.declared
  obtain ⟨_, _, hi'⟩ := h'.declared
  rw [hi] at hi'
  cases hi'
  rfl

theorem Resolves.unique {j : Nat} (h : H.Resolves name i) (h' : H.Resolves name j) : i = j := by
  by_contra hne
  have hij := h.2 j h'.1 (Ne.symm hne)
  have hji := h'.2 i h.1 hne
  omega

/-- What one more event does to what can be seen: it may declare a variable, and it may close
the blocks of others. -/
theorem visible_concat {e : Naming} :
    Visible (H ++ [e]) name i ↔
      (H.Visible name i ∧ H.level i ≤ H.level H.length + e.step) ∨
        (i = H.length ∧ ∃ t b, e = .declares name t b) := by
  have hlength : (H ++ [e]).length = H.length + 1 := by simp
  constructor
  · intro h
    obtain ⟨t, b, hi⟩ := h.declared
    rcases Nat.lt_or_ge i H.length with hlt | hge
    · left
      have hlast := h.isOpen (H ++ [e]).length (by omega) (Nat.le_refl _)
      rw [level_length_concat, level_append hlt.le] at hlast
      refine ⟨⟨⟨t, b, by rwa [List.getElem?_append_left hlt] at hi⟩, fun k hik hk => ?_⟩, hlast⟩
      have := h.isOpen k hik (by omega)
      rwa [level_append hk, level_append hlt.le] at this
    · right
      have heq : i = H.length := by
        have := h.lt
        omega
      subst heq
      rw [List.getElem?_concat_length] at hi
      exact ⟨rfl, t, b, Option.some.inj hi⟩
  · rintro (⟨h, hlast⟩ | ⟨rfl, t, b, rfl⟩)
    · obtain ⟨t, b, hi⟩ := h.declared
      have hlt := h.lt
      refine ⟨⟨t, b, by rwa [List.getElem?_append_left hlt]⟩, fun k hik hk => ?_⟩
      rw [level_append hlt.le]
      rcases Nat.lt_or_ge H.length k with hlong | hshort
      · have hk : k = (H ++ [e]).length := by omega
        rw [hk, level_length_concat]
        exact hlast
      · rw [level_append hshort]
        exact h.isOpen k hik hshort
    · refine ⟨⟨t, b, List.getElem?_concat_length⟩, fun k hik hk => ?_⟩
      rw [level_append (Nat.le_refl _)]
      rcases Nat.lt_or_ge H.length k with hlong | hshort
      · have hk : k = (H ++ [Naming.declares name t b]).length := by omega
        rw [hk, level_length_concat]
        simp [Naming.step]
      · rw [Nat.le_antisymm hshort hik, level_append (Nat.le_refl _)]

/-- What one more event does to the variables that have a value. -/
theorem ready_concat {e : Naming} (hi : i < H.length) :
    Ready (H ++ [e]) i ↔ H.Ready i ∨ ∃ name, e = .assigns name ∧ H.Resolves name i := by
  have hlength : (H ++ [e]).length = H.length + 1 := by simp
  constructor
  · rintro ⟨name, t, b, hdecl, hb | ⟨k, hk, hres⟩⟩
    all_goals rw [List.getElem?_append_left hi] at hdecl
    · exact .inl ⟨name, t, b, hdecl, .inl hb⟩
    rcases Nat.lt_or_ge k H.length with hlt | hge
    · rw [List.getElem?_append_left hlt] at hk
      rw [List.take_append_of_le_length hlt.le] at hres
      exact .inl ⟨name, t, b, hdecl, .inr ⟨k, hk, hres⟩⟩
    · have heq : k = H.length := by
        have := (List.getElem?_eq_some_iff.mp hk).1
        omega
      subst heq
      rw [List.getElem?_concat_length] at hk
      rw [List.take_left] at hres
      exact .inr ⟨name, Option.some.inj hk, hres⟩
  · rintro (⟨name, t, b, hdecl, hb | ⟨k, hk, hres⟩⟩ | ⟨name, rfl, hres⟩)
    · exact ⟨name, t, b, by rwa [List.getElem?_append_left hi], .inl hb⟩
    · have hlt := (List.getElem?_eq_some_iff.mp hk).1
      refine ⟨name, t, b, by rwa [List.getElem?_append_left hi], .inr ⟨k, ?_, ?_⟩⟩
      · rwa [List.getElem?_append_left hlt]
      · rwa [List.take_append_of_le_length hlt.le]
    · obtain ⟨t, b, hdecl⟩ := hres.1.declared
      refine ⟨name, t, b, by rwa [List.getElem?_append_left hi], .inr ⟨H.length, ?_, ?_⟩⟩
      · exact List.getElem?_concat_length
      · rwa [List.take_left]

theorem ready_declared (H : History) (name : Text) (t : Ty) (b : Bool) :
    Ready (H ++ [.declares name t b]) H.length ↔ b = true := by
  constructor
  · rintro ⟨other, u, c, hdecl, hc⟩
    rw [List.getElem?_concat_length] at hdecl
    cases hdecl
    rcases hc with hc | ⟨k, hk, hres⟩
    · exact hc
    · -- An assignment after the last event would be needed.
      have hlt := hres.1.lt
      have hk := (List.getElem?_eq_some_iff.mp hk).1
      simp only [List.length_take, List.length_append, List.length_singleton] at hlt hk
      omega
  · rintro rfl
    exact ⟨name, t, true, List.getElem?_concat_length, .inl rfl⟩

end History

/-! ### Bindings by depth -/

namespace Scopes

variable {σ : Type}

theorem binding?_eq_none {s : Scopes σ} {k : Nat} (h : s.depth < k) (name : Text) :
    s.binding? k name = none := by
  obtain ⟨inner, module⟩ := s
  unfold binding?
  simp only [depth] at h
  induction inner with
  | nil => exact if_neg (by simpa using h.ne')
  | cons f fs ih =>
    simp only [List.length_cons] at h
    exact (if_neg (by omega)).trans (ih (by omega))

theorem binding?_depth (s : Scopes σ) (name : Text) :
    s.binding? s.depth name = s.current.lookup name := by
  obtain ⟨_ | ⟨f, fs⟩, m⟩ := s
  · rfl
  · exact if_pos rfl

theorem binding?_push_depth (s : Scopes σ) (name other : Text) (x : σ) :
    (s.push name x).binding? s.depth other =
      if other = name then some x else s.binding? s.depth other := by
  have htop := binding?_depth (s.push name x) other
  rwa [depth_push, current_push, Frame.lookup_cons, ← binding?_depth] at htop

/-- A change of a name that has just been bound is a change of what was bound to it. -/
theorem update_push_self (s : Scopes σ) (name : Text) (x : σ) (g : σ → σ) :
    (s.push name x).update name g = s.push name (g x) := by
  obtain ⟨_ | ⟨f, fs⟩, m⟩ := s <;> simp [push, update, updateIn, updateFrame]

theorem resolve?_eq_none {s : Scopes σ} {name : Text} (h : s.resolve? name = none) (k : Nat) :
    s.binding? k name = none := by
  obtain ⟨inner, module⟩ := s
  change resolveIn name module inner = none at h
  change bindingIn name module inner k = none
  induction inner with
  | nil =>
    rw [resolveIn, Option.map_eq_none_iff] at h
    rw [bindingIn, h, ite_self]
  | cons f fs ih =>
    rw [resolveIn] at h
    split at h
    · cases h
    · rename_i hf
      rw [bindingIn, hf, ih h, ite_self]

/-- A name is resolved in the innermost frame that binds it. -/
theorem le_of_resolve? {s : Scopes σ} {name : Text} {x y : σ} {k l : Nat}
    (h : s.resolve? name = some (x, k)) (hl : s.binding? l name = some y) : l ≤ k := by
  obtain ⟨inner, module⟩ := s
  change resolveIn name module inner = some (x, k) at h
  change bindingIn name module inner l = some y at hl
  induction inner with
  | nil =>
    obtain ⟨_, _, heq⟩ := Option.map_eq_some_iff.mp h
    cases heq
    rw [bindingIn] at hl
    split at hl
    · omega
    · cases hl
  | cons f fs ih =>
    rw [resolveIn] at h
    rw [bindingIn] at hl
    split at hl
    · -- The innermost frame binds the name, so it is resolved there.
      rw [hl] at h
      cases h
      omega
    · split at h
      · cases h
        by_contra hlt
        have hnone := binding?_eq_none (s := ⟨fs, module⟩) (k := l) (by simp [depth]; omega) name
        exact absurd (hl.symm.trans hnone) (by simp)
      · exact ih h hl

end Scopes

namespace History

/-- What the rule says of a variable is what the scopes keep of it. -/
structure Describes (H : History) (i : Nat) (v : Variable) : Prop where
  type : ∃ name b, H[i]? = some (.declares name v.type b)
  isGlobal : v.isGlobal = true ↔ H.level i = 0
  initialized : v.initialized = true ↔ H.Ready i

/-- What a frame, given by its depth, binds a name to: the one declaration of the name that
can be seen in the block of the frame. -/
inductive Stands (H : History) (name : Text) (k : Nat) : Option Variable → Prop
  | absent (h : ∀ i, H.Visible name i → H.level i + 1 ≠ k) : Stands H name k none
  | present {v : Variable} (i : Nat) (visible : H.Visible name i) (level : H.level i + 1 = k)
      (only : ∀ j, H.Visible name j → H.level j + 1 = k → j = i) (describes : H.Describes i v) :
      Stands H name k (some v)

/-- The scopes hold what the rule says about a history. -/
structure Tracks (H : History) (vs : Variables) : Prop where
  depth : (vs.depth : Int) = H.level H.length + 1
  ground : ∀ k ≤ H.length, 0 ≤ H.level k
  stands : ∀ name, ∀ k ≤ vs.depth, H.Stands name k (vs.binding? k name)

variable {H : History} {vs : Variables} {name : Text} {i k : Nat} {v : Variable} {e : Naming}

theorem Visible.level_le (h : H.Visible name i) : H.level i ≤ H.level H.length :=
  h.isOpen _ h.lt.le (Nat.le_refl _)

theorem Tracks.nil : Tracks [] {} where
  depth := rfl
  ground := by
    intro k _
    simp [level]
  stands := by
    intro name k _
    have hnone : Scopes.binding? ({} : Variables) k name = none := by
      simp [Scopes.binding?, Scopes.bindingIn]
    rw [hnone]
    exact .absent fun i hi => absurd hi.lt (Nat.not_lt_zero i)

/-! ### What the scopes answer -/

/-- A declaration that can be seen is bound in the frame of its block. -/
theorem Tracks.bound (h : H.Tracks vs) (hi : H.Visible name i) :
    ∃ k : Nat, H.level i + 1 = k ∧ k ≤ vs.depth ∧ ∃ v, vs.binding? k name = some v := by
  have hground := h.ground i hi.lt.le
  have hlevel := hi.level_le
  have hdepth := h.depth
  obtain ⟨l, hl⟩ : ∃ l : Nat, H.level i + 1 = l := ⟨(H.level i + 1).toNat, by omega⟩
  have hle : l ≤ vs.depth := by omega
  have hstands := h.stands name l hle
  rcases hb : vs.binding? l name with _ | v
  · rw [hb] at hstands
    cases hstands with
    | absent hnone => exact absurd hl (hnone i hi)
  · exact ⟨l, hl, hle, v, hb⟩

theorem Tracks.resolved (h : H.Tracks vs) (hv : vs.resolve? name = some (v, k)) :
    ∃ i, H.Resolves name i ∧ H.level i + 1 = k ∧ H.Describes i v := by
  have hk := h.stands name k (Scopes.resolveIn_depth hv).2
  rw [Scopes.binding?_of_resolve? hv] at hk
  cases hk with
  | present i hi hlevel only hd =>
    refine ⟨i, ⟨hi, fun j hj hne => ?_⟩, hlevel, hd⟩
    obtain ⟨l, hl, -, w, hb⟩ := h.bound hj
    have hle := Scopes.le_of_resolve? hv hb
    have hlk : l ≠ k := fun heq => hne (only j hj (heq ▸ hl))
    omega

theorem Tracks.unresolved (h : H.Tracks vs) (hv : vs.resolve? name = none) :
    ∀ i, ¬H.Visible name i := by
  intro i hi
  obtain ⟨l, -, -, w, hb⟩ := h.bound hi
  rw [Scopes.resolve?_eq_none hv] at hb
  cases hb

/-! ### What one event does -/

theorem Describes.concat (h : H.Describes i v) (hi : i < H.length)
    (hassign : ∀ name, e = .assigns name → ¬H.Resolves name i) : Describes (H ++ [e]) i v where
  type := by
    obtain ⟨name, b, hdecl⟩ := h.type
    exact ⟨name, b, by rwa [List.getElem?_append_left hi]⟩
  isGlobal := by rw [level_append hi.le, h.isGlobal]
  initialized := by
    rw [ready_concat hi, h.initialized]
    constructor
    · exact .inl
    · rintro (hready | ⟨name, he, hres⟩)
      · exact hready
      · exact absurd hres (hassign name he)

/-- An event that neither declares a name in the block of a frame nor closes that block nor
assigns to the name leaves what the frame binds it to as it is. -/
theorem Stands.concat {o : Option Variable} (h : H.Stands name k o)
    (hlevel : (k : Int) ≤ H.level H.length + e.step + 1)
    (hdeclare : ∀ t b, e = .declares name t b → (k : Int) ≠ H.level H.length + 1)
    (hassign : ∀ other i, e = .assigns other → H.Resolves other i → H.Visible name i →
      H.level i + 1 ≠ k) : Stands (H ++ [e]) name k o := by
  have hsame : ∀ i, Visible (H ++ [e]) name i → level (H ++ [e]) i + 1 = k →
      H.Visible name i ∧ H.level i + 1 = k := by
    intro i hi hk
    rcases visible_concat.mp hi with ⟨hi, -⟩ | ⟨rfl, t, b, he⟩
    · exact ⟨hi, by rwa [level_append hi.lt.le] at hk⟩
    · rw [level_append (Nat.le_refl _)] at hk
      exact absurd hk.symm (hdeclare t b he)
  cases h with
  | absent h =>
    refine .absent fun i hi hk => ?_
    obtain ⟨hi, hk⟩ := hsame i hi hk
    exact h i hi hk
  | present i hi hk only hd =>
    refine .present i (visible_concat.mpr (.inl ⟨hi, by omega⟩)) ?_ ?_ ?_
    · rwa [level_append hi.lt.le]
    · intro j hj hjk
      obtain ⟨hj, hjk⟩ := hsame j hj hjk
      exact only j hj hjk
    · exact hd.concat hi.lt fun other he hres => hassign other i he hres hi hk

theorem Stands.declared {t : Ty} {b isGlobal : Bool}
    (h : ∀ i, H.Visible name i → H.level i + 1 ≠ k) (hk : H.level H.length + 1 = k)
    (hglobal : isGlobal = true ↔ H.level H.length = 0) :
    Stands (H ++ [.declares name t b]) name k
      (some { name, type := t, initialized := b, isGlobal }) := by
  have hlast : level (H ++ [.declares name t b]) H.length = H.level H.length :=
    level_append (Nat.le_refl _) _
  refine .present H.length (visible_concat.mpr (.inr ⟨rfl, t, b, rfl⟩)) (hlast ▸ hk) ?_ ?_
  · intro j hj hjk
    rcases visible_concat.mp hj with ⟨hj, -⟩ | ⟨rfl, -⟩
    · rw [level_append hj.lt.le] at hjk
      exact absurd hjk (h j hj)
    · rfl
  · exact ⟨⟨name, b, List.getElem?_concat_length⟩, hlast ▸ hglobal, (ready_declared H name t b).symm⟩

theorem Stands.assigned (h : H.Stands name k (some v)) (hres : H.Resolves name i)
    (hlevel : H.level i + 1 = k) :
    Stands (H ++ [.assigns name]) name k (some { v with initialized := true }) := by
  cases h with
  | present j hj hjk only hd =>
    obtain rfl := only i hres.1 hlevel
    have hlt := hj.lt
    have hkept : ∀ l, Visible (H ++ [.assigns name]) name l → H.Visible name l := by
      intro l hl
      rcases visible_concat.mp hl with ⟨hl, -⟩ | ⟨-, _, _, he⟩
      · exact hl
      · cases he
    refine .present i (visible_concat.mpr (.inl ⟨hj, by simpa using hj.level_le⟩)) ?_ ?_ ?_
    · rwa [level_append hlt.le]
    · intro l hl hlk
      rw [level_append (hkept l hl).lt.le] at hlk
      exact only l (hkept l hl) hlk
    · obtain ⟨other, b, hdecl⟩ := hd.type
      refine ⟨⟨other, b, by rwa [List.getElem?_append_left hlt]⟩, ?_, ?_⟩
      · rw [level_append hlt.le]
        exact hd.isGlobal
      · exact iff_of_true rfl ((ready_concat hlt).mpr (.inr ⟨name, rfl, hres⟩))

theorem Tracks.ground_concat (h : H.Tracks vs) (hlast : 0 ≤ H.level H.length + e.step) :
    ∀ k ≤ (H ++ [e]).length, 0 ≤ level (H ++ [e]) k := by
  intro k hk
  have hlength : (H ++ [e]).length = H.length + 1 := by simp
  rcases Nat.lt_or_ge H.length k with hlong | hshort
  · have hk : k = (H ++ [e]).length := by omega
    rwa [hk, level_length_concat]
  · rw [level_append hshort]
    exact h.ground k hshort

theorem Tracks.opens (h : H.Tracks vs) : Tracks (H ++ [.opens]) vs.enter where
  depth := by
    rw [Scopes.depth_enter, level_length_concat, Naming.step, Nat.cast_succ, h.depth]
  ground := h.ground_concat (add_nonneg (h.ground _ (Nat.le_refl _)) (by decide))
  stands := by
    intro name k hk
    have hdepth := h.depth
    rw [Scopes.depth_enter] at hk
    rcases Nat.lt_or_ge vs.depth k with hlt | hge
    · -- Nothing has been declared in the new block yet.
      obtain rfl : k = vs.enter.depth := Nat.le_antisymm hk hlt
      rw [Scopes.binding?_depth]
      refine .absent fun i hi => ?_
      rcases visible_concat.mp hi with ⟨hi, -⟩ | ⟨-, _, _, he⟩
      · have := hi.level_le
        rw [level_append hi.lt.le]
        omega
      · cases he
    · rw [Scopes.binding?_enter hge]
      apply (h.stands name k hge).concat
      · simp only [Naming.step]
        omega
      · intro _ _ he
        cases he
      · intro _ _ he
        cases he

theorem Tracks.closes (h : H.Tracks vs) (hinner : 0 < H.level H.length) :
    Tracks (H ++ [.closes]) vs.leave := by
  have hdepth := h.depth
  have hleave : vs.leave.depth + 1 = vs.depth := by
    obtain ⟨_ | ⟨f, fs⟩, m⟩ := vs
    · simp only [Scopes.depth, List.length_nil] at hdepth
      omega
    · rfl
  refine ⟨?_, h.ground_concat (by simp only [Naming.step]; omega), ?_⟩
  · rw [level_length_concat, Naming.step]
    omega
  · intro name k hk
    rw [Scopes.binding?_leave (by omega)]
    apply (h.stands name k (by omega)).concat
    · simp only [Naming.step]
      omega
    · intro _ _ he
      cases he
    · intro _ _ he
      cases he

/-- Looking up and reading names changes nothing. -/
theorem Tracks.keeps (h : H.Tracks vs) (hstep : e.step = 0)
    (hdeclare : ∀ name t b, e ≠ .declares name t b) (hassign : ∀ name, e ≠ .assigns name) :
    Tracks (H ++ [e]) vs where
  depth := by rw [level_length_concat, hstep, add_zero, h.depth]
  ground := h.ground_concat (by rw [hstep, add_zero]; exact h.ground _ (Nat.le_refl _))
  stands := by
    intro name k hk
    have hdepth := h.depth
    apply (h.stands name k hk).concat
    · omega
    · intro t b he
      exact absurd he (hdeclare name t b)
    · intro other _ he
      exact absurd he (hassign other)

theorem Tracks.declares (h : H.Tracks vs) (hfree : vs.current.lookup name = none) (t : Ty)
    (b : Bool) :
    Tracks (H ++ [.declares name t b])
      (vs.push name { name, type := t, initialized := b, isGlobal := vs.atModule }) where
  depth := by rw [Scopes.depth_push, level_length_concat, Naming.step_declares, add_zero, h.depth]
  ground := h.ground_concat (by simpa using h.ground _ (Nat.le_refl _))
  stands := by
    intro other k hk
    have hdepth := h.depth
    have hmodule : vs.atModule = true ↔ vs.depth = 1 := by simp [Scopes.atModule, Scopes.depth]
    rw [Scopes.depth_push] at hk
    have hold := h.stands other k hk
    by_cases hat : other = name ∧ k = vs.depth
    · obtain ⟨rfl, rfl⟩ := hat
      rw [Scopes.binding?_depth, hfree] at hold
      rw [Scopes.binding?_push_depth, if_pos rfl]
      cases hold with
      | absent hnone => exact .declared hnone hdepth.symm (hmodule.trans (by omega))
    · have hsame : ∀ v, (vs.push name v).binding? k other = vs.binding? k other := by
        intro v
        rcases Nat.lt_or_ge k vs.depth with hlt | hge
        · exact Scopes.binding?_push hlt _ _ _
        · obtain rfl : k = vs.depth := Nat.le_antisymm hk hge
          rw [Scopes.binding?_push_depth, if_neg fun hname => hat ⟨hname, rfl⟩]
      rw [hsame]
      apply hold.concat
      · rw [Naming.step_declares]
        omega
      · intro _ _ he hlevel
        cases he
        exact hat ⟨rfl, by omega⟩
      · intro _ _ he
        cases he

theorem Tracks.assigns (h : H.Tracks vs) (hv : vs.resolve? name = some (v, k)) :
    Tracks (H ++ [.assigns name]) (vs.update name fun v => { v with initialized := true }) := by
  have hdepth := h.depth
  have hsame : (vs.update name fun v => { v with initialized := true }).depth = vs.depth :=
    congrArg (· + 1) (Scopes.length_inner_update vs name _)
  obtain ⟨i, hres, hlevel, hd⟩ := h.resolved hv
  refine ⟨?_, h.ground_concat (by simpa using h.ground _ (Nat.le_refl _)), ?_⟩
  · rw [hsame, level_length_concat, Naming.step_assigns, add_zero, hdepth]
  intro other l hl
  rw [hsame] at hl
  have hold := h.stands other l hl
  by_cases hat : other = name ∧ l = k
  · obtain ⟨rfl, rfl⟩ := hat
    rw [Scopes.binding?_update_self hv]
    rw [Scopes.binding?_of_resolve? hv] at hold
    exact hold.assigned hres hlevel
  · rw [Scopes.binding?_update_of_ne]
    · apply hold.concat
      · rw [Naming.step_assigns]
        omega
      · intro _ _ he
        cases he
      · intro _ j he hj hvisible hjk
        cases he
        obtain rfl := hj.unique hres
        exact hat ⟨hvisible.name_eq hres.1, by omega⟩
    · rintro rfl hk
      rw [hv] at hk
      exact hat ⟨rfl, (Option.some.inj hk).symm⟩

end History

end Augite
