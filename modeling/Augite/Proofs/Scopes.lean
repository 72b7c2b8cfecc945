import Mathlib
import Augite.Scope.Basic

/-!
# Scopes side by side

Two passes over one program keep scopes of their own. They are in step if their frames
bind the same names in the same order; what is bound to a name is related by one relation
in the frame of the module and by another in the frames inside it. Scopes in step resolve
every name at the same depth.
-/

namespace Augite

variable {σ τ : Type}

/-- Frames that bind the same names in the same order to related things. -/
def Frame.Matches (R : σ → τ → Prop) (f : Frame σ) (g : Frame τ) : Prop :=
  List.Forall₂ (fun a b => a.1 = b.1 ∧ R a.2 b.2) f g

namespace Frame

variable {R S : σ → τ → Prop} {f : Frame σ} {g : Frame τ}

theorem lookup_cons (name n : Text) (x : σ) (f : Frame σ) :
    List.lookup name ((n, x) :: f) = if name = n then some x else List.lookup name f := by
  rw [List.lookup_cons]
  by_cases h : name = n
  · simp [h]
  · simp [h, beq_eq_false_iff_ne.mpr h]

theorem Matches.lookup_none (h : Matches R f g) (name : Text) :
    f.lookup name = none ↔ g.lookup name = none := by
  induction h with
  | nil => simp
  | @cons a b f g hab _ ih =>
    obtain ⟨n, x⟩ := a
    obtain ⟨m, y⟩ := b
    obtain ⟨hn, -⟩ := hab
    cases hn
    rw [lookup_cons, lookup_cons]
    split
    · simp
    · exact ih

theorem Matches.lookup_some (h : Matches R f g) {name : Text} {x : σ}
    (hx : f.lookup name = some x) : ∃ y, g.lookup name = some y ∧ R x y := by
  induction h with
  | nil => cases hx
  | @cons a b f g hab _ ih =>
    obtain ⟨n, z⟩ := a
    obtain ⟨m, y⟩ := b
    obtain ⟨hn, hR⟩ := hab
    cases hn
    rw [lookup_cons] at hx ⊢
    split at hx
    · cases hx
      exact ⟨y, if_pos (by assumption), hR⟩
    · obtain ⟨y, hy, hR⟩ := ih hx
      exact ⟨y, by rw [if_neg (by assumption)]; exact hy, hR⟩

theorem Matches.imp (h : Matches R f g) (hRS : ∀ x y, R x y → S x y) : Matches S f g :=
  List.Forall₂.imp (fun _ _ hab => ⟨hab.1, hRS _ _ hab.2⟩) h

theorem Matches.updateFrame (h : Matches R f g) (name : Text) (u : σ → σ)
    (hu : ∀ x y, R x y → R (u x) y) : Matches R (Scopes.updateFrame name u f) g := by
  induction h with
  | nil => exact .nil
  | @cons a b f g hab hfg ih =>
    obtain ⟨n, x⟩ := a
    simp only [Scopes.updateFrame]
    split
    · exact .cons ⟨hab.1, hu _ _ hab.2⟩ hfg
    · exact .cons hab ih

end Frame

namespace Scopes

/-- The scopes with a name bound in the innermost frame, whether that frame binds it or not. -/
def push (s : Scopes σ) (name : Text) (x : σ) : Scopes σ :=
  match s.inner with
  | [] => { s with module := (name, x) :: s.module }
  | f :: fs => { s with inner := ((name, x) :: f) :: fs }

theorem declare?_eq_some_iff {s t : Scopes σ} {name : Text} {x : σ} :
    s.declare? name x = some t ↔ s.current.lookup name = none ∧ t = s.push name x := by
  unfold declare? push
  rcases hs : s.current.lookup name with _ | y
  · rcases s.inner with _ | ⟨f, fs⟩ <;> simp [eq_comm]
  · simp

theorem atModule_push (s : Scopes σ) (name : Text) (x : σ) :
    (s.push name x).atModule = s.atModule := by
  unfold push atModule
  split <;> simp_all

/-- A name bound in an inner frame is gone once that frame is left. -/
theorem leave_push {s : Scopes σ} (h : s.atModule = false) (name : Text) (x : σ) :
    (s.push name x).leave = s.leave := by
  obtain ⟨_ | ⟨f, fs⟩, m⟩ := s
  · cases h
  · rfl

theorem module_push_of_inner {s : Scopes σ} (h : s.atModule = false) (name : Text) (x : σ) :
    (s.push name x).module = s.module := by
  obtain ⟨_ | ⟨f, fs⟩, m⟩ := s
  · cases h
  · rfl

theorem module_push_of_module {s : Scopes σ} (h : s.atModule = true) (name : Text) (x : σ) :
    (s.push name x).module = (name, x) :: s.module := by
  obtain ⟨_ | ⟨f, fs⟩, m⟩ := s
  · rfl
  · cases h

theorem current_push (s : Scopes σ) (name : Text) (x : σ) :
    (s.push name x).current = (name, x) :: s.current := by
  obtain ⟨_ | ⟨f, fs⟩, m⟩ := s <;> rfl

theorem length_inner_push (s : Scopes σ) (name : Text) (x : σ) :
    (s.push name x).inner.length = s.inner.length := by
  obtain ⟨_ | ⟨f, fs⟩, m⟩ := s <;> rfl

theorem length_inner_update (s : Scopes σ) (name : Text) (g : σ → σ) :
    (s.update name g).inner.length = s.inner.length := by
  obtain ⟨si, sm⟩ := s
  change (updateIn name g sm si).1.length = si.length
  induction si with
  | nil => rfl
  | cons f fs ih =>
    simp only [updateIn]
    split
    · rfl
    · exact congrArg Nat.succ ih

theorem depth_push (s : Scopes σ) (name : Text) (x : σ) : (s.push name x).depth = s.depth := by
  unfold push depth
  split <;> simp_all

/-! ### Resolving names -/

theorem resolveIn_depth {name : Text} {last : Frame σ} {fs : List (Frame σ)} {x : σ} {k : Nat}
    (h : resolveIn name last fs = some (x, k)) : 1 ≤ k ∧ k ≤ fs.length + 1 := by
  induction fs with
  | nil =>
    simp only [resolveIn, Option.map_eq_some_iff, Prod.mk.injEq] at h
    obtain ⟨_, _, _, rfl⟩ := h
    simp
  | cons f fs ih =>
    simp only [resolveIn] at h
    split at h
    · obtain ⟨_, rfl⟩ := Prod.mk.inj (Option.some.inj h)
      simp
    · have := ih h
      simp only [List.length_cons]
      omega

/-- A name bound outside the module's frame is found in one of the inner frames. -/
theorem resolve?_push_of_ne (s : Scopes σ) {name other : Text} (h : other ≠ name) (x : σ) :
    (s.push name x).resolve? other = s.resolve? other := by
  obtain ⟨_ | ⟨f, fs⟩, m⟩ := s
  · simp only [push, resolve?, resolveIn, Frame.lookup_cons, if_neg h]
  · simp only [push, resolve?, resolveIn, Frame.lookup_cons, if_neg h]

theorem resolve?_push_self (s : Scopes σ) (name : Text) (x : σ) :
    (s.push name x).resolve? name = some (x, s.depth) := by
  obtain ⟨_ | ⟨f, fs⟩, m⟩ := s
  · simp [push, resolve?, resolveIn, depth, Frame.lookup_cons]
  · simp [push, resolve?, resolveIn, depth, Frame.lookup_cons]

/-- A name resolved at the depth of the module is bound there. -/
theorem resolveIn_outer {name : Text} {last : Frame σ} {fs : List (Frame σ)} {x : σ}
    (h : resolveIn name last fs = some (x, 1)) : last.lookup name = some x := by
  induction fs with
  | nil =>
    simp only [resolveIn, Option.map_eq_some_iff, Prod.mk.injEq] at h
    obtain ⟨_, hx, rfl, _⟩ := h
    exact hx
  | cons f fs ih =>
    simp only [resolveIn] at h
    split at h
    · have := (Prod.mk.inj (Option.some.inj h)).2
      omega
    · exact ih h

/-! ### Scopes in step -/

/-- Scopes in step: bindings of the module are related by `outer`, all others by `inner`. -/
structure Matches (inner outer : σ → τ → Prop) (s : Scopes σ) (t : Scopes τ) : Prop where
  frames : List.Forall₂ (Frame.Matches inner) s.inner t.inner
  module : Frame.Matches outer s.module t.module

namespace Matches

variable {R S R' S' : σ → τ → Prop} {s : Scopes σ} {t : Scopes τ}

theorem imp (h : Matches R S s t) (hR : ∀ x y, R x y → R' x y) (hS : ∀ x y, S x y → S' x y) :
    Matches R' S' s t where
  frames := h.frames.imp fun _ _ hf => hf.imp hR
  module := h.module.imp hS

theorem atModule (h : Matches R S s t) : s.atModule = t.atModule := by
  have := h.frames.length_eq
  unfold Scopes.atModule
  rcases hs : s.inner with _ | _ <;> rcases ht : t.inner with _ | _ <;> simp_all

theorem enter (h : Matches R S s t) : Matches R S s.enter t.enter where
  frames := .cons .nil h.frames
  module := h.module

theorem leave (h : Matches R S s t) : Matches R S s.leave t.leave where
  frames := by
    obtain ⟨si, sm⟩ := s
    obtain ⟨ti, tm⟩ := t
    rcases h.frames with _ | ⟨_, hs⟩
    · exact .nil
    · exact hs
  module := h.module

theorem current_none (h : Matches R S s t) (name : Text) :
    s.current.lookup name = none ↔ t.current.lookup name = none := by
  obtain ⟨si, sm⟩ := s
  obtain ⟨ti, tm⟩ := t
  obtain ⟨hf, hm⟩ := h
  rcases hf with _ | ⟨hf, _⟩
  · exact hm.lookup_none name
  · exact hf.lookup_none name

/-- Names bound on both sides keep scopes in step. -/
theorem push (h : Matches R S s t) {x : σ} {y : τ} (name : Text)
    (hin : s.atModule = false → R x y) (hout : s.atModule = true → S x y) :
    Matches R S (s.push name x) (t.push name y) := by
  obtain ⟨si, sm⟩ := s
  obtain ⟨ti, tm⟩ := t
  obtain ⟨hf, hm⟩ := h
  rcases hf with _ | ⟨hf, hfs⟩
  · exact ⟨.nil, .cons ⟨rfl, hout rfl⟩ hm⟩
  · exact ⟨.cons (.cons ⟨rfl, hin rfl⟩ hf) hfs, hm⟩

/-- A change of the left side that the relations do not see keeps scopes in step. -/
theorem update (h : Matches R S s t) (name : Text) (u : σ → σ)
    (hR : ∀ x y, R x y → R (u x) y) (hS : ∀ x y, S x y → S (u x) y) :
    Matches R S (s.update name u) t := by
  obtain ⟨si, sm⟩ := s
  obtain ⟨ti, tm⟩ := t
  obtain ⟨hf, hm⟩ := h
  simp only at hf hm
  have key : List.Forall₂ (Frame.Matches R) (updateIn name u sm si).1 ti ∧
      Frame.Matches S (updateIn name u sm si).2 tm := by
    induction hf with
    | nil => exact ⟨.nil, hm.updateFrame name u hS⟩
    | @cons f g fs gs hfg hfs ih =>
      simp only [updateIn]
      split
      · exact ⟨.cons (hfg.updateFrame name u hR) hfs, hm⟩
      · exact ⟨.cons hfg ih.1, ih.2⟩
  exact ⟨key.1, key.2⟩

/-- Scopes in step resolve a name at one depth, to related things. -/
theorem resolve_some (h : Matches R S s t) {name : Text} {x : σ} {k : Nat}
    (hx : s.resolve? name = some (x, k)) :
    ∃ y, t.resolve? name = some (y, k) ∧ (k = 1 → S x y) ∧ (k ≠ 1 → R x y) := by
  obtain ⟨si, sm⟩ := s
  obtain ⟨ti, tm⟩ := t
  obtain ⟨hf, hm⟩ := h
  simp only [Scopes.resolve?] at hf hm hx ⊢
  induction hf with
  | nil =>
    simp only [resolveIn, Option.map_eq_some_iff, Prod.mk.injEq] at hx ⊢
    obtain ⟨_, hx, rfl, rfl⟩ := hx
    obtain ⟨y, hy, hS⟩ := hm.lookup_some hx
    exact ⟨y, ⟨y, hy, rfl, rfl⟩, fun _ => hS, fun hk => absurd rfl hk⟩
  | @cons f g fs gs hfg hfs ih =>
    simp only [resolveIn] at hx ⊢
    rcases hlookup : List.lookup name f with _ | z
    · rw [(hfg.lookup_none name).mp hlookup]
      rw [hlookup] at hx
      exact ih hx
    · obtain ⟨y, hy, hR⟩ := hfg.lookup_some hlookup
      rw [hlookup] at hx
      obtain ⟨rfl, rfl⟩ := Prod.mk.inj (Option.some.inj hx)
      rw [hy, ← hfs.length_eq]
      exact ⟨y, rfl, fun hk => by omega, fun _ => hR⟩

end Matches

end Scopes

end Augite
