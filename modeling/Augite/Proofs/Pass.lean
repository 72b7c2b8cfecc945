import Mathlib
import Augite.Pass

/-!
# Runs of passes

A run that succeeds is taken apart at each step: `bind_ok_iff` gives the state between two
steps. What a pass keeps and the errors it can stop with are those of its steps.
-/

namespace Augite.Pass

variable {ε σ τ υ α β : Type} {p : Pass ε σ τ α} {f : α → Pass ε σ τ β} {s t : σ}

@[simp] theorem pure_ok_iff {a b : α} : (pure a : Pass ε σ τ α).run s = (.ok b, t) ↔ a = b ∧ s = t := by
  simp

theorem bind_ok_iff {b : β} : (p >>= f).run s = (.ok b, t) ↔
    ∃ a u, p.run s = (.ok a, u) ∧ (f a).run u = (.ok b, t) := by
  rw [run_bind]
  constructor
  · intro h
    split at h
    · rename_i a u hp
      exact ⟨a, u, hp, h⟩
    · cases h
  · rintro ⟨a, u, hp, hf⟩
    rw [hp]
    exact hf

theorem run_bind_of_ok {a : α} {u : σ} (h : p.run s = (.ok a, u)) :
    (p >>= f).run s = (f a).run u := by
  rw [run_bind, h]

@[simp] theorem run_state : (state : Pass ε σ τ σ).run s = (.ok s, s) := rfl

@[simp] theorem run_put : (put t : Pass ε σ τ Unit).run s = (.ok (), t) := rfl

@[simp] theorem run_change (g : σ → σ) : (change g : Pass ε σ τ Unit).run s = (.ok (), g s) := rfl

@[simp] theorem run_stop (tree : τ) (e : ε) :
    (stop tree e : Pass ε σ τ α).run s = (.error ⟨e, tree⟩, s) := rfl

theorem inside_ok_iff {plug : τ → υ} {a : α} :
    (p.inside plug).run s = (.ok a, t) ↔ p.run s = (.ok a, t) := by
  simp only [run, inside]
  constructor
  · intro h
    split at h
    · rename_i h'
      cases h
      exact h'
    · cases h
  · intro h
    rw [h]

theorem run_inside_of_ok {plug : τ → υ} {a : α} (h : p.run s = (.ok a, t)) :
    (p.inside plug).run s = (.ok a, t) :=
  inside_ok_iff.mpr h

theorem bind_pure_id (p : Pass ε σ τ α) : (p >>= fun a => pure (id a)) = p := by
  funext s
  change Pass.bind p (fun a => Pass.pure (id a)) s = p s
  unfold Pass.bind
  rcases p s with ⟨_ | a, t⟩ <;> rfl

theorem bind_assoc {γ : Type} (p : Pass ε σ τ α) (f : α → Pass ε σ τ β) (g : β → Pass ε σ τ γ) :
    (p >>= f >>= g) = p >>= fun a => f a >>= g := by
  funext s
  change Pass.bind (Pass.bind p f) g s = Pass.bind p (fun a => Pass.bind (f a) g) s
  unfold Pass.bind
  rcases p s with ⟨_ | a, t⟩ <;> rfl

instance : LawfulMonad (Pass ε σ τ) :=
  LawfulMonad.mk' (Pass ε σ τ) bind_pure_id (fun _ _ => rfl) bind_assoc

theorem forM_cons_ok_iff {g : β → Pass ε σ τ Unit} {x : β} {xs : List β} :
    ((x :: xs).forM g).run s = (.ok (), t) ↔
      ∃ u, (g x).run s = (.ok (), u) ∧ (xs.forM g).run u = (.ok (), t) :=
  bind_ok_iff.trans ⟨fun ⟨_, h⟩ => h, fun h => ⟨(), h⟩⟩

/-- From a state that satisfies `I` the pass comes to one that satisfies `J`, or stops with
an error that satisfies `P`. -/
def Leads (I J : σ → Prop) (P : ε → Prop) (p : Pass ε σ τ α) : Prop :=
  ∀ s, I s → (∀ a t, p.run s = (.ok a, t) → J t) ∧ ∀ h t, p.run s = (.error h, t) → P h.error

/-- The pass keeps `I`, or stops with an error that satisfies `P`. -/
abbrev Safe (I : σ → Prop) (P : ε → Prop) (p : Pass ε σ τ α) : Prop := Leads I I P p

namespace Leads

variable {I J K : σ → Prop} {P : ε → Prop}

theorem pure (a : α) : Safe I P (pure a : Pass ε σ τ α) := by
  intro s hs
  refine ⟨fun b t hrun => ?_, fun h t hrun => ?_⟩
  · cases hrun
    exact hs
  · cases hrun

theorem stop {tree : τ} {e : ε} (he : P e) : Leads I J P (stop tree e : Pass ε σ τ α) := by
  intro s hs
  refine ⟨fun b t hrun => ?_, fun h t hrun => ?_⟩
  · cases hrun
  · cases hrun
    exact he

theorem bind (hp : Leads I J P p) (hf : ∀ a, Leads J K P (f a)) : Leads I K P (p >>= f) := by
  intro s hs
  obtain ⟨hok, herr⟩ := hp s hs
  rcases hr : p.run s with ⟨e | a, u⟩
  · refine ⟨fun b t hrun => ?_, fun h t hrun => ?_⟩ <;> rw [run_bind, hr] at hrun <;> cases hrun
    exact herr _ _ hr
  · obtain ⟨hok', herr'⟩ := hf a u (hok a u hr)
    refine ⟨fun b t hrun => ?_, fun h t hrun => ?_⟩ <;> rw [run_bind, hr] at hrun
    · exact hok' b t hrun
    · exact herr' h t hrun

theorem bindState {g : σ → Pass ε σ τ β} (hg : ∀ s, I s → Leads I J P (g s)) :
    Leads I J P (state >>= g) := fun s hs => hg s hs s hs

/-- The rule for a step that reads the state, where what follows relies on the very state. -/
theorem bindRead {g : σ → Pass ε σ τ β} (hg : ∀ s, I s → Leads (Eq s) J P (g s)) :
    Leads I J P (state >>= g) := fun s hs => hg s hs s rfl

theorem of_errors (herr : Safe (fun _ => True) P p)
    (hok : ∀ s, I s → ∀ a t, p.run s = (.ok a, t) → J t) : Leads I J P p :=
  fun s hs => ⟨hok s hs, (herr s trivial).2⟩

theorem put {u : σ} (hu : J u) : Leads I J P (put u : Pass ε σ τ Unit) := by
  intro s hs
  refine ⟨fun b t hrun => ?_, fun h t hrun => ?_⟩
  · cases hrun
    exact hu
  · cases hrun

theorem change {g : σ → σ} (hg : ∀ s, I s → J (g s)) :
    Leads I J P (change g : Pass ε σ τ Unit) := by
  intro s hs
  refine ⟨fun b t hrun => ?_, fun h t hrun => ?_⟩
  · cases hrun
    exact hg s hs
  · cases hrun

theorem inside {plug : τ → υ} (hp : Leads I J P p) : Leads I J P (p.inside plug) := by
  intro s hs
  obtain ⟨hok, herr⟩ := hp s hs
  refine ⟨fun b t hrun => hok b t (inside_ok_iff.mp hrun), fun h t hrun => ?_⟩
  simp only [run, Pass.inside] at hrun
  split at hrun
  · cases hrun
  · rename_i e u hpe
    cases hrun
    exact herr _ _ hpe

theorem forM {g : β → Pass ε σ τ Unit} {xs : List β} (hg : ∀ x ∈ xs, Safe I P (g x)) :
    Safe I P (xs.forM g) := by
  induction xs with
  | nil => exact pure ()
  | cons x xs ih =>
    exact bind (hg x List.mem_cons_self) fun _ => ih fun y hy => hg y (List.mem_cons_of_mem _ hy)

end Leads

/-- Whether it stops or not, the pass takes every state to one that `R` relates it to. -/
def Moves (R : σ → σ → Prop) (p : Pass ε σ τ α) : Prop := ∀ s, R s (p.run s).2

namespace Moves

variable {R : σ → σ → Prop}

/-- The rule for two steps where the second one relies on the success of the first one. -/
theorem bindOk [IsTrans σ R] (hp : Moves R p)
    (hf : ∀ s a t, p.run s = (.ok a, t) → Moves R (f a)) : Moves R (p >>= f) := by
  intro s
  have hs := hp s
  rw [run_bind]
  rcases hr : p.run s with ⟨e | a, t⟩
  · rw [hr] at hs
    exact hs
  · rw [hr] at hs
    exact Trans.trans hs (hf s a t hr t)

theorem bind [IsTrans σ R] (hp : Moves R p) (hf : ∀ a, Moves R (f a)) : Moves R (p >>= f) :=
  hp.bindOk fun _ a _ _ => hf a

theorem bindState {g : σ → Pass ε σ τ β} (hg : ∀ s, Moves R (g s)) : Moves R (state >>= g) :=
  fun s => hg s s

theorem ite {c : Prop} [Decidable c] {q : Pass ε σ τ α} (hp : Moves R p) (hq : Moves R q) :
    Moves R (if c then p else q) := by
  split
  · exact hp
  · exact hq

theorem inside {plug : τ → υ} (h : Moves R p) : Moves R (p.inside plug) := by
  intro s
  have hs := h s
  simp only [run, Pass.inside] at hs ⊢
  rcases hr : p s with ⟨e | a, t⟩ <;> rw [hr] at hs <;> exact hs

section

variable [Std.Refl R]

theorem pure (a : α) : Moves R (pure a : Pass ε σ τ α) := fun s => refl_of R s

theorem stop (tree : τ) (e : ε) : Moves R (stop tree e : Pass ε σ τ α) := fun s => refl_of R s

theorem forM [IsTrans σ R] {g : β → Pass ε σ τ Unit} {xs : List β} (h : ∀ x ∈ xs, Moves R (g x)) :
    Moves R (xs.forM g) := by
  induction xs with
  | nil => exact pure ()
  | cons x xs ih =>
    exact bind (h x List.mem_cons_self) fun _ => ih fun y hy => h y (List.mem_cons_of_mem _ hy)

end

end Moves

/-- Whether it stops or not, the pass takes every state to one that `R` relates it to, and the
errors it stops with satisfy `P`. -/
structure Confined (R : σ → σ → Prop) (P : ε → Prop) (p : Pass ε σ τ α) : Prop where
  moves : p.Moves R
  errors : p.Safe (fun _ => True) P

namespace Confined

variable {R : σ → σ → Prop} {P : ε → Prop}

theorem of_run (h : ∀ s, (∃ a t, p.run s = (.ok a, t) ∧ R s t) ∨
    ∃ e t, p.run s = (.error e, t) ∧ R s t ∧ P e.error) : Confined R P p := by
  refine ⟨fun s => ?_, fun s _ => ⟨fun _ _ _ => trivial, fun e t he => ?_⟩⟩
  · rcases h s with ⟨a, u, hu, hR⟩ | ⟨e, u, hu, hR, -⟩ <;> rw [hu] <;> exact hR
  · rcases h s with ⟨a, u, hu, -⟩ | ⟨e, u, hu, -, hP⟩ <;> rw [hu] at he <;> cases he
    exact hP

theorem bind [IsTrans σ R] (hp : Confined R P p) (hf : ∀ a, Confined R P (f a)) :
    Confined R P (p >>= f) :=
  ⟨hp.moves.bind fun a => (hf a).moves, hp.errors.bind fun a => (hf a).errors⟩

theorem bindState {g : σ → Pass ε σ τ β} (hg : ∀ s, Confined R P (g s)) :
    Confined R P (state >>= g) :=
  ⟨.bindState fun s => (hg s).moves, .bindState fun s _ => (hg s).errors⟩

theorem ite {c : Prop} [Decidable c] {q : Pass ε σ τ α} (hp : Confined R P p)
    (hq : Confined R P q) : Confined R P (if c then p else q) := by
  split
  · exact hp
  · exact hq

theorem inside {plug : τ → υ} (h : Confined R P p) : Confined R P (p.inside plug) :=
  ⟨h.moves.inside, h.errors.inside⟩

theorem pure [Std.Refl R] (a : α) : Confined R P (pure a : Pass ε σ τ α) := ⟨.pure a, .pure a⟩

end Confined

end Augite.Pass
