import Augite.Proofs.Pass

/-!
# Passes that follow one another

A pass follows another if it stops exactly where the other stops and goes on where the other
goes on: its states, errors and values are images of the other's. The trees that both passes
have reached when they stop are not compared.
-/

namespace Augite.Pass

variable {ε σ τ υ τ' υ' α β γ δ : Type} {S : σ → σ} {E : ε → ε} {V : α → β}

/-- The pass `q` does to images what `p` does. -/
def Tracks (S : σ → σ) (E : ε → ε) (V : α → β) (p : Pass ε σ τ α) (q : Pass ε σ υ β) : Prop :=
  ∀ s, match p.run s with
    | (.ok a, t) => q.run (S s) = (.ok (V a), S t)
    | (.error h, t) => ∃ tree, q.run (S s) = (.error ⟨E h.error, tree⟩, S t)

namespace Tracks

variable {p : Pass ε σ τ α} {q : Pass ε σ υ β}

theorem pure {a : α} {b : β} (h : b = V a) :
    Tracks S E V (pure a : Pass ε σ τ α) (pure b : Pass ε σ υ β) := by
  intro s
  subst h
  rfl

theorem stop {tree : τ} {tree' : υ} {e e' : ε} (h : e' = E e) :
    Tracks S E V (Pass.stop tree e) (Pass.stop tree' e') := by
  intro s
  subst h
  exact ⟨tree', rfl⟩

theorem bindState {k : σ → Pass ε σ τ α} {k' : σ → Pass ε σ υ β}
    (h : ∀ s, Tracks S E V (k s) (k' (S s))) :
    Tracks S E V (Pass.state >>= k) (Pass.state >>= k') := fun s => h s s

theorem put {u u' : σ} (h : u' = S u) {V : Unit → Unit} :
    Tracks S E V (Pass.put u : Pass ε σ τ Unit) (Pass.put u' : Pass ε σ υ Unit) := by
  intro s
  subst h
  rfl

theorem change {g g' : σ → σ} (h : ∀ s, g' (S s) = S (g s)) {V : Unit → Unit} :
    Tracks S E V (Pass.change g : Pass ε σ τ Unit) (Pass.change g' : Pass ε σ υ Unit) := by
  intro s
  change (Except.ok (), g' (S s)) = _
  rw [h s]

theorem inside {plug : τ → τ'} {plug' : υ → υ'} (h : Tracks S E V p q) :
    Tracks S E V (p.inside plug) (q.inside plug') := by
  intro s
  have hs := h s
  simp only [run, Pass.inside] at hs ⊢
  rcases hr : p s with ⟨e | a, t⟩
  · rw [hr] at hs
    obtain ⟨tree, htree⟩ := hs
    exact ⟨plug' tree, by rw [htree]⟩
  · rw [hr] at hs
    simp only [hs]

theorem ite {c : Prop} [Decidable c] {p' : Pass ε σ τ α} {q' : Pass ε σ υ β}
    (hp : c → Tracks S E V p q) (hq : ¬ c → Tracks S E V p' q') :
    Tracks S E V (if c then p else p') (if c then q else q') := by
  split
  · exact hp ‹_›
  · exact hq ‹_›

/-- The result of a pass, its error and its value, as the other pass has it. -/
theorem result (h : Tracks S E V p q) (s : σ) :
    (q.run (S s)).1.mapError Halt.error =
      ((p.run s).1.map V).mapError fun h => E h.error := by
  have hs := h s
  rcases hr : p.run s with ⟨e | a, t⟩
  · rw [hr] at hs
    obtain ⟨tree, htree⟩ := hs
    rw [htree]
    rfl
  · rw [hr] at hs
    simp only [hs]
    rfl

end Tracks

/-- Whatever tree a run gives back satisfies `P` if the run stops, and whatever value it
gives satisfies `Q` if it does not. -/
def Gives (P : τ → Prop) (Q : α → Prop) (p : Pass ε σ τ α) : Prop :=
  ∀ s, match (p.run s).1 with
    | .ok a => Q a
    | .error h => P h.tree

namespace Gives

variable {P : τ → Prop} {Q : α → Prop} {R : β → Prop} {p : Pass ε σ τ α}

theorem any (p : Pass ε σ τ α) : Gives (fun _ => True) (fun _ => True) p := by
  intro s
  split <;> trivial

theorem pure {a : α} (h : Q a) : Gives P Q (pure a : Pass ε σ τ α) := fun _ => h

theorem stop {tree : τ} {e : ε} (h : P tree) : Gives P Q (Pass.stop tree e : Pass ε σ τ α) :=
  fun _ => h

theorem bind {f : α → Pass ε σ τ β} (hp : Gives P Q p) (hf : ∀ a, Q a → Gives P R (f a)) :
    Gives P R (p >>= f) := by
  intro s
  have hs := hp s
  rw [run_bind]
  rcases hr : p.run s with ⟨e | a, t⟩
  · rw [hr] at hs
    exact hs
  · rw [hr] at hs
    exact hf a hs t

theorem bindState {k : σ → Pass ε σ τ α} (h : ∀ s, Gives P Q (k s)) :
    Gives P Q (Pass.state >>= k) := fun s => h s s

theorem put {u : σ} : Gives P (fun _ => True) (Pass.put u : Pass ε σ τ Unit) := fun _ => trivial

theorem change {g : σ → σ} : Gives P (fun _ => True) (Pass.change g : Pass ε σ τ Unit) :=
  fun _ => trivial

theorem ite {c : Prop} [Decidable c] {q : Pass ε σ τ α} (hp : Gives P Q p) (hq : Gives P Q q) :
    Gives P Q (if c then p else q) := by
  split
  · exact hp
  · exact hq

theorem inside {plug : υ → τ} {p : Pass ε σ υ α} (h : Gives (fun t => P (plug t)) Q p) :
    Gives P Q (p.inside plug) := by
  intro s
  have hs := h s
  simp only [run, Pass.inside] at hs ⊢
  rcases hr : p s with ⟨e | a, t⟩ <;> rw [hr] at hs <;> exact hs

theorem imp {P' : τ → Prop} {Q' : α → Prop} (h : Gives P Q p) (hP : ∀ t, P t → P' t)
    (hQ : ∀ a, Q a → Q' a) : Gives P' Q' p := by
  intro s
  have hs := h s
  split at hs
  · exact hQ _ hs
  · exact hP _ hs

/-- The rule for two steps the first of which can stop with one tree only. -/
theorem bindAt {tree : τ} {f : α → Pass ε σ τ β} (hp : Gives (· = tree) Q p) (hP : P tree)
    (hf : ∀ a, Q a → Gives P R (f a)) : Gives P R (p >>= f) :=
  .bind (hp.imp (fun _ ht => ht ▸ hP) fun _ ha => ha) hf

/-- The rule for two steps the first of which goes through a part of the tree. -/
theorem bindInside {plug : υ → τ} {p : Pass ε σ υ α} {P' : υ → Prop} {f : α → Pass ε σ τ β}
    (hp : Gives P' Q p) (hP : ∀ t, P' t → P (plug t)) (hf : ∀ a, Q a → Gives P R (f a)) :
    Gives P R (p.inside plug >>= f) :=
  .bind (.inside (hp.imp hP fun _ ha => ha)) hf

theorem forM {g : β → Pass ε σ τ Unit} (h : ∀ x, Gives P (fun _ => True) (g x)) (xs : List β) :
    Gives P (fun _ => True) (xs.forM g) := by
  induction xs with
  | nil => exact pure trivial
  | cons x xs ih => exact bind (h x) fun _ _ => ih

end Gives

/-- The rule for two steps where the second one relies on what the first one gives. -/
theorem Leads.bindGives {I J K : σ → Prop} {P : ε → Prop} {Q : α → Prop} {p : Pass ε σ τ α}
    {f : α → Pass ε σ τ β} (hp : Leads I J P p) (hQ : Gives (fun _ => True) Q p)
    (hf : ∀ a, Q a → Leads J K P (f a)) : Leads I K P (p >>= f) := by
  intro s hs
  obtain ⟨hok, herr⟩ := hp s hs
  have hgives := hQ s
  rw [run_bind]
  rcases hr : p.run s with ⟨e | a, u⟩
  · refine ⟨nofun, fun h t hrun => ?_⟩
    cases hrun
    exact herr _ _ hr
  · rw [hr] at hgives
    exact hf a hgives u (hok a u hr)

/-- The rule for two steps where the second one relies on what the first one gives. -/
theorem Tracks.bindGives {W : γ → δ} {p : Pass ε σ τ α} {q : Pass ε σ υ β} {Q : α → Prop}
    {f : α → Pass ε σ τ γ} {g : β → Pass ε σ υ δ} (hp : Tracks S E V p q)
    (hQ : Gives (fun _ => True) Q p) (hf : ∀ a, Q a → Tracks S E W (f a) (g (V a))) :
    Tracks S E W (p >>= f) (q >>= g) := by
  intro s
  have hps := hp s
  have hQs := hQ s
  rw [run_bind]
  rcases hr : p.run s with ⟨h | a, t⟩
  · rw [hr] at hps
    obtain ⟨tree, htree⟩ := hps
    exact ⟨tree, by rw [run_bind, htree]⟩
  · rw [hr] at hps hQs
    have hfa := hf a hQs t
    simp only [run_bind_of_ok hps]
    exact hfa

theorem Tracks.bind {W : γ → δ} {p : Pass ε σ τ α} {q : Pass ε σ υ β} {f : α → Pass ε σ τ γ}
    {g : β → Pass ε σ υ δ} (hp : Tracks S E V p q) (hf : ∀ a, Tracks S E W (f a) (g (V a))) :
    Tracks S E W (p >>= f) (q >>= g) :=
  hp.bindGives (.any p) fun a _ => hf a

theorem Tracks.forM {f : α → Pass ε σ τ Unit} {g : β → Pass ε σ υ Unit}
    (h : ∀ a, Tracks S E id (f a) (g (V a))) (xs : List α) :
    Tracks S E id (xs.forM f) ((xs.map V).forM g) := by
  induction xs with
  | nil => exact .pure rfl
  | cons x xs ih => exact (h x).bind fun _ => ih

end Augite.Pass
