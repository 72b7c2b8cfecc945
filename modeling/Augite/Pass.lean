/-!
# Passes over trees

A pass goes through a tree, changes a state on its way and gives back the tree with
annotations. It stops at the first error. Both the state and the tree are kept then: the
tree with the annotations made so far, and untouched beyond the place of the error.
-/

namespace Augite

structure Halt (ε τ : Type) where
  error : ε
  tree : τ

/-- A pass over a tree of type `τ` with errors `ε` and a state `σ`. -/
def Pass (ε σ τ α : Type) : Type := σ → Except (Halt ε τ) α × σ

namespace Pass

variable {ε σ τ υ α β : Type}

def run (p : Pass ε σ τ α) (s : σ) : Except (Halt ε τ) α × σ := p s

protected def pure (a : α) : Pass ε σ τ α := fun s => (.ok a, s)

protected def bind (p : Pass ε σ τ α) (f : α → Pass ε σ τ β) : Pass ε σ τ β := fun s =>
  match p s with
  | (.ok a, t) => f a t
  | (.error e, t) => (.error e, t)

instance : Monad (Pass ε σ τ) where
  pure := Pass.pure
  bind := Pass.bind

def state : Pass ε σ τ σ := fun s => (.ok s, s)

def put (s : σ) : Pass ε σ τ Unit := fun _ => (.ok (), s)

def change (f : σ → σ) : Pass ε σ τ Unit := fun s => (.ok (), f s)

def stop (tree : τ) (error : ε) : Pass ε σ τ α := fun s => (.error ⟨error, tree⟩, s)

def take (tree : τ) : Except ε α → Pass ε σ τ α
  | .ok a => Pass.pure a
  | .error e => stop tree e

/-- A pass over a part of a tree as one over the whole: `plug` puts the part back. -/
def inside (plug : τ → υ) (p : Pass ε σ τ α) : Pass ε σ υ α := fun s =>
  match p s with
  | (.ok a, t) => (.ok a, t)
  | (.error e, t) => (.error ⟨e.error, plug e.tree⟩, t)

@[simp] theorem run_pure (a : α) (s : σ) : (pure a : Pass ε σ τ α).run s = (.ok a, s) := rfl

theorem run_bind (p : Pass ε σ τ α) (f : α → Pass ε σ τ β) (s : σ) :
    (p >>= f).run s =
      match p.run s with
      | (.ok a, t) => (f a).run t
      | (.error e, t) => (.error e, t) := rfl

end Pass

end Augite
