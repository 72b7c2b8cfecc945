import Augite.Text.Basic

/-!
# Scopes

Nested scopes of names. Each scope is a frame of bindings. The outermost frame belongs to
the module and can never be removed: leaving it is refused. A name is bound at most once
in a frame, and an inner binding hides the outer ones of its name.
-/

namespace Augite

/-- The bindings of one scope, the latest first. -/
abbrev Frame (σ : Type) := List (Text × σ)

structure Scopes (σ : Type) where
  /-- The frames inside the module's, the innermost first. -/
  inner : List (Frame σ) := []
  /-- The frame of the module. -/
  module : Frame σ := []
  deriving Repr, DecidableEq

inductive ScopeError where
  | moduleFrame
  deriving DecidableEq, Repr

def ScopeError.text : ScopeError → Text
  | moduleFrame => "scope stack: cannot pop the module frame"

namespace Scopes

variable {σ : Type}

def depth (s : Scopes σ) : Nat := s.inner.length + 1

def atModule (s : Scopes σ) : Bool := s.inner.isEmpty

def enter (s : Scopes σ) : Scopes σ := { s with inner := [] :: s.inner }

/-- Removes the innermost frame; the frame of the module stays. -/
def leave (s : Scopes σ) : Scopes σ := { s with inner := s.inner.tail }

def exit (s : Scopes σ) : Except ScopeError (Scopes σ) :=
  if s.atModule then .error .moduleFrame else .ok s.leave

def current (s : Scopes σ) : Frame σ := s.inner.headD s.module

/-- Binds a name in the innermost frame; none if that frame binds it already. -/
def declare? (s : Scopes σ) (name : Text) (x : σ) : Option (Scopes σ) :=
  if (s.current.lookup name).isSome then none
  else match s.inner with
    | [] => some { s with module := (name, x) :: s.module }
    | f :: fs => some { s with inner := ((name, x) :: f) :: fs }

def resolveIn (name : Text) (last : Frame σ) : List (Frame σ) → Option (σ × Nat)
  | [] => (last.lookup name).map fun x => (x, 1)
  | f :: fs =>
    match f.lookup name with
    | some x => some (x, fs.length + 2)
    | none => resolveIn name last fs

/-- The nearest binding of a name and the depth of its frame, the module's being 1. -/
def resolve? (s : Scopes σ) (name : Text) : Option (σ × Nat) := resolveIn name s.module s.inner

def updateFrame (name : Text) (g : σ → σ) : Frame σ → Frame σ
  | [] => []
  | (n, x) :: rest => if n = name then (n, g x) :: rest else (n, x) :: updateFrame name g rest

def updateIn (name : Text) (g : σ → σ) (last : Frame σ) :
    List (Frame σ) → List (Frame σ) × Frame σ
  | [] => ([], updateFrame name g last)
  | f :: fs =>
    if (f.lookup name).isSome then (updateFrame name g f :: fs, last)
    else
      let (fs', last') := updateIn name g last fs
      (f :: fs', last')

def update (s : Scopes σ) (name : Text) (g : σ → σ) : Scopes σ :=
  let (inner, module) := updateIn name g s.module s.inner
  { inner, module }

/-- Runs `f` inside a new frame and removes a frame afterwards, if `f` has left one inside
the module's. -/
def within {α : Type} (s : Scopes σ) (f : Scopes σ → α × Scopes σ) :
    α × Except ScopeError Unit × Scopes σ :=
  let (a, t) := f s.enter
  match t.exit with
  | .ok u => (a, .ok (), u)
  | .error e => (a, .error e, t)

@[simp] theorem leave_enter (s : Scopes σ) : s.enter.leave = s := rfl

@[simp] theorem depth_enter (s : Scopes σ) : s.enter.depth = s.depth + 1 := rfl

@[simp] theorem module_leave (s : Scopes σ) : s.leave.module = s.module := rfl

end Scopes

end Augite
