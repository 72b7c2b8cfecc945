import Mathlib
import Augite.Scope.Variables
import Augite.Proofs.Scopes

/-!
# Inner scopes leave outer bindings alone

What a sequence of operations on the variables in scope can do to the frames that were there
before it. If it is enclosed in a frame of its own, the frames outside of that frame keep
their bindings, and the only trace of the sequence is that some variables count as
initialized: those to which a name was resolved at the moment it was marked. No sequence
removes the frame of the module.
-/

namespace Augite

namespace Scopes

variable {σ : Type}

/-! ### Bindings by depth -/

/-- What the frame at a depth binds a name to, among frames over a last one. -/
def bindingIn (name : Text) (last : Frame σ) : List (Frame σ) → Nat → Option σ
  | [], k => if k = 1 then last.lookup name else none
  | f :: fs, k => if k = fs.length + 2 then f.lookup name else bindingIn name last fs k

/-- What the frame at a depth binds a name to, the module's frame being at depth 1. -/
def binding? (s : Scopes σ) (k : Nat) (name : Text) : Option σ :=
  bindingIn name s.module s.inner k

theorem binding?_module (s : Scopes σ) (name : Text) : s.binding? 1 name = s.module.lookup name := by
  obtain ⟨inner, module⟩ := s
  unfold binding?
  induction inner with
  | nil => rfl
  | cons f fs ih => exact ih

theorem binding?_enter {s : Scopes σ} {k : Nat} (h : k ≤ s.depth) (name : Text) :
    s.enter.binding? k name = s.binding? k name := by
  unfold depth at h
  exact if_neg (by omega)

theorem binding?_leave {s : Scopes σ} {k : Nat} (h : k < s.depth) (name : Text) :
    s.leave.binding? k name = s.binding? k name := by
  obtain ⟨_ | ⟨f, fs⟩, m⟩ := s
  · rfl
  · simp only [depth, List.length_cons] at h
    exact (if_neg (by omega)).symm

theorem binding?_push {s : Scopes σ} {k : Nat} (h : k < s.depth) (name other : Text) (x : σ) :
    (s.push name x).binding? k other = s.binding? k other := by
  obtain ⟨_ | ⟨f, fs⟩, m⟩ := s
  · simp only [depth, List.length_nil] at h
    simp [binding?, bindingIn, push, Nat.lt_one_iff.mp h]
  · simp only [depth, List.length_cons] at h
    have hk : ¬k = fs.length + 2 := by omega
    simp only [binding?, bindingIn, push, if_neg hk]

theorem lookup_updateFrame (name other : Text) (g : σ → σ) (f : Frame σ) :
    (updateFrame name g f).lookup other =
      if other = name then (f.lookup other).map g else f.lookup other := by
  induction f with
  | nil => simp [updateFrame]
  | cons b f ih =>
    obtain ⟨n, x⟩ := b
    simp only [updateFrame]
    by_cases hn : n = name
    · subst hn
      rw [if_pos rfl, Frame.lookup_cons, Frame.lookup_cons]
      by_cases ho : other = n <;> simp [ho]
    · rw [if_neg hn, Frame.lookup_cons, Frame.lookup_cons, ih]
      by_cases ho : other = n
      · subst ho
        simp [hn]
      · simp [ho]

theorem binding?_of_resolve? {s : Scopes σ} {name : Text} {x : σ} {k : Nat}
    (h : s.resolve? name = some (x, k)) : s.binding? k name = some x := by
  obtain ⟨inner, module⟩ := s
  change resolveIn name module inner = some (x, k) at h
  change bindingIn name module inner k = some x
  induction inner with
  | nil =>
    obtain ⟨y, hy, heq⟩ := Option.map_eq_some_iff.mp h
    cases heq
    exact hy
  | cons f fs ih =>
    rw [resolveIn] at h
    split at h
    · cases h
      exact (if_pos rfl).trans (by assumption)
    · have := (resolveIn_depth h).2
      exact (if_neg (by omega)).trans (ih h)

/-- A change of a name's nearest binding takes place where the name is found. -/
theorem binding?_update_self {s : Scopes σ} {name : Text} {x : σ} {k : Nat}
    (h : s.resolve? name = some (x, k)) (g : σ → σ) :
    (s.update name g).binding? k name = some (g x) := by
  obtain ⟨inner, module⟩ := s
  change resolveIn name module inner = some (x, k) at h
  change bindingIn name (updateIn name g module inner).2 (updateIn name g module inner).1 k = _
  induction inner with
  | nil =>
    obtain ⟨y, hy, heq⟩ := Option.map_eq_some_iff.mp h
    cases heq
    simp [updateIn, bindingIn, lookup_updateFrame, hy]
  | cons f fs ih =>
    have hlength : (updateIn name g module fs).1.length = fs.length :=
      length_inner_update ⟨fs, module⟩ name g
    rw [resolveIn] at h
    split at h
    · rename_i y hy
      cases h
      simp [updateIn, bindingIn, lookup_updateFrame, hy]
    · rename_i hnone
      have := (resolveIn_depth h).2
      simp only [updateIn, hnone, Option.isSome_none, Bool.false_eq_true, if_false, bindingIn, hlength]
      exact (if_neg (by omega)).trans (ih h)

/-- A change of a name's nearest binding is not seen elsewhere. -/
theorem binding?_update_of_ne {s : Scopes σ} {name other : Text} {k : Nat}
    (h : other = name → (s.resolve? name).map Prod.snd ≠ some k) (g : σ → σ) :
    (s.update name g).binding? k other = s.binding? k other := by
  obtain ⟨inner, module⟩ := s
  change other = name → (resolveIn name module inner).map Prod.snd ≠ some k at h
  change bindingIn other (updateIn name g module inner).2 (updateIn name g module inner).1 k =
    bindingIn other module inner k
  induction inner with
  | nil =>
    simp only [updateIn, bindingIn, lookup_updateFrame]
    split
    · subst k
      split
      · have hname := h (by assumption)
        subst other
        rcases hlookup : List.lookup name module with _ | x
        · rfl
        · simp [resolveIn, hlookup] at hname
      · rfl
    · rfl
  | cons f fs ih =>
    have hlength : (updateIn name g module fs).1.length = fs.length :=
      length_inner_update ⟨fs, module⟩ name g
    rcases Option.eq_none_or_eq_some (List.lookup name f) with hf | ⟨x, hf⟩
    · simp only [resolveIn, hf] at h
      simp only [updateIn, hf, Option.isSome_none, Bool.false_eq_true, if_false, bindingIn, hlength]
      rw [ih h]
    · simp only [resolveIn, hf, Option.map_some, ne_eq, Option.some.injEq] at h
      simp only [updateIn, hf, Option.isSome_some, if_true, bindingIn, lookup_updateFrame]
      split
      · rw [if_neg fun ho => h ho (by omega)]
      · rfl

end Scopes

/-! ### Sequences of operations -/

namespace Variables

/-- An operation on the variables in scope. -/
inductive Action where
  | enter
  | exit
  /-- What a function does inside a frame of its own, and what it returns. -/
  | within (body : List Action) (outcome : Except SemanticError Unit)
  | declare (pos : Position) (name : Text) (type : Ty) (initialized : Bool)
  | find (pos : Position) (name : Text)
  | read (pos : Position) (name : Text)
  | mark (pos : Position) (name : Text)

/-- The variables after an operation that may fail: failing changes nothing. -/
def settle {ε : Type} (vs : Variables) : Except ε Variables → Variables
  | .ok vs' => vs'
  | .error _ => vs

mutual

/-- The variables after an operation. -/
def Action.run : Action → Variables → Variables
  | .enter, vs => vs.enter
  | .exit, vs => vs.settle vs.exit
  | .within body outcome, vs => (vs.within fun inside => (outcome, runAll body inside)).2.2
  | .declare pos name type initialized, vs =>
    vs.settle ((vs.declareAt pos name type initialized).map Prod.snd)
  | .find pos name, vs => vs.settle ((vs.find pos name).map fun _ => vs)
  | .read pos name, vs => vs.settle ((vs.read pos name).map fun _ => vs)
  | .mark pos name, vs => vs.settle (vs.markInitialized pos name)

/-- The variables after a sequence of operations. -/
def runAll : List Action → Variables → Variables
  | [], vs => vs
  | a :: as, vs => runAll as (a.run vs)

end

/-- In the run of a sequence of operations, an operation is executed at given variables. -/
inductive Executes : List Action → Variables → Action → Variables → Prop
  | here (a : Action) (as : List Action) (vs : Variables) : Executes (a :: as) vs a vs
  | inside {body : List Action} {vs : Variables} {a : Action} {at' : Variables}
      (outcome : Except SemanticError Unit) (as : List Action)
      (h : Executes body vs.enter a at') : Executes (.within body outcome :: as) vs a at'
  | later {as : List Action} {vs : Variables} {a : Action} {at' : Variables} (b : Action)
      (h : Executes as (b.run vs) a at') : Executes (b :: as) vs a at'

/-- In the run, a name is marked at a moment when it is resolved at a depth. -/
def Marks (as : List Action) (vs : Variables) (name : Text) (k : Nat) : Prop :=
  ∃ pos at', Executes as vs (.mark pos name) at' ∧ (at'.resolve? name).map Prod.snd = some k

/-- One frame less, if there is one. -/
def close : Nat → Option Nat
  | 0 => none
  | n + 1 => some n

mutual

/-- The number of open frames after an operation, if it finds all frames that it closes. -/
def Action.frames : Action → Nat → Option Nat
  | .enter, n => some (n + 1)
  | .exit, n => close n
  | .within body _, n => (framesAll body (n + 1)).bind close
  | .declare .., n => some n
  | .find .., n => some n
  | .read .., n => some n
  | .mark .., n => some n

def framesAll : List Action → Nat → Option Nat
  | [], n => some n
  | a :: as, n => (a.frames n).bind (framesAll as)

end

/-- The sequence closes the frames that it opens and no others. -/
def Balanced (as : List Action) : Prop := framesAll as 0 = some 0

instance (as : List Action) : Decidable (Balanced as) := inferInstanceAs (Decidable (_ = _))

/-- The sequence in a frame of its own. -/
def enclosed (as : List Action) : List Action := .enter :: (as ++ [.exit])

/-! ### What is kept -/

/-- The variable is the same but for being initialized, which it is now if it was or if it has
been marked. -/
structure Kept (marked : Prop) (v w : Variable) : Prop where
  name : w.name = v.name
  type : w.type = v.type
  isGlobal : w.isGlobal = v.isGlobal
  initialized : w.initialized = true ↔ v.initialized = true ∨ marked

/-- The variables have the frames of earlier ones, kept but for marks, and some frames more. -/
structure Over (vs : Variables) (marked : Text → Nat → Prop) (n : Nat) (ws : Variables) : Prop where
  depth : ws.depth = vs.depth + n
  bindings : ∀ k ≤ vs.depth, ∀ name,
    Option.Rel (Kept (marked name k)) (vs.binding? k name) (ws.binding? k name)

variable {vs ws : Variables} {marked marked' : Text → Nat → Prop} {n : Nat}

theorem Kept.refl (v : Variable) : Kept False v v := ⟨rfl, rfl, rfl, (or_false _).to_iff.symm⟩

theorem Kept.congr {p q : Prop} {v w : Variable} (h : Kept p v w) (hpq : p ↔ q) : Kept q v w where
  name := h.name
  type := h.type
  isGlobal := h.isGlobal
  initialized := by rw [h.initialized, hpq]

namespace Over

theorem refl (vs : Variables) : Over vs (fun _ _ => False) 0 vs where
  depth := rfl
  bindings k _ name := by
    rcases vs.binding? k name with _ | v
    · exact .none
    · exact .some (.refl v)

theorem congr (h : Over vs marked n ws) (hm : ∀ name k, marked name k ↔ marked' name k) :
    Over vs marked' n ws where
  depth := h.depth
  bindings k hk name := by
    have := h.bindings k hk name
    revert this
    generalize vs.binding? k name = b, ws.binding? k name = c
    rintro (⟨hvw⟩ | _)
    · exact .some (hvw.congr (hm name k))
    · exact .none

theorem enter (h : Over vs marked n ws) : Over vs marked (n + 1) ws.enter where
  depth := by rw [Scopes.depth_enter, h.depth]; rfl
  bindings k hk name := by
    rw [Scopes.binding?_enter (by have := h.depth; omega)]
    exact h.bindings k hk name

theorem atModule (h : Over vs marked (n + 1) ws) : ws.atModule = false := by
  have hdepth := h.depth
  obtain ⟨_ | ⟨f, fs⟩, m⟩ := ws
  · simp only [Scopes.depth, List.length_nil] at hdepth
    omega
  · rfl

theorem leave (h : Over vs marked (n + 1) ws) : Over vs marked n ws.leave where
  depth := by
    have hdepth := h.depth
    have hinner := h.atModule
    obtain ⟨_ | ⟨f, fs⟩, m⟩ := ws
    · cases hinner
    · simp only [Scopes.depth, Scopes.leave, List.length_cons, List.tail_cons] at hdepth ⊢
      omega
  bindings k hk name := by
    rw [Scopes.binding?_leave (by have := h.depth; omega)]
    exact h.bindings k hk name

theorem exit (h : Over vs marked (n + 1) ws) : ws.exit = .ok ws.leave := by
  rw [Scopes.exit, h.atModule]
  rfl

theorem push (h : Over vs marked (n + 1) ws) (name : Text) (v : Variable) :
    Over vs marked (n + 1) (ws.push name v) where
  depth := by rw [Scopes.depth_push, h.depth]
  bindings k hk other := by
    rw [Scopes.binding?_push (by have := h.depth; omega)]
    exact h.bindings k hk other

/-- Marking a name reaches the variable that the name is resolved to. -/
theorem mark (h : Over vs marked n ws) (name : Text) :
    Over vs (fun other k => marked other k ∨
        other = name ∧ (ws.resolve? name).map Prod.snd = some k) n
      (ws.update name fun v => { v with initialized := true }) where
  depth := by
    have hdepth := h.depth
    unfold Scopes.depth at hdepth ⊢
    rw [Scopes.length_inner_update, hdepth]
  bindings k hk other := by
    have hbinding := h.bindings k hk other
    by_cases hfound : other = name ∧ (ws.resolve? name).map Prod.snd = some k
    · obtain ⟨rfl, hdepth⟩ := hfound
      obtain ⟨⟨w, k⟩, hresolve, rfl⟩ := Option.map_eq_some_iff.mp hdepth
      rw [Scopes.binding?_update_self hresolve]
      rw [Scopes.binding?_of_resolve? hresolve] at hbinding
      revert hbinding
      generalize vs.binding? k other = b
      rintro ⟨hvw⟩
      refine .some ⟨hvw.name, hvw.type, hvw.isGlobal, ?_⟩
      simp [hdepth]
    · rw [Scopes.binding?_update_of_ne fun ho hr => hfound ⟨ho, hr⟩]
      revert hbinding
      generalize vs.binding? k other = b, ws.binding? k other = c
      rintro (⟨hvw⟩ | _)
      · exact .some (hvw.congr (or_iff_left hfound).symm)
      · exact .none

end Over

/-! ### Runs -/

theorem marks_cons (a : Action) (as : List Action) (vs : Variables) (name : Text) (k : Nat) :
    Marks (a :: as) vs name k ↔ Marks [a] vs name k ∨ Marks as (a.run vs) name k := by
  constructor
  · rintro ⟨pos, at', h, hk⟩
    cases h with
    | here => exact .inl ⟨pos, _, .here _ _ _, hk⟩
    | inside outcome _ h => exact .inl ⟨pos, _, .inside outcome _ h, hk⟩
    | later _ h => exact .inr ⟨pos, _, h, hk⟩
  · rintro (⟨pos, at', h, hk⟩ | ⟨pos, at', h, hk⟩)
    · cases h with
      | here => exact ⟨pos, _, .here _ _ _, hk⟩
      | inside outcome _ h => exact ⟨pos, _, .inside outcome _ h, hk⟩
      | later _ h => cases h
    · exact ⟨pos, _, .later a h, hk⟩

theorem marks_within (body : List Action) (outcome : Except SemanticError Unit) (vs : Variables)
    (name : Text) (k : Nat) :
    Marks [.within body outcome] vs name k ↔ Marks body vs.enter name k := by
  constructor
  · rintro ⟨pos, at', h, hk⟩
    cases h with
    | inside _ _ h => exact ⟨pos, _, h, hk⟩
    | later _ h => cases h
  · rintro ⟨pos, at', h, hk⟩
    exact ⟨pos, _, .inside outcome [] h, hk⟩

theorem marks_mark (pos : Position) (name other : Text) (vs : Variables) (k : Nat) :
    Marks [.mark pos name] vs other k ↔
      other = name ∧ (vs.resolve? name).map Prod.snd = some k := by
  constructor
  · rintro ⟨pos, at', h, hk⟩
    cases h with
    | here => exact ⟨rfl, hk⟩
    | later _ h => cases h
  · rintro ⟨rfl, hk⟩
    exact ⟨pos, vs, .here _ _ _, hk⟩

/-- The operation can mark a name. -/
def Action.canMark : Action → Bool
  | .within .. => true
  | .mark .. => true
  | _ => false

theorem not_marks {a : Action} (ha : a.canMark = false) (vs : Variables) (name : Text) (k : Nat) :
    ¬Marks [a] vs name k := by
  rintro ⟨pos, at', h, -⟩
  cases h with
  | here => cases ha
  | inside => cases ha
  | later _ h => cases h

theorem Over.unmarked (h : Over vs marked n ws) {a : Action} (ha : a.canMark = false)
    (us : Variables) : Over vs (fun name k => marked name k ∨ Marks [a] us name k) n ws :=
  h.congr fun name k => (or_iff_left (not_marks ha us name k)).symm

theorem run_within (body : List Action) (outcome : Except SemanticError Unit) (vs : Variables) :
    (Action.within body outcome).run vs =
      (runAll body vs.enter).settle (runAll body vs.enter).exit := by
  change (vs.within fun inside => (outcome, runAll body inside)).2.2 = _
  simp only [Scopes.within]
  rcases h : (runAll body vs.enter).exit with e | ws <;> rfl

theorem run_find (pos : Position) (name : Text) (vs : Variables) :
    (Action.find pos name).run vs = vs := by
  change vs.settle ((vs.find pos name).map fun _ => vs) = vs
  rcases vs.find pos name with e | v <;> rfl

theorem run_read (pos : Position) (name : Text) (vs : Variables) :
    (Action.read pos name).run vs = vs := by
  change vs.settle ((vs.read pos name).map fun _ => vs) = vs
  rcases vs.read pos name with e | v <;> rfl

theorem run_declare (pos : Position) (name : Text) (type : Ty) (initialized : Bool)
    (vs : Variables) :
    (Action.declare pos name type initialized).run vs =
      if vs.current.lookup name = none then
        vs.push name { name, type, initialized, isGlobal := vs.atModule }
      else vs := by
  change vs.settle ((vs.declareAt pos name type initialized).map Prod.snd) = _
  unfold declareAt
  simp only
  rcases hd : vs.declare? name { name, type, initialized, isGlobal := vs.atModule } with _ | ws
  · rw [if_neg fun hnone => ?_]
    · rfl
    · rw [Scopes.declare?_eq_some_iff.mpr ⟨hnone, rfl⟩] at hd
      cases hd
  · obtain ⟨hnone, rfl⟩ := Scopes.declare?_eq_some_iff.mp hd
    rw [if_pos hnone]
    rfl

theorem run_mark (pos : Position) (name : Text) (vs : Variables) :
    (Action.mark pos name).run vs =
      if (vs.resolve? name).isSome then vs.update name fun v => { v with initialized := true }
      else vs := by
  change vs.settle (vs.markInitialized pos name) = _
  unfold markInitialized find
  rcases vs.resolve? name with _ | ⟨v, k⟩ <;> rfl

mutual

/-- An operation keeps the frames outside, whose variables it marks or leaves alone. -/
theorem Action.over (a : Action) {n m : Nat} (hm : a.frames n = some m)
    {marked : Text → Nat → Prop} {ws : Variables} (h : Over vs marked (n + 1) ws) :
    Over vs (fun name k => marked name k ∨ Marks [a] ws name k) (m + 1) (a.run ws) := by
  match a with
  | .enter =>
    cases hm
    exact h.enter.unmarked rfl ws
  | .exit =>
    obtain _ | n := n
    · cases hm
    cases hm
    rw [Action.run, h.exit]
    exact h.leave.unmarked rfl ws
  | .within body outcome =>
    obtain ⟨j, hj, hclose⟩ := Option.bind_eq_some_iff.mp hm
    obtain _ | j := j
    · cases hclose
    cases hclose
    have hbody := runAll_over body hj h.enter
    rw [run_within, hbody.exit]
    exact hbody.leave.congr fun name k => by rw [marks_within]
  | .declare pos name type initialized =>
    cases hm
    rw [run_declare]
    split
    · exact (h.push _ _).unmarked rfl ws
    · exact h.unmarked rfl ws
  | .find pos name =>
    cases hm
    rw [run_find]
    exact h.unmarked rfl ws
  | .read pos name =>
    cases hm
    rw [run_read]
    exact h.unmarked rfl ws
  | .mark pos name =>
    cases hm
    rw [run_mark]
    split
    · exact (h.mark name).congr fun other k => by rw [marks_mark]
    · rename_i hnone
      refine h.congr fun other k => (or_iff_left ?_).symm
      rw [marks_mark, Option.not_isSome_iff_eq_none.mp hnone]
      rintro ⟨-, hk⟩
      cases hk

theorem runAll_over (as : List Action) {n m : Nat} (hm : framesAll as n = some m)
    {marked : Text → Nat → Prop} {ws : Variables} (h : Over vs marked (n + 1) ws) :
    Over vs (fun name k => marked name k ∨ Marks as ws name k) (m + 1) (runAll as ws) := by
  match as with
  | [] =>
    cases hm
    refine h.congr fun name k => (or_iff_left ?_).symm
    rintro ⟨pos, at', hnil, -⟩
    cases hnil
  | a :: as =>
    obtain ⟨j, hj, hrest⟩ := Option.bind_eq_some_iff.mp hm
    refine (runAll_over as hrest (a.over hj h)).congr fun name k => ?_
    rw [marks_cons a as, or_assoc]

end

/-! ### The frame of the module -/

/-- The frame of the module still binds what it bound, and initialized variables stay so. -/
def Persists (vs ws : Variables) : Prop :=
  ∀ name v, vs.module.lookup name = some v →
    ∃ marked w, ws.module.lookup name = some w ∧ Kept marked v w

namespace Persists

theorem of_eq (h : ws.module = vs.module) : Persists vs ws := fun _ v hv =>
  ⟨False, v, h ▸ hv, .refl v⟩

theorem trans {us : Variables} (h : Persists us vs) (h' : Persists vs ws) : Persists us ws := by
  intro name u hu
  obtain ⟨p, v, hv, huv⟩ := h name u hu
  obtain ⟨q, w, hw, hvw⟩ := h' name v hv
  refine ⟨p ∨ q, w, hw, hvw.name.trans huv.name, hvw.type.trans huv.type,
    hvw.isGlobal.trans huv.isGlobal, ?_⟩
  rw [hvw.initialized, huv.initialized, or_assoc]

theorem declare {name : Text} (hname : vs.current.lookup name = none) (v : Variable) :
    Persists vs (vs.push name v) := by
  intro other w hw
  rcases hmodule : vs.atModule with _ | _
  · rw [Scopes.module_push_of_inner hmodule]
    exact ⟨False, w, hw, .refl w⟩
  · rw [Scopes.module_push_of_module hmodule, Frame.lookup_cons, if_neg]
    · exact ⟨False, w, hw, .refl w⟩
    · rintro rfl
      have hcurrent : vs.current = vs.module := by
        obtain ⟨_ | ⟨f, fs⟩, m⟩ := vs
        · rfl
        · cases hmodule
      rw [hcurrent, hw] at hname
      cases hname

theorem mark (vs : Variables) (name : Text) :
    Persists vs (vs.update name fun v => { v with initialized := true }) := by
  intro other v hv
  rw [← Scopes.binding?_module] at hv ⊢
  by_cases hfound : other = name ∧ (vs.resolve? name).map Prod.snd = some 1
  · obtain ⟨rfl, hdepth⟩ := hfound
    obtain ⟨⟨w, k⟩, hresolve, hk⟩ := Option.map_eq_some_iff.mp hdepth
    cases hk
    rw [Scopes.binding?_of_resolve? hresolve] at hv
    cases hv
    exact ⟨True, _, Scopes.binding?_update_self hresolve _, rfl, rfl, rfl, by simp⟩
  · rw [Scopes.binding?_update_of_ne fun ho hr => hfound ⟨ho, hr⟩]
    exact ⟨False, v, hv, .refl v⟩

end Persists

theorem persists_exit (vs : Variables) : Persists vs (vs.settle vs.exit) := by
  apply Persists.of_eq
  unfold Scopes.exit
  split <;> rfl

mutual

theorem Action.persists (a : Action) (vs : Variables) : Persists vs (a.run vs) := by
  match a with
  | .enter => exact .of_eq rfl
  | .exit => exact persists_exit vs
  | .within body outcome =>
    have hbody : Persists vs (runAll body vs.enter) := runAll_persists body vs.enter
    rw [run_within]
    exact hbody.trans (persists_exit _)
  | .declare pos name type initialized =>
    rw [run_declare]
    split
    · exact .declare (by assumption) _
    · exact .of_eq rfl
  | .find pos name =>
    rw [run_find]
    exact .of_eq rfl
  | .read pos name =>
    rw [run_read]
    exact .of_eq rfl
  | .mark pos name =>
    rw [run_mark]
    split
    · exact .mark vs name
    · exact .of_eq rfl

theorem runAll_persists (as : List Action) (vs : Variables) : Persists vs (runAll as vs) := by
  match as with
  | [] => exact .of_eq rfl
  | a :: as => exact (a.persists vs).trans (runAll_persists as (a.run vs))

end

/-! ### The discipline of scopes -/

theorem runAll_append (as bs : List Action) (vs : Variables) :
    runAll (as ++ bs) vs = runAll bs (runAll as vs) := by
  induction as generalizing vs with
  | nil => rfl
  | cons a as ih => exact ih (a.run vs)

theorem marks_append (as bs : List Action) (vs : Variables) (name : Text) (k : Nat) :
    Marks (as ++ bs) vs name k ↔ Marks as vs name k ∨ Marks bs (runAll as vs) name k := by
  induction as generalizing vs with
  | nil =>
    refine (or_iff_right ?_).symm
    rintro ⟨pos, at', h, -⟩
    cases h
  | cons a as ih => rw [List.cons_append, marks_cons, ih, marks_cons a as, or_assoc]; rfl

/--
A balanced sequence of operations in a frame of its own leaves the depth and the bindings of
all frames as they were, but that variables which it marked count as initialized. No sequence
at all removes the frame of the module: its bindings stay, and leaving it is refused.
-/
theorem runAll_enclosed (vs : Variables) :
    (∀ as, Balanced as → Over vs (Marks (enclosed as) vs) 0 (runAll (enclosed as) vs)) ∧
      ∀ as, Persists vs (runAll as vs) ∧
        ((runAll as vs).exit = .error .moduleFrame ↔ (runAll as vs).depth = 1) := by
  refine ⟨fun as has => ?_, fun as => ⟨runAll_persists as vs, ?_⟩⟩
  · have hinside := runAll_over as has (Over.refl vs).enter
    have hrun : runAll (enclosed as) vs = (runAll as vs.enter).leave := by
      change runAll (as ++ [.exit]) vs.enter = _
      rw [runAll_append]
      change settle (runAll as vs.enter) (runAll as vs.enter).exit = _
      rw [hinside.exit]
      rfl
    rw [hrun]
    refine hinside.leave.congr fun name k => ?_
    rw [enclosed, marks_cons, marks_append,
      or_iff_right (not_marks rfl vs name k), or_iff_left (not_marks rfl _ name k),
      or_iff_right not_false]
    rfl
  · obtain ⟨_ | ⟨f, fs⟩, m⟩ := runAll as vs <;> simp [Scopes.exit, Scopes.atModule, Scopes.depth]

/-- Two variables of the module that have no value yet. -/
def pair : Variables := runAll [.declare .none "g" .int false, .declare .none "x" .int false] {}

/-- A function that fails inside a frame which hides one of the variables. -/
def eclipse : List Action :=
  [.declare .none "g" .float false,
    .within [.mark .none "g", .mark .none "x", .declare .none "x" .bool true]
      (.error { kind := .undeclaredIdentifier, pos := .none, name := "y" })]

theorem eclipse_enclosed :
    Balanced eclipse ∧
      Over pair (Marks (enclosed eclipse) pair) 0 (runAll (enclosed eclipse) pair) ∧
      ((runAll (enclosed eclipse) pair).binding? 1 "g").map Variable.initialized = some false ∧
      ((runAll (enclosed eclipse) pair).binding? 1 "x").map Variable.initialized = some true := by
  have hbalanced : Balanced eclipse := rfl
  exact ⟨hbalanced, (runAll_enclosed pair).1 eclipse hbalanced, by decide +kernel, by decide +kernel⟩

end Variables

end Augite
