import Augite.Proofs.LoweringSteps

/-!
# Blocks under construction

What each step of lowering does to the blocks as a whole: which of them are open, how many
branches lead to a block, and which stack slots there are.
-/

namespace Augite.Lowering

/-- A change of one element of a list by which a sum grows. -/
theorem sum_map_modify {α : Type} (l : List α) (b k : Nat) (f : α → α) (g : α → Nat)
    (h : ∀ a, l[b]? = some a → g (f a) = g a + k) (hb : b < l.length) :
    ((l.modify b f).map g).sum = (l.map g).sum + k := by
  induction l generalizing b with
  | nil => simp at hb
  | cons a l ih =>
    cases b with
    | zero =>
      have := h a rfl
      simp only [List.modify_zero_cons, List.map_cons, List.sum_cons, this]
      omega
    | succ b =>
      simp only [List.modify_succ_cons, List.map_cons, List.sum_cons]
      rw [ih b (fun a ha => h a (by simpa using ha)) (by simpa using hb)]
      omega

namespace State

variable {s t u : State}

/-! ### Open blocks -/

/-- The terminators of the blocks. -/
def terms (s : State) : List (Option IR.Term) := s.arena.map Draft.term

/-- The block is there and is not terminated. -/
def IsOpen (s : State) (b : Nat) : Prop := s.terms[b]? = some none

theorem isOpen_iff {b : Nat} : s.IsOpen b ↔ ∃ d, s.draft? b = some d ∧ d.term = none := by
  simp [IsOpen, terms, draft?, List.getElem?_map]

theorem IsOpen.lt {b : Nat} (h : s.IsOpen b) : b < s.arena.length := by
  obtain ⟨d, hd, -⟩ := isOpen_iff.mp h
  exact lt_of_draft? hd

theorem done_eq (s : State) : s.done = (s.terms[s.body.cur]?.bind id).isSome := by
  unfold done draft? terms
  rw [List.getElem?_map]
  rcases s.arena[s.body.cur]? with _ | d <;> rfl

theorem terms_emitted (s : State) (op : IR.Op) : (s.emitted op).terms = s.terms :=
  map_modify_of_eq _ _ _ _ fun _ => rfl

theorem terms_reserved (s : State) (name : Text) (t : IR.Typ) : (s.reserved name t).terms = s.terms :=
  map_modify_of_eq _ _ _ _ fun _ => rfl

/-! ### Branches -/

theorem entering_eq (s : State) (b : Nat) :
    s.entering b = (s.arena.map fun d => ((d.term.map targets).getD []).count b).sum :=
  List.count_flatMap

theorem entering_congr (h : u.terms = s.terms) (b : Nat) : u.entering b = s.entering b := by
  have key : ∀ s : State, s.entering b =
      (s.terms.map fun x => ((x.map targets).getD []).count b).sum := by
    intro s
    rw [entering_eq, terms, List.map_map]
    rfl
  rw [key, key, h]

theorem entering_opened (s : State) (func : Nat) (role : IR.Role) (b : Nat) :
    (s.opened func role).entering b = s.entering b := by
  simp [entering_eq, opened]

theorem entering_grown (s : State) (role : IR.Role) (b : Nat) :
    (s.grown role).entering b = s.entering b :=
  entering_opened s s.body.func role b

theorem entering_closed (h : s.IsOpen s.body.cur) (x : IR.Term) (b : Nat) :
    (s.closed x).entering b = s.entering b + (targets x).count b := by
  rw [entering_eq, entering_eq]
  obtain ⟨d, hd, hterm⟩ := isOpen_iff.mp h
  refine sum_map_modify s.arena _ _ _ _ (fun a ha => ?_) h.lt
  obtain rfl : d = a := Option.some.inj (hd.symm.trans ha)
  simp [hterm]

theorem entering_joined (hcur : s.done = false → s.IsOpen s.body.cur) (x b : Nat) :
    (s.joined x).entering b = s.entering b + if s.done = false ∧ b = x then 1 else 0 := by
  unfold joined
  split
  · rename_i hdone
    simp [hdone]
  · rename_i hdone
    have hopen : s.done = false := by simpa using hdone
    rw [entering_closed (hcur hopen)]
    by_cases hb : b = x
    · simp [targets, hopen, hb]
    · simp [targets, hb, Ne.symm hb]

end State

/-! ### Conversions -/

def isConversion : IR.Op → Bool
  | .sitofp _ _ => true
  | _ => false

/-- The number of conversions among instructions. -/
def conversionsIn (is : List IR.Inst) : Nat := is.countP fun i => isConversion i.op

namespace State

variable {s t u : State}

/-- The number of conversions emitted so far. -/
def conversions (s : State) : Nat := (s.arena.map fun d => conversionsIn d.insts).sum

theorem conversions_emitted (hs : s.Seated) (op : IR.Op) :
    (s.emitted op).conversions = s.conversions + (isConversion op).toNat := by
  obtain ⟨d, hd, -⟩ := hs.cur
  refine sum_map_modify s.arena _ _ _ _ (fun a _ => ?_) (lt_of_draft? hd)
  simp only [conversionsIn, List.countP_append, List.countP_singleton, nextInst]
  cases isConversion op <;> rfl

theorem conversions_closed (s : State) (x : IR.Term) : (s.closed x).conversions = s.conversions :=
  congrArg List.sum (map_modify_of_eq _ _ _ _ fun _ => rfl)

theorem conversions_grown (s : State) (role : IR.Role) :
    (s.grown role).conversions = s.conversions := by
  simp [conversions, grown, opened, conversionsIn]

theorem conversions_reserved (s : State) (name : Text) (x : IR.Typ) :
    (s.reserved name x).conversions = s.conversions := by
  refine congrArg List.sum (map_modify_of_eq _ _ _ _ fun d => ?_)
  have halloca : isConversion (s.nextInst (.alloca (s.slotName name) x)).op = false := rfl
  simp only [conversionsIn, List.countP_append, List.countP_cons, halloca]
  rw [if_neg (by decide), Nat.add_zero, ← List.countP_append, List.take_append_drop]

/-! ### Stack slots -/

/-- The stack slots in a block. -/
def allocas? (s : State) (b : Nat) : Option (List IR.Inst) := (s.draft? b).map Draft.allocas

theorem allocas?_emitted {op : IR.Op} (hop : op.isAlloca = false) {b : Nat} :
    (s.emitted op).allocas? b = s.allocas? b := by
  unfold allocas?
  rw [draft?_emitted, Option.map_map]
  congr 1
  funext d
  simp only [Function.comp_apply]
  split
  · simp [Draft.allocas, nextInst, hop]
  · rfl

theorem allocas?_closed {x : IR.Term} {b : Nat} : (s.closed x).allocas? b = s.allocas? b := by
  unfold allocas?
  rw [draft?_closed, Option.map_map]
  congr 1
  funext d
  simp only [Function.comp_apply]
  split <;> rfl

theorem allocas?_grown {role : IR.Role} {b : Nat} (h : b < s.arena.length) :
    (s.grown role).allocas? b = s.allocas? b := by
  unfold allocas?
  rw [grown, draft?_opened, if_neg (by omega)]

/-! ### Blocks of the function under construction -/

/-- The block is one of the function under construction. -/
def Owns (s : State) (b : Nat) : Prop := ∃ d, s.draft? b = some d ∧ d.func = s.body.func

theorem owns_grown (s : State) (role : IR.Role) : (s.grown role).Owns s.arena.length :=
  ⟨_, draft?_grown s role, rfl⟩

theorem Owns.mono {b : Nat} (h : s.Owns b) (hg : s.Grows u) (hf : u.body.func = s.body.func) :
    u.Owns b := by
  obtain ⟨d, hd, hfunc⟩ := h
  obtain ⟨e, he, hde⟩ := hg.drafts b d hd
  exact ⟨e, he, by rw [hde.func, hfunc, hf]⟩

end State

end Augite.Lowering
