import Augite.Proofs.Typing
import Augite.Proofs.Bare

/-!
# Orderly programs

The two passes meet a program in the same order, with two exceptions: the step of a
counting loop comes before its body in one and behind it in the other, and a list is
declared behind its elements in one and before them in the other. In an orderly program
neither makes a difference.
-/

namespace Augite.Node

mutual

/-- The variables that an expression mentions. -/
def mentions : Node → List Text
  | .var _ name => [name]
  | .binary _ _ l r => mentions l ++ mentions r
  | .unary _ _ x => mentions x
  | .call _ _ xs => mentionsAll xs
  | .dot a xs => a.name :: mentionsAll xs
  | _ => []
termination_by structural n => n

def mentionsAll : List Node → List Text
  | [] => []
  | x :: xs => mentions x ++ mentionsAll xs
termination_by structural xs => xs

end

mutual

/-- No step of a counting loop is a declaration, and no list is mentioned in its own
elements. -/
def orderly : Node → Bool
  | .branch _ _ _ yes none => allOrderly yes
  | .branch _ _ _ yes (some no) => allOrderly yes && allOrderly no
  | .whileLoop _ _ _ body => allOrderly body
  | .forLoop _ _ init _ step body =>
    orderly init && step.declared?.isNone && orderly step && allOrderly body
  | .listDecl _ name _ xs => !(mentionsAll xs).contains name
  | .funcDef _ _ _ _ body => allOrderly body
  | _ => true
termination_by structural n => n

def allOrderly : List Node → Bool
  | [] => true
  | n :: rest => orderly n && allOrderly rest
termination_by structural ns => ns

end

/-! ### Annotations do not matter -/

mutual

theorem mentions_bare (n : Node) : n.bare.mentions = n.mentions := by
  cases n with
  | binary m op l r => simp only [bare, mentions, mentions_bare l, mentions_bare r]
  | unary m op x => simp only [bare, mentions, mentions_bare x]
  | call m name xs => simp only [bare, mentions, mentionsAll_bare xs]
  | dot a xs => simp only [bare, mentions, mentionsAll_bare xs, Access.bare]
  | ret m value => cases value <;> rfl
  | branch m merge test yes no => cases no <;> rfl
  | _ => rfl
termination_by structural n

theorem mentionsAll_bare (xs : List Node) : mentionsAll (bareAll xs) = mentionsAll xs := by
  cases xs with
  | nil => rfl
  | cons x xs => simp only [bareAll, mentionsAll, mentions_bare x, mentionsAll_bare xs]
termination_by structural xs

end

theorem declared?_bare (n : Node) : n.bare.declared? = n.declared? := by
  cases n with
  | ret m value => cases value <;> rfl
  | branch m merge test yes no => cases no <;> rfl
  | _ => rfl

mutual

theorem orderly_bare (n : Node) : n.bare.orderly = n.orderly := by
  cases n with
  | ret m value => cases value <;> rfl
  | branch m merge test yes no =>
    cases no with
    | none => simp only [bare, orderly, allOrderly_bare yes]
    | some no => simp only [bare, orderly, allOrderly_bare yes, allOrderly_bare no]
  | whileLoop m merge test body => simp only [bare, orderly, allOrderly_bare body]
  | forLoop m merge init test step body =>
    simp only [bare, orderly, orderly_bare init, orderly_bare step, declared?_bare step,
      allOrderly_bare body]
  | listDecl m name k xs => simp only [bare, orderly, mentionsAll_bare]
  | funcDef m name params result body => simp only [bare, orderly, allOrderly_bare body]
  | _ => rfl
termination_by structural n

theorem allOrderly_bare (ns : List Node) : allOrderly (bareAll ns) = allOrderly ns := by
  cases ns with
  | nil => rfl
  | cons n rest => simp only [bareAll, allOrderly, orderly_bare n, allOrderly_bare rest]
termination_by structural ns

end

end Augite.Node

namespace Augite

/-- A program whose items are orderly. -/
def Program.orderly (p : Program) : Bool := Node.allOrderly p.body

/-- Orderliness is a matter of the tree that was read. -/
theorem Program.orderly_of_bare {p q : Program} (h : Node.bareAll p.body = Node.bareAll q.body) :
    p.orderly = q.orderly := by
  unfold orderly
  rw [← Node.allOrderly_bare p.body, h, Node.allOrderly_bare]

namespace Typing

theorem Uses.push {m : Mark} {Γ : Environment} {name : Text} {d : Declaration}
    (h : m.Uses Γ name d) {other : Text} (hne : name ≠ other) (e : Declaration) :
    m.Uses (Γ.push other e) name d := by
  obtain ⟨k, hk, hglobal⟩ := h.found
  exact ⟨⟨k, by rw [Scopes.resolve?_push_of_ne _ hne]; exact hk, hglobal⟩, h.type⟩

section

variable {F : Context} {Γ : Environment} {other : Text} (e : Declaration)

mutual

/-- A declaration of a name that an expression does not mention makes no difference to it. -/
theorem HasType.push {n : Node} {t : Ty} (hn : HasType F Γ n t) (h : other ∉ n.mentions) :
    HasType F (Γ.push other e) n t := by
  cases n with
  | int | float | char | string | bool =>
    cases hn
    constructor
    assumption
  | var m name =>
    obtain ⟨d, hd, rfl⟩ := hn.of_var
    exact .var (Uses.push hd (by simpa [Node.mentions, eq_comm] using h) e)
  | binary m op l r =>
    obtain ⟨lt, rt, hl, hr, hres, hm⟩ := hn.of_binary
    simp only [Node.mentions, List.mem_append, not_or] at h
    exact .binary (hl.push h.1) (hr.push h.2) hres hm
  | unary m op x =>
    obtain ⟨xt, hx, hres, hm⟩ := hn.of_unary
    exact .unary (hx.push h) hres hm
  | call m name xs =>
    obtain ⟨sig, hsig, hxs, rfl⟩ := hn.of_call
    exact .call hsig (hxs.push h) hn.type_eq
  | dot a xs =>
    obtain ⟨d, f, ha, hxs, rfl⟩ := hn.of_dot
    simp only [Node.mentions, List.mem_cons, not_or] at h
    exact .dot ⟨Uses.push ha.receiver (Ne.symm h.1) e, ha.aggregate, ha.isClass, ha.member, ha.type⟩
      (hxs.push h.2)
  | _ => cases hn
termination_by structural n

theorem HasTypes.push {ps : List Ty} {xs : List Node} (hxs : HasTypes F Γ ps xs)
    (h : other ∉ Node.mentionsAll xs) : HasTypes F (Γ.push other e) ps xs := by
  cases xs with
  | nil =>
    cases hxs
    exact .nil
  | cons x xs =>
    obtain ⟨p, ps, t, rfl, hx, hacc, hxs⟩ := hxs.of_cons
    simp only [Node.mentionsAll, List.mem_append, not_or] at h
    exact .cons (hx.push h.1) hacc (hxs.push h.2)
termination_by structural xs

end

theorem AllAccepted.push {t : Ty} {xs : List Node} (hxs : AllAccepted F Γ t xs)
    (h : other ∉ Node.mentionsAll xs) : AllAccepted F (Γ.push other e) t xs := by
  induction xs with
  | nil => exact nofun
  | cons x xs ih =>
    simp only [Node.mentionsAll, List.mem_append, not_or] at h
    intro y hy
    rcases List.mem_cons.mp hy with rfl | hy
    · obtain ⟨xt, hx, hacc⟩ := hxs y (by simp)
      exact ⟨xt, hx.push e h.1, hacc⟩
    · exact ih (fun z hz => hxs z (List.mem_cons_of_mem _ hz)) h.2 y hy

end

end Typing

end Augite
