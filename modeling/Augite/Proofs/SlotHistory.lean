import Augite.Proofs.LocalNames

/-!
# The history of stack slots

Lowering goes from moment to moment: a `Moment` is a state together with the stack slots that
were made so far, in their order. The slots of a function stand at the head of its entry block
at every moment, whatever else the block holds, and a new one is put between them and the rest.
-/

namespace Augite.Lowering

open State

/-! ### Moments -/

/-- A stack slot that was made: its function, its variable and the instruction that reserves it. -/
structure Reservation where
  func : Nat
  name : Text
  inst : IR.Inst

/-- The stack slot that is made next, if it is for this variable. -/
def State.nextSlot (s : State) (name : Text) (t : IR.Typ) : Reservation :=
  { func := s.body.func, name, inst := s.nextInst (.alloca (s.slotName name) t) }

/-- A state and how lowering came to it. -/
structure Moment where
  state : State
  /-- The stack slots that were made, the earliest first. -/
  made : List Reservation := []
  /-- The functions of the program that have come to their end. -/
  finished : List Nat := []
  /-- The entry point, while a function of the program is under construction. -/
  suspended : Option Body := none

namespace Moment

/-- The stack slots that were made for a function. -/
def slots (m : Moment) (func : Nat) : List Reservation := m.made.filter fun r => r.func = func

/-- The variables that the stack slots of a function were made for. -/
def named (m : Moment) (func : Nat) : List Text := (m.slots func).map Reservation.name

/-- What lowering does at a time. Everything but the blocks and the place in them is in tables. -/
inductive Advance : Moment → Moment → Prop
  | emitted (m : Moment) {op : IR.Op} (hop : op.isAlloca = false) :
      Advance m { m with state := m.state.emitted op }
  | closed (m : Moment) (t : IR.Term) : Advance m { m with state := m.state.closed t }
  | grown (m : Moment) {role : IR.Role} (hrole : role ≠ .entry) :
      Advance m { m with state := m.state.grown role }
  | moved (m : Moment) (b : Nat) : Advance m { m with state := m.state.moved b }
  | tabled (m : Moment) {u : State} (harena : u.arena = m.state.arena)
      (hbody : u.body = m.state.body) : Advance m { m with state := u }
  | reserved (m : Moment) (name : Text) (t : IR.Typ) :
      Advance m { m with
        state := m.state.reserved name t
        made := m.made ++ [m.state.nextSlot name t] }
  | begun (m : Moment) {func : Nat} (hnew : ∀ b x, m.state.outline b ≠ some (func, x))
      (sig : Option Signature) (hmain : m.suspended = none) :
      Advance m { m with state := m.state.begun func sig, suspended := some m.state.body }
  | resumed (m : Moment) {body : Body} (hmain : m.suspended = some body) :
      Advance m { m with
        state := { m.state with body }
        finished := m.finished ++ [m.state.body.func]
        suspended := none }

/-- Lowering comes from one moment to another. -/
abbrev Reaches : Moment → Moment → Prop := Relation.ReflTransGen Advance

/-! ### Slots at the head -/

/-- Stack slots stand at the heads of entry blocks, those of each function in the order in which
they were made, and nowhere else. -/
structure SlotsFirst (m : Moment) : Prop where
  leading : ∀ b d, m.state.draft? b = some d → d.role = .entry →
    ∃ code, d.insts = (m.slots d.func).map Reservation.inst ++ code ∧
      ∀ i ∈ code, i.op.isAlloca = false
  elsewhere : ∀ b d, m.state.draft? b = some d → d.role ≠ .entry →
    ∀ i ∈ d.insts, i.op.isAlloca = false
  single : ∀ b c d e, m.state.draft? b = some d → m.state.draft? c = some e → d.role = .entry →
    e.role = .entry → d.func = e.func → b = c
  shaped : ∀ r ∈ m.made, ∃ k t, r.inst.op = .alloca (slotText r.name k) t

/-- The body is that of a function with an entry block, and it counts the function's slots. -/
structure Rooted (m : Moment) (body : Body) : Prop where
  entry : ∃ d, m.state.draft? body.entry = some d ∧ d.func = body.func ∧ d.role = .entry
  count : body.slots = (m.slots body.func).length
  unfinished : body.func ∉ m.finished

/-- The slots are in their places and accounted for. -/
structure Tidy (m : Moment) : Prop extends SlotsFirst m where
  body : m.Rooted m.state.body
  waiting : ∀ body, m.suspended = some body → m.Rooted body ∧ body.func ≠ m.state.body.func
  placed : ∀ r ∈ m.made, ∃ b d, m.state.draft? b = some d ∧ d.func = r.func ∧ d.role = .entry
  ended : ∀ f ∈ m.finished, ∃ b d, m.state.draft? b = some d ∧ d.func = f ∧ d.role = .entry

variable {m n : Moment}

theorem slots_eq_nil {f : Nat} (h : ∀ r ∈ m.made, r.func ≠ f) : m.slots f = [] :=
  List.filter_eq_nil_iff.mpr fun r hr => by simpa using h r hr

theorem isAlloca_of_mem_slots (h : m.SlotsFirst) {f : Nat} {i : IR.Inst}
    (hi : i ∈ (m.slots f).map Reservation.inst) : i.op.isAlloca = true := by
  obtain ⟨r, hr, rfl⟩ := List.mem_map.mp hi
  obtain ⟨k, t, hop⟩ := h.shaped r (List.mem_filter.mp hr).1
  rw [hop]
  rfl

/-- A function that is new has no slots yet. -/
theorem Tidy.slots_of_new (h : m.Tidy) {f : Nat} (hnew : ∀ b x, m.state.outline b ≠ some (f, x)) :
    m.slots f = [] := by
  refine slots_eq_nil fun r hr heq => ?_
  obtain ⟨b, d, hd, hfunc, -⟩ := h.placed r hr
  exact hnew b d.term (outline_eq_some_iff.mpr ⟨d, hd, hfunc.trans heq, rfl⟩)

/-- A function that is new has not come to its end. -/
theorem Tidy.not_mem_finished (h : m.Tidy) {f : Nat}
    (hnew : ∀ b x, m.state.outline b ≠ some (f, x)) : f ∉ m.finished := by
  intro hf
  obtain ⟨b, d, hd, hfunc, -⟩ := h.ended f hf
  exact hnew b d.term (outline_eq_some_iff.mpr ⟨d, hd, hfunc, rfl⟩)

/-- A function that is new is not the one under construction. -/
theorem Rooted.ne_of_new {body : Body} (h : m.Rooted body) {f : Nat}
    (hnew : ∀ b x, m.state.outline b ≠ some (f, x)) : body.func ≠ f := by
  obtain ⟨d, hd, hfunc, -⟩ := h.entry
  intro heq
  exact hnew body.entry d.term (outline_eq_some_iff.mpr ⟨d, hd, hfunc.trans heq, rfl⟩)

/-! ### Steps that make no slots -/

/-- Blocks get code other than stack slots behind what they have, and new blocks are empty ones
that are no entry blocks. -/
structure Extends (s u : State) : Prop where
  grows : ∀ b d, s.draft? b = some d → ∃ e, u.draft? b = some e ∧ e.func = d.func ∧
    e.role = d.role ∧ ∃ more, e.insts = d.insts ++ more ∧ ∀ i ∈ more, i.op.isAlloca = false
  fresh : ∀ b e, u.draft? b = some e → (∃ d, s.draft? b = some d) ∨ e.role ≠ .entry ∧ e.insts = []

namespace Extends

variable {s : State}

theorem of_arena {u : State} (h : u.arena = s.arena) : Extends s u := by
  have hdraft : u.draft? = s.draft? := by
    funext b
    rw [draft?, draft?, h]
  refine ⟨fun b d hd => ?_, fun b e he => .inl ⟨e, hdraft ▸ he⟩⟩
  rw [hdraft]
  exact ⟨d, hd, rfl, rfl, [], (List.append_nil _).symm, List.forall_mem_nil _⟩

theorem emitted (s : State) {op : IR.Op} (hop : op.isAlloca = false) : Extends s (s.emitted op) := by
  constructor
  · intro b d hd
    rw [draft?_emitted, hd]
    refine ⟨_, rfl, ?_⟩
    split
    · refine ⟨rfl, rfl, [s.nextInst op], rfl, fun i hi => ?_⟩
      rw [List.mem_singleton.mp hi]
      exact hop
    · exact ⟨rfl, rfl, [], (List.append_nil _).symm, List.forall_mem_nil _⟩
  · intro b e he
    rw [draft?_emitted, Option.map_eq_some_iff] at he
    obtain ⟨d, hd, -⟩ := he
    exact .inl ⟨d, hd⟩

theorem closed (s : State) (t : IR.Term) : Extends s (s.closed t) := by
  constructor
  · intro b d hd
    rw [draft?_closed, hd]
    refine ⟨_, rfl, ?_⟩
    split <;> exact ⟨rfl, rfl, [], (List.append_nil _).symm, List.forall_mem_nil _⟩
  · intro b e he
    rw [draft?_closed, Option.map_eq_some_iff] at he
    obtain ⟨d, hd, -⟩ := he
    exact .inl ⟨d, hd⟩

theorem grown (s : State) {role : IR.Role} (hrole : role ≠ .entry) : Extends s (s.grown role) := by
  constructor
  · intro b d hd
    rw [State.grown, draft?_opened, if_neg (lt_of_draft? hd).ne]
    exact ⟨d, hd, rfl, rfl, [], (List.append_nil _).symm, List.forall_mem_nil _⟩
  · intro b e he
    rw [State.grown, draft?_opened] at he
    split at he
    · cases he
      exact .inr ⟨hrole, rfl⟩
    · exact .inl ⟨e, he⟩

end Extends

/-- Blocks that have grown are as tidy as they were. -/
theorem Tidy.extended (h : m.Tidy) {u : State} (hext : Extends m.state u)
    (hfunc : u.body.func = m.state.body.func) (hentry : u.body.entry = m.state.body.entry)
    (hslots : u.body.slots = m.state.body.slots) : Tidy { m with state := u } := by
  have hback : ∀ b e, u.draft? b = some e → e.role = .entry → ∃ d, m.state.draft? b = some d ∧
      e.func = d.func ∧ d.role = .entry ∧
      ∃ more, e.insts = d.insts ++ more ∧ ∀ i ∈ more, i.op.isAlloca = false := by
    intro b e he hrole
    rcases hext.fresh b e he with ⟨d, hd⟩ | ⟨hne, -⟩
    · obtain ⟨e', he', hf, hr, hmore⟩ := hext.grows b d hd
      rw [he] at he'
      cases he'
      exact ⟨d, hd, hf, hr.symm.trans hrole, hmore⟩
    · exact absurd hrole hne
  have hroot : ∀ body, m.Rooted body → Rooted { m with state := u } body := by
    intro body hbody
    obtain ⟨d, hd, hf, hrole⟩ := hbody.entry
    obtain ⟨e, he, hf', hrole', -⟩ := hext.grows _ d hd
    exact ⟨⟨e, he, hf'.trans hf, hrole'.trans hrole⟩, hbody.count, hbody.unfinished⟩
  have hkept : ∀ f, (∃ b d, m.state.draft? b = some d ∧ d.func = f ∧ d.role = .entry) →
      ∃ b d, u.draft? b = some d ∧ d.func = f ∧ d.role = .entry := by
    rintro f ⟨b, d, hd, hf, hrole⟩
    obtain ⟨e, he, hf', hrole', -⟩ := hext.grows b d hd
    exact ⟨b, e, he, hf'.trans hf, hrole'.trans hrole⟩
  refine ⟨⟨fun b e he hrole => ?_, fun b e he hrole i hi => ?_, fun b c d e hd he hrole hrole' hf => ?_,
    h.shaped⟩, ?_, fun body hbody => ?_, fun r hr => hkept _ (h.placed r hr),
    fun f hf => hkept _ (h.ended f hf)⟩
  · obtain ⟨d, hd, hf, hrole, more, hinsts, hmore⟩ := hback b e he hrole
    obtain ⟨code, hd', hcode⟩ := h.leading b d hd hrole
    refine ⟨code ++ more, ?_, fun i hi => (List.mem_append.mp hi).elim (hcode i) (hmore i)⟩
    rw [hinsts, hd', hf, List.append_assoc]
    rfl
  · rcases hext.fresh b e he with ⟨d, hd⟩ | ⟨-, hnil⟩
    · obtain ⟨e', he', -, hr, more, hinsts, hmore⟩ := hext.grows b d hd
      rw [he] at he'
      cases he'
      rw [hinsts] at hi
      exact (List.mem_append.mp hi).elim (h.elsewhere b d hd (hr ▸ hrole) i) (hmore i)
    · rw [hnil] at hi
      cases hi
  · obtain ⟨d', hd', hf₁, hrole₁, -⟩ := hback b d hd hrole
    obtain ⟨e', he', hf₂, hrole₂, -⟩ := hback c e he hrole'
    exact h.single b c d' e' hd' he' hrole₁ hrole₂ (hf₁.symm.trans (hf.trans hf₂))
  · have hbody := hroot _ h.body
    refine ⟨hfunc ▸ hentry ▸ hbody.entry, ?_, ?_⟩
    · change u.body.slots = _
      rw [hslots, hfunc]
      exact hbody.count
    · change u.body.func ∉ _
      rw [hfunc]
      exact hbody.unfinished
  · obtain ⟨hrooted, hne⟩ := h.waiting body hbody
    exact ⟨hroot body hrooted, fun heq => hne (heq.trans hfunc)⟩

/-! ### A slot more -/

/-- The slots that a function has when one more was made. -/
theorem slots_concat (m : Moment) (r : Reservation) (f : Nat) :
    Moment.slots { m with made := m.made ++ [r] } f =
      m.slots f ++ if r.func = f then [r] else [] := by
  unfold Moment.slots
  rw [List.filter_append]
  by_cases h : r.func = f <;> simp [h]

theorem draft?_reserved_of_ne {s : State} {b : Nat} (hb : b ≠ s.body.entry) (name : Text)
    (t : IR.Typ) : (s.reserved name t).draft? b = s.draft? b := by
  rw [draft?_reserved]
  cases s.draft? b with
  | none => rfl
  | some d => rw [Option.map_some, if_neg hb.symm]

/-- The entry block of the function under construction: its slots, up to their count, and its
code behind them. A new slot is put between the two, and nothing else changes. -/
structure EntrySplit (m : Moment) (d : Draft) (code : List IR.Inst) : Prop where
  entry : m.state.draft? m.state.body.entry = some d
  func : d.func = m.state.body.func
  role : d.role = .entry
  insts : d.insts = (m.slots m.state.body.func).map Reservation.inst ++ code
  plain : ∀ i ∈ code, i.op.isAlloca = false
  count : d.insts.take m.state.body.slots = (m.slots m.state.body.func).map Reservation.inst
  inserted : ∀ name t v next, (Emit.stackSlot name t).run m.state = (.ok v, next) →
    next.draft? m.state.body.entry = some { d with
      insts := (m.slots m.state.body.func).map Reservation.inst ++
        (m.state.nextSlot name t).inst :: code } ∧
    ∀ b, b ≠ m.state.body.entry → next.draft? b = m.state.draft? b

theorem Tidy.exists_entrySplit (h : m.Tidy) : ∃ d code, m.EntrySplit d code := by
  obtain ⟨d, hd, hfunc, hrole⟩ := h.body.entry
  obtain ⟨code, hinsts, hcode⟩ := h.leading _ d hd hrole
  rw [hfunc] at hinsts
  have hlength : ((m.slots m.state.body.func).map Reservation.inst).length = m.state.body.slots := by
    rw [List.length_map, h.body.count]
  have htake : d.insts.take m.state.body.slots = (m.slots m.state.body.func).map Reservation.inst := by
    rw [hinsts]
    exact List.take_left' hlength
  have hdrop : d.insts.drop m.state.body.slots = code := by
    rw [hinsts]
    exact List.drop_left' hlength
  refine ⟨d, code, hd, hfunc, hrole, hinsts, hcode, htake, fun name t v next hrun => ?_⟩
  rw [Emit.run_stackSlot] at hrun
  obtain ⟨-, rfl⟩ := Prod.mk.inj hrun
  refine ⟨?_, fun b hb => draft?_reserved_of_ne hb name t⟩
  rw [draft?_reserved, hd, Option.map_some, if_pos rfl, htake, hdrop]
  rfl

theorem Tidy.reserved (h : m.Tidy) (name : Text) (t : IR.Typ) :
    Tidy { m with
      state := m.state.reserved name t
      made := m.made ++ [m.state.nextSlot name t] } := by
  set m' : Moment := { m with
    state := m.state.reserved name t
    made := m.made ++ [m.state.nextSlot name t] } with hm'
  obtain ⟨d₀, code₀, hd₀, hfunc₀, hrole₀, hinsts₀, hcode₀, -, hinserted⟩ := h.exists_entrySplit
  obtain ⟨hentry, hrest⟩ := hinserted name t _ _ (Emit.run_stackSlot _ name t)
  have hslots : ∀ f, m'.slots f =
      m.slots f ++ if m.state.body.func = f then [m.state.nextSlot name t] else [] :=
    slots_concat m _
  have hother : ∀ f, f ≠ m.state.body.func → m'.slots f = m.slots f := by
    intro f hf
    rw [hslots, if_neg hf.symm, List.append_nil]
  -- A block is the entry block of the function under construction, or what it was.
  have hcases : ∀ b e, m'.state.draft? b = some e → (b = m.state.body.entry ∧ e = { d₀ with
      insts := (m.slots m.state.body.func).map Reservation.inst ++
        (m.state.nextSlot name t).inst :: code₀ }) ∨
      b ≠ m.state.body.entry ∧ m.state.draft? b = some e := by
    intro b e he
    by_cases hb : b = m.state.body.entry
    · subst hb
      exact .inl ⟨rfl, Option.some.inj (he.symm.trans hentry)⟩
    · exact .inr ⟨hb, (hrest b hb).symm.trans he⟩
  have hback : ∀ b e, m'.state.draft? b = some e →
      ∃ d, m.state.draft? b = some d ∧ e.func = d.func ∧ e.role = d.role := by
    intro b e he
    rcases hcases b e he with ⟨rfl, rfl⟩ | ⟨-, hd⟩
    · exact ⟨d₀, hd₀, rfl, rfl⟩
    · exact ⟨e, hd, rfl, rfl⟩
  have hforth : ∀ b d, m.state.draft? b = some d →
      ∃ e, m'.state.draft? b = some e ∧ e.func = d.func ∧ e.role = d.role := by
    intro b d hd
    by_cases hb : b = m.state.body.entry
    · subst hb
      rw [hd₀] at hd
      cases hd
      exact ⟨_, hentry, rfl, rfl⟩
    · exact ⟨d, (hrest b hb).trans hd, rfl, rfl⟩
  have hkept : ∀ f, (∃ b d, m.state.draft? b = some d ∧ d.func = f ∧ d.role = .entry) →
      ∃ b d, m'.state.draft? b = some d ∧ d.func = f ∧ d.role = .entry := by
    rintro f ⟨b, d, hd, hf, hrole⟩
    obtain ⟨e, he, hf', hrole'⟩ := hforth b d hd
    exact ⟨b, e, he, hf'.trans hf, hrole'.trans hrole⟩
  refine ⟨⟨fun b e he hrole => ?_, fun b e he hrole i hi => ?_, fun b c d e hd he hrole hrole' hf => ?_,
    fun r hr => ?_⟩, ⟨?_, ?_, h.body.unfinished⟩, fun body hbody => ?_, fun r hr => ?_,
    fun f hf => hkept f (h.ended f hf)⟩
  · rcases hcases b e he with ⟨-, rfl⟩ | ⟨hb, hd⟩
    · refine ⟨code₀, ?_, hcode₀⟩
      rw [hslots, if_pos hfunc₀.symm, hfunc₀, List.map_append, List.append_assoc]
      rfl
    · have hf : e.func ≠ m.state.body.func := fun hf =>
        hb (h.single b _ e d₀ hd hd₀ hrole hrole₀ (hf.trans hfunc₀.symm))
      rw [hother _ hf]
      exact h.leading b e hd hrole
  · rcases hcases b e he with ⟨-, rfl⟩ | ⟨-, hd⟩
    · exact absurd hrole₀ hrole
    · exact h.elsewhere b e hd hrole i hi
  · obtain ⟨d', hd', hf₁, hr₁⟩ := hback b d hd
    obtain ⟨e', he', hf₂, hr₂⟩ := hback c e he
    exact h.single b c d' e' hd' he' (hr₁ ▸ hrole) (hr₂ ▸ hrole') (hf₁.symm.trans (hf.trans hf₂))
  · rcases List.mem_append.mp hr with hr | hr
    · exact h.shaped r hr
    · rw [List.mem_singleton.mp hr]
      exact ⟨m.state.uses name, t, rfl⟩
  · exact ⟨_, hentry, hfunc₀, hrole₀⟩
  · change m.state.body.slots + 1 = (m'.slots m.state.body.func).length
    rw [hslots, if_pos rfl, List.length_append, h.body.count]
    rfl
  · obtain ⟨hrooted, hne⟩ := h.waiting body hbody
    obtain ⟨d, hd, hf, hr⟩ := hrooted.entry
    obtain ⟨e, he, hf', hr'⟩ := hforth _ d hd
    refine ⟨⟨⟨e, he, hf'.trans hf, hr'.trans hr⟩, ?_, hrooted.unfinished⟩, hne⟩
    rw [hother _ hne]
    exact hrooted.count
  · rcases List.mem_append.mp hr with hr | hr
    · exact hkept _ (h.placed r hr)
    · rw [List.mem_singleton.mp hr]
      exact ⟨_, _, hentry, hfunc₀, hrole₀⟩

/-! ### Functions -/

theorem Tidy.begun (h : m.Tidy) {f : Nat} (hnew : ∀ b x, m.state.outline b ≠ some (f, x))
    (sig : Option Signature) :
    Tidy { m with state := m.state.begun f sig, suspended := some m.state.body } := by
  have hold : ∀ b d, m.state.draft? b = some d → (m.state.begun f sig).draft? b = some d := by
    intro b d hd
    rw [draft?_begun, if_neg (lt_of_draft? hd).ne, hd]
  have hfirst : (m.state.begun f sig).draft? m.state.arena.length = some { func := f, role := .entry } := by
    rw [draft?_begun, if_pos rfl]
  have hcases : ∀ b e, (m.state.begun f sig).draft? b = some e →
      (b = m.state.arena.length ∧ e = { func := f, role := .entry }) ∨ m.state.draft? b = some e := by
    intro b e he
    rw [draft?_begun] at he
    split at he
    · cases he
      exact .inl ⟨by assumption, rfl⟩
    · exact .inr he
  have hnone := h.slots_of_new hnew
  have hne : ∀ b d, m.state.draft? b = some d → d.func ≠ f := fun b d hd hf =>
    hnew b d.term (outline_eq_some_iff.mpr ⟨d, hd, hf, rfl⟩)
  have hroot : ∀ body, m.Rooted body → Rooted { m with
      state := m.state.begun f sig, suspended := some m.state.body } body := by
    intro body hbody
    obtain ⟨d, hd, hf, hrole⟩ := hbody.entry
    exact ⟨⟨d, hold _ d hd, hf, hrole⟩, hbody.count, hbody.unfinished⟩
  refine ⟨⟨fun b e he hrole => ?_, fun b e he hrole => ?_, fun b c d e hd he hrole hrole' hf => ?_,
    h.shaped⟩, ⟨⟨_, hfirst, rfl, rfl⟩, ?_, h.not_mem_finished hnew⟩, fun body hbody => ?_,
    fun r hr => ?_, fun g hg => ?_⟩
  · rcases hcases b e he with ⟨-, rfl⟩ | hd
    · refine ⟨[], ?_, List.forall_mem_nil _⟩
      change [] = (m.slots f).map Reservation.inst ++ []
      rw [hnone]
      rfl
    · exact h.leading b e hd hrole
  · rcases hcases b e he with ⟨-, rfl⟩ | hd
    · exact absurd rfl hrole
    · exact h.elsewhere b e hd hrole
  · rcases hcases b d hd with ⟨rfl, rfl⟩ | hd <;> rcases hcases c e he with ⟨rfl, rfl⟩ | he
    · rfl
    · exact absurd hf.symm (hne c e he)
    · exact absurd hf (hne b d hd)
    · exact h.single b c d e hd he hrole hrole' hf
  · change 0 = (m.slots f).length
    rw [hnone]
    rfl
  · cases hbody
    exact ⟨hroot _ h.body, h.body.ne_of_new hnew⟩
  · obtain ⟨b, d, hd, hf⟩ := h.placed r hr
    exact ⟨b, d, hold b d hd, hf⟩
  · obtain ⟨b, d, hd, hf⟩ := h.ended g hg
    exact ⟨b, d, hold b d hd, hf⟩

theorem Tidy.resumed (h : m.Tidy) {body : Body} (hmain : m.suspended = some body) :
    Tidy { m with
      state := { m.state with body }
      finished := m.finished ++ [m.state.body.func]
      suspended := none } := by
  obtain ⟨hrooted, hne⟩ := h.waiting body hmain
  refine ⟨⟨h.leading, h.elsewhere, h.single, h.shaped⟩, ⟨hrooted.entry, hrooted.count, fun hmem => ?_⟩,
    nofun, h.placed, fun f hf => ?_⟩
  · rcases List.mem_append.mp hmem with hmem | hmem
    · exact hrooted.unfinished hmem
    · exact hne (List.mem_singleton.mp hmem)
  · rcases List.mem_append.mp hf with hf | hf
    · exact h.ended f hf
    · rw [List.mem_singleton.mp hf]
      exact ⟨_, h.body.entry⟩

/-! ### Whole histories -/

theorem Advance.tidy (h : Advance m n) (hm : m.Tidy) : n.Tidy := by
  cases h with
  | emitted hop => exact hm.extended (.emitted _ hop) rfl rfl rfl
  | closed t => exact hm.extended (.closed _ t) rfl rfl rfl
  | grown hrole => exact hm.extended (.grown _ hrole) rfl rfl rfl
  | moved b => exact hm.extended (.of_arena rfl) rfl rfl rfl
  | tabled harena hbody =>
    exact hm.extended (.of_arena harena) (hbody ▸ rfl) (hbody ▸ rfl) (hbody ▸ rfl)
  | reserved name t => exact hm.reserved name t
  | begun hnew sig hmain => exact hm.begun hnew sig
  | resumed hmain => exact hm.resumed hmain

theorem Reaches.tidy (h : Reaches m n) (hm : m.Tidy) : n.Tidy := by
  induction h with
  | refl => exact hm
  | tail _ hstep ih => exact hstep.tidy ih

/-- A function that has come to its end gets no slots. -/
theorem Advance.slots_of_finished (h : Advance m n) (hm : m.Tidy) {f : Nat} (hf : f ∈ m.finished) :
    f ∈ n.finished ∧ n.slots f = m.slots f := by
  cases h with
  | reserved name t =>
    have hne : m.state.body.func ≠ f := fun heq => hm.body.unfinished (heq ▸ hf)
    refine ⟨hf, (slots_concat m _ f).trans ?_⟩
    change m.slots f ++ (if m.state.body.func = f then _ else _) = _
    rw [if_neg hne, List.append_nil]
  | resumed hmain => exact ⟨List.mem_append_left _ hf, rfl⟩
  | _ => exact ⟨hf, rfl⟩

theorem Reaches.slots_of_finished (h : Reaches m n) (hm : m.Tidy) {f : Nat} (hf : f ∈ m.finished) :
    f ∈ n.finished ∧ n.slots f = m.slots f := by
  induction h with
  | refl => exact ⟨hf, rfl⟩
  | tail hstart hstep ih =>
    obtain ⟨hmem, heq⟩ := hstep.slots_of_finished (Reaches.tidy hstart hm) ih.1
    exact ⟨hmem, heq.trans ih.2⟩

end Moment

/-! ### Slots within a function -/

open Moment

/-- Within a function lowering comes from the first state to the second, and it makes these
stack slots on the way. -/
structure Builds (s : State) (more : List Reservation) (u : State) : Prop where
  func : u.body.func = s.body.func
  owned : ∀ r ∈ more, r.func = s.body.func
  reaches : ∀ made finished suspended,
    Reaches ⟨s, made, finished, suspended⟩ ⟨u, made ++ more, finished, suspended⟩

namespace Builds

variable {s t u : State} {more more' : List Reservation}

theorem refl (s : State) : Builds s [] s :=
  ⟨rfl, List.forall_mem_nil _, fun made _ _ => by rw [List.append_nil]⟩

theorem trans (h : Builds s more t) (k : Builds t more' u) : Builds s (more ++ more') u := by
  refine ⟨k.func.trans h.func, fun r hr => ?_, fun made finished suspended => ?_⟩
  · rcases List.mem_append.mp hr with hr | hr
    · exact h.owned r hr
    · exact (k.owned r hr).trans h.func
  · rw [← List.append_assoc]
    exact (h.reaches made finished suspended).trans (k.reaches _ finished suspended)

/-- A step that makes no slot. -/
theorem of_advance (hfunc : u.body.func = s.body.func)
    (h : ∀ m : Moment, m.state = s → Advance m { m with state := u }) : Builds s [] u := by
  refine ⟨hfunc, List.forall_mem_nil _, fun made finished suspended => ?_⟩
  rw [List.append_nil]
  exact .single (h ⟨s, made, finished, suspended⟩ rfl)

theorem tabled (harena : u.arena = s.arena) (hbody : u.body = s.body) : Builds s [] u :=
  of_advance (congrArg Body.func hbody) fun m hm => .tabled m (hm ▸ harena) (hm ▸ hbody)

theorem reserved (s : State) (name : Text) (t : IR.Typ) :
    Builds s [s.nextSlot name t] (s.reserved name t) :=
  ⟨rfl, List.forall_mem_singleton.mpr rfl, fun made finished suspended =>
    .single (.reserved ⟨s, made, finished, suspended⟩ name t)⟩

section

variable {m m' : Moment} {f : Nat}

/-- The slots are those of the function under construction. -/
theorem named (h : Builds s more u) (hmade : m'.made = m.made ++ more) (hf : s.body.func = f) :
    m'.named f = m.named f ++ more.map Reservation.name := by
  have hself : more.filter (fun r => r.func = f) = more :=
    List.filter_eq_self.mpr fun r hr => by simpa using (h.owned r hr).trans hf
  rw [Moment.named, Moment.slots, hmade, List.filter_append, hself, List.map_append]
  rfl

/-- Other functions have the slots that they had. -/
theorem named_of_ne (h : Builds s more u) (hmade : m'.made = m.made ++ more)
    (hf : s.body.func ≠ f) : m'.named f = m.named f := by
  have hnone : more.filter (fun r => r.func = f) = [] :=
    List.filter_eq_nil_iff.mpr fun r hr => by simpa [h.owned r hr] using hf
  rw [Moment.named, Moment.slots, hmade, List.filter_append, hnone, List.append_nil]
  rfl

end

end Builds

variable {M : MemberTable} {s u : State} {ts : List Text} {rs : List Room}

theorem Shift.builds (h : Shift M s ts rs u) :
    ∃ more, Builds s more u ∧ more.map Reservation.name = rs.filterMap Room.slot? := by
  cases h with
  | stroke h =>
    cases h with
    | emitted hop => exact ⟨[], .of_advance rfl fun m hm => hm ▸ .emitted m hop, rfl⟩
    | reserved name t => exact ⟨_, .reserved s name t, rfl⟩
    | _ => exact ⟨[], .tabled rfl rfl, rfl⟩
  | closed t => exact ⟨[], .of_advance rfl fun m hm => hm ▸ .closed m t, rfl⟩
  | grown hrole => exact ⟨[], .of_advance rfl fun m hm => hm ▸ .grown m hrole, rfl⟩
  | moved b => exact ⟨[], .of_advance rfl fun m hm => hm ▸ .moved m b, rfl⟩

/-- Within a function stack slots are made for the variables that need them, in their order. -/
theorem Chain.builds (h : Chain (Shift M) s ts rs u) :
    ∃ more, Builds s more u ∧ more.map Reservation.name = rs.filterMap Room.slot? := by
  induction h with
  | refl => exact ⟨[], .refl _, rfl⟩
  | tail _ k ih =>
    obtain ⟨more, hmore, hnames⟩ := ih
    obtain ⟨more', hmore', hnames'⟩ := k.builds
    refine ⟨more ++ more', hmore.trans hmore', ?_⟩
    rw [List.map_append, List.filterMap_append, hnames, hnames']

end Augite.Lowering
