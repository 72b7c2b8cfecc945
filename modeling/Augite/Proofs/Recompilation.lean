import Augite.Proofs.AnalysisStripped
import Augite.Proofs.KeptTree
import Augite.Compile

/-!
# Compiling a tree again

What a compilation gives depends on the stripped tree alone: neither the annotations that
the tree came with nor the key of the program make a difference, and positions only show in
errors. A tree that was analysed or lowered before, with or without success, is therefore
compiled like a new one.
-/

namespace Augite

open Node (bare bareAll stripAll bodyEssence Plain AllPlain)

variable {place : Position → Position}

/-! ### The module of a body -/

/-- The module that statements are lowered to in a context, whoever was certified in it. -/
def lowered (ctx : Context) (body : List Node) : Except InternalError IR.Module :=
  let (r, s) := (Lowering.program body).run { ctx }
  (Pass.outcome r).1.map fun _ => s.module

theorem Program.lower_fst {ctx : Context} {p : Program} (h : ctx.certified = some p.key) :
    (p.lower ctx).1 = lowered ctx p.body := by
  simp only [lower, lowered, h, ne_eq, not_true_eq_false, if_false]

/-- Contexts that agree on what a body asks for give the same module, whatever positions and other
annotations the body has. -/
theorem lowered_essence (hplace : place .none = .none) {F G : Context} (hFG : F.Matches place G)
    {body : List Node} (hbody : ∀ x ∈ Node.lookupsAll body, F.Agrees G x) :
    lowered G (bodyEssence place body) = (lowered F body).mapError (InternalError.move place) := by
  have hrun := Lowering.program_mirrors hplace hFG body hbody { ctx := F } { ctx := G }
    ⟨⟨rfl, rfl, rfl⟩, G, ⟨rfl, rfl, rfl⟩, rfl⟩
  unfold lowered
  rcases hr : (Lowering.program body).run { ctx := F } with ⟨h | body', t⟩ <;> rw [hr] at hrun
  · obtain ⟨tree, t', htree, -⟩ := hrun
    rw [htree]
    rfl
  · obtain ⟨b, _, hb, -, -, c, -, rfl⟩ := hrun
    rw [hb]
    rfl

/-- The outcome of the steps behind the analysis. -/
def emitted (ctx : Context) (body : List Node) : Except CompileError IR.Module :=
  match lowered ctx body with
  | .error e => .error (.internal e)
  | .ok m =>
    match m.check with
    | .error e => .error (.internal e)
    | .ok () => .ok m

theorem check_move (hplace : place .none = .none) (m : IR.Module) :
    m.check.mapError (InternalError.move place) = m.check := by
  unfold IR.Module.check
  cases m.verify with
  | error e => simp [Except.mapError, InternalError.move, hplace]
  | ok _ => rfl

theorem emitted_essence (hplace : place .none = .none) (ctx : Context) (body : List Node) :
    emitted { ctx.move place with certified := none } (bodyEssence place body) =
      (emitted ctx body).mapError (CompileError.move place) := by
  unfold emitted
  have hmoved : ctx.Matches place { ctx.move place with certified := none } := ⟨rfl, rfl⟩
  rw [lowered_essence hplace hmoved fun _ _ => rfl]
  cases lowered ctx body with
  | error e => rfl
  | ok m =>
    have hcheck := check_move hplace m
    simp only [Except.mapError]
    cases hm : m.check with
    | error e =>
      rw [hm] at hcheck
      simp only [Except.mapError, Except.error.injEq] at hcheck
      simp only [CompileError.move, hcheck]
    | ok _ => rfl

theorem CompileError.move_id (e : CompileError) : e.move id = e := by
  cases e <;> rfl

theorem mapError_move_id {α : Type} (x : Except CompileError α) :
    x.mapError (CompileError.move id) = x := by
  cases x with
  | ok a => rfl
  | error e => exact congrArg Except.error e.move_id

/-- The certificate of a context has no influence on the module. -/
theorem emitted_certified (ctx : Context) (key : Option Nat) (body : List Node) :
    emitted { ctx with certified := key } body = emitted ctx body := by
  rw [← mapError_move_id (emitted ctx body), ← emitted_essence rfl,
    ← mapError_move_id (emitted { ctx with certified := key } body), ← emitted_essence rfl]
  rfl

/-! ### Programs -/

theorem Program.compile_fst (p : Program) :
    p.compile.1 = match p.analyse {} with
      | (.error e, _, _) => .error e
      | (.ok (), ctx, q) => emitted ctx q.body := by
  unfold compile
  rcases hr : p.analyse {} with ⟨e | _, ctx, q⟩
  · rfl
  · have hlower : (q.lower ctx).1 = lowered ctx q.body := Program.lower_fst ?_
    · simp only [emitted, ← hlower]
      rcases q.lower ctx with ⟨e | m, ctx', q'⟩
      · rfl
      · simp only
        cases m.check <;> rfl
    · unfold analyse at hr
      rcases hrun : (Analysis.stmts p.body).run { ctx := { ({} : Context) with certified := none } }
        with ⟨h | body, t⟩
      · simp [hrun, Pass.outcome] at hr
      · simp only [hrun, Pass.outcome, Prod.mk.injEq, true_and] at hr
        rw [← hr.1, ← hr.2]
        rfl

/-- Only the items of a program count. -/
theorem Program.compile_eq_of_body_eq {p q : Program} (h : p.body = q.body) :
    p.compile.1 = q.compile.1 := by
  rw [compile_fst, compile_fst]
  unfold analyse
  rw [← h]
  rcases (Analysis.stmts p.body).run { ctx := { ({} : Context) with certified := none } }
    with ⟨e | body, t⟩
  · rfl
  · exact (emitted_certified _ (some q.key) _).symm

/-- The compilation of a stripped program has the outcome of the program itself, with the
error at the other position. -/
theorem Program.compile_strip (hplace : place .none = .none) (p : Program)
    (hp : AllPlain p.body) :
    (p.strip place).compile.1 = p.compile.1.mapError (CompileError.move place) := by
  have hanalyse := Program.analyse_strip hplace {} p hp
  have hfresh : Context.move place {} = {} := rfl
  rw [hfresh] at hanalyse
  rw [compile_fst, compile_fst]
  rcases hr : p.analyse {} with ⟨e | _, ctx, q⟩
  · rw [hr] at hanalyse
    simp only at hanalyse
    rcases hs : (p.strip place).analyse {} with ⟨r, c, t⟩
    rw [hs] at hanalyse
    simp only at hanalyse
    subst hanalyse
    rfl
  · rw [hr] at hanalyse
    simp only at hanalyse
    rw [hanalyse]
    simp only
    rw [← emitted_essence hplace]
    exact (emitted_certified _ none _).symm

/-- Programs with the same stripped items compile alike, up to the positions of errors. -/
theorem Program.compile_eq_of_stripAll_eq (hplace : place .none = .none) {p q : Program}
    (hp : AllPlain p.body) (hq : AllPlain q.body)
    (h : stripAll place p.body = stripAll place q.body) :
    p.compile.1.mapError (CompileError.move place) =
      q.compile.1.mapError (CompileError.move place) := by
  rw [← compile_strip hplace p hp, ← compile_strip hplace q hq]
  exact compile_eq_of_body_eq h

/-! ### Bare trees -/

namespace Node

mutual

theorem strip_id (n : Node) : n.strip id = n.bare := by
  cases n with
  | binary m op l r => simp only [strip, bare, strip_id l, strip_id r]; rfl
  | unary m op x | varDef m name t x | assign m name x | print m x | exprStmt m x =>
    simp only [strip, bare, strip_id x]; rfl
  | call m name xs | dot a xs | listDecl m name k xs =>
    simp only [strip, bare, stripAll_id xs]; rfl
  | fieldAssign m a xs x => simp only [strip, bare, stripAll_id xs, strip_id x]; rfl
  | ret m value =>
    cases value with
    | none => rfl
    | some x => simp only [strip, bare, strip_id x]; rfl
  | branch m merge test yes no =>
    cases no with
    | none => simp only [strip, bare, strip_id test, stripAll_id yes]; rfl
    | some no => simp only [strip, bare, strip_id test, stripAll_id yes, stripAll_id no]; rfl
  | whileLoop m merge test body => simp only [strip, bare, strip_id test, stripAll_id body]; rfl
  | forLoop m merge init test step body =>
    simp only [strip, bare, strip_id init, strip_id test, strip_id step, stripAll_id body]; rfl
  | funcDef m name params result body =>
    have hparams : params.map (Param.move id) = params := List.map_id params
    simp only [strip, bare, stripAll_id body, hparams]
    rfl
  | classDecl m name fields =>
    have hfields : fields.map (Param.move id) = fields := List.map_id fields
    simp only [strip, bare, hfields]
    rfl
  | program m body => simp only [strip, bare, stripAll_id body]; rfl
  | _ => rfl
termination_by structural n

theorem stripAll_id (ns : List Node) : stripAll id ns = bareAll ns := by
  cases ns with
  | nil => rfl
  | cons n rest => rw [stripAll, bareAll, strip_id n, stripAll_id rest]
termination_by structural ns

end

mutual

theorem plain_bare (n : Node) : n.bare.Plain ↔ n.Plain := by
  cases n with
  | binary m op l r => simp only [bare, Plain, plain_bare l, plain_bare r]
  | unary m op x | varDef m name t x | assign m name x | fieldAssign m a xs x | print m x
  | exprStmt m x => simp only [bare, Plain, plain_bare x]
  | call m name xs | listDecl m name k xs => simp only [bare, Plain, allPlain_bare xs]
  | dot a xs =>
    have hnil : bareAll xs = [] ↔ xs = [] := by cases xs <;> simp [bareAll]
    simp only [bare, Plain, allPlain_bare xs, Access.bare, hnil]
  | ret m value =>
    cases value with
    | none => rfl
    | some x => simp only [bare, Plain, plain_bare x]
  | branch m merge test yes no =>
    cases no with
    | none => simp only [bare, Plain, plain_bare test, allPlain_bare yes]
    | some no => simp only [bare, Plain, plain_bare test, allPlain_bare yes, allPlain_bare no]
  | whileLoop m merge test body => simp only [bare, Plain, plain_bare test, allPlain_bare body]
  | forLoop m merge init test step body =>
    simp only [bare, Plain, plain_bare init, plain_bare test, plain_bare step, allPlain_bare body]
  | funcDef m name params result body | program m body =>
    simp only [bare, Plain, allPlain_bare body]
  | _ => rfl
termination_by structural n

theorem allPlain_bare (ns : List Node) : AllPlain (bareAll ns) ↔ AllPlain ns := by
  cases ns with
  | nil => rfl
  | cons n rest => simp only [bareAll, AllPlain, plain_bare n, allPlain_bare rest]
termination_by structural ns

end

end Node

namespace Program

theorem compile_eq_of_bareAll_eq {p q : Program} (hp : AllPlain p.body)
    (h : bareAll q.body = bareAll p.body) : q.compile.1 = p.compile.1 := by
  have hq : AllPlain q.body := by rwa [← Node.allPlain_bare, h, Node.allPlain_bare]
  have hbody : Node.stripAll id q.body = Node.stripAll id p.body := by
    rw [Node.stripAll_id, Node.stripAll_id, h]
  have hstrip := compile_eq_of_stripAll_eq rfl hq hp hbody
  rwa [mapError_move_id, mapError_move_id] at hstrip

/-- The analysis of a program without annotations ends like that of the program itself. -/
theorem analyse_strip_id (p : Program) (hp : AllPlain p.body) :
    ((p.strip id).analyse {}).1 = (p.analyse {}).1 := by
  have hid : (id : Position → Position) .none = .none := rfl
  have hanalyse := Program.analyse_strip hid {} p hp
  have hfresh : Context.move id {} = {} := rfl
  rw [hfresh] at hanalyse
  rcases hr : p.analyse {} with ⟨e | _, ctx, q⟩
  · rw [hr] at hanalyse
    simp only [CompileError.move_id] at hanalyse
    exact hanalyse
  · rw [hr] at hanalyse
    simp only at hanalyse
    rw [hanalyse]

theorem analyse_eq_of_bareAll_eq {p q : Program} (hp : AllPlain p.body)
    (h : bareAll q.body = bareAll p.body) : (q.analyse {}).1 = (p.analyse {}).1 := by
  have hq : AllPlain q.body := by rwa [← Node.allPlain_bare, h, Node.allPlain_bare]
  have hbody : (q.strip id).body = (p.strip id).body := by
    simp only [strip, Node.stripAll_id, h]
  rw [← analyse_strip_id p hp, ← analyse_strip_id q hq]
  unfold analyse
  rw [hbody]
  rcases (Analysis.stmts (p.strip id).body).run _ with ⟨e | body, t⟩ <;> rfl

/-! ### Trees used again -/

theorem bareAll_compile (p : Program) : bareAll p.compile.2.2.body = bareAll p.body := by
  have hanalyse := bareAll_analyse {} p
  unfold compile
  rcases hr : p.analyse {} with ⟨e | _, ctx, q⟩
  · rw [hr] at hanalyse
    exact hanalyse
  · rw [hr] at hanalyse
    have hlower := bareAll_lower ctx q
    simp only at hanalyse ⊢
    rcases hl : q.lower ctx with ⟨e | m, ctx', q'⟩
    · rw [hl] at hlower
      exact hlower.trans hanalyse
    · rw [hl] at hlower
      simp only
      cases m.check <;> exact hlower.trans hanalyse

/-- The second program is the first one after any number of analyses, lowerings and
compilations, in any contexts and with or without success. -/
inductive Reused (p : Program) : Program → Prop
  | new : Reused p p
  | analysed (ctx : Context) {q : Program} : Reused p q → Reused p (q.analyse ctx).2.2
  | lowered (ctx : Context) {q : Program} : Reused p q → Reused p (q.lower ctx).2.2
  | compiled {q : Program} : Reused p q → Reused p q.compile.2.2

theorem Reused.bareAll_eq {p q : Program} (h : Reused p q) : bareAll q.body = bareAll p.body := by
  induction h with
  | new => rfl
  | analysed ctx _ ih => rw [bareAll_analyse, ih]
  | lowered ctx _ ih => rw [bareAll_lower, ih]
  | compiled _ ih => rw [bareAll_compile, ih]

/-- A module variable and a conditional that prints it, as they are read. -/
def announcement : Program where
  key := 0
  mark := .at_ .none
  body :=
    [.varDef (.at_ .none) "x" .int (.int (.at_ .none) 1),
      .branch (.at_ .none) none (.bool (.at_ .none) true)
        [.print (.at_ .none) (.var (.at_ .none) "x")] none]

/-- The same program with annotations that are all wrong. -/
def announcementStale : Program where
  key := 1
  mark := { pos := .none, type := .bool, isGlobal := true, isClass := true }
  body :=
    [.varDef { pos := .none, type := .string } "x" .int
        (.int { pos := .none, type := .float, isClass := true } 1),
      .branch { pos := .none, type := .int } (some 7)
        (.bool { pos := .none, type := .char, isGlobal := true } true)
        [.print { pos := .none, type := .graphOf .int }
          (.var { pos := .none, type := .listOf .int, isClass := true } "x")] none]

end Program

end Augite
