import Augite.Analysis.Statement

/-!
# Analysis of programs

An analysis either finds a program correct and certifies it in the context, or reports one
error. The annotations and table entries made up to the error stay.
-/

namespace Augite

namespace Pass

variable {ε σ τ : Type}

/-- The tree that a pass gives back, whether it stopped or not, with the error if it did. -/
def outcome (r : Except (Halt ε τ) τ) : Except ε Unit × τ :=
  match r with
  | .ok tree => (.ok (), tree)
  | .error h => (.error h.error, h.tree)

end Pass

def Program.analyse (ctx : Context) (p : Program) :
    Except CompileError Unit × Context × Program :=
  let (r, s) := (Analysis.stmts p.body).run { ctx := { ctx with certified := none } }
  let (result, body) := Pass.outcome r
  let p := { p with body }
  match result with
  | .error e => (.error e, s.ctx.record (.analysisFailed e.text), p)
  | .ok () =>
    let ctx := { s.ctx with certified := some p.key }
    (.ok (), ctx.record (.analysisComplete ctx.funcs.names.length ctx.classes.length), p)

def Node.analyseExpression (ctx : Context) (n : Node) : Except CompileError Ty × Node :=
  match ((Analysis.expr n).run { ctx }).1 with
  | .ok (n, t) => (.ok t, n)
  | .error h => (.error h.error, h.tree)

end Augite
