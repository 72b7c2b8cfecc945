import Augite.Lowering.Program
import Augite.Parse.Program
import Augite.IR.Verify

/-!
# Compilation

A source text is read, analysed, lowered and verified; the first of these steps that fails
gives the error.
-/

namespace Augite

def IR.Module.check (m : IR.Module) : Except InternalError Unit :=
  m.verify.mapError fun (name, flaw) => { cause := .flaw name flaw }

def Program.generate (ctx : Context) (p : Program) :
    Except InternalError IR.Module × Context × Program :=
  let (result, ctx, p) := p.lower ctx
  (result.bind fun m => m.check.map fun _ => m, ctx, p)

def Program.compile (p : Program) : Except CompileError IR.Module × Context × Program :=
  let (analysed, ctx, p) := p.analyse {}
  match analysed with
  | .error e => (.error e, ctx, p)
  | .ok () =>
    let (lowered, ctx, p) := p.lower ctx
    match lowered with
    | .error e => (.error (.internal e), ctx, p)
    | .ok m =>
      match m.check with
      | .error e => (.error (.internal e), ctx.record (.verificationFailed e.text), p)
      | .ok () => (.ok m, ctx, p)

/-- Compiles a source text. The log has the records of all steps after reading. -/
def compileSource (source : Text) : Except CompileError IR.Module × List Event :=
  match Program.parse 0 source with
  | .error e => (.error (.grammar e), [])
  | .ok p =>
    let (result, ctx, _) := p.compile
    (result, ctx.log)

end Augite
