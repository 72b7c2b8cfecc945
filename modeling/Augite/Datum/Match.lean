import Augite.Datum.Basic
import Augite.Double.Reading

/-!
# Patterns of data

A datum serves as a pattern for others. The symbol `_` matches everything, and an ellipsis
that ends a list or array matches all that is left. Numbers are compared by their values,
and a map matches if it has a matching value for every key of the pattern.
-/

namespace Augite.Datum

def sameNumber (p a : Text) : Bool :=
  match Double.ofText p, Double.ofText a with
  | .ok x, .ok y => x.equals y
  | _, _ => false

mutual

def accepts : Datum → Datum → Bool
  | symbol p, a => p == Text.ofString "_" || (match a with
    | symbol t => p == t
    | _ => false)
  | string p, string t => p == t
  | number p, number t => sameNumber p t
  | ellipsis, ellipsis => true
  | list ps, list as => acceptsItems ps as
  | array ps, array as => acceptsItems ps as
  | map es, map as => acceptsEntries es as
  | _, _ => false

def acceptsItems : List Datum → List Datum → Bool
  | [], as => as.isEmpty
  | p :: ps, as =>
    (match p, ps with
      | ellipsis, [] => true
      | _, _ => false) ||
    match as with
    | [] => false
    | a :: as => accepts p a && acceptsItems ps as

def acceptsEntries : List (Text × Datum) → List (Text × Datum) → Bool
  | [], _ => true
  | (key, p) :: es, as =>
    (match (map as).get? key with
      | some a => accepts p a
      | none => false) && acceptsEntries es as

end

end Augite.Datum
