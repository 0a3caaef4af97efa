import TaintTrail.Tabulation.Basic

/-!
# Explicit problems

Tabulation problems whose flow functions are listed one by one. A transfer that is not listed
leaves every fact as it is.
-/

namespace TaintTrail

/-- A flow function given by data. -/
inductive Edit (φ : Type) where
  /-- Every fact stays as it is. -/
  | keep
  /-- No fact gets through. -/
  | kill
  /-- Every fact stays, and the zero fact also gives rise to another one. -/
  | generate (fact : φ)
  /-- Facts turn into those listed for them; the others get through only if told so. -/
  | table (images : List (φ × List φ)) (keepOthers : Bool)
  deriving Repr

variable {ν φ : Type} [DecidableEq ν] [DecidableEq φ]

/-- The facts that a fact turns into. -/
def Edit.apply (zero : φ) : Edit φ → φ → List φ
  | .keep, d => [d]
  | .kill, _ => []
  | .generate fact, d => if d = zero then [d, fact] else [d]
  | .table images keepOthers, d =>
    match images.lookup d with
    | some facts => facts
    | none => if keepOthers then [d] else []

/-- The problem with the listed flow functions. Of several for one transfer the last counts. -/
def Problem.ofEdits (zero : φ) (seeds : List (ν × φ)) (edits : List (Transfer ν × Edit φ)) :
    Problem ν φ Unit where
  zero := zero
  seeds := seeds
  flow t d _ := (((edits.reverse.lookup t).getD .keep).apply zero d, ())

end TaintTrail
