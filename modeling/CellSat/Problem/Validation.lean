import CellSat.Cnf.Formula
import Std.Data.HashSet
/-!
# Validation of assignments

An assignment is checked against the clauses of a formula, whatever solver it comes from.

* `Validation`, `Formula.validate`: the clauses that no number of an assignment satisfies;
* `Validation.render`.
-/

namespace CellSat

/-- A clause that an assignment does not satisfy. -/
structure Violation where
  /-- The place among the clauses, from 0 on. -/
  index : Nat
  clause : List Int
  /-- The last comment before the clause. -/
  context : Option String
  deriving DecidableEq, Repr

/-- What came out of a check. -/
structure Validation where
  checked : Nat
  violations : List Violation
  deriving DecidableEq, Repr

/-- Whether an assignment satisfies all clauses. -/
def Validation.isValid (v : Validation) : Bool := v.violations.isEmpty

namespace Formula

/-- The clauses among lines with the comments before them. -/
def commented (context : Option String) : List FormulaLine → List (List Int × Option String)
  | [] => []
  | .comment text :: lines => commented (some text) lines
  | .clause numbers :: lines => (numbers, context) :: commented context lines

/-- Check an assignment. -/
def validate (f : Formula) (assignment : List Int) : Validation :=
  let given := Std.HashSet.ofList assignment
  let clauses := commented none f.lines
  let violations := clauses.zipIdx.filter fun (c, _) => !c.1.any given.contains
  ⟨clauses.length, violations.map fun (c, i) => ⟨i, c.1, c.2⟩⟩

end Formula

/-- A violated clause as text. -/
def Violation.render (v : Violation) : String :=
  "    clause " ++ toString v.index ++ ": [" ++ Text.join ", " (v.clause.map toString) ++ "]" ++
    match v.context with
    | none => ""
    | some text => " (" ++ text ++ ")"

/-- A check as text, with the first five violations. -/
def Validation.render (v : Validation) : String :=
  "Validation Result:\n" ++
    "  Valid: " ++ toString v.isValid ++ "\n" ++
    "  Clauses checked: " ++ toString v.checked ++ "\n" ++
    if v.isValid then ""
    else
      "  Violations: " ++ toString v.violations.length ++ "\n" ++
        String.join ((v.violations.take 5).map fun w => w.render ++ "\n")

end CellSat
