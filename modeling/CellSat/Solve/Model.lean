import CellSat.Solve.Session
import CellSat.Text.Seconds
/-!
# Models

A model is a list of signed variables, each true if its number is positive.

* `Model.value32?`: the value of a variable;
* `Model.entries32`: the values by variable;
* `Model.render32`: a short account of a model.
-/

namespace CellSat

namespace Model

/-- The variable of a number. -/
def variable32 (n : Int) : Checked Int := Word.int32 n.natAbs

/-- The value of a variable, as the first number with it says. -/
def value32? (v : Int) : List Int → Checked (Option Bool)
  | [] => .ok none
  | n :: numbers => do
    if (← variable32 n) = v then return some (decide (0 < n))
    else value32? v numbers

/-- The values by variable, of which the last one counts. -/
def entries32 (numbers : List Int) : Checked (List (Int × Bool)) := do
  let entries ← numbers.mapM fun n => do return (← variable32 n, decide (0 < n))
  let distinct := entries.foldl (fun kept e => e :: kept.filter fun k => k.1 ≠ e.1) []
  return distinct.mergeSort fun a b => a.1 ≤ b.1

/-- A number as an equation. -/
def equation32 (n : Int) : Checked String := do
  return toString (← variable32 n) ++ "=" ++ if 0 < n then "T" else "F"

/-- An account of a model: the time it took in nanoseconds, its size and its first ten values. -/
def render32 (numbers : List Int) (nanoseconds : Nat) : Checked String := do
  let shown ← (numbers.take 10).mapM equation32
  return "SAT Solution:\n" ++
    "  Solve time: " ++ Text.renderSeconds nanoseconds ++ "s\n" ++
    "  Variables assigned: " ++ toString numbers.length ++ "\n" ++
    "  Sample assignments: " ++ Text.join ", " shown ++
    (if 10 < numbers.length then ", ...\n" else "\n")

end Model

end CellSat
