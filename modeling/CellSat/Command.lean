import CellSat.Settings
/-!
# Commands

* `Command`: what the program can be asked to do.
-/

namespace CellSat

/-- What the program can be asked to do. -/
inductive Command where
  /-- Search for patterns as settings say. -/
  | run (settings : Path) (overrides : Overrides)
  /-- Number the clauses of a file. -/
  | compile (input : Path) (output : Option Path)
  /-- Find models of the clauses of a file. -/
  | solve (input : Path) (count : Nat) (format : OutputFormat)
  /-- Show the answer of a solver program. -/
  | decode (formula answer : Path) (format : OutputFormat)
  /-- Rule the answer of a solver program out. -/
  | exclude (formula answer : Path) (output : Option Path)
  /-- Write settings and a rule to begin with. -/
  | setup (directory : Path) (force : Bool)
  deriving DecidableEq, Repr

end CellSat
