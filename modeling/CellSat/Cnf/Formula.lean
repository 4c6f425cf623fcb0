import CellSat.Cnf.SymbolTable
import CellSat.Tag.Bits
import Std.Data.HashSet
/-!
# Numbered formulas

A clause list becomes a formula over numbered variables: tags are replaced by bits, names are
numbered in increasing order, and clauses are reduced to sets that occur once.

* `Clause.minimize`: no repeated literals, no repeated clauses, no clauses that always hold;
* `Formula`, `Formula.compile`;
* `Formula.write`: the text that solver programs read.
-/

namespace CellSat

/-- Whether some variable occurs with both polarities, whatever the tags. -/
def Disjunction.isAlwaysTrue (d : Disjunction) : Bool :=
  d.any fun l => !l.positive && d.any fun m => m.positive && m.name == l.name

/-- Reduce disjunctions to sets and keep the first of those that are equal and may fail. -/
def Clause.minimizeFrom (seen : Std.HashSet Disjunction) : List Clause → List Clause
  | [] => []
  | .comment text :: cs => .comment text :: minimizeFrom seen cs
  | .disjunction d :: cs =>
    let set := Literal.toSet d
    if seen.contains set || set.isAlwaysTrue then minimizeFrom seen cs
    else .disjunction set :: minimizeFrom (seen.insert set) cs

/-- Remove repeated literals, repeated clauses and clauses that always hold. -/
def Clause.minimize (cs : List Clause) : List Clause := minimizeFrom ∅ cs

/-- One line of a numbered formula. -/
inductive FormulaLine where
  | comment (text : String)
  | clause (numbers : List Int)
  deriving DecidableEq, Repr

/-- A clause of a formula, if a line is one. -/
def FormulaLine.clause? : FormulaLine → Option (List Int)
  | comment _ => none
  | clause numbers => some numbers

/-- A formula over numbered variables. -/
structure Formula where
  symbols : SymbolTable
  lines : List FormulaLine

namespace Formula

/-- The clauses of a formula. -/
def clauses (f : Formula) : List (List Int) := f.lines.filterMap FormulaLine.clause?

/-- The number of variables. -/
def variableCount (f : Formula) : Nat := f.symbols.size

/-- The number of clauses. -/
def clauseCount (f : Formula) : Nat := f.clauses.length

/-- The signed number of a literal that has one. -/
def encodeLiteral (symbols : SymbolTable) (l : Literal) : Result Int := do
  match ← symbols.encode32? l with
  | some number => return number
  | none => throw (.inconsistent (.unnumbered l))

/-- Number the literals of one line. -/
def encodeLine (symbols : SymbolTable) : Clause → Result FormulaLine
  | .comment text => .ok (.comment text)
  | .disjunction d => do return .clause (← d.mapM (encodeLiteral symbols))

/-- Compile a clause list. -/
def compile (cs : List Clause) : Result Formula := do
  let expanded ← Clause.expandTags cs
  let symbols ← SymbolTable.ofNames32 (Clause.variableNames expanded)
  return { symbols, lines := ← (Clause.minimize expanded).mapM (encodeLine symbols) }

/-! ## Text -/

/-- The start of a comment that names a variable. -/
def variableComment : String := "c variable "

/-- The comment that names a variable. Tildes are left out of the name. -/
def variableLine (entry : String × Int) : String :=
  variableComment ++ String.ofList (entry.1.toList.filter (· ≠ '~')) ++ ": " ++ toString entry.2

/-- A clause as numbers that a zero ends. -/
def clauseLine (numbers : List Int) : String :=
  Text.join " " (numbers.map toString) ++ " 0"

/-- The text of a line. -/
def writeLine : FormulaLine → String
  | .comment text => "c " ++ text
  | .clause numbers => clauseLine numbers

/-- The header of a formula. -/
def header (variableCount clauseCount : Nat) : String :=
  "p cnf " ++ toString variableCount ++ " " ++ toString clauseCount

/-- The lines of the text of a formula. -/
def textLines (f : Formula) : List String :=
  header f.variableCount f.clauseCount :: f.symbols.toList.map variableLine ++
    f.lines.map writeLine

/-- The text of a formula. -/
def write (f : Formula) : String := String.join (f.textLines.map fun line => line ++ "\n")

end Formula

end CellSat
