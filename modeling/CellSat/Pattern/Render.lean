import CellSat.Literal.Text
import CellSat.Pattern.ValueGrid
/-!
# Solutions as text

The ways of printing a valuation: as a list, as a picture, as a skewed picture of a hexagonal grid,
or as a clause that rules it out. Temporaries and the false wire are not shown.

* `OutputFormat`, `OutputFormat.render`;
* `Valuation.hexPicture`: the hexagonal picture with any symbols.
-/

namespace CellSat

/-- The ways of printing a valuation. -/
inductive OutputFormat where
  | list
  | life
  | hex
  | hexNumeric
  | exclude
  deriving DecidableEq, Repr

namespace OutputFormat

/-- The name of a format in settings. -/
def name : OutputFormat → String
  | list => "list"
  | life => "life"
  | hex => "hex"
  | hexNumeric => "hex_numeric"
  | exclude => "exclude"

/-- All formats. -/
def all : List OutputFormat := [list, life, hex, hexNumeric, exclude]

/-- The format of a name. -/
def ofName? (name : String) : Option OutputFormat := all.find? fun f => f.name == name

end OutputFormat

namespace Valuation

/-- Whether a variable is shown. The names of temporaries sort after the opening brace. -/
def isShown (entry : String × Value) : Bool := decide (entry.1 ≤ "\x7b")

/-- The variables that are shown. -/
def shown (values : Valuation) : Valuation := values.filter isShown

/-- A name and a value on each line. -/
def listing (values : Valuation) : String :=
  String.join ((shown values).map fun e => e.1 ++ " " ++ e.2.render ++ "\n")

/-- The symbol of a number: the one at its place, or its digits. -/
def hexSymbol (symbols : List Char) (n : Nat) : String :=
  match symbols[n]? with
  | some c => c.toString
  | none => toString n

/-- One row of a hexagonal picture. -/
def hexRow (symbols : List Char) (indent : Nat) (row : List (Option Value)) : String :=
  let cells := row.map fun v => hexSymbol symbols ((v.map Value.toNat).getD 0)
  String.ofList (List.replicate indent ' ') ++ Text.join " " cells ++ "\n"

/-- Generation 0, in which each row starts one place further left than the one above. -/
def hexPicture (values : Valuation) (symbols : String) : Checked String := do
  let grid ← ValueGrid.ofValuation "c" values
  let rows ← grid.layer 0
  return String.join ((rows.zipIdx).map fun (row, i) => hexRow symbols.toList (grid.width - i) row)

/-- The literal that a value contradicts. -/
def opposite (entry : String × Value) : Literal :=
  match entry.2 with
  | .truth b => { name := entry.1, positive := !b }
  | .number n =>
    { name := entry.1, positive := false, tag := if n ≤ Word.maxNat32 then some n else none }

/-- A clause that rules out the shown values. -/
def exclusion (values : Valuation) : String :=
  Literal.renderAll ((shown values).map opposite) ++ "\n"

end Valuation

/-- The symbols of the first three numbers in hexagonal pictures. -/
def hexSymbols : String := ".O*"

/-- A valuation as text. -/
def OutputFormat.render (values : Valuation) : OutputFormat → Checked String
  | list => .ok (Valuation.listing values)
  | life => do (← ValueGrid.ofValuation "c" values).render
  | hex => Valuation.hexPicture values hexSymbols
  | hexNumeric => Valuation.hexPicture values ""
  | exclude => .ok (Valuation.exclusion values)

end CellSat
