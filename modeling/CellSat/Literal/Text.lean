import CellSat.Literal
import CellSat.Text.Number
import CellSat.Word
/-!
# The text of a literal

A literal is written `~name(tag)`, where the tilde and the parenthesised tag are optional.

* `Literal.render`: writing;
* `Literal.parseChars`, `Literal.parse`: reading, with the first flaw found as the error;
* `Literal.renderAll`: the literals of a disjunction, one space between neighbours.
-/

namespace CellSat

/-- What is wrong with the text of a literal. -/
inductive LiteralFlaw where
  | unclosedTag
  | tagNotNumber
  | tagTooLarge
  | noName
  | badName
  deriving DecidableEq, Repr

/-- The wording of a flaw. -/
def LiteralFlaw.message : LiteralFlaw → String
  | .unclosedTag => "tag is not closed with ')'"
  | .tagNotNumber => "tag must be a non-negative integer"
  | .tagTooLarge => "number too large to fit in target type"
  | .noName => "literal has no name"
  | .badName => "invalid character in literal name"

namespace Literal

/-- The text of a tag in parentheses. -/
def renderTag : Option Nat → String
  | none => ""
  | some tag => "(" ++ toString tag ++ ")"

/-- The text of a literal. -/
def render (l : Literal) : String :=
  (if l.positive then "" else "~") ++ l.name ++ renderTag l.tag

/-- The texts of literals with one space between neighbours. -/
def renderAll (d : Disjunction) : String := Text.join " " (d.map render)

/-- Read the digits and the closing parenthesis after an opening one. -/
def parseTag (s : List Char) : Except LiteralFlaw Nat :=
  match s.reverse with
  | ')' :: digits =>
    match Text.readDigits? digits.reverse with
    | none => .error .tagNotNumber
    | some tag => if tag ≤ Word.maxNat32 then .ok tag else .error .tagTooLarge
  | _ => .error .unclosedTag

/-- Check a name: it is not empty and holds neither blanks nor a closing parenthesis. -/
def parseName (s : List Char) : Except LiteralFlaw String :=
  if s = [] then .error .noName
  else if s.any fun c => Text.isBlank c || c == ')' then .error .badName
  else .ok (String.ofList s)

/-- Read what follows the optional tilde: a name, and a tag from the first parenthesis on. -/
def parseBody (positive : Bool) (s : List Char) : Except LiteralFlaw Literal :=
  match Text.splitFirst '(' s with
  | none => do return { name := ← parseName s, positive }
  | some (name, rest) => do
    let tag ← parseTag rest
    return { name := ← parseName name, positive, tag := some tag }

/-- Read a literal from characters. -/
def parseChars : List Char → Except LiteralFlaw Literal
  | '~' :: s => parseBody false s
  | s => parseBody true s

end Literal

end CellSat
