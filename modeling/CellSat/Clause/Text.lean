import CellSat.Clause
import CellSat.Failure
/-!
# The text of clause lists

One clause per line. A line that starts with `#`, and an empty line, is a comment. The line
`HEAD <- BODY₁ … BODYₙ` says that the head holds if all of the body does; any other line is the
disjunction of its words.

* `Clause.parseLine`, `Clause.parseText`, `Clause.readLines`: reading;
* `Clause.render`, `Clause.renderDisjunction`: writing, where a disjunction with a given consequent
  is written as an implication;
* `Clause.write`: the text of a whole list.
-/

namespace CellSat.Clause

/-- The word between the head and the body of an implication. -/
def impliedBy : String := "<-"

/-- The text of a comment line: without the mark, and without one space after it. -/
def commentText (line : List Char) : List Char :=
  let text := (Text.dropStart? ['#'] line).getD line
  (Text.dropStart? [' '] text).getD text

/-- Read literals from words. -/
def parseWords (ws : List String) : Result Disjunction := ws.mapM Literal.parse

/-- Read the disjunction that the words of a line spell. -/
def parseDisjunction : List String → Result Disjunction
  | head :: second :: body =>
    if second = impliedBy then do
      let head ← Literal.parse head
      let body ← parseWords body
      return head :: body.map Literal.negate
    else parseWords (head :: second :: body)
  | ws => parseWords ws

/-- Read one line. -/
def parseLine (line : String) : Result Clause :=
  let chars := Text.trim line.toList
  match chars with
  | [] => .ok (.comment "")
  | '#' :: _ => .ok (.comment (String.ofList (commentText chars)))
  | _ => (parseDisjunction ((Text.words chars).map String.ofList)).map .disjunction

/-- Read a block of text: its lines after the blanks around it are removed. -/
def parseText (text : String) : Result (List Clause) :=
  ((Text.pieces (· == '\n') (Text.trim text.toList)).map String.ofList).mapM parseLine

/-- Read the words of a text as literals. -/
def parseLiterals (text : String) : Result Disjunction := parseWords (Text.wordsOf text)

/-- Read clauses line by line. -/
def readLines (lines : List (Except FileError String)) : Result (List Clause) :=
  lines.mapM fun line => do parseLine (← FileError.toResult line)

/-- Read clauses from the content of a file. -/
def read (content : Content) : Result (List Clause) := readLines content.lines

/-- Write a disjunction, as an implication if it mentions the consequent. -/
def renderDisjunction (d : Disjunction) (consequent : Option String) : String :=
  match d.filter fun l => some l.name == consequent with
  | [] => Literal.renderAll d
  | head =>
    let body := d.filter fun l => some l.name != consequent
    Text.join " " (head.map Literal.render ++ impliedBy :: body.map (·.negate.render))

/-- Write one line. A comment is set off from its mark by a space. -/
def render : Clause → String
  | .comment text => if text.startsWith " " then "#" ++ text else "# " ++ text
  | .disjunction d => Literal.renderAll d

/-- Write a list, one clause per line. -/
def write (cs : List Clause) : String := String.join (cs.map fun c => c.render ++ "\n")

end CellSat.Clause
