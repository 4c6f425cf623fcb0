import CellSat.Literal.Text
import CellSat.Text.Lines
import CellSat.Text.Quoted
import CellSat.Word
/-!
# Failures

Every way in which compiling, solving or decoding can fail, as a cause, and the wording of each.

* `Inconsistency`, `DecodeFlaw`, `SolverFlaw`: causes of one kind;
* `Failure`, `Failure.message`.
-/

namespace CellSat

/-- Constraint data that does not fit together. -/
inductive Inconsistency where
  /-- No largest tag is known for a variable that is tagged. -/
  | noMaximum (name : String)
  /-- A tag is above the largest one of its variable. -/
  | tagAboveMaximum (tag : Nat) (name : String) (max : Nat)
  /-- A relation without tuples. -/
  | noTuples
  /-- A tuple of a relation with a boolean literal. -/
  | untaggedTuple (tuple : Disjunction)
  /-- A tuple of a relation over other variables than the relation. -/
  | otherNames (tuple : Disjunction) (names : List String)
  /-- A strict upper bound that no number is below. -/
  | notPositive (limit : Int)
  /-- A literal whose variable has no number. -/
  | unnumbered (literal : Literal)
  deriving DecidableEq, Repr

/-- The wording of an inconsistency. -/
def Inconsistency.message : Inconsistency → String
  | .noMaximum name => "No maximum tag known for " ++ name
  | .tagAboveMaximum tag name max =>
    "Tag " ++ toString tag ++ " of " ++ name ++ " exceeds maximum " ++ toString max
  | .noTuples => "No tuples to match"
  | .untaggedTuple tuple => Literal.renderAll tuple ++ " is not a tag tuple"
  | .otherNames tuple names =>
    Literal.renderAll tuple ++ " does not match names: " ++ Text.join ", " names
  | .notPositive limit => toString limit ++ " is not a positive integer"
  | .unnumbered literal => literal.render ++ " has no variable index"

/-- Solver files that cannot be understood. -/
inductive DecodeFlaw where
  /-- The number of a variable comment is out of range. -/
  | badIndex (line : String)
  /-- A word of an assignment is not a number. -/
  | badLiteral (word : String)
  /-- What follows the `#` of a bit variable is not a number. -/
  | badBit (name : String)
  /-- The header does not end in a number. -/
  | badHeader (line : String)
  | noHeader
  deriving DecidableEq, Repr

/-- The wording of a decoding flaw. -/
def DecodeFlaw.message : DecodeFlaw → String
  | .badIndex line =>
    "Bad variable index in " ++ Text.quote line ++ ": number too large to fit in target type"
  | .badLiteral word => "Bad literal " ++ Text.quote word ++ " in solver output"
  | .badBit name => "Bad bit index in " ++ name
  | .badHeader line => "Bad header " ++ Text.quote line
  | .noHeader => "CNF has no 'p cnf' header"

/-- Trouble with a solver. -/
inductive SolverFlaw where
  /-- A session was given up. -/
  | noResult
  /-- The program could not be started. -/
  | cannotStart (program : String) (cause : FileError)
  /-- The program printed no verdict. -/
  | noAnswer (program : String) (output : String)
  deriving DecidableEq, Repr

/-- The wording of a solver flaw. -/
def SolverFlaw.message : SolverFlaw → String
  | .noResult => "CaDiCaL returned no result"
  | .cannotStart program cause => "Cannot start " ++ program ++ ": " ++ cause.message
  | .noAnswer program output => program ++ " gave no answer, see " ++ output

/-- Why an operation of the library has no result. -/
inductive Failure where
  /-- The text of a literal is malformed. -/
  | parse (text : String) (flaw : LiteralFlaw)
  | inconsistent (cause : Inconsistency)
  /-- A solver output mentions a number without a name. -/
  | unknownVariable (index : Nat)
  | decode (flaw : DecodeFlaw)
  /-- A clause has more images than allowed. -/
  | tooManyImages (limit : Nat)
  | solver (flaw : SolverFlaw)
  | timeout (seconds : Nat)
  | file (cause : FileError)
  /-- Machine arithmetic went out of range. -/
  | fault (cause : Fault)
  deriving DecidableEq, Repr

/-- The wording of a failure. -/
def Failure.message : Failure → String
  | .parse text flaw => "Cannot parse " ++ Text.quote text ++ ": " ++ flaw.message
  | .inconsistent cause => "Inconsistent constraint data: " ++ cause.message
  | .unknownVariable index =>
    "Variable index " ++ toString index ++ " has no matching variable comment"
  | .decode flaw => "Decode error: " ++ flaw.message
  | .tooManyImages limit =>
    "Symmetry closure exceeded " ++ toString limit ++
      " labelings; basis does not generate a finite group"
  | .solver flaw => "Solver error: " ++ flaw.message
  | .timeout seconds => "Solver timed out after " ++ toString seconds ++ "s"
  | .file cause => "I/O error: " ++ cause.message
  | .fault _ => "arithmetic out of range"

/-- A computation of the library. -/
abbrev Result := Except Failure

/-- Let a fault of arithmetic be a failure. -/
def Checked.toResult {α : Type} : Checked α → Result α
  | .ok a => .ok a
  | .error cause => .error (.fault cause)

instance : MonadLift Checked Result := ⟨Checked.toResult⟩

/-- Let a file error be a failure. -/
def FileError.toResult {α : Type} : Except FileError α → Result α
  | .ok a => .ok a
  | .error cause => .error (.file cause)

/-- Read a literal. -/
def Literal.parse (text : String) : Result Literal :=
  match Literal.parseChars text.toList with
  | .ok l => .ok l
  | .error flaw => .error (.parse text flaw)

end CellSat
