import CellSat.Cnf.Formula
/-!
# Assignments

A solver answers with signed numbers. Read with the names of a formula they give a value to each
variable, where the bits of a many-valued variable are put together.

* `Value`: a truth value or a number;
* `SymbolTable.read`: the names in the comments of a formula's text;
* `Assignment.read`: the numbers in a solver's answer; `Assignment.write`: such an answer;
* `Assignment.decode`, `Assignment.load`: the values of variables;
* `Formula.exclude`: a formula's text with a clause that rules out an answer.
-/

namespace CellSat

/-- The value of a variable. -/
inductive Value where
  | truth (b : Bool)
  | number (n : Nat)
  deriving DecidableEq, Repr

namespace Value

/-- Whether a value is true or not zero. -/
def isSet : Value → Bool
  | truth b => b
  | number n => n != 0

/-- A value as a number. -/
def toNat : Value → Nat
  | truth b => b.toNat
  | number n => n

/-- The text of a value. -/
def render : Value → String
  | truth b => toString b
  | number n => toString n

end Value

/-- Variables with their values, in increasing order of the names. -/
abbrev Valuation := List (String × Value)

/-! ## Names -/

/-- The part of a text before the first colon that a space follows, and the part after both. -/
def splitColon : List Char → Option (List Char × List Char)
  | [] => none
  | ':' :: ' ' :: s => some ([], s)
  | c :: s => (splitColon s).map fun (a, b) => (c :: a, b)

/-- The name and the number in a line, unless it is not a comment that names a variable. -/
def SymbolTable.readLine (line : String) : Result (Option (String × Int)) :=
  match Text.dropStart? Formula.variableComment.toList line.toList with
  | none => .ok none
  | some rest =>
    match splitColon rest with
    | none => .ok none
    | some (name, index) =>
      let digits := index.takeWhile Text.isDigit
      if name = [] ∨ name.contains ' ' ∨ digits = [] then .ok none
      else if Text.digitsValue digits ≤ Word.maxInt32.toNat then
        .ok (some (String.ofList name, Text.digitsValue digits))
      else .error (.decode (.badIndex line))

/-- Add the names that lines give to a table. -/
def SymbolTable.readLines (t : SymbolTable) : List (Except FileError String) → Result SymbolTable
  | [] => .ok t
  | line :: lines => do
    match ← SymbolTable.readLine (← FileError.toResult line) with
    | none => readLines t lines
    | some (name, index) => readLines (t.insert name index) lines

/-- The names in the text of a formula. -/
def SymbolTable.read (cnf : Content) : Result SymbolTable := readLines {} cnf.lines

/-! ## Numbers -/

namespace Assignment

/-- Read one number of an answer. -/
def readNumber (word : String) : Result Int :=
  match Text.readIntIn? Word.minInt32 Word.maxInt32 word.toList with
  | some number => .ok number
  | none => .error (.decode (.badLiteral word))

/-- The numbers of a line of an answer, the zeros left out. Only lines that start with the word
`v` have any. -/
def readLine (line : String) : Result (List Int) :=
  match Text.wordsOf line with
  | "v" :: words => do return (← words.mapM readNumber).filter (· ≠ 0)
  | _ => .ok []

/-- The numbers of the lines of an answer. -/
def readLines : List (Except FileError String) → Result (List Int)
  | [] => .ok []
  | line :: lines => do
    let numbers ← readLine (← FileError.toResult line)
    return numbers ++ (← readLines lines)

/-- The numbers of an answer. -/
def read (answer : Content) : Result (List Int) := readLines answer.lines

/-- The text of an answer. -/
def write : Option (List Int) → String
  | none => "s UNSATISFIABLE\n"
  | some numbers =>
    "s SATISFIABLE\nv" ++ String.join (numbers.map fun n => " " ++ toString n) ++ " 0\n"

/-! ## Values -/

/-- The value of a bit that is set. Bits above the machine word have none. -/
def bitMask (truth : Bool) (bit : Nat) : Nat := if truth ∧ bit < 64 then Nat.pow 2 bit else 0

/-- Add what one named number says to the values. -/
def decodeNamed (values : Std.TreeMap String Value) (name : String) (truth : Bool) :
    Result (Std.TreeMap String Value) :=
  match Text.splitFirst '#' name.toList with
  | none => .ok (values.insert name (.truth truth))
  | some (base, bit) =>
    match Text.readNatUpTo? Word.maxNat32 bit with
    | none => .error (.decode (.badBit name))
    | some bit =>
      let base := String.ofList base
      let previous := (values[base]?.map Value.toNat).getD 0
      .ok (values.insert base (.number (previous ||| bitMask truth bit)))

/-- Add what numbers say to the values. -/
def decodeFrom (symbols : SymbolTable) (values : Std.TreeMap String Value) :
    List Int → Result (Std.TreeMap String Value)
  | [] => .ok values
  | number :: numbers => do
    let index ← Word.int32 number.natAbs
    match symbols.name? index with
    | none => throw (.unknownVariable number.natAbs)
    | some name => decodeFrom symbols (← decodeNamed values name (0 < number)) numbers

/-- The values that an assignment gives to the variables of a table. -/
def decode (symbols : SymbolTable) (numbers : List Int) : Result Valuation := do
  return (← decodeFrom symbols ∅ numbers).toList

/-- The values in an answer to the text of a formula. -/
def load (cnf answer : Content) : Result Valuation := do
  let symbols ← SymbolTable.read cnf
  decode symbols (← read answer)

end Assignment

/-! ## Exclusion -/

namespace Formula

/-- The header with one more clause. -/
def bumpHeader (line : String) : Result String :=
  match (Text.wordsOf line).reverse with
  | [] => .error (.decode (.badHeader line))
  | count :: rest =>
    match Text.readNatUpTo? Word.maxNat64 count.toList with
    | none => .error (.decode (.badHeader line))
    | some count => do
      let next ← Word.nat64 (count + 1)
      return Text.join " " rest.reverse ++ " " ++ toString next

/-- Bump the first header among lines, which has to exist. -/
def bumpFirstHeader : List String → Result (List String)
  | [] => .error (.decode .noHeader)
  | line :: lines =>
    if line.startsWith "p cnf" then do return (← bumpHeader line) :: lines
    else do return line :: (← bumpFirstHeader lines)

/-- A formula's text with a clause that rules out an answer. -/
def exclude (cnf answer : String) : Result String := do
  let lines ← bumpFirstHeader (Text.lines cnf)
  let numbers ← Assignment.read (.text answer)
  let opposites ← numbers.mapM fun n => do return toString (← Word.int32 (-n)) ++ " "
  return String.join (lines.map fun line => line ++ "\n") ++ "c excluded solution:\n" ++
    String.join opposites ++ "0\n"

end Formula

end CellSat
