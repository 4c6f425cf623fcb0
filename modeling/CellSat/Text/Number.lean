import CellSat.Text.Blank
/-!
# Numbers in text

Numerals are ASCII digits with any number of leading zeros. A sign may stand in front: `+` always,
`-` where the type has negative values. Hexadecimal is written in lower case.

* `readNat?`, `readNatUpTo?`, `readIntIn?`: reading;
* `readBase?`: reading in bases up to sixteen;
* `hex`, `padStart`: writing.
-/

namespace CellSat.Text

/-- One of the ten ASCII digits. -/
def isDigit (c : Char) : Bool := '0' ≤ c && c ≤ '9'

/-- The number that digits spell, most significant first. -/
def digitsValue (ds : List Char) : Nat :=
  ds.foldl (fun n c => 10 * n + (c.toNat - '0'.toNat)) 0

/-- Read a nonempty run of digits. -/
def readDigits? (s : List Char) : Option Nat :=
  if s ≠ [] ∧ s.all isDigit then some (digitsValue s) else none

/-- Read an unsigned number: an optional `+`, then digits. -/
def readNat? : List Char → Option Nat
  | '+' :: s => readDigits? s
  | s => readDigits? s

/-- Read an unsigned number of at most `limit`. -/
def readNatUpTo? (limit : Nat) (s : List Char) : Option Nat :=
  (readNat? s).filter (· ≤ limit)

/-- Read a signed number between two bounds. -/
def readIntIn? (low high : Int) : List Char → Option Int
  | '-' :: s => ((readDigits? s).map fun n => -(n : Int)).filter fun x => low ≤ x ∧ x ≤ high
  | s => ((readNat? s).map fun n => (n : Int)).filter fun x => low ≤ x ∧ x ≤ high

/-- The value of a digit in bases up to sixteen. -/
def digitValue? (c : Char) : Option Nat :=
  if isDigit c then some (c.toNat - '0'.toNat)
  else if 'a' ≤ c ∧ c ≤ 'f' then some (c.toNat - 'a'.toNat + 10)
  else if 'A' ≤ c ∧ c ≤ 'F' then some (c.toNat - 'A'.toNat + 10)
  else none

/-- Read digits of a base after those already read. -/
def readBaseFrom? (base value : Nat) : List Char → Option Nat
  | [] => some value
  | c :: s =>
    match digitValue? c with
    | none => none
    | some d => if d < base then readBaseFrom? base (base * value + d) s else none

/-- Read a nonempty run of digits of a base. -/
def readBase? (base : Nat) (s : List Char) : Option Nat :=
  if s = [] then none else readBaseFrom? base 0 s

/-- The hexadecimal digits of a number, in lower case. -/
def hex (n : Nat) : String := String.ofList (Nat.toDigits 16 n)

/-- Fill a text up to a width from the left. -/
def padStart (width : Nat) (fill : Char) (s : String) : String :=
  String.ofList (List.replicate (width - s.length) fill) ++ s

end CellSat.Text
