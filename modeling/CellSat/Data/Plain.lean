import CellSat.Data
import CellSat.Text.Number
/-!
# Plain words

A word without quotation marks stands for nothing, a truth value, a number or itself. Integers are
decimal without superfluous zeros, or have the mark of a base in front: `0x`, `0o` or `0b`.

* `PlainWord.isNull`, `PlainWord.toBool?`, `PlainWord.unsigned?`, `PlainWord.signed?`: a word that
  is asked for one of them;
* `PlainWord.meaning`: what a word stands for if nothing is asked of it;
* `Data.ofWord?`: this as data.
-/

namespace CellSat

namespace PlainWord

/-- Words for nothing, apart from the empty one. -/
def isNull (w : String) : Bool := ["~", "null", "Null", "NULL"].contains w

/-- Words for truth values. -/
def toBool? (w : String) : Option Bool :=
  if ["true", "True", "TRUE"].contains w then some true
  else if ["false", "False", "FALSE"].contains w then some false
  else none

/-! ## Integers -/

/-- A word without its sign. -/
def dropSign : List Char → List Char
  | '-' :: s => s
  | '+' :: s => s
  | s => s

/-- Whether a word has digits only but starts with a superfluous zero, so that it is no number. -/
def isPadded (w : List Char) : Bool :=
  match dropSign w with
  | '0' :: d :: s => (d :: s).all Text.isDigit
  | _ => false

/-- Read a number without a sign: decimal digits, or the mark of a base and digits of it. -/
def magnitude? : List Char → Option Nat
  | '0' :: 'x' :: s => Text.readBase? 16 s
  | '0' :: 'o' :: s => Text.readBase? 8 s
  | '0' :: 'b' :: s => Text.readBase? 2 s
  | s => if isPadded s then none else Text.readDigits? s

/-- Read a number without a minus sign. -/
def unsigned? : List Char → Option Nat
  | '+' :: s => magnitude? s
  | s => magnitude? s

/-- Read an integer. -/
def signed? : List Char → Option Int
  | '-' :: s => (magnitude? s).map fun n => -(n : Int)
  | s => (unsigned? s).map fun n => (n : Int)

/-- Whether an integer has at most 128 bits. -/
def isInteger (i : Int) : Bool :=
  -(Nat.pow 2 127 : Int) ≤ i && i < (Nat.pow 2 128 : Int)

/-! ## Other numbers -/

/-- The parts of a number with a point or an exponent: its digits as one number, and the power of
ten by which it is multiplied. -/
def scientific? (s : List Char) : Option (Nat × Int) := do
  let mantissa := s.takeWhile fun c => c ≠ 'e' ∧ c ≠ 'E'
  let exponent : Int ← match s.drop mantissa.length with
    | [] => some 0
    | _ :: '-' :: digits => (Text.readDigits? digits).map fun n => -(n : Int)
    | _ :: '+' :: digits => (Text.readDigits? digits).map fun n => (n : Int)
    | _ :: digits => (Text.readDigits? digits).map fun n => (n : Int)
  let (whole, fraction) := (Text.splitFirst '.' mantissa).getD (mantissa, [])
  let digits ← Text.readDigits? (whole ++ fraction)
  return (digits, exponent - fraction.length)

/-- The least number that is rounded to infinity in double precision. -/
def doubleLimit : Nat := Nat.pow 2 1024 - Nat.pow 2 970

/-- Whether a number times a power of ten is finite in double precision. -/
def isFinite (n : Nat) (exponent : Int) : Bool :=
  let places := (Nat.toDigits 10 n).length + exponent
  if n = 0 ∨ places ≤ 308 then true
  else if 310 ≤ places then false
  else if 0 ≤ exponent then n * Nat.pow 10 exponent.toNat < doubleLimit
  else n < doubleLimit * Nat.pow 10 (-exponent).toNat

/-- Whether a word is a number that may have a point or an exponent, or a special number. -/
def isDecimal (w : List Char) : Bool :=
  [".inf", ".Inf", ".INF"].contains (String.ofList (dropSign w)) ||
    [".nan", ".NaN", ".NAN"].contains (String.ofList w) ||
      (scientific? (dropSign w)).any fun (n, e) => isFinite n e

/-! ## Meanings -/

/-- What a word can stand for. -/
inductive Meaning where
  | nothing
  | truth (b : Bool)
  | integer (i : Int)
  | decimal
  | itself
  deriving DecidableEq, Repr

/-- What a word stands for. -/
def meaning (w : String) : Meaning :=
  if w = "" ∨ isNull w then .nothing
  else match toBool? w with
    | some b => .truth b
    | none => match (signed? w.toList).filter isInteger with
      | some i => .integer i
      | none => if !isPadded w.toList && isDecimal w.toList then .decimal else .itself

end PlainWord

/-- A word as data. There are integers of 64 bits only. -/
def Data.ofWord? (w : String) : Option Data :=
  match PlainWord.meaning w with
  | .nothing => some .null
  | .truth b => some (.bool b)
  | .integer i =>
    if i = 0 ∧ w.toList.head? = some '-' then some .negativeZero
    else if Word.minInt64 ≤ i ∧ i ≤ Word.maxNat64 then some (.int i)
    else none
  | .decimal => some (.decimal w)
  | .itself => some (.text w)

end CellSat
