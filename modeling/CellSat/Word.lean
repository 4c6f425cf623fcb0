/-!
# Machine words

Coordinates and limits are 64-bit integers, numbered variables and temporaries 32-bit ones. A step
whose result leaves its range, or that divides by zero, is a `Fault`; every other step is the
operation of `Int`.

* `Fault`, `Checked`;
* `Word.int64`, `Word.int32`, `Word.nat64`, `Word.nat32`: a value that has to fit;
* `Word.within`: a result together with the intermediate values that have to fit on the way;
* `Word.add`, `Word.sub`, `Word.neg`, `Word.mul`, `Word.div`, `Word.mod`: the checked steps.
-/

namespace CellSat

/-- Why a step of the machine has no result. -/
inductive Fault where
  /-- The result leaves the range of its type. -/
  | overflow
  /-- The divisor is zero. -/
  | divisionByZero
  /-- A place outside of a table. -/
  | outOfBounds
  /-- A number that is no literal of a clause. -/
  | noLiteral
  deriving DecidableEq, Repr

/-- A computation whose arithmetic may fault. -/
abbrev Checked := Except Fault

namespace Word

/-- The least 64-bit integer. -/
def minInt64 : Int := -9223372036854775808

/-- The greatest 64-bit integer. -/
def maxInt64 : Int := 9223372036854775807

/-- The least 32-bit integer. -/
def minInt32 : Int := -2147483648

/-- The greatest 32-bit integer. -/
def maxInt32 : Int := 2147483647

/-- The greatest unsigned 32-bit integer. -/
def maxNat32 : Nat := 4294967295

/-- The greatest unsigned 64-bit integer. -/
def maxNat64 : Nat := 18446744073709551615

/-- Keep a value that fits in 64 bits. -/
def int64 (x : Int) : Checked Int :=
  if minInt64 ≤ x ∧ x ≤ maxInt64 then .ok x else .error .overflow

/-- Keep a value that fits in 32 bits. -/
def int32 (x : Int) : Checked Int :=
  if minInt32 ≤ x ∧ x ≤ maxInt32 then .ok x else .error .overflow

/-- Keep a value that fits in 64 unsigned bits. -/
def nat64 (n : Nat) : Checked Nat :=
  if n ≤ maxNat64 then .ok n else .error .overflow

/-- Keep a value that fits in 32 unsigned bits. -/
def nat32 (n : Nat) : Checked Nat :=
  if n ≤ maxNat32 then .ok n else .error .overflow

/-- A result that is reached if all values on the way fit in 64 bits. -/
def within {α : Type} (steps : List Int) (result : α) : Checked α :=
  if steps.all fun x => minInt64 ≤ x && x ≤ maxInt64 then .ok result else .error .overflow

/-- The sum, kept in 64 bits. -/
def add (x y : Int) : Checked Int := int64 (x + y)

/-- The difference, kept in 64 bits. -/
def sub (x y : Int) : Checked Int := int64 (x - y)

/-- The opposite, kept in 64 bits. -/
def neg (x : Int) : Checked Int := int64 (-x)

/-- The product, kept in 64 bits. -/
def mul (x y : Int) : Checked Int := int64 (x * y)

/-- The Euclidean quotient, kept in 64 bits. -/
def div (x y : Int) : Checked Int :=
  if y = 0 then .error .divisionByZero else int64 (x / y)

/-- The Euclidean remainder. It faults with the quotient, whose range it shares. -/
def mod (x y : Int) : Checked Int :=
  if y = 0 then .error .divisionByZero else do
    let _ ← int64 (x / y)
    return x % y

end Word

end CellSat
