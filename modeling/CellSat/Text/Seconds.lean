import CellSat.Text.Number
/-!
# Seconds in text

A time is given in nanoseconds and shown in seconds with three places. It is shown as the sum of
its whole seconds and its fraction with 53 significant binary digits, where a half goes to the even
neighbour, as it does in the last place.

* `divideToEven`: division to the nearest integer;
* `renderSeconds`: a time as text.
-/

namespace CellSat.Text

/-- The integer nearest to a quotient, the even one of two. -/
def divideToEven (n d : Nat) : Nat :=
  let q := n / d
  let r := n % d
  if d < 2 * r ∨ (2 * r = d ∧ q % 2 = 1) then q + 1 else q

/-- The number of binary places that are kept of fractions. -/
def fractionBits : Nat := 100

/-- A quotient with 53 significant binary digits, in units of the last kept binary place. -/
def roundBinary (n d : Nat) : Nat :=
  let scaled := n * Nat.pow 2 fractionBits
  let digits := if scaled / d = 0 then 0 else (scaled / d).log2 + 1
  let unit := Nat.pow 2 (digits - 53)
  divideToEven scaled (d * unit) * unit

/-- A time in nanoseconds as seconds with three places. -/
def renderSeconds (nanoseconds : Nat) : String :=
  let whole := roundBinary (nanoseconds / 1000000000) 1
  let fraction := roundBinary (nanoseconds % 1000000000) 1000000000
  let seconds := roundBinary (whole + fraction) (Nat.pow 2 fractionBits)
  let thousandths := divideToEven (seconds * 1000) (Nat.pow 2 fractionBits)
  toString (thousandths / 1000) ++ "." ++ padStart 3 '0' (toString (thousandths % 1000))

end CellSat.Text
