/-!
# Blank characters

The white space of Unicode, and the two operations on text that depend on it.

* `isBlank`: the characters with the property White_Space;
* `trim`: a text without the blanks at its two ends;
* `words`: the maximal runs of characters that are not blank.
-/

namespace CellSat.Text

/-- The characters with the Unicode property White_Space. -/
def isBlank (c : Char) : Bool :=
  let n := c.toNat
  (0x09 ≤ n && n ≤ 0x0D) || n == 0x20 || n == 0x85 || n == 0xA0 || n == 0x1680 ||
    (0x2000 ≤ n && n ≤ 0x200A) || n == 0x2028 || n == 0x2029 || n == 0x202F || n == 0x205F ||
    n == 0x3000

/-- A text without the blanks at its start. -/
def trimStart (s : List Char) : List Char := s.dropWhile isBlank

/-- A text without the blanks at its end. -/
def trimEnd (s : List Char) : List Char := (s.reverse.dropWhile isBlank).reverse

/-- A text without the blanks at its two ends. -/
def trim (s : List Char) : List Char := trimEnd (trimStart s)

/-- Split a text where `p` holds: the pieces between the places, empty ones kept. -/
def pieces (p : Char → Bool) : List Char → List (List Char)
  | [] => [[]]
  | c :: s =>
    if p c then [] :: pieces p s
    else match pieces p s with
      | [] => [[c]]
      | w :: ws => (c :: w) :: ws

/-- The words of a text: its pieces between blanks that are not empty. -/
def words (s : List Char) : List (List Char) := (pieces isBlank s).filter (· ≠ [])

/-- The words of a string. -/
def wordsOf (s : String) : List String := (words s.toList).map String.ofList

/-- The pieces of a string between the occurrences of a character. -/
def splitAt (c : Char) (s : String) : List String :=
  (pieces (· == c) s.toList).map String.ofList

/-- The part of a text before the first `c` and the part after it. -/
def splitFirst (c : Char) : List Char → Option (List Char × List Char)
  | [] => none
  | d :: s => if d = c then some ([], s) else (splitFirst c s).map fun (a, b) => (d :: a, b)

/-- Remove a literal start of a text. -/
def dropStart? : List Char → List Char → Option (List Char)
  | [], s => some s
  | _ :: _, [] => none
  | c :: p, d :: s => if c = d then dropStart? p s else none

/-- Join texts with one separator between neighbours. -/
def join (separator : String) (parts : List String) : String := separator.intercalate parts

end CellSat.Text
