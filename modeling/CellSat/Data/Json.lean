import CellSat.Data
import CellSat.Text.Number
/-!
# Data trees as JSON

* `Data.parseJson?`: the tree of a text;
* `Data.toJson`: a tree on one line;
* `Data.toPrettyJson`: a tree with one value per line, indented by two spaces.
-/

namespace CellSat

namespace Json

/-! ## Reading -/

/-- The four characters that count as space between values. -/
def isSpace (c : Char) : Bool := c == ' ' || c == '\t' || c == '\n' || c == '\r'

/-- Drop space. -/
def skipSpace (s : List Char) : List Char := s.dropWhile isSpace

/-- The number that four hexadecimal digits spell. -/
def readUnit? (a b c d : Char) : Option Nat := Text.readBase? 16 [a, b, c, d]

/-- The character of an escape of one letter. -/
def escapedChar? : Char → Option Char
  | '"' => some '"'
  | '\\' => some '\\'
  | '/' => some '/'
  | 'b' => some (Char.ofNat 8)
  | 'f' => some (Char.ofNat 12)
  | 'n' => some '\n'
  | 'r' => some '\r'
  | 't' => some '\t'
  | _ => none

/-- The first of two units that make one character. -/
def isLead (n : Nat) : Bool := 0xD800 ≤ n && n < 0xDC00

/-- The second of two units that make one character. -/
def isTrail (n : Nat) : Bool := 0xDC00 ≤ n && n < 0xE000

/-- Read the rest of a string after its opening mark. Half of a pair of units is no character. -/
def readString? : List Char → Option (List (Option Char) × List Char)
  | [] => none
  | '"' :: s => some ([], s)
  | '\\' :: 'u' :: a :: b :: c :: d :: '\\' :: 'u' :: e :: f :: g :: h :: s => do
    let m ← readUnit? a b c d
    let n ← readUnit? e f g h
    if isLead m && isTrail n then
      let code := 0x10000 + (m - 0xD800) * 0x400 + (n - 0xDC00)
      (readString? s).map fun (text, rest) => (some (Char.ofNat code) :: text, rest)
    else
      let first := if isLead m || isTrail m then none else some (Char.ofNat m)
      (readString? ('\\' :: 'u' :: e :: f :: g :: h :: s)).map
        fun (text, rest) => (first :: text, rest)
  | '\\' :: 'u' :: a :: b :: c :: d :: s => do
    let m ← readUnit? a b c d
    let first := if isLead m || isTrail m then none else some (Char.ofNat m)
    (readString? s).map fun (text, rest) => (first :: text, rest)
  | '\\' :: c :: s => do
    let c ← escapedChar? c
    (readString? s).map fun (text, rest) => (some c :: text, rest)
  | c :: s =>
    if c.toNat < 0x20 ∨ c = '\\' then none
    else (readString? s).map fun (text, rest) => (some c :: text, rest)

/-- A string as data. -/
def textOf (s : List (Option Char)) : Data :=
  match s.mapM id with
  | some cs => .text (String.ofList cs)
  | none => .garbled

/-- Split off digits, of which there has to be one. -/
def digits? (s : List Char) : Option (List Char × List Char) :=
  match s.takeWhile Text.isDigit with
  | [] => none
  | ds => some (ds, s.dropWhile Text.isDigit)

/-- Split off a fraction, if there is one. -/
def fraction? : List Char → Option (List Char × List Char)
  | '.' :: s => (digits? s).map fun (ds, rest) => ('.' :: ds, rest)
  | s => some ([], s)

/-- Split off an exponent, if there is one. -/
def exponent? : List Char → Option (List Char × List Char)
  | c :: s =>
    if c = 'e' ∨ c = 'E' then
      let (sign, s) := match s with
        | '+' :: s => (['+'], s)
        | '-' :: s => (['-'], s)
        | s => ([], s)
      (digits? s).map fun (ds, rest) => (c :: sign ++ ds, rest)
    else some ([], c :: s)
  | [] => some ([], [])

/-- Read a number. Integers that no 64-bit type holds, and the negative zero, are decimals. -/
def readNumber? (s : List Char) : Option (Data × List Char) := do
  let (negative, s) := match s with
    | '-' :: s => (true, s)
    | s => (false, s)
  let (whole, s) ← digits? s
  if whole.length > 1 ∧ whole.head? = some '0' then none
  else
    let (fraction, s) ← fraction? s
    let (exponent, s) ← exponent? s
    let text := String.ofList ((if negative then ['-'] else []) ++ whole ++ fraction ++ exponent)
    let n : Int := Text.digitsValue whole
    let i := if negative then -n else n
    if fraction ≠ [] ∨ exponent ≠ [] ∨ (negative ∧ n = 0) ∨ i < Word.minInt64 ∨
        (Word.maxNat64 : Int) < i then
      return (.decimal text, s)
    else return (.int i, s)

mutual

/-- Read a value. -/
def readValue? : Nat → List Char → Option (Data × List Char)
  | 0, _ => none
  | fuel + 1, s =>
    match skipSpace s with
    | 'n' :: 'u' :: 'l' :: 'l' :: s => some (.null, s)
    | 't' :: 'r' :: 'u' :: 'e' :: s => some (.bool true, s)
    | 'f' :: 'a' :: 'l' :: 's' :: 'e' :: s => some (.bool false, s)
    | '"' :: s => (readString? s).map fun (text, rest) => (textOf text, rest)
    | '[' :: s =>
      match skipSpace s with
      | ']' :: s => some (.list [], s)
      | s => (readItems? fuel s).map fun (items, rest) => (.list items, rest)
    | '\x7b' :: s =>
      match skipSpace s with
      | '\x7d' :: s => some (.map [], s)
      | s => (readEntries? fuel s).map fun (entries, rest) => (.map entries, rest)
    | s => readNumber? s

/-- Read the items of a list up to its end. -/
def readItems? : Nat → List Char → Option (List Data × List Char)
  | 0, _ => none
  | fuel + 1, s => do
    let (item, s) ← readValue? fuel s
    match skipSpace s with
    | ',' :: s => do
      let (items, s) ← readItems? fuel s
      return (item :: items, s)
    | ']' :: s => return ([item], s)
    | _ => none

/-- Read the entries of a map up to its end. -/
def readEntries? : Nat → List Char → Option (List (Data × Data) × List Char)
  | 0, _ => none
  | fuel + 1, s =>
    match skipSpace s with
    | '"' :: s => do
      let (key, s) ← readString? s
      match skipSpace s with
      | ':' :: s => do
        let (value, s) ← readValue? fuel s
        let entry := (textOf key, value)
        match skipSpace s with
        | ',' :: s => do
          let (entries, s) ← readEntries? fuel s
          return (entry :: entries, s)
        | '\x7d' :: s => return ([entry], s)
        | _ => none
      | _ => none
    | _ => none

end

/-! ## Writing -/

/-- How a character is written in a string. -/
def escapeChar (c : Char) : String :=
  match c with
  | '"' => "\\\""
  | '\\' => "\\\\"
  | '\n' => "\\n"
  | '\r' => "\\r"
  | '\t' => "\\t"
  | _ =>
    if c.toNat = 8 then "\\b"
    else if c.toNat = 12 then "\\f"
    else if c.toNat < 0x20 then "\\u" ++ Text.padStart 4 '0' (Text.hex c.toNat)
    else c.toString

/-- A string with its marks. -/
def quote (s : String) : String := "\"" ++ String.join (s.toList.map escapeChar) ++ "\""

/-- A line break with an indentation of so many levels. -/
def lineBreak (depth : Nat) : String :=
  "\n" ++ String.ofList (List.replicate (2 * depth) ' ')

end Json

namespace Data

/-- The tree of a JSON text. -/
def parseJson? (s : String) : Option Data :=
  let chars := s.toList
  match Json.readValue? (chars.length + 1) chars with
  | some (d, rest) => if Json.skipSpace rest = [] then some d else none
  | none => none

mutual

/-- A tree on one line. -/
def toJson : Data → String
  | .null => "null"
  | .bool b => toString b
  | .int i => toString i
  | .decimal t => t
  | .negativeZero => "-0"
  | .text s => Json.quote s
  | .garbled => Json.quote ""
  | .list items => "[" ++ Text.join "," (itemsToJson items) ++ "]"
  | .map entries => "\x7b" ++ Text.join "," (entriesToJson entries) ++ "\x7d"

/-- The items of a list, each on one line. -/
def itemsToJson : List Data → List String
  | [] => []
  | d :: items => d.toJson :: itemsToJson items

/-- The entries of a map, each on one line. -/
def entriesToJson : List (Data × Data) → List String
  | [] => []
  | (key, d) :: entries => (key.toJson ++ ":" ++ d.toJson) :: entriesToJson entries

end

mutual

/-- A tree with one value per line, at some depth. -/
def toPrettyJsonAt (depth : Nat) : Data → String
  | .list [] => "[]"
  | .map [] => "\x7b\x7d"
  | .list items =>
    "[" ++ Text.join "," (itemsToPrettyJson (depth + 1) items) ++ Json.lineBreak depth ++ "]"
  | .map entries =>
    "\x7b" ++ Text.join "," (entriesToPrettyJson (depth + 1) entries) ++ Json.lineBreak depth ++
      "\x7d"
  | d => d.toJson

/-- The items of a list, each on its own lines. -/
def itemsToPrettyJson (depth : Nat) : List Data → List String
  | [] => []
  | d :: items =>
    (Json.lineBreak depth ++ d.toPrettyJsonAt depth) :: itemsToPrettyJson depth items

/-- The entries of a map, each on its own lines. -/
def entriesToPrettyJson (depth : Nat) : List (Data × Data) → List String
  | [] => []
  | (key, d) :: entries =>
    (Json.lineBreak depth ++ key.toJson ++ ": " ++ d.toPrettyJsonAt depth) ::
      entriesToPrettyJson depth entries

end

/-- A tree with one value per line, indented by two spaces for each level. -/
def toPrettyJson (d : Data) : String := d.toPrettyJsonAt 0

end Data

end CellSat
