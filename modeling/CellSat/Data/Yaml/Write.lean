import CellSat.Data.Plain
import CellSat.Data.Yaml.Cursor
/-!
# Writing block-structured data

Each entry of a mapping and each item of a sequence has lines of its own. A sequence starts in the
column of its key. A text is written without marks if that can be read only as this text.

* `Yaml.allowsPlain`, `Yaml.allowsSingle`, `Yaml.allowsBlock`: the ways in which a text can stand;
* `Yaml.writeText`: a text in line or as a block;
* `Data.toYaml`: a tree.
-/

namespace CellSat

namespace Yaml

/-- Whether a character can be written as it is. -/
def isPrintable (c : Char) : Bool :=
  let n := c.toNat
  n == 0x0A || (0x20 ≤ n && n ≤ 0x7E) ||
    (0xA0 ≤ n && n != 0xFEFF && n != 0xFFFE && n != 0xFFFF)

/-- The marks that a plain text may not start with. -/
def leadingMarks : List Char :=
  ['#', ',', '[', ']', '\x7b', '\x7d', '&', '*', '!', '|', '>', '\'', '"', '%', '@',
    Char.ofNat 0x60]

/-- Whether the first character of a text has a meaning of its own. -/
def startsWithMark : List Char → Bool
  | '-' :: '-' :: '-' :: _ => true
  | '.' :: '.' :: '.' :: _ => true
  | '?' :: s | ':' :: s | '-' :: s => endsWord s
  | c :: _ => leadingMarks.contains c
  | [] => false

/-- Whether a colon ends a word, or a number sign starts one. -/
def hasInnerMark : List Char → Bool
  | [] => false
  | [_] => false
  | c :: d :: s =>
    (d == ':' && endsWord s) || (d == '#' && endsWord [c]) || hasInnerMark (d :: s)

/-- Whether a blank stands before a line break. -/
def hasBlankBeforeBreak : List Char → Bool
  | c :: d :: s => (c == ' ' && isBreak d) || hasBlankBeforeBreak (d :: s)
  | _ => false

/-- Whether a blank stands after a line break. -/
def hasBlankAfterBreak : List Char → Bool
  | c :: d :: s => (isBreak c && d == ' ') || hasBlankAfterBreak (d :: s)
  | _ => false

/-- Whether a text has a blank or a line break at an end. -/
def hasLooseEnd (s : List Char) : Bool :=
  let loose := fun c => c == ' ' || isBreak c
  (s.head?.any loose) || (s.getLast?.any loose)

/-- Whether a text needs escapes. -/
def needsEscapes (s : List Char) : Bool :=
  s.any (fun c => !isPrintable c) || hasBlankBeforeBreak s

/-- Whether a text can stand without marks. -/
def allowsPlain (s : List Char) : Bool :=
  !(startsWithMark s || hasInnerMark s || hasLooseEnd s || needsEscapes s || s.any isBreak)

/-- Whether a text can stand in single quotation marks. -/
def allowsSingle (s : List Char) : Bool := !(needsEscapes s || hasBlankAfterBreak s)

/-- Whether a text can be written as a block. -/
def allowsBlock (s : List Char) : Bool := !(needsEscapes s || s.getLast? == some ' ')

/-- Whether a plain text would be read as something else. -/
def isAmbiguous (s : String) : Bool :=
  PlainWord.meaning s != .itself || PlainWord.isPadded s.toList

/-- So many blanks. -/
def blanks (n : Nat) : String := String.ofList (List.replicate n ' ')

/-- Characters at an indentation. Each line starts with it, but not the breaks of empty ones. -/
def indentLines (indent : Nat) (write : Char → String) : Bool → List Char → String
  | _, [] => ""
  | atStart, c :: s =>
    if isBreak c then c.toString ++ indentLines indent write true s
    else (if atStart then blanks indent else "") ++ write c ++ indentLines indent write false s

/-- A text in single quotation marks. -/
def quoteSingle (indent : Nat) (s : List Char) : String :=
  "'" ++ indentLines indent (fun c => if c == '\'' then "''" else c.toString) false s ++
    (if s.getLast?.any isBreak then blanks indent else "") ++ "'"

/-- The digits of an escape in capitals. -/
def escapeDigits (width n : Nat) : String := (Text.padStart width '0' (Text.hex n)).toUpper

/-- How a character is written between double quotation marks. -/
def escapeChar (c : Char) : String :=
  let n := c.toNat
  if c == '"' then "\\\""
  else if c == '\\' then "\\\\"
  else if isPrintable c && !isBreak c then c.toString
  else
    match n with
    | 0 => "\\0"
    | 7 => "\\a"
    | 8 => "\\b"
    | 9 => "\\t"
    | 10 => "\\n"
    | 11 => "\\v"
    | 12 => "\\f"
    | 13 => "\\r"
    | 27 => "\\e"
    | 0x85 => "\\N"
    | 0x2028 => "\\L"
    | 0x2029 => "\\P"
    | n =>
      if n ≤ 0xFF then "\\x" ++ escapeDigits 2 n
      else if n ≤ 0xFFFF then "\\u" ++ escapeDigits 4 n
      else "\\U" ++ escapeDigits 8 n

/-- A text in double quotation marks. -/
def quoteDouble (s : List Char) : String := "\"" ++ String.join (s.map escapeChar) ++ "\""

/-- The mark for the line breaks at the end of a block. -/
def chompMark (s : List Char) : String :=
  match s.reverse with
  | [] => "-"
  | [c] => if isBreak c then "+" else "-"
  | c :: d :: _ => if !isBreak c then "-" else if isBreak d then "+" else ""

/-- The mark for a block whose first line starts with a blank. -/
def indentMark (s : List Char) : String :=
  match s with
  | c :: _ => if c == ' ' || isBreak c then "2" else ""
  | [] => ""

/-- A text as a block of lines at an indentation. -/
def writeBlock (indent : Nat) (s : List Char) : String :=
  "|" ++ indentMark s ++ chompMark s ++ "\n" ++ indentLines indent Char.toString true s ++
    if s.getLast?.any isBreak then "" else "\n"

/-- A text with the end of its line, or as a block at an indentation. -/
def writeText (indent : Nat) (s : String) : String :=
  let chars := s.toList
  if chars.contains '\n' && allowsBlock chars then writeBlock indent chars
  else if chars.contains '\n' then quoteDouble chars ++ "\n"
  else if !isAmbiguous s && allowsPlain chars then s ++ "\n"
  else if allowsSingle chars then quoteSingle indent chars ++ "\n"
  else quoteDouble chars ++ "\n"

/-- A value that stands in line. -/
def writeScalar (indent : Nat) : Data → String
  | .null => "null\n"
  | .bool b => toString b ++ "\n"
  | .int i => toString i ++ "\n"
  | .negativeZero => "-0\n"
  | .decimal t => t ++ "\n"
  | .text s => writeText indent s
  | .garbled => writeText indent ""
  | .list _ => "[]\n"
  | .map _ => "\x7b\x7d\n"

/-- A key, which is a plain text. -/
def writeKey : Data → String
  | .text s => s
  | _ => ""

end Yaml

namespace Data

mutual

/-- The lines of the entries of a mapping. The first one starts without its indentation. -/
def entriesToYaml (indent : Nat) : List (Data × Data) → String
  | [] => ""
  | (key, value) :: rest =>
    let written := match value with
      | .map (e :: es) =>
        "\n" ++ Yaml.blanks (indent + 2) ++ entriesToYaml (indent + 2) (e :: es)
      | .list (d :: ds) => "\n" ++ Yaml.blanks indent ++ itemsToYaml indent (d :: ds)
      | d => " " ++ Yaml.writeScalar (indent + 2) d
    Yaml.writeKey key ++ ":" ++ written ++
      if rest.isEmpty then "" else Yaml.blanks indent ++ entriesToYaml indent rest

/-- The lines of the items of a sequence. The first one starts without its indentation. -/
def itemsToYaml (indent : Nat) : List Data → String
  | [] => ""
  | value :: rest =>
    let written := match value with
      | .map (e :: es) => entriesToYaml (indent + 2) (e :: es)
      | .list (d :: ds) => itemsToYaml (indent + 2) (d :: ds)
      | d => Yaml.writeScalar (indent + 2) d
    "- " ++ written ++
      if rest.isEmpty then "" else Yaml.blanks indent ++ itemsToYaml indent rest

end

/-- A tree as block-structured text. Its keys are plain texts. -/
def toYaml : Data → String
  | .map (e :: es) => entriesToYaml 0 (e :: es)
  | .list (d :: ds) => itemsToYaml 0 (d :: ds)
  | d => Yaml.writeScalar 2 d

end Data

end CellSat
