/-!
# Places in a text

* `Yaml.isBlank`, `Yaml.isBreak`, `Yaml.isAllowed`: classes of characters;
* `Yaml.Cursor`: a place in a text, with its line and its column;
* `Yaml.Gap`: what stands between two words, and the text it counts as.
-/

namespace CellSat.Yaml

/-! ## Characters -/

/-- Whether a character separates words of a line. -/
def isBlank (c : Char) : Bool := c == ' ' || c == '\t'

/-- Whether a character ends a line. -/
def isBreak (c : Char) : Bool := [0x0A, 0x0D, 0x85, 0x2028, 0x2029].contains c.toNat

/-- Whether a character may stand in a text. -/
def isAllowed (c : Char) : Bool :=
  let n := c.toNat
  n == 0x09 || n == 0x0A || n == 0x0D || (0x20 ≤ n && n ≤ 0x7E) || n == 0x85 ||
    (0xA0 ≤ n && n != 0xFFFE && n != 0xFFFF)

/-- Whether a word ends before what follows. -/
def endsWord : List Char → Bool
  | [] => true
  | c :: _ => isBlank c || isBreak c

/-- Whether a line ends before what follows. -/
def endsLine : List Char → Bool
  | [] => true
  | c :: _ => isBreak c

/-- The characters of names. -/
def isNameChar (c : Char) : Bool := c.isAlphanum || c == '_' || c == '-'

/-- The marks of bracketed values. -/
def isFlowMark (c : Char) : Bool := [',', '[', ']', '\x7b', '\x7d'].contains c

/-! ## Cursors -/

/-- A place in a text: what follows it, and how many characters, lines, and characters of its line
lie before it. -/
structure Cursor where
  rest : List Char
  index : Nat := 0
  line : Nat := 0
  column : Nat := 0
  deriving DecidableEq, Repr

namespace Cursor

/-- The place after so many characters of a line. -/
def forward (n : Nat) (c : Cursor) : Cursor :=
  { c with rest := c.rest.drop n, index := c.index + n, column := c.column + n }

/-- The place after the next character of a line. -/
def next (c : Cursor) : Cursor := c.forward 1

/-- The place after the characters of a line that have a property. -/
def skipWhile (p : Char → Bool) (c : Cursor) : Cursor := c.forward (c.rest.takeWhile p).length

/-- The end of the line. -/
def toLineEnd (c : Cursor) : Cursor := c.skipWhile fun x => !isBreak x

/-- The place after blanks and a comment. -/
def skipComment (c : Cursor) : Cursor :=
  let c := c.skipWhile isBlank
  if c.rest.head? = some '#' then c.toLineEnd else c

/-- The line break at a place, and the place after it. A line feed stands for all breaks but the
separators of lines and of paragraphs. -/
def lineBreak? (c : Cursor) : Option (Char × Cursor) :=
  match c.rest with
  | '\r' :: '\n' :: s => some ('\n', ⟨s, c.index + 2, c.line + 1, 0⟩)
  | x :: s =>
    if isBreak x then
      some (if x.toNat < 0x2028 then '\n' else x, ⟨s, c.index + 1, c.line + 1, 0⟩)
    else none
  | [] => none

/-- The place after the line break, if there is one. -/
def skipBreak (c : Cursor) : Cursor := (c.lineBreak?.map (·.2)).getD c

/-- Whether a line starts with three marks of one kind and nothing close behind. -/
def atMarks (mark : Char) (c : Cursor) : Bool :=
  c.column == 0 && c.rest.take 3 == [mark, mark, mark] && endsWord (c.rest.drop 3)

/-- Whether a document starts or ends. -/
def atDocumentMark (c : Cursor) : Bool := c.atMarks '-' || c.atMarks '.'

end Cursor

/-! ## Gaps -/

/-- What stands between two words: blanks, or line breaks with blanks around them. -/
structure Gap where
  blanks : List Char := []
  breaks : List Char := []
  deriving DecidableEq, Repr

/-- The text of a gap. A first line feed counts as a space, or not at all if more breaks follow. -/
def Gap.text (g : Gap) : List Char :=
  match g.breaks with
  | [] => g.blanks
  | '\n' :: [] => [' ']
  | '\n' :: more => more
  | breaks => breaks

/-- Read on in a gap. A tab may not stand in the indentation of a line. -/
def Gap.read? (indentation : Nat) : Nat → Gap → Cursor → Option (Gap × Cursor)
  | 0, _, _ => none
  | fuel + 1, g, c =>
    match c.lineBreak? with
    | some (b, c) => Gap.read? indentation fuel ⟨[], g.breaks ++ [b]⟩ c
    | none =>
      match c.rest with
      | x :: _ =>
        if !isBlank x then some (g, c)
        else if g.breaks = [] then
          Gap.read? indentation fuel ⟨g.blanks ++ [x], []⟩ c.next
        else if x = '\t' ∧ c.column < indentation then none
        else Gap.read? indentation fuel g c.next
      | [] => some (g, c)

/-- Read a gap. -/
def Cursor.gap? (indentation : Nat) (g : Gap) (c : Cursor) : Option (Gap × Cursor) :=
  g.read? indentation (c.rest.length + 1) c

end CellSat.Yaml
