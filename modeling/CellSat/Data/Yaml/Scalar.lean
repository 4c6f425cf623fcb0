import CellSat.Data.Yaml.Cursor
import CellSat.Text.Number
/-!
# Texts in a document

A text stands as plain words, between single or double quotation marks, or as a block of indented
lines that are kept or joined.

* `Yaml.Style`: how a text stands;
* `Cursor.plain?`, `Cursor.quoted?`, `Cursor.block?`: reading a text of each style.
-/

namespace CellSat.Yaml

/-- How a text stands in a document. -/
inductive Style where
  | plain
  | quoted
  /-- A block whose lines are kept. -/
  | kept
  /-- A block whose lines are joined. -/
  | joined
  deriving DecidableEq, Repr

/-! ## Plain texts -/

/-- Split off a plain word. Inside of brackets their marks end it, and none of them may follow a
colon. -/
def plainWord? (flow : Bool) : List Char → Option (List Char)
  | [] => some []
  | c :: s =>
    if isBlank c || isBreak c then some []
    else if flow && c == ':' && s.head?.any (fun d => d == '?' || isFlowMark d) then none
    else if (c == ':' && endsWord s) || (flow && isFlowMark c) then some []
    else (plainWord? flow s).map (c :: ·)

/-- Read on in a plain text after some words and a gap. Its further lines are indented. The last
gap is given back with the text. -/
def plainFrom? (flow : Bool) (indentation : Nat) :
    Nat → List Char → Gap → Cursor → Option (List Char × Gap × Cursor)
  | 0, _, _, _ => none
  | fuel + 1, text, g, c =>
    if c.atDocumentMark || c.rest.head? == some '#' then some (text, g, c)
    else do
      let word ← plainWord? flow c.rest
      if word = [] then some (text, g, c)
      else
        let text := text ++ g.text ++ word
        let (g, c) ← (c.forward word.length).gap? indentation {}
        if g.blanks = [] ∧ g.breaks = [] then some (text, g, c)
        else if !flow && c.column < indentation then some (text, g, c)
        else plainFrom? flow indentation fuel text g c

/-- Read a plain text. -/
def Cursor.plain? (flow : Bool) (indentation : Nat) (c : Cursor) :
    Option (List Char × Gap × Cursor) :=
  plainFrom? flow indentation (c.rest.length + 1) [] {} c

/-! ## Quoted texts -/

/-- The character of an escape of one letter. -/
def escapedChar? : Char → Option Char
  | '0' => some (Char.ofNat 0)
  | 'a' => some (Char.ofNat 7)
  | 'b' => some (Char.ofNat 8)
  | 't' => some '\t'
  | '\t' => some '\t'
  | 'n' => some '\n'
  | 'v' => some (Char.ofNat 11)
  | 'f' => some (Char.ofNat 12)
  | 'r' => some '\r'
  | 'e' => some (Char.ofNat 27)
  | ' ' => some ' '
  | '"' => some '"'
  | '/' => some '/'
  | '\\' => some '\\'
  | 'N' => some (Char.ofNat 0x85)
  | '_' => some (Char.ofNat 0xA0)
  | 'L' => some (Char.ofNat 0x2028)
  | 'P' => some (Char.ofNat 0x2029)
  | _ => none

/-- The character that so many hexadecimal digits number. -/
def numberedChar? (width : Nat) (s : List Char) : Option Char := do
  if s.length < width then none
  else
    let n ← Text.readBase? 16 (s.take width)
    if n.isValidChar then some (Char.ofNat n) else none

/-- The character of an escape, and the number of characters that spell it. -/
def escape? : List Char → Option (Char × Nat)
  | 'x' :: s => (numberedChar? 2 s).map (·, 3)
  | 'u' :: s => (numberedChar? 4 s).map (·, 5)
  | 'U' :: s => (numberedChar? 8 s).map (·, 9)
  | c :: _ => (escapedChar? c).map (·, 1)
  | [] => none

/-- Read on in a quoted text after some characters, the last one first. Between single marks two
of them stand for one, and between double marks there are escapes, also of line breaks. -/
def quotedFrom? (mark : Char) : Nat → List Char → Cursor → Option (List Char × Cursor)
  | 0, _, _ => none
  | fuel + 1, text, c =>
    if c.atDocumentMark then none
    else match c.rest with
      | [] => none
      | x :: s =>
        if isBlank x || isBreak x then do
          let (g, c) ← c.gap? 0 {}
          quotedFrom? mark fuel (g.text.reverse ++ text) c
        else if x = mark then
          if mark = '\'' ∧ s.head? = some '\'' then quotedFrom? mark fuel (x :: text) (c.forward 2)
          else some (text.reverse, c.next)
        else if mark = '"' ∧ x = '\\' then
          match c.next.lineBreak? with
          | some (_, c) => do
            let (g, c) ← c.gap? 0 ⟨[], ['\n']⟩
            quotedFrom? mark fuel ((g.breaks.drop 1).reverse ++ text) c
          | none => do
            let (y, width) ← escape? s
            quotedFrom? mark fuel (y :: text) (c.forward (width + 1))
        else quotedFrom? mark fuel (x :: text) c.next

/-- Read a text between quotation marks. -/
def Cursor.quoted? (mark : Char) (c : Cursor) : Option (List Char × Cursor) :=
  quotedFrom? mark (c.rest.length + 1) [] c.next

/-! ## Blocks -/

/-- What becomes of the line breaks at the end of a block. -/
inductive Chomping where
  /-- One is kept. -/
  | clip
  | strip
  | keep
  deriving DecidableEq, Repr

/-- The mark of a way to treat line breaks. -/
def Chomping.ofMark? : Char → Option Chomping
  | '-' => some .strip
  | '+' => some .keep
  | _ => none

/-- The digit of an indentation, which is not zero. -/
def indentDigit? (c : Char) : Option Nat :=
  if '1' ≤ c ∧ c ≤ '9' then some (c.toNat - '0'.toNat) else none

/-- Read the marks of a block, which come in any order: how it ends, and how far it is indented. -/
def blockHeader (s : List Char) : Chomping × Option Nat × Nat :=
  match s.head?.bind Chomping.ofMark?, s.head?.bind indentDigit? with
  | some chomping, _ =>
    match (s.drop 1).head?.bind indentDigit? with
    | some n => (chomping, some n, 2)
    | none => (chomping, none, 1)
  | none, some n =>
    match (s.drop 1).head?.bind Chomping.ofMark? with
    | some chomping => (chomping, some n, 2)
    | none => (.clip, some n, 1)
  | none, none => (.clip, none, 0)

/-- Read on in empty lines and the indentation after them, as far as it is known. The deepest
column is given back with the line breaks. -/
def blockBreaks? (indentation : Option Nat) :
    Nat → Nat → List Char → Cursor → Option (Nat × List Char × Cursor)
  | 0, _, _, _ => none
  | fuel + 1, deepest, breaks, c =>
    let spaces := (c.rest.takeWhile (· == ' ')).length
    let c := c.forward (match indentation with
      | none => spaces
      | some n => min spaces (n - c.column))
    let deepest := max deepest c.column
    if c.rest.head? = some '\t' ∧ indentation.all (c.column < ·) then none
    else match c.lineBreak? with
      | some (b, c) => blockBreaks? indentation fuel deepest (breaks ++ [b]) c
      | none => some (deepest, breaks, c)

/-- Read empty lines and the indentation after them. -/
def Cursor.blockBreaks? (indentation : Option Nat) (c : Cursor) :
    Option (Nat × List Char × Cursor) :=
  Yaml.blockBreaks? indentation (c.rest.length + 1) 0 [] c

/-- A block that is read: its text, the break of its last line, and those of empty lines after. -/
structure BlockText where
  text : List Char := []
  last : List Char := []
  trailing : List Char := []
  /-- Whether the last line starts with a blank. -/
  blank : Bool := false
  deriving DecidableEq, Repr

/-- Add a line to a block. Two joined lines without blanks in front have a space between them, or
the breaks of the empty lines. -/
def BlockText.add (style : Style) (line : List Char) (b : BlockText) : BlockText :=
  let blank := line.head?.any isBlank
  let between :=
    if style = .joined ∧ b.last = ['\n'] ∧ !b.blank ∧ !blank then
      if b.trailing = [] then [' '] else b.trailing
    else b.last ++ b.trailing
  { text := b.text ++ between ++ line, blank }

/-- Read on in a block. -/
def blockFrom? (style : Style) (indentation : Nat) :
    Nat → BlockText → Cursor → Option (BlockText × Cursor)
  | 0, _, _ => none
  | fuel + 1, b, c =>
    if c.column = indentation ∧ c.rest ≠ [] then do
      let b := b.add style (c.rest.takeWhile fun x => !isBreak x)
      let c := c.toLineEnd
      let (last, c) := match c.lineBreak? with
        | some (x, c) => ([x], c)
        | none => ([], c)
      let (_, trailing, c) ← c.blockBreaks? (some indentation)
      blockFrom? style indentation fuel { b with last, trailing } c
    else some (b, c)

/-- The text of a block. -/
def BlockText.close (chomping : Chomping) (b : BlockText) : List Char :=
  match chomping with
  | .strip => b.text
  | .clip => b.text ++ b.last
  | .keep => b.text ++ b.last ++ b.trailing

/-- Read a block that stands in something indented so far. Without a mark its first line shows its
own indentation. -/
def Cursor.block? (style : Style) (outer : Int) (c : Cursor) : Option (List Char × Cursor) := do
  let (chomping, increment, width) := blockHeader (c.rest.drop 1)
  let c := (c.forward (width + 1)).skipComment
  if !endsLine c.rest then none
  else
    let given := increment.map fun n => (max outer 0).toNat + n
    let (deepest, trailing, c) ← c.skipBreak.blockBreaks? given
    let indentation := given.getD (max deepest (max (outer + 1).toNat 1))
    let (b, c) ← blockFrom? style indentation (c.rest.length + 1) { trailing } c
    return (b.close chomping, c)

end CellSat.Yaml
