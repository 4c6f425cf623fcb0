import CellSat.Data.Yaml.Cursor
import CellSat.Text.Number
/-!
# Anchors, tags and directives

* `Cursor.anchor?`: the name of an anchor;
* `Yaml.Tag`, `Cursor.tag?`: the tag of a value, as a handle and what it is applied to;
* `Yaml.Directive`, `Cursor.directive?`: a line about the document.
-/

namespace CellSat.Yaml

/-! ## Anchors -/

/-- Whether the name of an anchor may end before what follows. -/
def endsAnchor : List Char → Bool
  | [] => true
  | c :: _ =>
    isBlank c || isBreak c ||
      ['?', ':', ',', ']', '\x7d', '%', '@', Char.ofNat 0x60].contains c

/-- Read the name of an anchor after its mark. -/
def Cursor.anchor? (c : Cursor) : Option (String × Cursor) :=
  let name := c.next.rest.takeWhile isNameChar
  let c := c.next.forward name.length
  if name ≠ [] ∧ endsAnchor c.rest then some (String.ofList name, c) else none

/-! ## Tags -/

/-- A tag: a handle that stands for the start of a name, and the rest of the name. Without a handle
the name is whole. -/
structure Tag where
  handle : String
  suffix : String
  deriving DecidableEq, Repr

/-- The number of bytes of a character, from its first byte. -/
def byteCount? (first : Nat) : Option Nat :=
  if first < 0x80 then some 1
  else if 0xC0 ≤ first ∧ first < 0xE0 then some 2
  else if 0xE0 ≤ first ∧ first < 0xF0 then some 3
  else if 0xF0 ≤ first ∧ first < 0xF8 then some 4
  else none

/-- The bytes that so many percent signs with two hexadecimal digits spell. -/
def percentBytes? : Nat → List Char → Option (List UInt8)
  | 0, _ => some []
  | n + 1, '%' :: a :: b :: s => do
    let byte ← Text.readBase? 16 [a, b]
    return byte.toUInt8 :: (← percentBytes? n s)
  | _ + 1, _ => none

/-- The character that percent signs spell, and the number of characters that this takes. -/
def percentChar? (s : List Char) : Option (Char × Nat) := do
  let first ← (← percentBytes? 1 s).head?
  let width ← byteCount? first.toNat
  match (← String.fromUTF8? ⟨(← percentBytes? width s).toArray⟩).toList with
  | [c] => return (c, 3 * width)
  | _ => none

/-- Whether a character may stand in the name of a tag. Between angle brackets there are more. -/
def isTagChar (verbatim : Bool) (c : Char) : Bool :=
  isNameChar c || ";/?:@&=+$.%!~*'()".toList.contains c || (verbatim && [',', '[', ']'].contains c)

/-- Read on in the name of a tag. -/
def tagNameFrom? (verbatim : Bool) : Nat → List Char → Cursor → Option (List Char × Cursor)
  | 0, _, _ => none
  | fuel + 1, name, c =>
    match c.rest with
    | '%' :: _ => do
      let (x, width) ← percentChar? c.rest
      tagNameFrom? verbatim fuel (name ++ [x]) (c.forward width)
    | x :: _ =>
      if isTagChar verbatim x then tagNameFrom? verbatim fuel (name ++ [x]) c.next
      else some (name, c)
    | [] => some (name, c)

/-- Read the name of a tag, which is not empty. -/
def Cursor.tagName? (verbatim : Bool) (c : Cursor) : Option (List Char × Cursor) := do
  let (name, c) ← tagNameFrom? verbatim (c.rest.length + 1) [] c
  if name = [] then none else some (name, c)

/-- The characters between the mark of a tag and the mark that ends its handle, if it has one. -/
def handleName? (s : List Char) : Option (List Char) :=
  let name := s.takeWhile isNameChar
  if (s.drop name.length).head? = some '!' then some name else none

/-- Read a tag in angle brackets. -/
def Cursor.verbatimTag? (c : Cursor) : Option (Tag × Cursor) := do
  let (name, c) ← (c.forward 2).tagName? true
  if c.rest.head? = some '>' then return (⟨"", String.ofList name⟩, c.next) else none

/-- Read a tag with a handle, with a mark only, or the mark alone. -/
def Cursor.shortTag? (c : Cursor) : Option (Tag × Cursor) :=
  match handleName? (c.rest.drop 1) with
  | some name => do
    let (suffix, c) ← (c.forward (name.length + 2)).tagName? false
    return (⟨"!" ++ String.ofList name ++ "!", String.ofList suffix⟩, c)
  | none => do
    let (name, c) ← tagNameFrom? false (c.rest.length + 1) [] c.next
    return (if name = [] then ⟨"", "!"⟩ else ⟨"!", String.ofList name⟩, c)

/-- Read a tag. Something separates it from what follows. -/
def Cursor.tag? (flow : Bool) (c : Cursor) : Option (Tag × Cursor) := do
  let (tag, c) ← if (c.rest.drop 1).head? = some '<' then c.verbatimTag? else c.shortTag?
  if endsWord c.rest ∨ (flow ∧ c.rest.head? = some ',') then return (tag, c) else none

/-! ## Directives -/

/-- A line about the document. -/
inductive Directive where
  | version (major minor : Nat)
  /-- What a handle stands for. -/
  | handle (name start : String)
  deriving DecidableEq, Repr

/-- Read a number of at most nine digits. -/
def Cursor.versionNumber? (c : Cursor) : Option (Nat × Cursor) :=
  let digits := c.rest.takeWhile Text.isDigit
  if digits.length ≤ 9 then
    (Text.readDigits? digits).map fun n => (n, c.forward digits.length)
  else none

/-- Read a version. -/
def Cursor.version? (c : Cursor) : Option (Directive × Cursor) := do
  let (major, c) ← (c.skipWhile isBlank).versionNumber?
  if c.rest.head? = some '.' then
    let (minor, c) ← c.next.versionNumber?
    return (.version major minor, c)
  else none

/-- Read a handle and what it stands for. -/
def Cursor.handle? (c : Cursor) : Option (Directive × Cursor) := do
  let c := c.skipWhile isBlank
  if c.rest.head? ≠ some '!' then none
  else
    let (name, c) ← match handleName? (c.rest.drop 1) with
      | some name => some ("!" ++ String.ofList name ++ "!", c.forward (name.length + 2))
      | none => if (c.rest.drop 1).head?.any isNameChar then none else some ("!", c.next)
    if c.rest.head?.any isBlank then
      let (start, c) ← (c.skipWhile isBlank).tagName? true
      if endsWord c.rest then return (.handle name (String.ofList start), c) else none
    else none

/-- Read a directive with its line. -/
def Cursor.directive? (c : Cursor) : Option (Directive × Cursor) := do
  let name := c.next.rest.takeWhile isNameChar
  let c := c.next.forward name.length
  if !endsWord c.rest then none
  else
    let (directive, c) ←
      if name = "YAML".toList then c.version?
      else if name = "TAG".toList then c.handle?
      else none
    let c := c.skipComment
    if endsLine c.rest then return (directive, c.skipBreak) else none

end CellSat.Yaml
