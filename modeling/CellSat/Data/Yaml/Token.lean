import CellSat.Data.Yaml.Property
import CellSat.Data.Yaml.Scalar
/-!
# Tokens

The marks, texts and changes of indentation of a document. Outside of brackets a collection starts
where a line is indented further than before, and ends where one is indented less. A value in one
line becomes a key when a colon follows it, so the tokens of a key are put in front of it later.

* `Yaml.Token`;
* `Yaml.Layout`: the tokens read so far, the open indentations and the values that may be keys;
* `Layout.step?`: reading one more token;
* `Token.ofText?`: the tokens of a text.
-/

namespace CellSat.Yaml

/-- A token. -/
inductive Token where
  | directive (d : Directive)
  | documentStart
  | documentEnd
  | blockSequence
  | blockMapping
  | blockEnd
  | flowSequence
  | flowSequenceEnd
  | flowMapping
  | flowMappingEnd
  /-- A dash in front of an item. -/
  | blockEntry
  /-- A comma between items. -/
  | flowEntry
  | key
  | value
  | alias (name : String)
  | anchor (name : String)
  | tag (t : Tag)
  | scalar (style : Style) (text : String)
  | streamEnd
  deriving DecidableEq, Repr

/-- A value that may turn out to be a key: the number of tokens before it, and its place. -/
structure KeyPlace where
  position : Nat
  index : Nat
  line : Nat
  column : Nat
  /-- Whether nothing else can stand here. -/
  required : Bool
  deriving DecidableEq, Repr

/-- What is read of a document. -/
structure Layout where
  cursor : Cursor
  /-- The tokens, the last one first. -/
  tokens : List Token := []
  /-- The number of open brackets. -/
  depth : Nat := 0
  /-- The column of the innermost collection outside of brackets. -/
  indent : Int := -1
  /-- The columns of those around it. -/
  indents : List Int := []
  /-- Whether a key may start here. -/
  keyAllowed : Bool := true
  /-- What may be a key, for each level of brackets from the inside. -/
  keys : List (Option KeyPlace) := [none]
  deriving DecidableEq, Repr

namespace Layout

/-- Add a token. -/
def push (t : Token) (s : Layout) : Layout := { s with tokens := t :: s.tokens }

/-- Put tokens in front of all but the first ones. -/
def insert (position : Nat) (ts : List Token) (s : Layout) : Layout :=
  let after := s.tokens.length - position
  { s with tokens := s.tokens.take after ++ ts.reverse ++ s.tokens.drop after }

/-- Move on. -/
def goto (c : Cursor) (s : Layout) : Layout := { s with cursor := c }

/-- Say whether a key may follow. -/
def allowKey (b : Bool) (s : Layout) : Layout := { s with keyAllowed := b }

/-! ## Keys -/

/-- Give up what may be a key, if nothing asks for one. -/
def giveUp? : Option KeyPlace → Option (Option KeyPlace)
  | some k => if k.required then none else some none
  | none => some none

/-- Give up the innermost value that may be a key. -/
def dropKey? (s : Layout) : Option Layout := do
  return { s with keys := (← giveUp? (s.keys.head?.getD none)) :: s.keys.drop 1 }

/-- A key and its colon stand in one line and less than 1024 characters apart. -/
def keepKey? (c : Cursor) : Option KeyPlace → Option (Option KeyPlace)
  | some k =>
    if k.line < c.line ∨ k.index + 1024 < c.index then giveUp? (some k) else some (some k)
  | none => some none

/-- Give up all values that are too far away to be keys. -/
def dropOldKeys? (s : Layout) : Option Layout := do
  return { s with keys := ← s.keys.mapM (keepKey? s.cursor) }

/-- Note that what follows may be a key. -/
def saveKey? (s : Layout) : Option Layout :=
  if s.keyAllowed then do
    let place : KeyPlace := {
      position := s.tokens.length
      index := s.cursor.index
      line := s.cursor.line
      column := s.cursor.column
      required := s.depth = 0 ∧ s.indent = s.cursor.column }
    let s ← s.dropKey?
    return { s with keys := some place :: s.keys.drop 1 }
  else some s

/-! ## Indentation -/

/-- Start a collection in a column, unless one is open there. -/
def openAt (column : Nat) (position : Nat) (t : Token) (s : Layout) : Layout :=
  if s.depth = 0 ∧ s.indent < column then
    { s.insert position [t] with indent := column, indents := s.indent :: s.indents }
  else s

/-- Start a collection here, unless one is open in this column. -/
def openHere (t : Token) (s : Layout) : Layout := s.openAt s.cursor.column s.tokens.length t

/-- End collections that are indented further, given the columns of those around them. -/
def closeFrom (column : Int) : List Int → Layout → Layout
  | [], s => s
  | outer :: indents, s =>
    if column < s.indent then
      closeFrom column indents { s.push .blockEnd with indent := outer, indents := indents }
    else s

/-- End collections that are indented further than a column. -/
def closeTo (column : Int) (s : Layout) : Layout :=
  if s.depth = 0 then s.closeFrom column s.indents else s

/-! ## Reading tokens -/

/-- Skip blanks, comments and line breaks. A tab may not stand where a key may. -/
def toToken : Nat → Layout → Layout
  | 0, s => s
  | fuel + 1, s =>
    let c := s.cursor
    let c := if c.column = 0 ∧ c.rest.head? = some (Char.ofNat 0xFEFF) then c.next else c
    let c := c.skipWhile fun x => x == ' ' || (x == '\t' && (s.depth != 0 || !s.keyAllowed))
    let c := if c.rest.head? = some '#' then c.toLineEnd else c
    match c.lineBreak? with
    | some (_, c) => toToken fuel ((s.goto c).allowKey (s.keyAllowed || s.depth == 0))
    | none => s.goto c

/-- Read a directive or a mark of the document, which ends all collections. -/
def outermost? (t : Token) (c : Cursor) (s : Layout) : Option Layout := do
  return (((← (s.closeTo (-1)).dropKey?).allowKey false).push t).goto c

/-- Read an opening bracket. -/
def bracket? (t : Token) (s : Layout) : Option Layout := do
  let s ← s.saveKey?
  return ({ s with depth := s.depth + 1, keys := none :: s.keys, keyAllowed := true }.push t).goto
    s.cursor.next

/-- Read a closing bracket. -/
def closingBracket? (t : Token) (s : Layout) : Option Layout := do
  let s ← s.dropKey?
  return ({ s with
    depth := s.depth - 1
    keys := if s.depth = 0 then s.keys else s.keys.drop 1
    keyAllowed := false }.push t).goto s.cursor.next

/-- Read a comma. -/
def comma? (s : Layout) : Option Layout := do
  return (((← s.dropKey?).allowKey true).push .flowEntry).goto s.cursor.next

/-- Read a dash. -/
def dash? (s : Layout) : Option Layout := do
  if s.depth = 0 ∧ !s.keyAllowed then none
  else
    let s ← (s.openHere .blockSequence).dropKey?
    return ((s.allowKey true).push .blockEntry).goto s.cursor.next

/-- Read the mark of a key. -/
def keyMark? (s : Layout) : Option Layout := do
  if s.depth = 0 ∧ !s.keyAllowed then none
  else
    let s ← (s.openHere .blockMapping).dropKey?
    return ((s.allowKey (s.depth == 0)).push .key).goto s.cursor.next

/-- Read a colon. What may be a key in front of it becomes one. -/
def colon? (s : Layout) : Option Layout :=
  match s.keys with
  | some k :: keys =>
    let s := { s.insert k.position [.key] with keys := none :: keys }
    let s := s.openAt k.column k.position .blockMapping
    some (((s.allowKey false).push .value).goto s.cursor.next)
  | _ =>
    if s.depth = 0 ∧ !s.keyAllowed then none
    else
      let s := s.openHere .blockMapping
      some (((s.allowKey (s.depth == 0)).push .value).goto s.cursor.next)

/-- Read something that may be a key. -/
def content? (read : Cursor → Option (Token × Cursor)) (s : Layout) : Option Layout := do
  let s ← s.saveKey?
  let (t, c) ← read s.cursor
  return ((s.allowKey false).push t).goto c

/-- Read a plain text. A key may follow if it ends with a line. -/
def plain? (s : Layout) : Option Layout := do
  let s ← s.saveKey?
  let (text, g, c) ← s.cursor.plain? (s.depth != 0) (s.indent + 1).toNat
  return ((s.allowKey (g.breaks != [])).push (.scalar .plain (String.ofList text))).goto c

/-- Read a block of text. -/
def block? (style : Style) (s : Layout) : Option Layout := do
  let s ← s.dropKey?
  let (text, c) ← s.cursor.block? style s.indent
  return ((s.allowKey true).push (.scalar style (String.ofList text))).goto c

/-- Read a text between quotation marks. -/
def quoted? (mark : Char) : Layout → Option Layout :=
  content? fun c => do
    let (text, c) ← c.quoted? mark
    return (.scalar .quoted (String.ofList text), c)

/-- Whether a plain text may start with a character. -/
def startsPlain (flow : Bool) (c : Char) (rest : List Char) : Bool :=
  if c == '-' then !rest.head?.any isBlank
  else if c == '?' || c == ':' then !flow && !endsWord rest
  else !(isBlank c || isFlowMark c ||
    ['#', '&', '*', '!', '|', '>', '\'', '"', '%', '@', Char.ofNat 0x60].contains c)

/-- Read the token that a character starts. -/
def dispatch? (c : Char) (rest : List Char) (s : Layout) : Option Layout :=
  let flow := s.depth != 0
  if s.cursor.column = 0 ∧ c = '%' then do
    let (d, cursor) ← s.cursor.directive?
    s.outermost? (.directive d) cursor
  else if s.cursor.atMarks '-' then s.outermost? .documentStart (s.cursor.forward 3)
  else if s.cursor.atMarks '.' then s.outermost? .documentEnd (s.cursor.forward 3)
  else if c = '[' then s.bracket? .flowSequence
  else if c = '\x7b' then s.bracket? .flowMapping
  else if c = ']' then s.closingBracket? .flowSequenceEnd
  else if c = '\x7d' then s.closingBracket? .flowMappingEnd
  else if c = ',' then s.comma?
  else if c = '-' ∧ endsWord rest then s.dash?
  else if c = '?' ∧ (flow ∨ endsWord rest) then s.keyMark?
  else if c = ':' ∧ (flow ∨ endsWord rest) then s.colon?
  else if c = '*' then s.content? fun c => c.anchor?.map fun (name, c) => (.alias name, c)
  else if c = '&' then s.content? fun c => c.anchor?.map fun (name, c) => (.anchor name, c)
  else if c = '!' then s.content? fun c => (c.tag? flow).map fun (t, c) => (.tag t, c)
  else if c = '|' ∧ !flow then s.block? .kept
  else if c = '>' ∧ !flow then s.block? .joined
  else if c = '\'' ∨ c = '"' then s.quoted? c
  else if startsPlain flow c rest then s.plain?
  else none

/-- Read one more token. -/
def step? (s : Layout) : Option Layout := do
  let s ← (s.toToken (s.cursor.rest.length + 1)).dropOldKeys?
  let s := s.closeTo s.cursor.column
  match s.cursor.rest with
  | [] => s.outermost? .streamEnd s.cursor
  | c :: rest => s.dispatch? c rest

/-- Read all tokens up to the end. -/
def run? : Nat → Layout → Option (List Token)
  | 0, _ => none
  | fuel + 1, s => do
    let s ← s.step?
    if s.tokens.head? = some .streamEnd then return s.tokens.reverse else s.run? fuel

end Layout

/-- The tokens of a text. -/
def Token.ofText? (s : String) : Option (List Token) :=
  let chars := s.toList
  if chars.all isAllowed then Layout.run? (chars.length + 1) { cursor := { rest := chars } }
  else none

end CellSat.Yaml
