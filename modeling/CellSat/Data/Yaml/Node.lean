import CellSat.Data.Yaml.Token
/-!
# Documents

A document is one value: a text, a sequence of values, a mapping of keys to values, or a reference
to a value that has an anchor.

* `Yaml.Node`, `Yaml.Document`;
* `Yaml.Parse`: what is left of the tokens, and what is known about tags and anchors;
* `Parse.node`: reading a value;
* `Document.ofTokens?`, `Document.ofText?`: the only document of a text.
-/

namespace CellSat.Yaml

/-- A value of a document. -/
inductive Node where
  /-- A reference to the value with a number. -/
  | alias (number : Nat)
  | scalar (tag : Option String) (style : Style) (text : String)
  | sequence (tag : Option String) (items : List Node)
  | mapping (tag : Option String) (entries : List (Node × Node))
  deriving Repr, Inhabited

/-- A value with an anchor: the number of the anchor and the rank of the value among all parts of
the document. -/
structure Anchored where
  number : Nat
  rank : Nat
  node : Node
  deriving Repr

/-- A value with all values that can be referred to. -/
structure Document where
  root : Node
  anchored : List Anchored
  /-- The number of parts: texts, references, starts and ends of collections. -/
  size : Nat
  deriving Repr

/-- The value that a number refers to: the last one of those that share it. -/
def Document.find? (d : Document) (number : Nat) : Option Node :=
  let later (best : Option Anchored) (a : Anchored) :=
    if best.all (·.rank < a.rank) then some a else best
  ((d.anchored.filter fun a => a.number == number).foldl later none).map (·.node)

/-! ## State -/

/-- The state of reading a document. -/
structure ParseState where
  tokens : List Token
  /-- What handles of tags stand for. -/
  handles : List (String × String) := [("!", "!"), ("!!", "tag:yaml.org,2002:")]
  /-- The numbers of anchors. -/
  anchors : List (String × Nat) := []
  anchored : List Anchored := []
  /-- The number of parts read. -/
  size : Nat := 0

/-- Reading a part of a document. -/
abbrev Parse := StateT ParseState Option

namespace Parse

/-- The next token. -/
def peek : Parse Token := do
  match (← get).tokens with
  | t :: _ => return t
  | [] => failure

/-- Go past the next token. -/
def skip : Parse Unit := modify fun s => { s with tokens := s.tokens.drop 1 }

/-- Go past a token if it comes next. -/
def accept (t : Token) : Parse Bool := do
  if (← peek) = t then
    skip
    return true
  else return false

/-- Count a part. Its rank is the number of parts before it. -/
def count : Parse Nat := do
  let rank := (← get).size
  modify fun s => { s with size := rank + 1 }
  return rank

/-- An empty text in place of a value. -/
def empty : Parse Node := do
  let _ ← count
  return .scalar none .plain ""

/-! ## Properties -/

/-- Read an anchor, if there is one. -/
def anchor? : Parse (Option String) := do
  match ← peek with
  | .anchor name =>
    skip
    return some name
  | _ => return none

/-- Read a tag, if there is one. -/
def tag? : Parse (Option Tag) := do
  match ← peek with
  | .tag t =>
    skip
    return some t
  | _ => return none

/-- Read an anchor and a tag in any order. -/
def properties : Parse (Option String × Option Tag) := do
  match ← anchor? with
  | some name => return (some name, ← tag?)
  | none =>
    let tag ← tag?
    return (← if tag.isSome then anchor? else pure none, tag)

/-- The whole name of a tag. -/
def tagName (t : Tag) : Parse String := do
  if t.handle = "" then return t.suffix
  else match (← get).handles.lookup t.handle with
    | some start => return start ++ t.suffix
    | none => failure

/-- Give a number to an anchor: the number of names that anchors have so far. A name stands for its
last anchor. -/
def numberAnchor (name : String) : Parse Nat := do
  let anchors := (← get).anchors
  let number := anchors.length
  modify fun s => { s with anchors := (name, number) :: anchors.filter fun a => a.1 != name }
  return number

/-- Read a value and keep it for references, if it has an anchor. -/
def anchoredAs (name : Option String) (read : Parse Node) : Parse Node := do
  match name with
  | none =>
    let _ ← count
    read
  | some name =>
    let number ← numberAnchor name
    let rank ← count
    let node ← read
    modify fun s => { s with anchored := ⟨number, rank, node⟩ :: s.anchored }
    return node

/-! ## Values -/

/-- Whether a token ends an entry outside of brackets. -/
def endsEntry (t : Token) : Bool := t = .key || t = .value || t = .blockEnd

mutual

/-- Read a value. Outside of brackets it may be a collection by indentation, and as the value of a
key also a sequence in the column of the key. -/
def node (block indentless : Bool) : Nat → Parse Node
  | 0 => failure
  | fuel + 1 => do
    match ← peek with
    | .alias name =>
      skip
      let _ ← count
      match (← get).anchors.lookup name with
      | some number => return .alias number
      | none => failure
    | _ =>
      let (anchor, tag) ← properties
      let tag ← tag.mapM tagName
      let t ← peek
      if indentless ∧ t = .blockEntry then
        anchoredAs anchor do return .sequence tag (← indentlessItems fuel)
      else match t with
        | .scalar style text =>
          skip
          anchoredAs anchor (return .scalar (tag.filter (· != "!")) style text)
        | .flowSequence =>
          skip
          anchoredAs anchor do return .sequence tag (← flowItems fuel true)
        | .flowMapping =>
          skip
          anchoredAs anchor do return .mapping tag (← flowEntries fuel true)
        | t =>
          if block ∧ t = .blockSequence then
            skip
            anchoredAs anchor do return .sequence tag (← blockItems fuel)
          else if block ∧ t = .blockMapping then
            skip
            anchoredAs anchor do return .mapping tag (← blockEntries fuel)
          else if anchor.isSome ∨ tag.isSome then
            anchoredAs anchor (return .scalar tag .plain "")
          else failure

/-- Read the items of a sequence by indentation. -/
def blockItems : Nat → Parse (List Node)
  | 0 => failure
  | fuel + 1 => do
    if ← accept .blockEntry then
      let t ← peek
      let item ← if t = .blockEntry ∨ t = .blockEnd then empty else node true false fuel
      return item :: (← blockItems fuel)
    else if ← accept .blockEnd then
      let _ ← count
      return []
    else failure

/-- Read the items of a sequence in the column of its key. -/
def indentlessItems : Nat → Parse (List Node)
  | 0 => failure
  | fuel + 1 => do
    if ← accept .blockEntry then
      let t ← peek
      let item ← if t = .blockEntry ∨ endsEntry t then empty else node true false fuel
      return item :: (← indentlessItems fuel)
    else
      let _ ← count
      return []

/-- Read the entries of a mapping by indentation. -/
def blockEntries : Nat → Parse (List (Node × Node))
  | 0 => failure
  | fuel + 1 => do
    if ← accept .key then
      let key ← if endsEntry (← peek) then empty else node true true fuel
      let value ←
        if ← accept .value then
          if endsEntry (← peek) then empty else node true true fuel
        else empty
      return (key, value) :: (← blockEntries fuel)
    else if ← accept .blockEnd then
      let _ ← count
      return []
    else failure

/-- Read the items of a sequence in brackets. A key in it starts a mapping of one entry. -/
def flowItems : Nat → Bool → Parse (List Node)
  | 0, _ => failure
  | fuel + 1, first => do
    if ← accept .flowSequenceEnd then
      let _ ← count
      return []
    else
      if !first then
        if !(← accept .flowEntry) then failure
      if ← accept .key then
        let item ← flowPair fuel
        return item :: (← flowItems fuel false)
      else if ← accept .flowSequenceEnd then
        let _ ← count
        return []
      else
        let item ← node false false fuel
        return item :: (← flowItems fuel false)

/-- Read a mapping of one entry after its mark. -/
def flowPair : Nat → Parse Node
  | 0 => failure
  | fuel + 1 => do
    let _ ← count
    let t ← peek
    let key ←
      if t = .value ∨ t = .flowEntry ∨ t = .flowSequenceEnd then
        skip
        empty
      else node false false fuel
    let value ←
      if ← accept .value then
        let t ← peek
        if t = .flowEntry ∨ t = .flowSequenceEnd then empty else node false false fuel
      else empty
    let _ ← count
    return .mapping none [(key, value)]

/-- Read the entries of a mapping in brackets. A value may be missing. -/
def flowEntries : Nat → Bool → Parse (List (Node × Node))
  | 0, _ => failure
  | fuel + 1, first => do
    if ← accept .flowMappingEnd then
      let _ ← count
      return []
    else
      if !first then
        if !(← accept .flowEntry) then failure
      if ← accept .key then
        let t ← peek
        let key ←
          if t = .value ∨ t = .flowEntry ∨ t = .flowMappingEnd then empty
          else node false false fuel
        let value ←
          if ← accept .value then
            let t ← peek
            if t = .flowEntry ∨ t = .flowMappingEnd then empty else node false false fuel
          else empty
        return (key, value) :: (← flowEntries fuel false)
      else if ← accept .flowMappingEnd then
        let _ ← count
        return []
      else
        let key ← node false false fuel
        let value ← empty
        return (key, value) :: (← flowEntries fuel false)

end

/-! ## Documents -/

/-- Read directives: one version, which is 1.1 or 1.2, and handles that differ. -/
def directives : Nat → Bool → List (String × String) → Parse Unit
  | 0, _, _ => failure
  | fuel + 1, versioned, handles => do
    match ← peek with
    | .directive (.version major minor) =>
      if versioned ∨ major ≠ 1 ∨ (minor ≠ 1 ∧ minor ≠ 2) then failure
      else
        skip
        directives fuel true handles
    | .directive (.handle name start) =>
      if (handles.lookup name).isSome then failure
      else
        skip
        directives fuel versioned ((name, start) :: handles)
    | _ => modify fun s => { s with handles := handles ++ s.handles }

/-- Read the value of a document, which starts after three dashes or at once. -/
def root (fuel : Nat) : Parse Node := do
  match ← peek with
  | .streamEnd => failure
  | .directive _ | .documentStart =>
    directives fuel false []
    if ← accept .documentStart then
      match ← peek with
      | .directive _ | .documentStart | .documentEnd | .streamEnd => empty
      | _ => node true false fuel
    else failure
  | _ => node true false fuel

end Parse

/-- The only document of a sequence of tokens. -/
def Document.ofTokens? (tokens : List Token) : Option Document := do
  let (root, s) ← (Parse.root (4 * tokens.length + 4)).run { tokens }
  if s.tokens.dropWhile (· == .documentEnd) = [.streamEnd] then
    return { root, anchored := s.anchored, size := s.size }
  else none

/-- The only document of a text. -/
def Document.ofText? (s : String) : Option Document := (Token.ofText? s).bind ofTokens?

end CellSat.Yaml
