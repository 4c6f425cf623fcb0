import CellSat.Data.Plain
import CellSat.Data.Yaml.Node
/-!
# Reading documents

What a text without quotation marks means depends on what is asked for at its place, so a document
is read by a shape. Tags say what a value is where nothing is asked for.

* `Yaml.Shape`: what is asked for;
* `Yaml.Reading`: reading with references, of which only so many are followed;
* `Document.readAt`: a value by its shape;
* `Data.parseYaml?`: the tree of a text by its shape.
-/

namespace CellSat.Yaml

/-- What is asked for. -/
inductive Shape where
  | truth
  | signed
  | unsigned
  | text
  /-- One of some names. -/
  | choice
  | optional (s : Shape)
  | list (s : Shape)
  /-- A mapping with some fields. Other fields are not read. -/
  | record (fields : List (String × Shape))
  /-- A mapping or a sequence with a kind and anything else. -/
  | variant
  /-- Anything. -/
  | any
  deriving Repr, Inhabited

/-! ## Texts -/

/-- The tags of truth values, numbers and nothing. -/
inductive CoreTag where
  | truth
  | integer
  | decimal
  | nothing
  deriving DecidableEq, Repr

/-- The name of a tag. -/
def CoreTag.name : CoreTag → String
  | truth => "tag:yaml.org,2002:bool"
  | integer => "tag:yaml.org,2002:int"
  | decimal => "tag:yaml.org,2002:float"
  | nothing => "tag:yaml.org,2002:null"

/-- The name that a tag gives to a value if it is not one of a standard. -/
def ownName? (tag : Option String) : Option String :=
  match tag.map String.toList with
  | some ['!'] => some "!"
  | some ('!' :: name) => some (String.ofList name)
  | _ => none

/-- Whether a text may be a truth value or a number: it is plain, or a block with the right tag. -/
def isOpen (core : CoreTag) (tag : Option String) (style : Style) : Bool :=
  style = .plain || (style = .kept && tag = some core.name)

/-- Whether a word is empty or stands for nothing. -/
def isAbsent (w : String) : Bool := w = "" || PlainWord.isNull w

/-- A text with a tag of a standard, or none, where nothing is asked for. -/
def taggedWord? (tag : Option String) (style : Style) (w : String) : Option Data :=
  if tag = some CoreTag.truth.name then (PlainWord.toBool? w).map .bool
  else if tag = some CoreTag.integer.name then
    match Data.ofWord? w with
    | some (.int i) => some (.int i)
    | some .negativeZero => some .negativeZero
    | _ => none
  else if tag = some CoreTag.decimal.name then
    if PlainWord.isDecimal w.toList then some (.decimal w) else none
  else if tag = some CoreTag.nothing.name then if PlainWord.isNull w then some .null else none
  else if tag.isNone ∧ style = .plain then Data.ofWord? w
  else some (.text w)

/-- A text where nothing is asked for. -/
def anyText? (tag : Option String) (style : Style) (w : String) : Option Data :=
  if (ownName? tag).isSome then none else taggedWord? tag style w

/-- A text where one of some names is asked for. A tag may give the name of an absent value. -/
def choiceText? (tag : Option String) (style : Style) (w : String) : Option Data :=
  match ownName? tag with
  | some name => if style = .plain ∧ isAbsent w then some (.text name) else none
  | none => some (.text w)

/-- Whether something is there where a value may be absent. -/
def isPresent? (tag : Option String) (style : Style) (w : String) : Option Bool :=
  if style ≠ .plain then some true
  else if tag = some CoreTag.nothing.name then
    if PlainWord.isNull w then some false else none
  else if tag.isSome then some true
  else some !isAbsent w

/-- A text by its shape. An empty plain text is also an empty list or mapping. -/
def Shape.ofText? (tag : Option String) (style : Style) (w : String) : Shape → Option Data
  | truth => if isOpen .truth tag style then (PlainWord.toBool? w).map .bool else none
  | signed => if isOpen .integer tag style then (PlainWord.signed? w.toList).map .int else none
  | unsigned =>
    if isOpen .integer tag style then (PlainWord.unsigned? w.toList).map .ofNat else none
  | text => some (.text w)
  | choice => choiceText? tag style w
  | optional s => do if ← isPresent? tag style w then s.ofText? tag style w else return .null
  | list _ => if style = .plain ∧ w = "" then some (.list []) else none
  | record _ => if style = .plain ∧ w = "" then some (.map []) else none
  | variant => none
  | any => anyText? tag style w

/-! ## Values -/

/-- Reading, with the number of references followed. -/
abbrev Reading := StateT Nat Option

/-- What may be absent as what is there. -/
def Shape.present : Shape → Shape
  | optional s => s.present
  | s => s

namespace Document

variable (d : Document)

/-- The value that a node stands for. At most a hundred references for each part of the document
are followed. -/
def follow : Node → Reading Node
  | .alias number => do
    let jumps := (← get) + 1
    set jumps
    if 100 * d.size < jumps then failure
    else match d.find? number with
      | some n => return n
      | none => failure
  | n => return n

/-- Read a value by its shape, with collections nested at most so deep. -/
def readAt : Nat → Shape → Node → Reading Data
  | depth, shape, n => do
    match shape.present, ← d.follow n, depth with
    | _, .scalar tag style w, _ => liftM (shape.ofText? tag style w)
    | .list s, .sequence _ items, depth + 1 => return .list (← items.mapM (readAt depth s))
    | .record fields, .mapping _ entries, depth + 1 =>
      return .map (← entries.filterMapM fun (k, v) => do
        match ← readAt depth .text k with
        | .text name =>
          match fields.lookup name with
          | some s => return some (.text name, ← readAt depth s v)
          | none => return none
        | _ => failure)
    | .variant, .sequence tag (kind :: items), depth + 1 =>
      if (ownName? tag).isSome then failure
      else return .list ((← readAt depth .text kind) :: (← items.mapM (readAt depth .any)))
    | .variant, .mapping tag entries, depth + 1 =>
      if (ownName? tag).isSome then failure
      else return .map (← entries.mapM fun (k, v) => do
        let key ← readAt depth .any k
        return (key, ← readAt depth (if key.isNamed "kind" then .text else .any) v))
    | .any, .sequence tag items, depth + 1 =>
      if (ownName? tag).isSome then failure
      else return .list (← items.mapM (readAt depth .any))
    | .any, .mapping tag entries, depth + 1 =>
      if (ownName? tag).isSome then failure
      else return .map (← entries.mapM fun (k, v) => do
        return (← readAt depth .any k, ← readAt depth .any v))
    | _, _, _ => failure

/-- Read a document by its shape. -/
def read? (shape : Shape) : Option Data := ((d.readAt 128 shape d.root).run 0).map (·.1)

end Document

end CellSat.Yaml

/-- The tree of a text by its shape. -/
def CellSat.Data.parseYaml? (shape : CellSat.Yaml.Shape) (s : String) : Option CellSat.Data :=
  (CellSat.Yaml.Document.ofText? s).bind fun d => d.read? shape
