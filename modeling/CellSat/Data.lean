import CellSat.Word
/-!
# Data trees

Settings and solutions are stored as trees of values.

* `Data`, `Data.record`, `Data.get?`;
* `Data.toBool?`, `Data.toInt64?`, `Data.toNat64?`, `Data.toText?`, `Data.toList?`: leaves and
  lists;
* `Data.toChoice?`: one of some alternatives;
* `Data.record?`, `Data.variant?`: the fields of a record, and of one with a kind;
* `Field.required`, `Field.withDefault`, `Field.optional`: how fields are read.
-/

namespace CellSat

/-- A tree of values. -/
inductive Data where
  | null
  | bool (b : Bool)
  /-- An integer of 64 bits, signed or unsigned. -/
  | int (i : Int)
  /-- A zero with a minus sign. It is an integer, but no position. -/
  | negativeZero
  /-- Any other number. -/
  | decimal (text : String)
  | text (s : String)
  /-- A text with an escape that stands for no character. -/
  | garbled
  | list (items : List Data)
  | map (entries : List (Data × Data))
  deriving Repr, Inhabited

namespace Data

/-- A map with named fields. -/
def record (fields : List (String × Data)) : Data := .map (fields.map fun f => (.text f.1, f.2))

/-- A number as data. -/
def ofNat (n : Nat) : Data := .int n

/-- A value that may be absent as data. -/
def ofOption {α : Type} (f : α → Data) : Option α → Data
  | none => .null
  | some a => f a

/-- Whether a key is a name. -/
def isNamed (name : String) : Data → Bool
  | .text s => s == name
  | _ => false

/-- The value of a name in a map. -/
def get? (name : String) : Data → Option Data
  | .map entries => (entries.find? fun e => e.1.isNamed name).map (·.2)
  | _ => none

/-! ## Leaves -/

/-- Whether a value is absent. -/
def isNull : Data → Bool
  | .null => true
  | _ => false

/-- Read a truth value. -/
def toBool? : Data → Option Bool
  | .bool b => some b
  | _ => none

/-- Read an integer. -/
def toInt? : Data → Option Int
  | .int i => some i
  | .negativeZero => some 0
  | _ => none

/-- Read an integer between two bounds. -/
def toIntIn? (low high : Int) (d : Data) : Option Int :=
  d.toInt?.filter fun i => low ≤ i ∧ i ≤ high

/-- Read a 64-bit integer. -/
def toInt64? (d : Data) : Option Int := d.toIntIn? Word.minInt64 Word.maxInt64

/-- Read a 32-bit integer. -/
def toInt32? (d : Data) : Option Int := d.toIntIn? Word.minInt32 Word.maxInt32

/-- Read an unsigned integer up to a limit. -/
def toNatUpTo? (limit : Nat) (d : Data) : Option Nat := (d.toIntIn? 0 limit).map Int.toNat

/-- Read an unsigned 64-bit integer. -/
def toNat64? (d : Data) : Option Nat := d.toNatUpTo? Word.maxNat64

/-- Read an unsigned 32-bit integer. -/
def toNat32? (d : Data) : Option Nat := d.toNatUpTo? Word.maxNat32

/-- Read a text. -/
def toText? : Data → Option String
  | .text s => some s
  | _ => none

/-- Read a list. -/
def toList? : Data → Option (List Data)
  | .list items => some items
  | _ => none

/-- Read a list of values of one kind. -/
def toListOf? {α : Type} (read : Data → Option α) (d : Data) : Option (List α) :=
  d.toList?.bind fun items => items.mapM read

/-- Read a name that stands for one of some alternatives. It may be the key of a map that holds
nothing else. -/
def toChoice? {α : Type} (ofName? : String → Option α) : Data → Option α
  | .text s => ofName? s
  | .map [(.text s, .null)] => ofName? s
  | _ => none

/-! ## Records -/

/-- The position of the field that a key stands for, if there is such a field. Keys are names or
positions. -/
def position? (names : List String) : Data → Option (Option Nat)
  | .text s => some (names.idxOf? s)
  | .int i => if 0 ≤ i then some (if i < names.length then some i.toNat else none) else none
  | _ => none

/-- The value at a position, of which there may be at most one. -/
def valueAt? (fields : List (Option Nat × Data)) (position : Nat) : Option (Option Data) :=
  match fields.filter fun f => f.1 == some position with
  | [] => some none
  | [f] => some (some f.2)
  | _ => none

/-- The values of fields by name, or by position in a list, which may end early. -/
def record? (names : List String) : Data → Option (List (Option Data))
  | .map entries => do
    let fields ← entries.mapM fun e => (position? names e.1).map fun p => (p, e.2)
    (List.range names.length).mapM (valueAt? fields)
  | .list items =>
    if items.length ≤ names.length then
      some (items.map some ++ List.replicate (names.length - items.length) none)
    else none
  | _ => none

/-- The name of a kind. Where kinds are numbered it may be given by its position. -/
def kind? (numbered : Bool) (kinds : List String) (d : Data) : Option String :=
  match d with
  | .text s => some s
  | _ => if numbered then do kinds[← (← position? kinds d)]? else none

/-- The kind of a record and what else it holds. -/
def variant? (numbered : Bool) (kinds : List String) : Data → Option (String × Data)
  | .map entries =>
    match entries.filter fun e => e.1.isNamed "kind" with
    | [e] => do
      return (← kind? numbered kinds e.2, .map (entries.filter fun e => !e.1.isNamed "kind"))
    | _ => none
  | .list (kind :: items) => do return (← kind? numbered kinds kind, .list items)
  | _ => none

end Data

namespace Field

variable {α : Type}

/-- A field that has to be there. -/
def required (read : Data → Option α) (value : Option Data) : Option α := value.bind read

/-- A field that may be missing. -/
def withDefault (default : α) (read : Data → Option α) : Option Data → Option α
  | none => some default
  | some d => read d

/-- A field that may be missing or null. -/
def optional (read : Data → Option α) : Option Data → Option (Option α)
  | none => some none
  | some d => if d.isNull then some none else (read d).map some

end Field

end CellSat
