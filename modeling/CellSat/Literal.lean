/-!
# Literals

A literal names a proposition and says whether it is meant to hold. Without a tag the proposition
is the boolean variable itself; with a tag it is "the variable has this value".

* `Literal`, its order and its operations;
* `Literal.zero`: the wire that is always false;
* `sortedSet`, `Literal.toSet`: literals in increasing order without repetitions.
-/

namespace CellSat

/-- A named proposition with a polarity and, for a many-valued variable, one of its values. -/
structure Literal where
  name : String
  positive : Bool := true
  tag : Option Nat := none
  deriving DecidableEq, Hashable, Repr, Inhabited

/-- A disjunction of literals, in the order in which it was written. -/
abbrev Disjunction := List Literal

/-- The lexicographic comparison of two lists. -/
def compareLists {α : Type} (cmp : α → α → Ordering) : List α → List α → Ordering
  | [], [] => .eq
  | [], _ :: _ => .lt
  | _ :: _, [] => .gt
  | a :: l, b :: m => (cmp a b).then (compareLists cmp l m)

/-- Drop each element that is followed by its equal, which on a sorted list are all repetitions. -/
def distinct {α : Type} [DecidableEq α] : List α → List α
  | [] => []
  | [a] => [a]
  | a :: b :: l => if a = b then distinct (b :: l) else a :: distinct (b :: l)

/-- The elements of a list in increasing order, each of them once. -/
def sortedSet {α : Type} [DecidableEq α] (cmp : α → α → Ordering) (l : List α) : List α :=
  distinct (l.mergeSort fun a b => (cmp a b).isLE)

namespace Literal

/-- The name of the wire that is always false. -/
def zeroName : String := "\x7bzero\x7d"

/-- The wire that is always false: padding of adders and cells outside a grid. -/
def zero : Literal := { name := zeroName }

/-- Whether the literal is about a boolean variable. -/
def isBoolean (l : Literal) : Bool := l.tag.isNone

/-- The literal that holds exactly when this one does not. -/
def negate (l : Literal) : Literal := { l with positive := !l.positive }

/-- The literal with a given polarity. -/
def withPolarity (l : Literal) (positive : Bool) : Literal := { l with positive }

/-- Flip the polarity if asked to. -/
def flipIf (l : Literal) (flip : Bool) : Literal := { l with positive := l.positive ^^ flip }

/-- The literal about another value of the variable. -/
def withTag (l : Literal) (tag : Nat) : Literal := { l with tag := some tag }

/-- The same statement about another variable. -/
def rename (l : Literal) (name : String) : Literal := { l with name }

/-- Literals are ordered by name, then negative before positive, then by tag with none first. -/
protected def compare (a b : Literal) : Ordering :=
  (compare a.name b.name).then <| (compare a.positive b.positive).then <|
    (compare (a.tag.getD 0) (b.tag.getD 0)).then (compare a.tag.isSome b.tag.isSome)

instance : Ord Literal := ⟨Literal.compare⟩

/-- Sort a disjunction and remove repeated literals. -/
def toSet (d : Disjunction) : Disjunction := sortedSet Literal.compare d

end Literal

/-- Disjunctions are ordered as lists of literals. -/
def Disjunction.compare (c d : Disjunction) : Ordering := compareLists Literal.compare c d

/-- Disjunctions in increasing order, each of them once. -/
def Disjunction.toSet (ds : List Disjunction) : List Disjunction := sortedSet Disjunction.compare ds

end CellSat
