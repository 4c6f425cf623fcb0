import CellSat.Clause.Algebra
import CellSat.Failure
import Std.Data.TreeMap
/-!
# Many-valued variables as bits

A variable with tags up to `m` is stored in as many boolean variables as `m` has binary digits.
Bit `k` of `a` is the variable `a#k`.

* `Tag.bitName`, `Tag.bitLength`, `Tag.bitLiterals`: the bits of one literal;
* `MaxTags`: the largest tag of each variable;
* `Tag.allOf`, `Tag.anyOf`: literals, all of them or at least one, as clauses about bits;
* `Tag.below`: clauses that keep a number below a limit;
* `Clause.expandTags`: a clause list with all tags replaced by bits.
-/

namespace CellSat

/-- The largest tag of each many-valued variable. -/
abbrev MaxTags := Std.TreeMap String Nat

namespace Tag

/-- The name of a bit of a variable. -/
def bitName (name : String) (bit : Nat) : String := name ++ "#" ++ toString bit

/-- The number of binary digits of a number, none for zero. -/
def bitLength (n : Nat) : Nat := if n = 0 then 0 else n.log2 + 1

/-- The literals that compare the bits of a variable with a tag. A positive literal holds if all
of them do, a negative one if at least one of them does. -/
def bitLiterals (l : Literal) (max : Nat) : Disjunction :=
  (List.range (bitLength max)).map fun i =>
    { name := bitName l.name i, positive := (l.tag.getD 0).testBit i == l.positive }

/-- Take note of the tag of a literal. -/
def record (max : MaxTags) (l : Literal) : MaxTags :=
  match l.tag with
  | none => max
  | some tag => max.insert l.name (Nat.max (max.getD l.name 0) tag)

/-- The largest tags among literals. -/
def maxOfLiterals (ls : List Literal) : MaxTags := ls.foldl record ∅

/-- The largest tags in disjunctions. -/
def maxOfTuples (ds : List Disjunction) : MaxTags := maxOfLiterals ds.flatten

/-- The largest tags in a clause list. -/
def maxOfClauses (cs : List Clause) : MaxTags := maxOfTuples (Clause.disjunctions cs)

/-- The same largest tag for every variable of some disjunctions. -/
def constantMax (ds : List Disjunction) (max : Nat) : MaxTags :=
  ds.flatten.foldl (fun table l => table.insert l.name max) ∅

/-! ## Literals as clauses about bits -/

/-- Clauses that say what one literal says. -/
def oneOf (max : MaxTags) (l : Literal) : Result (List Disjunction) :=
  match l.tag with
  | none => .ok [[l]]
  | some tag =>
    match max[l.name]? with
    | none => .error (.inconsistent (.noMaximum l.name))
    | some m =>
      if m < tag then .error (.inconsistent (.tagAboveMaximum tag l.name m))
      else
        let bits := bitLiterals l m
        .ok (if l.positive then bits.map fun b => [b] else [bits])

/-- Clauses that say that all of the literals hold. -/
def allOf (max : MaxTags) : Disjunction → Result (List Disjunction)
  | [] => .ok []
  | l :: ls => do
    let clauses ← oneOf max l
    let rest ← allOf max ls
    return clauses ++ rest

/-- Clauses that say that at least one of the literals holds, in increasing order. -/
def anyOf (max : MaxTags) (d : Disjunction) : Result (List Disjunction) := do
  match ← d.mapM (oneOf max) with
  | [] => return [[]]
  | [only] => return only.mergeSort fun a b => (Disjunction.compare a b).isLE
  | first :: second :: rest => return rest.foldl Disjunction.orOf (Disjunction.orOf first second)

/-- One conjunction of clauses about bits for each tuple of literals. -/
def matchers (tuples : List Disjunction) (max : Option MaxTags) :
    Result (List (List Disjunction)) :=
  tuples.mapM (allOf (max.getD (maxOfTuples tuples)))

/-! ## Upper bounds -/

/-- Add one to a number given by bits, the lowest first. A carry out of the last bit is lost. -/
def increment : List Bool → List Bool
  | [] => []
  | true :: bits => false :: increment bits
  | false :: bits => true :: bits

/-- Add its lowest set bit to a number given by bits. -/
def advance : List Bool → List Bool
  | [] => []
  | false :: bits => false :: advance bits
  | true :: bits => false :: increment bits

/-- The clause that forbids all numbers whose set bits include the given ones. -/
def forbid (name : String) : Nat → List Bool → Disjunction
  | _, [] => []
  | bit, b :: bits =>
    let rest := forbid name (bit + 1) bits
    if b then { name := bitName name bit, positive := false } :: rest else rest

/-- Forbid patterns from the given one upward until none is left. The lowest set bit moves up, so
there are at most as many patterns as bits. -/
def forbidFrom (name : String) : Nat → List Bool → List Disjunction
  | 0, _ => []
  | fuel + 1, bits =>
    if bits.any id then forbid name 0 bits :: forbidFrom name fuel (advance bits) else []

/-- The binary digits of a number, the lowest first. -/
def bitsOf (n : Nat) : List Bool := (List.range (bitLength n)).map n.testBit

/-- Clauses that keep the number in the bits of a variable below a limit. -/
def below (name : String) (limit : Int) : Result (List Disjunction) :=
  if limit ≤ 0 then .error (.inconsistent (.notPositive limit))
  else
    let bits := bitsOf limit.toNat
    .ok (forbidFrom name bits.length bits)

/-- Clauses that keep every variable within its tags. -/
def bounds : List (String × Nat) → Result (List Disjunction)
  | [] => .ok []
  | (name, max) :: rest => do
    let clauses ← below name (max + 1)
    return clauses ++ (← bounds rest)

end Tag

/-! ## Clause lists -/

/-- Replace the disjunctions of a list by clauses about bits. -/
def Clause.replaceTags (max : MaxTags) : List Clause → Result (List Clause)
  | [] => .ok []
  | .comment text :: cs => return .comment text :: (← replaceTags max cs)
  | .disjunction d :: cs => do
    let clauses ← Tag.anyOf max d
    return clauses.map .disjunction ++ (← replaceTags max cs)

/-- Replace all tags of a list by bits and bound the bits. A list without tags stays as it is. -/
def Clause.expandTags (cs : List Clause) : Result (List Clause) := do
  let max := Tag.maxOfClauses cs
  if max.isEmpty then return cs
  else
    let expanded ← replaceTags max cs
    let bounds ← Tag.bounds max.toList
    return expanded ++ .comment "Setting upper bound on tags." :: bounds.map .disjunction

end CellSat
