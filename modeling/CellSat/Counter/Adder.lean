import CellSat.Literal
import CellSat.Text.Number
import CellSat.Word
/-!
# Networks of full adders

Wires are counted in binary by full adders. A level holds wires of one weight, level 0 those of
weight 1. A round takes the wires of each level in threes, an odd pair being filled up with the
false wire; the sum of an adder stays on its level and its carry goes to the next one. Rounds are
repeated until each level holds one wire.

* `Temporary.literal`, `Temporary.next32`: the wires that adders drive, numbered in turn;
* `Adder`, `Adder.clauses`: an adder and what it says about its outputs;
* `Network.round`, `Network.build`: one round, and the whole network with its outputs, exact;
* `Network.round32`, `Network.build32`: with numbers of 32 bits, which give the same where they give
  a result.
-/

namespace CellSat

/-- The temporary variable with a number. -/
def Temporary.literal (number : Nat) : Literal :=
  { name := "\x7bx" ++ Text.padStart 3 '0' (Text.hex number) ++ "\x7d" }

/-- The number of the next temporary, after so many were issued. -/
def Temporary.next32 (issued : Nat) : Checked Nat := Word.nat32 (issued + 1)

/-- A full adder: twice the carry plus the sum is at least the number of true inputs. -/
structure Adder where
  sum : Literal
  carry : Literal
  first : Literal
  second : Literal
  third : Literal
  deriving DecidableEq, Repr

namespace Adder

/-- What an adder says, also about inputs that cannot be true. -/
def allClauses (a : Adder) : List Disjunction :=
  let in0 := a.first.negate
  let in1 := a.second.negate
  let in2 := a.third.negate
  [[a.carry, in0, in1], [a.carry, in0, in2], [a.carry, in1, in2], [a.carry, a.sum, in0],
    [a.carry, a.sum, in1], [a.carry, a.sum, in2], [a.sum, in0, in1, in2]]

/-- Whether a clause ends in the false wire. -/
def endsInZero (d : Disjunction) : Bool :=
  match d.getLast? with
  | none => false
  | some l => l.name == Literal.zeroName

/-- The clauses of adders. Those that end in the padding wire hold anyway and are left out. -/
def clauses (adders : List Adder) : List Disjunction :=
  (adders.flatMap allClauses).filter fun d => !endsInZero d

end Adder

namespace Network

/-! ## The exact network -/

/-- Fill a level up so that no pair is left over. -/
def pad (wires : List Literal) : List Literal :=
  if wires.length % 3 = 2 then wires ++ [Literal.zero] else wires

/-- Take wires in threes. The adders drive the temporaries after `issued`. -/
def addTriples (issued : Nat) : List Literal → List Adder × List Literal
  | a :: b :: c :: wires =>
    let (adders, rest) := addTriples (issued + 2) wires
    (⟨Temporary.literal (issued + 1), Temporary.literal (issued + 2), a, b, c⟩ :: adders, rest)
  | wires => ([], wires)

/-- One round over the levels from the lowest on. The carries of the level below come first. -/
def roundFrom (issued : Nat) (carries : List Literal) :
    List (List Literal) → List Adder × List (List Literal)
  | [] => ([], if carries = [] then [] else [carries])
  | wires :: levels =>
    let (adders, rest) := addTriples issued (pad wires)
    let (more, next) := roundFrom (issued + 2 * adders.length) (adders.map (·.carry)) levels
    (adders ++ more, (carries ++ adders.map (·.sum) ++ rest) :: next)

/-- One round: its adders, and the levels after it. -/
def round (issued : Nat) (levels : List (List Literal)) : List Adder × List (List Literal) :=
  roundFrom issued [] levels

/-- Rounds until each level holds one wire. -/
def rounds : Nat → Nat → List (List Literal) → List Adder × List (List Literal)
  | 0, _, levels => ([], levels)
  | fuel + 1, issued, levels =>
    if levels.any fun wires => 1 < wires.length then
      let (adders, next) := round issued levels
      let (more, last) := rounds fuel (issued + 2 * adders.length) next
      (adders ++ more, last)
    else ([], levels)

/-- The network that counts literals: its adders in order, and its outputs from the lowest on.
The wires never get more and an adder moves one of them up, so there are at most as many levels as
literals and at most the square of their number of rounds. -/
def build (issued : Nat) (literals : List Literal) : List Adder × List Literal :=
  if literals = [] then ([], [])
  else
    let (adders, levels) := rounds (literals.length * literals.length) issued [literals]
    (adders, levels.filterMap List.head?)

/-! ## The network in machine words -/

/-- Take wires in threes, as far as there are numbers for temporaries. -/
def addTriples32 (issued : Nat) : List Literal → Checked (List Adder × List Literal)
  | a :: b :: c :: wires => do
    let sum ← Temporary.next32 issued
    let carry ← Temporary.next32 sum
    let (adders, rest) ← addTriples32 carry wires
    return (⟨Temporary.literal sum, Temporary.literal carry, a, b, c⟩ :: adders, rest)
  | wires => .ok ([], wires)

/-- One round over the levels from the lowest on. -/
def roundFrom32 (issued : Nat) (carries : List Literal) :
    List (List Literal) → Checked (List Adder × List (List Literal))
  | [] => .ok ([], if carries = [] then [] else [carries])
  | wires :: levels => do
    let (adders, rest) ← addTriples32 issued (pad wires)
    let (more, next) ← roundFrom32 (issued + 2 * adders.length) (adders.map (·.carry)) levels
    return (adders ++ more, (carries ++ adders.map (·.sum) ++ rest) :: next)

/-- One round. -/
def round32 (issued : Nat) (levels : List (List Literal)) :
    Checked (List Adder × List (List Literal)) :=
  roundFrom32 issued [] levels

/-- Rounds until each level holds one wire. -/
def rounds32 : Nat → Nat → List (List Literal) → Checked (List Adder × List (List Literal))
  | 0, _, levels => .ok ([], levels)
  | fuel + 1, issued, levels =>
    if levels.any fun wires => 1 < wires.length then do
      let (adders, next) ← round32 issued levels
      let (more, last) ← rounds32 fuel (issued + 2 * adders.length) next
      return (adders ++ more, last)
    else .ok ([], levels)

/-- The network that counts literals. -/
def build32 (issued : Nat) (literals : List Literal) : Checked (List Adder × List Literal) :=
  if literals = [] then .ok ([], [])
  else do
    let (adders, levels) ← rounds32 (literals.length * literals.length) issued [literals]
    return (adders, levels.filterMap List.head?)

end Network

end CellSat
