import CellSat.Solve.Split
/-!
# Conflict-driven search

A faster oracle. Variables are decided one after the other; after each decision all clauses with
one open literal are followed. A clause that fails is resolved with the reasons of the last
decision's consequences until one literal of that decision is left; the resolvent is kept, and the
search goes back to where it would have had a consequence. Before that a few plain guesses are made.

Literals are numbered by `2 * v` for variable `v` and `2 * v + 1` for its negation, from `v = 0`
on. Each clause is watched by its first two literals and looked at only when one of them fails.

* `Search.State`: the clauses, the trail of literals that hold, and the reasons;
* `Search.propagate`, `Search.analyze`, `Search.branch`: the steps;
* `Search.guesses`: the guesses;
* `Search.solve`: the oracle. Should the steps run out it falls back on trying all values.
-/

namespace CellSat.Search

/-- The negation of a literal. -/
def opposite (l : Nat) : Nat := l ^^^ 1

/-- The variable of a literal. -/
def variableOf (l : Nat) : Nat := l / 2

/-- The literal of a signed number. -/
def ofNumber (number : Int) : Nat :=
  2 * (number.natAbs - 1) + if number < 0 then 1 else 0

/-- What is known of a literal. -/
inductive Status where
  | unknown
  | holds
  | fails
  deriving DecidableEq, Inhabited

/-- The state of a search. -/
structure State where
  clauses : Array (Array Nat)
  /-- For each literal the clauses that it watches. -/
  watches : Array (List Nat)
  /-- What is known of each literal. -/
  status : Array Status
  /-- For each variable the number of decisions when it was settled. -/
  levels : Array Nat
  /-- For each variable the clause that settled it, if one did. -/
  reasons : Array (Option Nat)
  /-- The literals that hold, in the order in which they were settled. -/
  trail : Array Nat
  /-- The length of the trail at each decision. -/
  marks : Array Nat
  /-- The part of the trail whose consequences are known. -/
  done : Nat
  /-- When each variable took part in a conflict last. -/
  stamps : Array Nat
  /-- The number of stamps so far. -/
  stampCount : Nat
  /-- The value that each variable had last. -/
  phases : Array Bool

/-- The number of decisions. -/
def State.level (s : State) : Nat := s.marks.size

/-- What is known of a literal. -/
def State.statusOf (s : State) (l : Nat) : Status := s.status.getD l .unknown

/-- Let a literal hold. -/
def State.settle (s : State) (l : Nat) (reason : Option Nat) : State :=
  let level := s.level
  { s with
    status := (s.status.setIfInBounds l .holds).setIfInBounds (opposite l) .fails
    levels := s.levels.setIfInBounds (variableOf l) level
    reasons := s.reasons.setIfInBounds (variableOf l) reason
    phases := s.phases.setIfInBounds (variableOf l) (l % 2 == 0)
    trail := s.trail.push l }

/-- Add a clause of at least two literals, of which the first two watch. -/
def State.attach (s : State) (clause : Array Nat) : State :=
  let number := s.clauses.size
  { s with
    clauses := s.clauses.push clause
    watches := (s.watches.modify (clause.getD 0 0) (number :: ·)).modify (clause.getD 1 0)
      (number :: ·) }

/-- Take back all decisions after the given number of them. -/
def State.backTo (s : State) (level : Nat) : State := Id.run do
  if level < s.level then
    let length := s.marks.getD level 0
    let mut status := s.status
    for l in s.trail.toSubarray length s.trail.size do
      status := (status.setIfInBounds l .unknown).setIfInBounds (opposite l) .unknown
    let trail := s.trail.take length
    return { s with status, trail, marks := s.marks.take level, done := length }
  else return s

/-! ## Consequences -/

/-- The first of the last places of a clause, so many of them, whose literal does not fail. -/
def replacement? (s : State) (clause : Array Nat) : Nat → Option Nat
  | 0 => none
  | count + 1 =>
    let place := clause.size - (count + 1)
    if s.statusOf (clause.getD place 0) == .fails then replacement? s clause count
    else some place

/-- What a clause one of whose watches fails calls for. -/
inductive Visit where
  /-- Nothing, for it is satisfied. -/
  | satisfied
  /-- The literal at another place has to watch it. -/
  | moves (source target : Nat)
  /-- Its last literal holds. -/
  | settles (l : Nat)
  /-- All its literals fail. -/
  | fails

/-- Look at a clause one of whose watches fails. -/
def visit (s : State) (l number : Nat) : Visit :=
  let clause := s.clauses.getD number #[]
  let place := if clause.getD 0 0 == l then 0 else 1
  let other := clause.getD (1 - place) 0
  match s.statusOf other with
  | .holds => .satisfied
  | status =>
    match replacement? s clause (clause.size - 2) with
    | some k => .moves place k
    | none => if status == .fails then .fails else .settles other

/-- Let the literal at another place of a clause watch it. -/
def State.rewatch (s : State) (number source target : Nat) : State :=
  let next := (s.clauses.getD number #[]).getD target 0
  { s with
    clauses := s.clauses.modify number fun c => c.swapIfInBounds source target
    watches := s.watches.modify next (number :: ·) }

/-- Look at clauses that a failing literal watches, up to one that fails. -/
def visitAll (l : Nat) (s : State) (kept : List Nat) : List Nat → State × Option Nat
  | [] => ({ s with watches := s.watches.setIfInBounds l kept }, none)
  | number :: numbers =>
    match visit s l number with
    | .satisfied => visitAll l s (number :: kept) numbers
    | .moves source target => visitAll l (s.rewatch number source target) kept numbers
    | .settles other => visitAll l (s.settle other (some number)) (number :: kept) numbers
    | .fails =>
      ({ s with watches := s.watches.setIfInBounds l (kept ++ number :: numbers) }, some number)

/-- Follow all consequences of the trail, up to a clause that fails. -/
def propagate (s : State) : State × Option Nat := Id.run do
  let mut s := s
  for _ in [0:s.levels.size + 1] do
    if s.done < s.trail.size then
      let l := s.trail.getD s.done 0
      s := { s with done := s.done + 1 }
      let failing := opposite l
      let numbers := s.watches.getD failing []
      let (next, conflict) := visitAll failing s [] numbers
      s := next
      if conflict.isSome then return (s, conflict)
    else return (s, none)
  return (s, none)

/-! ## Conflicts -/

/-- Give new stamps to variables, in the order of their old ones. -/
def State.stamp (s : State) (involved : Array Nat) : State :=
  let ordered := involved.toList.mergeSort fun v w => s.stamps.getD v 0 ≤ s.stamps.getD w 0
  ordered.foldl (fun s v => { s with
    stamps := s.stamps.setIfInBounds v s.stampCount
    stampCount := s.stampCount + 1 }) s

/-- A clause that follows from a conflict: its literal of the last decision, the others, and the
number of decisions under which it would have had a consequence. -/
structure Lesson where
  literal : Nat
  others : Array Nat
  level : Nat

/-- Resolve a failing clause until one literal of the last decision is left. -/
def analyze (s : State) (conflict : Nat) : State × Lesson := Id.run do
  let mut seen := Array.replicate s.levels.size false
  let mut involved := #[]
  let mut others := #[]
  let mut level := 0
  let mut pending := 0
  let mut reason := some conflict
  let mut place := s.trail.size
  let mut pivot := 0
  for _ in [0:s.trail.size + 1] do
    for l in s.clauses.getD (reason.getD 0) #[] do
      let v := variableOf l
      if !seen.getD v true && 0 < s.levels.getD v 0 then
        seen := seen.setIfInBounds v true
        involved := involved.push v
        if s.levels.getD v 0 < s.level then
          others := others.push l
          level := max level (s.levels.getD v 0)
        else pending := pending + 1
    for _ in [0:s.trail.size] do
      if 0 < place then
        place := place - 1
        pivot := s.trail.getD place 0
        if seen.getD (variableOf pivot) false then break
      else break
    pending := pending - 1
    reason := s.reasons.getD (variableOf pivot) none
    if pending == 0 then break
  return (s.stamp involved, ⟨opposite pivot, others, level⟩)

/-- Bring a literal of the given level to the front. -/
def latestFirst (s : State) (others : Array Nat) (level : Nat) : Array Nat := Id.run do
  for k in [0:others.size] do
    if s.levels.getD (variableOf (others.getD k 0)) 0 == level then
      return others.swapIfInBounds 0 k
  return others

/-- Go back to where a lesson has a consequence, keep it and draw the consequence. -/
def learn (s : State) (lesson : Lesson) : State :=
  let others := latestFirst s lesson.others lesson.level
  let s := s.backTo lesson.level
  if others.isEmpty then s.settle lesson.literal none
  else
    let number := s.clauses.size
    (s.attach (#[lesson.literal] ++ others)).settle lesson.literal (some number)

/-! ## Decisions -/

/-- The open variable of the last stamp. -/
def openVariable? (s : State) : Option Nat := Id.run do
  let mut best := none
  let mut last := 0
  for v in [0:s.levels.size] do
    if s.statusOf (2 * v) == .unknown then
      let stamp := s.stamps.getD v 0
      if best.isNone || last < stamp then
        best := some v
        last := stamp
  return best

/-- Decide that a literal holds. -/
def State.choose (s : State) (l : Nat) : State :=
  { s with marks := s.marks.push s.trail.size }.settle l none

/-- Decide an open variable for the value that it had last. -/
def branch (s : State) (v : Nat) : State :=
  s.choose (if s.phases.getD v true then 2 * v else 2 * v + 1)

/-! ## Guesses -/

/-- Decide those literals that are open, one after the other, unless a clause fails. -/
def guess (s : State) : List Nat → Option State
  | [] => some s
  | l :: literals =>
    if s.statusOf l == .unknown then
      match propagate (s.choose l) with
      | (s, none) => guess s literals
      | (_, some _) => none
    else guess s literals

/-- The first open literal of a clause with a given sign. -/
def openLiteral? (s : State) (positive : Bool) (clause : List Nat) : Option Nat :=
  clause.find? fun l => s.statusOf l == .unknown && (l % 2 == 0) == positive

/-- Whether a literal of a clause holds. -/
def isSatisfied (s : State) (clause : List Nat) : Bool := clause.any (s.statusOf · == .holds)

/-- Whether every clause is satisfied or has an open literal with a given sign. -/
def suits (s : State) (positive : Bool) (clauses : List (List Nat)) : Bool :=
  clauses.all fun c => isSatisfied s c || (openLiteral? s positive c).isSome

/-- Satisfy the clauses one after the other by their first open literals with a given sign. -/
def satisfyAll (s : State) (positive : Bool) : List (List Nat) → Option State
  | [] => some s
  | c :: clauses =>
    if isSatisfied s c then satisfyAll s positive clauses
    else do
      let l ← openLiteral? s positive c
      satisfyAll (← guess s [l]) positive clauses

/-- Plain guesses: all variables with the same sign, upwards or downwards, and clauses satisfied in
turn with all other variables of the opposite sign. -/
def guesses (s : State) (clauses : List (List Nat)) : Option State :=
  let positive := (List.range s.levels.size).map (2 * ·)
  let negative := positive.map opposite
  (if suits s false clauses then guess s negative else none) <|>
  (if suits s true clauses then guess s positive else none) <|>
  guess s positive <|>
  guess s negative <|>
  guess s positive.reverse <|>
  guess s negative.reverse <|>
  (satisfyAll s true clauses).bind (guess · negative) <|>
  (satisfyAll s false clauses).bind (guess · positive)

/-! ## The oracle -/

/-- How a search ends. -/
inductive Outcome where
  | model (s : State)
  | contradiction
  | undecided

/-- A state without clauses. -/
def State.start (width : Nat) : State where
  clauses := #[]
  watches := Array.replicate (2 * width) []
  status := Array.replicate (2 * width) .unknown
  levels := Array.replicate width 0
  reasons := Array.replicate width none
  trail := #[]
  marks := #[]
  done := 0
  stamps := Array.range width
  stampCount := width
  phases := Array.replicate width true

/-- A clause as a set of literals. -/
def clauseOf (numbers : List Int) : List Nat :=
  distinct ((numbers.map ofNumber).mergeSort)

/-- Whether a literal stands next to its negation in an ordered clause. -/
def isValid : List Nat → Bool
  | a :: b :: l => (a % 2 == 0 && b == a + 1) || isValid (b :: l)
  | _ => false

/-- The literals of a clause, unless it always holds. -/
def prepare? (numbers : List Int) : Option (List Nat) :=
  let clause := clauseOf numbers
  if isValid clause then none else some clause

/-- Add a clause. No state is left if it contradicts the ones before. -/
def State.add (s : State) : List Nat → Option State
  | [] => none
  | [l] =>
    match s.statusOf l with
    | .holds => some s
    | .fails => none
    | .unknown => some (s.settle l none)
  | clause => some (s.attach clause.toArray)

/-- Add clauses. -/
def State.addAll (s : State) : List (List Nat) → Option State
  | [] => some s
  | c :: cs => (s.add c).bind fun s => s.addAll cs

/-- The number of steps of a search. -/
def stepLimit : Nat := Nat.pow 2 40

/-- Search for a model. After some conflicts, and then after more and more of them, all decisions
are taken back. -/
def run (s : State) : Outcome := Id.run do
  let mut s := s
  let mut patience := 64
  let mut conflicts := 0
  for _ in [0:stepLimit] do
    let (next, conflict) := propagate s
    s := next
    match conflict with
    | some number =>
      if s.level == 0 then return .contradiction
      let (next, lesson) := analyze s number
      s := learn next lesson
      conflicts := conflicts + 1
      if patience < conflicts then
        conflicts := 0
        patience := patience + patience / 8
        s := s.backTo 0
    | none =>
      match openVariable? s with
      | none => return .model s
      | some v => s := branch s v
  return .undecided

/-- The values of the variables in a state that settles them all. -/
def State.verdict (s : State) : Verdict :=
  .satisfiable fun number => some (s.statusOf (2 * (number - 1)) == .holds)

/-- The oracle that guesses and then learns from conflicts. -/
def solve : Oracle := fun width clauses =>
  let prepared := clauses.filterMap prepare?
  match (State.start width).addAll prepared with
  | none => .unsatisfiable
  | some s =>
    match propagate s with
    | (_, some _) => .unsatisfiable
    | (s, none) =>
      match guesses s prepared with
      | some s => s.verdict
      | none =>
        match run s with
        | .model s => s.verdict
        | .contradiction => .unsatisfiable
        | .undecided => Split.solve width clauses

end CellSat.Search
