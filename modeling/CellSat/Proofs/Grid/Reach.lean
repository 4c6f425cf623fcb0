import Mathlib
import CellSat.Proofs.Grid.Search
import CellSat.Proofs.Plane.Symmetry
/-!
# What is on a grid

The grid of the origin holds what can be reached from there. A node outside is next to the inside, or
a period ends there and leads inside, so the grid is finite. Without such shifts, and where no cell
is outside, the grid holds each representative that lies inside or next to the inside, at each
generation of a period.

* `Lattice.Proper`: any shift after a period;
* `Lattice.Steady`, `Lattice.Regular`: a shift only if no cell is outside, and on a torus only;
* `Lattice.Placed`: a node at a representative, at a generation of the period;
* `Lattice.reaches_of_inner`: paths to all representatives inside;
* `Lattice.mem_grid_iff_reaches`: the grid consists of the nodes that can be reached;
* **`Lattice.mem_grid_iff_placed`**: the grid of a steady lattice consists of the placed nodes.
-/

namespace CellSat

/-- A torus, whose cells are identified by shifts without a dead region. -/
def Folding.IsTorus : Folding → Prop
  | torus .. => True
  | bounded .. | strip .. | tessellated _ => False

/-- A plane with a dead region. -/
def Folding.IsOpen : Folding → Prop
  | bounded .. | strip .. => True
  | torus .. | tessellated _ => False

theorem Folding.IsOpen.not_isTorus {f : Folding} (h : f.IsOpen) : ¬ f.IsTorus := by
  cases f with
  | torus m n s | tessellated t => exact absurd h id
  | bounded m n | strip m n => exact id

/-- The step of the pattern after a period. -/
def Clock.stride (c : Clock) : Cell := ⟨c.rowShift, c.columnShift⟩

namespace Lattice

/-- A folding with positive sides and a clock that ticks. -/
structure Proper (lattice : Lattice) : Prop where
  sized : lattice.folding.Sized
  period_pos : 0 < lattice.clock.period

/-- A proper lattice where the pattern is shifted after a period only if there is no dead region. -/
structure Steady (lattice : Lattice) : Prop extends lattice.Proper where
  still : lattice.folding.IsOpen → lattice.clock.rowShift = 0 ∧ lattice.clock.columnShift = 0

/-- A folding with positive sides other than those of a rhombus, and a clock that ticks. Only on a
torus the pattern may be shifted after a period. -/
structure Regular (lattice : Lattice) : Prop where
  positive : lattice.folding.Positive
  period_pos : 0 < lattice.clock.period
  still : ¬ lattice.folding.IsTorus → lattice.clock.rowShift = 0 ∧ lattice.clock.columnShift = 0

variable {lattice : Lattice} {m n : Node} {p : Cell} {t : Int}

theorem Regular.proper (hl : lattice.Regular) : lattice.Proper := ⟨hl.positive.sized, hl.period_pos⟩

theorem Regular.steady (hl : lattice.Regular) : lattice.Steady :=
  ⟨hl.proper, fun h => hl.still h.not_isTorus⟩

/-! ## Neighbours in space and time -/

/-- The node of the same cell one generation later. -/
def next (lattice : Lattice) (n : Node) : Node :=
  let (p, t) := lattice.clock.adjust n.cell (n.generation + 1)
  lattice.node p t

theorem neighbors_eq (lattice : Lattice) (n : Node) : lattice.neighbors n =
    (Cell.around.map fun d => lattice.node (n.cell.shift d) n.generation) ++ [lattice.next n] :=
  rfl

theorem mem_neighbors : m ∈ lattice.neighbors n ↔
    (∃ d ∈ Cell.around, lattice.node (n.cell.shift d) n.generation = m) ∨ m = lattice.next n := by
  rw [neighbors_eq, List.mem_append, List.mem_map, List.mem_singleton]

theorem node_of_isRepresentative (hl : lattice.Proper) (hp : lattice.folding.IsRepresentative p) :
    lattice.node p t = ⟨p, t, 0⟩ := by
  rw [node, Folding.fold_of_isRepresentative hl.sized hp]

theorem next_eq (lattice : Lattice) (n : Node) : lattice.next n =
    if n.generation + 1 = lattice.clock.period then
      lattice.node (n.cell.shift ⟨lattice.clock.rowShift, lattice.clock.columnShift⟩) 0
    else lattice.node n.cell (n.generation + 1) := by
  rw [next, Clock.adjust]
  split_ifs <;> rfl

/-! ## Nodes in their places -/

/-- An unturned node at a representative, at a generation of the period, that lies inside or next
to the inside. -/
structure Placed (lattice : Lattice) (n : Node) : Prop where
  isRepresentative : lattice.folding.IsRepresentative n.cell
  generation_nonneg : 0 ≤ n.generation
  generation_lt : n.generation < lattice.clock.period
  belongs : lattice.Belongs n

theorem exists_node_of_mem_neighbors (hl : lattice.Proper) (h₀ : 0 ≤ n.generation)
    (h₁ : n.generation < lattice.clock.period) (hm : m ∈ lattice.neighbors n) :
    ∃ q u, m = lattice.node q u ∧ 0 ≤ u ∧ u < lattice.clock.period := by
  rcases mem_neighbors.mp hm with ⟨d, -, rfl⟩ | rfl
  · exact ⟨_, _, rfl, h₀, h₁⟩
  · rw [next_eq]
    split_ifs with hend
    · exact ⟨_, 0, rfl, le_rfl, hl.period_pos⟩
    · exact ⟨_, _, rfl, by omega, by omega⟩

theorem Placed.adjoins (hl : lattice.Proper) (hn : lattice.Placed n) (h : lattice.Adjoins n m) :
    lattice.Placed m := by
  obtain ⟨q, u, rfl, h₀, h₁⟩ :=
    exists_node_of_mem_neighbors hl hn.generation_nonneg hn.generation_lt h.1
  exact ⟨Folding.isRepresentative_fold hl.sized q, h₀, h₁, h.2⟩

theorem isRepresentative_origin {f : Folding} (hf : f.Sized) : f.IsRepresentative ⟨0, 0⟩ := by
  obtain ⟨hrows, hcolumns⟩ := hf
  cases f with
  | torus m n s => exact ⟨le_rfl, hrows, le_rfl, hcolumns⟩
  | bounded m n => trivial
  | strip m n => exact ⟨le_rfl, hcolumns⟩
  | tessellated t =>
    cases t with
    | faceRotatedSquare n | faceRotatedRhombus n => exact .inr (.inl rfl)
    | centerFlippedRectangle m n => exact ⟨le_rfl, hrows.le, le_rfl, hcolumns.le⟩
    | rotatedSquare n | rotatedRhombus n | flippedRectangle m n | crossSurface m n =>
      exact ⟨le_rfl, hrows, le_rfl, hcolumns⟩

theorem isOutside_origin {f : Folding} (hf : f.Sized) : f.isOutside ⟨0, 0⟩ = false := by
  obtain ⟨hrows, hcolumns⟩ := hf
  cases f with
  | torus m n s | tessellated t => rfl
  | bounded m n => simpa [Folding.isOutside] using ⟨hrows, hcolumns⟩
  | strip m n =>
    have hm : 0 < m := hrows
    simpa [Folding.isOutside] using hm

theorem placed_origin (hl : lattice.Proper) : lattice.Placed Node.origin where
  isRepresentative := isRepresentative_origin hl.sized
  generation_nonneg := le_rfl
  generation_lt := hl.period_pos
  belongs := by
    refine ⟨rfl, fun h => absurd h ?_⟩
    simp [isOutside, Node.origin, isOutside_origin hl.sized]

theorem placed_of_reaches (hl : lattice.Proper)
    (h : Relation.ReflTransGen lattice.Adjoins Node.origin n) : lattice.Placed n := by
  induction h with
  | refl => exact placed_origin hl
  | tail _ h ih => exact ih.adjoins hl h

/-! ## Paths -/

/-- The node of a cell that stands for itself can be reached. -/
def Reaches (lattice : Lattice) (p : Cell) (t : Int) : Prop :=
  Relation.ReflTransGen lattice.Adjoins Node.origin ⟨p, t, 0⟩

/-- A cell inside that stands for itself. -/
def Inner (lattice : Lattice) (p : Cell) : Prop :=
  lattice.folding.IsRepresentative p ∧ lattice.folding.isOutside p = false

/-- A cell that stands for itself and whose node belongs to the grid. -/
def Stays (lattice : Lattice) (p : Cell) (t : Int) : Prop :=
  lattice.folding.IsRepresentative p ∧ lattice.Belongs ⟨p, t, 0⟩

theorem Inner.stays (hp : lattice.Inner p) : lattice.Stays p t :=
  ⟨hp.1, rfl, fun h => absurd (h.symm.trans hp.2) (by simp)⟩

theorem Reaches.step (hl : lattice.Proper) (h : lattice.Reaches p t) {d : Cell}
    (hd : d ∈ Cell.around) (hp : lattice.Stays (p.shift d) t) : lattice.Reaches (p.shift d) t := by
  refine Relation.ReflTransGen.tail h ⟨mem_neighbors.mpr (.inl ⟨d, hd, ?_⟩), hp.2⟩
  exact node_of_isRepresentative hl hp.1

theorem Reaches.tick (hl : lattice.Proper) (h : lattice.Reaches p t) (hp : lattice.Inner p)
    (ht : t + 1 < lattice.clock.period) : lattice.Reaches p (t + 1) := by
  refine Relation.ReflTransGen.tail h ⟨mem_neighbors.mpr (.inr ?_), hp.stays.2⟩
  rw [next_eq, if_neg ht.ne, node_of_isRepresentative hl hp.1]

theorem exists_back {d : Cell} (hd : d ∈ Cell.around) :
    ∃ e ∈ Cell.around, ∀ p : Cell, (p.shift d).shift e = p := by
  refine ⟨⟨-d.row, -d.column⟩, ?_, fun p => by simp [Cell.shift]⟩
  revert d
  decide

section Walk

variable {a b c d i₀ i j₀ j : Int}

/-- Along a line of cells on the grid one can walk in both directions. -/
theorem Reaches.line (hl : lattice.Proper) {f : Int → Cell} {e : Cell} (he : e ∈ Cell.around)
    (hf : ∀ k, f (k + 1) = (f k).shift e) (hstays : ∀ k, a ≤ k → k < b → lattice.Stays (f k) t)
    (h : lattice.Reaches (f i₀) t) (hi₀ : a ≤ i₀) (hi₀' : i₀ < b) (hi : a ≤ i) (hi' : i < b) :
    lattice.Reaches (f i) t := by
  rcases le_total i₀ i with hle | hle
  · induction i, hle using Int.leInduction with
    | base => exact h
    | succ k hk ih =>
      rw [hf]
      exact (ih (by omega) (by omega)).step hl he (hf k ▸ hstays (k + 1) hi hi')
  · induction i, hle using Int.leInductionDown with
    | base => exact h
    | pred k hk ih =>
      obtain ⟨e', he', hback⟩ := exists_back he
      have hprev : f (k - 1) = (f k).shift e' := by
        rw [← hback (f (k - 1)), ← hf, sub_add_cancel]
      rw [hprev]
      exact (ih (by omega) (by omega)).step hl he' (hprev ▸ hstays (k - 1) hi hi')

/-- Along a column first, and from there along a row. -/
theorem Reaches.rectangle (hl : lattice.Proper) (h : lattice.Reaches ⟨i₀, j₀⟩ t)
    (hstays : ∀ i j, a ≤ i → i < b → c ≤ j → j < d → lattice.Stays ⟨i, j⟩ t) (hi₀ : a ≤ i₀)
    (hi₀' : i₀ < b) (hj₀ : c ≤ j₀) (hj₀' : j₀ < d) (hi : a ≤ i) (hi' : i < b) (hj : c ≤ j)
    (hj' : j < d) : lattice.Reaches ⟨i, j⟩ t := by
  have hcolumn : lattice.Reaches ⟨i, j₀⟩ t :=
    Reaches.line hl (f := fun k => ⟨k, j₀⟩) (show ⟨1, 0⟩ ∈ Cell.around by decide)
      (fun k => by simp [Cell.shift]) (fun k hk hk' => hstays k j₀ hk hk' hj₀ hj₀') h hi₀ hi₀' hi hi'
  exact Reaches.line hl (f := fun k => ⟨i, k⟩) (show ⟨0, 1⟩ ∈ Cell.around by decide)
    (fun k => by simp [Cell.shift]) (fun k hk hk' => hstays i k hi hi' hk hk') hcolumn hj₀ hj₀' hj hj'

end Walk

/-- A box that is turned about cells: all but two corners form a rectangle. -/
theorem reaches_faceRotated (hl : lattice.Proper) {k : Int} (hk : 0 < k)
    (hface : ∀ q, lattice.Inner q ↔
      0 ≤ q.row ∧ q.row < k ∧ 0 < q.column ∧ q.column ≤ k ∨ q = ⟨0, 0⟩ ∨ q = ⟨k, k⟩)
    (hp : lattice.Inner p) : lattice.Reaches p 0 := by
  have hinner : ∀ i j, 0 ≤ i → i < k → 1 ≤ j → j < k + 1 → lattice.Inner ⟨i, j⟩ :=
    fun i j hi hik hj hjk => (hface _).mpr (.inl ⟨hi, hik, hj, Int.lt_add_one_iff.mp hjk⟩)
  have horigin : lattice.Reaches ⟨0, 0⟩ 0 := .refl
  have hfirst : lattice.Reaches ⟨0, 1⟩ 0 :=
    horigin.step hl (show ⟨0, 1⟩ ∈ Cell.around by decide)
      (hinner 0 1 le_rfl hk le_rfl (by omega)).stays
  have hrectangle : ∀ i j, 0 ≤ i → i < k → 1 ≤ j → j < k + 1 → lattice.Reaches ⟨i, j⟩ 0 :=
    fun i j => hfirst.rectangle hl (fun i j hi hi' hj hj' => (hinner i j hi hi' hj hj').stays)
      le_rfl hk le_rfl (by omega)
  rcases (hface p).mp hp with ⟨hi, hik, hj, hjk⟩ | rfl | rfl
  · exact hrectangle p.row p.column hi hik hj (Int.lt_add_one_iff.mpr hjk)
  · exact horigin
  · have hlast := hrectangle (k - 1) k (by omega) (by omega) (by omega) (by omega)
    have hcorner : lattice.Inner ((⟨k - 1, k⟩ : Cell).shift ⟨1, 0⟩) :=
      (hface _).mpr (.inr (.inr (by simp [Cell.shift])))
    simpa [Cell.shift] using
      hlast.step hl (show ⟨1, 0⟩ ∈ Cell.around by decide) hcorner.stays

/-- A rectangle, which has two more corners if boxes are turned about cells. -/
theorem inner_iff (hl : lattice.Proper) :
    (∃ k, 0 < k ∧ ∀ q, lattice.Inner q ↔
      0 ≤ q.row ∧ q.row < k ∧ 0 < q.column ∧ q.column ≤ k ∨ q = ⟨0, 0⟩ ∨ q = ⟨k, k⟩) ∨
    ∃ b d, ∀ q, lattice.Inner q ↔ 0 ≤ q.row ∧ q.row < b ∧ 0 ≤ q.column ∧ q.column < d := by
  obtain ⟨f, c⟩ := lattice
  cases f with
  | torus m n s => exact .inr ⟨m, n, fun q => and_iff_left rfl⟩
  | bounded m n =>
    refine .inr ⟨m, n, fun q => ?_⟩
    simp [Inner, Folding.IsRepresentative, Folding.isOutside, and_assoc]
  | strip m n =>
    refine .inr ⟨m, n, fun q => ?_⟩
    simp only [Inner, Folding.IsRepresentative, Folding.isOutside, Bool.or_eq_false_iff,
      decide_eq_false_iff_not]
    omega
  | tessellated t =>
    cases t with
    | faceRotatedSquare n | faceRotatedRhombus n =>
      exact .inl ⟨n, hl.sized.rows_pos, fun q => and_iff_left rfl⟩
    | centerFlippedRectangle m n =>
      refine .inr ⟨m + 1, n + 1, fun q => ?_⟩
      rw [Int.lt_add_one_iff, Int.lt_add_one_iff]
      exact and_iff_left rfl
    | rotatedSquare n | rotatedRhombus n => exact .inr ⟨n, n, fun q => and_iff_left rfl⟩
    | flippedRectangle m n | crossSurface m n => exact .inr ⟨m, n, fun q => and_iff_left rfl⟩

theorem reaches_zero (hl : lattice.Proper) (hp : lattice.Inner p) : lattice.Reaches p 0 := by
  rcases inner_iff hl with ⟨k, hk, hface⟩ | ⟨b, d, hiff⟩
  · exact reaches_faceRotated hl hk hface hp
  · obtain ⟨hi, hib, hj, hjd⟩ := (hiff p).mp hp
    have horigin : lattice.Reaches ⟨0, 0⟩ 0 := .refl
    exact horigin.rectangle hl
      (fun i j hi hib hj hjd => ((hiff ⟨i, j⟩).mpr ⟨hi, hib, hj, hjd⟩).stays)
      le_rfl (by omega) le_rfl (by omega) hi hib hj hjd

/-- **Paths to the inside.** Space first, then time. -/
theorem reaches_of_inner (hl : lattice.Proper) (hp : lattice.Inner p) (ht : 0 ≤ t)
    (ht' : t < lattice.clock.period) : lattice.Reaches p t := by
  induction t, ht using Int.leInduction with
  | base => exact reaches_zero hl hp
  | succ u hu ih => exact (ih (by omega)).tick hl hp ht'

/-! ## The border -/

theorem flat_of_isOutside {f : Folding} (h : f.isOutside p = true) :
    f.IsOpen ∧ ∀ t, f ≠ .tessellated t := by
  cases f with
  | torus m n s | tessellated t => exact absurd h (by simp [Folding.isOutside])
  | bounded m n | strip m n => exact ⟨trivial, fun t => by simp⟩

theorem label_of_flat {f : Folding} (hflat : ∀ t, f ≠ .tessellated t) (p : Cell) :
    (f.fold p).label = 0 := by
  cases f with
  | torus m n s | bounded m n | strip m n => rfl
  | tessellated t => exact absurd rfl (hflat t)

theorem Placed.exists_step (hl : lattice.Proper) (hn : lattice.Placed n)
    (hout : lattice.isOutside n = true) :
    (∃ p, lattice.Inner p ∧ ∃ d ∈ Cell.around, lattice.node (p.shift d) n.generation = n) ∨
      n.generation + 1 = lattice.clock.period ∧
        lattice.Inner (lattice.folding.fold (n.cell.shift lattice.clock.stride)).cell := by
  obtain ⟨-, hflat⟩ := flat_of_isOutside hout
  obtain ⟨m, hm, hinside⟩ := hn.belongs.2 hout
  rcases mem_neighbors.mp hm with ⟨d, hd, rfl⟩ | rfl
  · obtain ⟨e, he, hback⟩ := exists_back hd
    refine .inl ⟨(lattice.folding.fold (n.cell.shift d)).cell,
      ⟨Folding.isRepresentative_fold hl.sized _, hinside⟩, e, he, ?_⟩
    rw [node, Folding.fold_shift_fold hl.sized hflat, hback, label_of_flat hflat,
      Folding.fold_of_isRepresentative hl.sized hn.isRepresentative, ← hn.belongs.1]
  · rw [next_eq] at hinside
    split_ifs at hinside with hend
    · exact .inr ⟨hend, Folding.isRepresentative_fold hl.sized _, hinside⟩
    · rw [node_of_isRepresentative hl hn.isRepresentative] at hinside
      exact absurd (hout.symm.trans hinside) (by simp)

theorem Placed.reaches_of_inside (hl : lattice.Proper) (hn : lattice.Placed n)
    (hin : lattice.isOutside n = false) :
    Relation.ReflTransGen lattice.Adjoins Node.origin n := by
  have hreach := reaches_of_inner hl ⟨hn.isRepresentative, hin⟩ hn.generation_nonneg
    hn.generation_lt
  rwa [Reaches, ← hn.belongs.1] at hreach

/-! ## The grid -/

/-- A cell that is at most one step away from the inside. -/
def Near (lattice : Lattice) (p : Cell) : Prop :=
  lattice.folding.IsRepresentative p ∧
    ∃ q d, lattice.Inner q ∧ d.Within 1 ∧ p = (lattice.folding.fold (q.shift d)).cell

theorem Inner.near (hl : lattice.Proper) (hp : lattice.Inner p) : lattice.Near p := by
  refine ⟨hp.1, p, ⟨0, 0⟩, hp, by simp [Cell.Within], ?_⟩
  rw [Cell.shift_zero, Folding.fold_of_isRepresentative hl.sized hp.1]

theorem Placed.near_or (hl : lattice.Proper) (hn : lattice.Placed n) :
    lattice.Near n.cell ∨ n.generation + 1 = lattice.clock.period ∧
      ∃ p, lattice.Inner p ∧
        n.cell = (lattice.folding.fold (p.shiftBack lattice.clock.stride)).cell := by
  by_cases hout : lattice.isOutside n = true
  · rcases hn.exists_step hl hout with ⟨p, hp, d, hd, hnode⟩ | ⟨hend, hp⟩
    · exact .inl ⟨hn.isRepresentative, p, d, hp, Cell.around_within d hd, by rw [← hnode, node]⟩
    · refine .inr ⟨hend, _, hp, ?_⟩
      obtain ⟨-, hflat⟩ := flat_of_isOutside hout
      have hback : ∀ q : Cell, q.shiftBack lattice.clock.stride =
          q.shift ⟨-lattice.clock.stride.row, -lattice.clock.stride.column⟩ :=
        fun q => by simp [Cell.shift, Cell.shiftBack, sub_eq_add_neg]
      rw [hback, Folding.fold_shift_fold hl.sized hflat, ← hback, Cell.shiftBack_shift,
        Folding.fold_of_isRepresentative hl.sized hn.isRepresentative]
  · exact .inl (Inner.near hl ⟨hn.isRepresentative, eq_false_of_ne_true hout⟩)

theorem exists_rectangle (hl : lattice.Proper) :
    ∃ a b c d, (∀ p, lattice.Near p →
        a ≤ p.row ∧ p.row < b ∧ c ≤ p.column ∧ p.column < d) ∧
      (b - a).toNat * (d - c).toNat = placeLimit lattice.folding := by
  obtain ⟨f, clock⟩ := lattice
  obtain ⟨hrows, hcolumns⟩ := hl.sized
  cases f with
  | torus m n s =>
    simp only [Folding.rows, Folding.columns] at hrows hcolumns
    exact ⟨0, m, 0, n, fun p hp => hp.1, congrArg₂ (· * ·) (by omega) (by omega)⟩
  | bounded m n =>
    simp only [Folding.rows, Folding.columns] at hrows hcolumns
    refine ⟨-1, m + 1, -1, n + 1, fun p hp => ?_, congrArg₂ (· * ·) (by omega) (by omega)⟩
    obtain ⟨-, q, d, ⟨-, hq⟩, ⟨hrow, hrow', hcolumn, hcolumn'⟩, rfl⟩ := hp
    simp only [Folding.isOutside, Bool.or_eq_false_iff, decide_eq_false_iff_not] at hq
    simp only [Folding.fold, Cell.shift]
    omega
  | strip m n =>
    simp only [Folding.rows, Folding.columns] at hrows hcolumns
    refine ⟨-1, m + 1, 0, n, fun p hp => ?_, congrArg₂ (· * ·) (by omega) (by omega)⟩
    obtain ⟨⟨hcolumn, hcolumn'⟩, q, d, ⟨-, hq⟩, ⟨hstep, hstep', -⟩, hcell⟩ := hp
    simp only [Folding.isOutside, Bool.or_eq_false_iff, decide_eq_false_iff_not] at hq
    have hrow : p.row = q.row + d.row := by rw [hcell]; rfl
    omega
  | tessellated t =>
    simp only [Folding.rows, Folding.columns] at hrows hcolumns
    refine ⟨0, t.rows + 1, 0, t.columns + 1, fun p hp => ?_,
      congrArg₂ (· * ·) (by omega) (by omega)⟩
    obtain ⟨hrow, hrow', hcolumn, hcolumn'⟩ :=
      Tessellation.bounds_of_isRepresentative ⟨hrows, hcolumns⟩ hp.1
    omega

/-- The cells near the inside at each generation, and those that a period leads inside. -/
theorem exists_finset (hl : lattice.Proper) : ∃ S : Finset Node, (∀ n, lattice.Placed n → n ∈ S) ∧
    S.card < lattice.nodeLimit Node.origin := by
  obtain ⟨a, b, c, d, hnear, hlimit⟩ := exists_rectangle hl
  let K := Finset.Ico a b ×ˢ Finset.Ico c d
  have hK : ∀ p, lattice.Near p → (p.row, p.column) ∈ K := by
    intro p hp
    obtain ⟨ha, hb, hc, hd⟩ := hnear p hp
    simp only [K, Finset.mem_product, Finset.mem_Ico]
    exact ⟨⟨ha, hb⟩, hc, hd⟩
  have hcard : K.card = placeLimit lattice.folding := by
    rw [Finset.card_product, Int.card_Ico, Int.card_Ico, hlimit]
  let S₁ := (K ×ˢ Finset.Ico 0 lattice.clock.period).image
    fun x => (⟨⟨x.1.1, x.1.2⟩, x.2, 0⟩ : Node)
  let S₂ := K.image fun x =>
    (⟨(lattice.folding.fold ((⟨x.1, x.2⟩ : Cell).shiftBack lattice.clock.stride)).cell,
      lattice.clock.period - 1, 0⟩ : Node)
  refine ⟨S₁ ∪ S₂, fun n hn => ?_, ?_⟩
  · obtain ⟨p, t, o⟩ := n
    obtain rfl : o = 0 := hn.belongs.1
    rcases hn.near_or hl with hp | ⟨hend, q, hq, hcell⟩
    · refine Finset.mem_union_left _ (Finset.mem_image.mpr ⟨((p.row, p.column), t), ?_, rfl⟩)
      exact Finset.mem_product.mpr
        ⟨hK p hp, Finset.mem_Ico.mpr ⟨hn.generation_nonneg, hn.generation_lt⟩⟩
    · refine Finset.mem_union_right _ (Finset.mem_image.mpr
        ⟨(q.row, q.column), hK q (hq.near hl), ?_⟩)
      simp only at hend hcell
      rw [← hend, hcell, add_sub_cancel_right]
  · have hperiod := hl.period_pos
    have hgenerations : generationLimit lattice.clock 0 = lattice.clock.period.toNat + 1 := by
      simp [generationLimit, hperiod]
    calc (S₁ ∪ S₂).card ≤ S₁.card + S₂.card := Finset.card_union_le _ _
      _ ≤ placeLimit lattice.folding * lattice.clock.period.toNat + placeLimit lattice.folding := by
          refine Nat.add_le_add (Finset.card_image_le.trans (le_of_eq ?_))
            (Finset.card_image_le.trans (le_of_eq hcard))
          rw [Finset.card_product, hcard, Int.card_Ico, sub_zero]
      _ = placeLimit lattice.folding * generationLimit lattice.clock 0 := by
          rw [hgenerations, Nat.mul_succ]
      _ < lattice.nodeLimit Node.origin := Nat.lt_succ_self _

/-- **The search for the grid ends**, and the grid is what it comes to. -/
theorem explores_grid64 (hl : lattice.Proper) :
    ∃ outcome, lattice.Explores [Node.origin] (seed Node.origin) outcome ∧
      lattice.grid64 Node.origin = outcome.map sorted := by
  obtain ⟨S, hS, hlimit⟩ := exists_finset hl
  exact ⟨_, explores_of_card_lt (fun n hn => hS n (placed_of_reaches hl hn)) hlimit,
    grid64_eq_map lattice Node.origin⟩

theorem surveyed_of_grid64 (hl : lattice.Proper) {grid : List Node}
    (h : lattice.grid64 Node.origin = .ok grid) :
    (∀ n, n ∈ grid ↔ Relation.ReflTransGen lattice.Adjoins Node.origin n) ∧
      ∀ n ∈ grid, lattice.Surveyed Node.origin n := by
  obtain ⟨outcome, hexplores, hgrid⟩ := explores_grid64 hl
  rw [hgrid] at h
  cases outcome with
  | error fault => contradiction
  | ok seen =>
    obtain rfl := Except.ok.inj h
    exact hexplores.mem_sorted

theorem mem_grid_iff_reaches (hl : lattice.Proper) {grid : List Node}
    (h : lattice.grid64 Node.origin = .ok grid) :
    (∀ n, n ∈ grid ↔ Relation.ReflTransGen lattice.Adjoins Node.origin n) ∧
      ∀ n ∈ grid, ∃ l, lattice.neighbors64 n = .ok l := by
  obtain ⟨hmem, hsurveyed⟩ := surveyed_of_grid64 hl h
  exact ⟨hmem, fun n hn => (hsurveyed n hn).1⟩

/-! ## Steady lattices -/

theorem next_cell_of_isOpen (hl : lattice.Steady) (hopen : lattice.folding.IsOpen)
    (hn : lattice.folding.IsRepresentative n.cell) : (lattice.next n).cell = n.cell := by
  obtain ⟨hrow, hcolumn⟩ := hl.still hopen
  rw [next_eq, hrow, hcolumn, Cell.shift_zero, node_of_isRepresentative hl.toProper hn,
    node_of_isRepresentative hl.toProper hn]
  split_ifs <;> rfl

theorem Placed.exists_step_of_steady (hl : lattice.Steady) (hn : lattice.Placed n)
    (hout : lattice.isOutside n = true) :
    ∃ p, lattice.Inner p ∧ ∃ d ∈ Cell.around, lattice.node (p.shift d) n.generation = n := by
  rcases hn.exists_step hl.toProper hout with hstep | ⟨hend, -, hinside⟩
  · exact hstep
  · have hnext := next_cell_of_isOpen hl (flat_of_isOutside hout).1 hn.isRepresentative
    rw [next_eq, if_pos hend] at hnext
    have hcell : (lattice.folding.fold (n.cell.shift lattice.clock.stride)).cell = n.cell := hnext
    rw [hcell] at hinside
    exact absurd (hout.symm.trans hinside) (by simp)

theorem Placed.reaches (hl : lattice.Steady) (hn : lattice.Placed n) :
    Relation.ReflTransGen lattice.Adjoins Node.origin n := by
  by_cases hout : lattice.isOutside n = true
  · obtain ⟨p, hp, d, hd, hnode⟩ := hn.exists_step_of_steady hl hout
    have hreach := reaches_of_inner hl.toProper hp hn.generation_nonneg hn.generation_lt
    exact hreach.tail ⟨mem_neighbors.mpr (.inl ⟨d, hd, hnode⟩), hn.belongs⟩
  · exact hn.reaches_of_inside hl.toProper (eq_false_of_ne_true hout)

/-- **What is on a grid.** The grid of a steady lattice consists of the nodes in their places. -/
theorem mem_grid_iff_placed (hl : lattice.Steady) {grid : List Node}
    (h : lattice.grid64 Node.origin = .ok grid) (n : Node) : n ∈ grid ↔ lattice.Placed n :=
  ((mem_grid_iff_reaches hl.toProper h).1 n).trans
    ⟨placed_of_reaches hl.toProper, fun hn => hn.reaches hl⟩

theorem mem_grid_iff (hl : lattice.Regular) {grid : List Node}
    (h : lattice.grid64 Node.origin = .ok grid) :
    (∀ n, n ∈ grid ↔ lattice.Placed n) ∧ ∀ n ∈ grid, ∃ l, lattice.neighbors64 n = .ok l :=
  ⟨mem_grid_iff_placed hl.steady h, (mem_grid_iff_reaches hl.proper h).2⟩

end Lattice

end CellSat
