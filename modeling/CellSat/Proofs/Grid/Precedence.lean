import Mathlib
import CellSat.Proofs.Grid.Room
import CellSat.Proofs.Plane.Cover
/-!
# What comes before a cell

A node of the grid is determined by the rule only if it comes after another node of the grid. After
the first generation this is always so. At the first generation it depends on the step that the
pattern takes after a period: the cells that it comes from must be on the grid.

* `Lattice.Precedes`: a node comes before another;
* `Folding.Admits`: the steps after a period that lose no cell;
* `Lattice.Axis.reaches_within`: what a step that is too long keeps off the grid;
* `Lattice.returns_iff`: the cells at the end of a period that lead inside;
* **`Lattice.forall_exists_precedes_iff`**: every node inside comes after another exactly for the
  steps that lose no cell.
-/

namespace CellSat

/-- The steps after a period that lose no cell. A bounded plane has to touch its image, and a tiling
has to be aligned with its image. -/
def Folding.Admits : Folding → Cell → Prop
  | torus .., _ => True
  | bounded m n, s => |s.row| ≤ m + 1 ∧ |s.column| ≤ n + 1
  | strip m _, s => |s.row| ≤ m + 1
  | tessellated t, s => t.Aligned s

namespace Lattice

variable {lattice : Lattice} {m n : Node} {p q : Cell} {t : Int} {grid : List Node}

/-- The next generation of a node is at the place of another. -/
def Precedes (lattice : Lattice) (m n : Node) : Prop :=
  ∃ k, lattice.neighbor64? Symbol.next m = .ok (some k) ∧ k.samePlace n = true

theorem precedes_iff (hl : lattice.Proper) (hgrid : lattice.grid64 Node.origin = .ok grid)
    (hm : m ∈ grid) : lattice.Precedes m n ↔
      (lattice.next m).cell = n.cell ∧ (lattice.next m).generation = n.generation := by
  obtain ⟨l, hneighbors⟩ := (mem_grid_iff_reaches hl hgrid).2 m hm
  have hnext := (neighborsBy64_eq_ok hneighbors).2 Symbol.next (by decide)
  have hsome : lattice.neighbor? Symbol.next m = some (lattice.next m) := by
    rw [neighbor?, if_pos rfl]
    rfl
  rw [Precedes, hnext, hsome]
  simp [Node.samePlace]

/-- After the first generation a node inside comes after the node of its cell. -/
theorem exists_precedes_of_pos (hl : lattice.Proper) (hgrid : lattice.grid64 Node.origin = .ok grid)
    (hn : n ∈ grid) (hin : lattice.isOutside n = false) (hpos : 0 < n.generation) :
    ∃ m ∈ grid, lattice.Precedes m n := by
  obtain ⟨hmem, -⟩ := mem_grid_iff_reaches hl hgrid
  have hplaced := placed_of_reaches hl ((hmem n).mp hn)
  have hlt := hplaced.generation_lt
  have hm : (⟨n.cell, n.generation - 1, 0⟩ : Node) ∈ grid :=
    (hmem _).mpr (reaches_of_inner hl ⟨hplaced.isRepresentative, hin⟩ (by omega) (by omega))
  refine ⟨_, hm, (precedes_iff hl hgrid hm).mpr ?_⟩
  rw [next_eq, if_neg (by simp only; omega), node_of_isRepresentative hl hplaced.isRepresentative]
  exact ⟨rfl, by simp⟩

/-- A node of the first generation comes after a node at the end of the period. -/
theorem exists_precedes_iff (hl : lattice.Proper) (hgrid : lattice.grid64 Node.origin = .ok grid)
    (hzero : n.generation = 0) : (∃ m ∈ grid, lattice.Precedes m n) ↔
      ∃ q, lattice.Reaches q (lattice.clock.period - 1) ∧
        (lattice.folding.fold (q.shift lattice.clock.stride)).cell = n.cell := by
  obtain ⟨hmem, -⟩ := mem_grid_iff_reaches hl hgrid
  constructor
  · rintro ⟨m, hm, hprecedes⟩
    obtain ⟨hcell, hgeneration⟩ := (precedes_iff hl hgrid hm).mp hprecedes
    have hplaced := placed_of_reaches hl ((hmem m).mp hm)
    have hnonneg := hplaced.generation_nonneg
    have hend : m.generation + 1 = lattice.clock.period := by
      by_contra hend
      rw [next_eq, if_neg hend, hzero] at hgeneration
      have hnode : m.generation + 1 = 0 := hgeneration
      omega
    rw [next_eq, if_pos hend] at hcell
    refine ⟨m.cell, ?_, hcell⟩
    rw [Reaches, ← hend, add_sub_cancel_right, ← hplaced.belongs.1]
    exact (hmem m).mp hm
  · rintro ⟨q, hq, hcell⟩
    have hm := (hmem _).mpr hq
    refine ⟨_, hm, (precedes_iff hl hgrid hm).mpr ?_⟩
    rw [next_eq, if_pos (by simp), hzero]
    exact ⟨hcell, rfl⟩

/-- At the end of a period there are cells on the grid that lead to all cells inside. -/
def Returns (lattice : Lattice) : Prop :=
  ∀ p, lattice.Inner p → ∃ q, lattice.Reaches q (lattice.clock.period - 1) ∧
    (lattice.folding.fold (q.shift lattice.clock.stride)).cell = p

/-! ## Steps that are too long -/

/-- A coordinate that the folding leaves alone, of which the inside is an interval. -/
structure Axis (f : Folding) (x : Cell → Int) (size : Int) : Prop where
  fold : ∀ p, x (f.fold p).cell = x p
  shift : ∀ p d, x (p.shift d) = x p + x d
  within : ∀ d ∈ Cell.around, -1 ≤ x d ∧ x d ≤ 1
  inside : ∀ p, f.isOutside p = false → 0 ≤ x p ∧ x p < size

theorem axis_row_bounded (m n : Int) : Axis (.bounded m n) Cell.row m where
  fold _ := rfl
  shift _ _ := rfl
  within := by decide
  inside p hp := by
    simp only [Folding.isOutside, Bool.or_eq_false_iff, decide_eq_false_iff_not] at hp
    omega

theorem axis_column_bounded (m n : Int) : Axis (.bounded m n) Cell.column n where
  fold _ := rfl
  shift _ _ := rfl
  within := by decide
  inside p hp := by
    simp only [Folding.isOutside, Bool.or_eq_false_iff, decide_eq_false_iff_not] at hp
    omega

theorem axis_row_strip (m n : Int) : Axis (.strip m n) Cell.row m where
  fold _ := rfl
  shift _ _ := rfl
  within := by decide
  inside p hp := by
    simp only [Folding.isOutside, Bool.or_eq_false_iff, decide_eq_false_iff_not] at hp
    omega

theorem Axis.neighbors {x : Cell → Int} {size : Int} (hx : Axis lattice.folding x size)
    (hm : m ∈ lattice.neighbors n) : (-1 ≤ x m.cell - x n.cell ∧ x m.cell - x n.cell ≤ 1) ∨
      x m.cell = x n.cell + x lattice.clock.stride := by
  rcases mem_neighbors.mp hm with ⟨d, hd, rfl⟩ | rfl
  · left
    have hcell : x (lattice.node (n.cell.shift d) n.generation).cell = x n.cell + x d :=
      (hx.fold _).trans (hx.shift _ _)
    have hd := hx.within d hd
    omega
  · rw [next_eq]
    split_ifs
    · exact .inr ((hx.fold _).trans (hx.shift _ _))
    · left
      have hcell : x (lattice.node n.cell (n.generation + 1)).cell = x n.cell := hx.fold _
      omega

/-- If the pattern jumps farther than the border, nothing beyond the border is on the grid. -/
theorem Axis.reaches_within (hl : lattice.Proper) {x : Cell → Int} {size : Int}
    (hx : Axis lattice.folding x size) (hfar : size + 1 < |x lattice.clock.stride|)
    (h : Relation.ReflTransGen lattice.Adjoins Node.origin n) : -1 ≤ x n.cell ∧ x n.cell ≤ size := by
  have horigin := hx.inside ⟨0, 0⟩ (isOutside_origin hl.sized)
  rw [lt_abs] at hfar
  induction h with
  | refl => exact ⟨by simp only [Node.origin]; omega, by simp only [Node.origin]; omega⟩
  | @tail k m hk hm ih =>
    have hplaced := (placed_of_reaches hl hk).adjoins hl hm
    by_cases hout : lattice.isOutside m = true
    · rcases hplaced.exists_step hl hout with ⟨p, hp, d, hd, hnode⟩ | ⟨-, -, hinside⟩
      · have hcell : x m.cell = x p + x d := by
          rw [← hnode]
          exact (hx.fold _).trans (hx.shift _ _)
        have hp := hx.inside p hp.2
        have hd := hx.within d hd
        omega
      -- The place before the inside is too far away from the border to be entered from there.
      · have hinside := hx.inside _ hinside
        rw [hx.fold, hx.shift] at hinside
        have hneighbors := hx.neighbors hm.1
        omega
    · have hinside := hx.inside m.cell (eq_false_of_ne_true hout)
      omega

/-- Then no cell of the grid leads to the origin. -/
theorem Axis.fold_stride_ne (hl : lattice.Proper) {x : Cell → Int} {size : Int}
    (hx : Axis lattice.folding x size) (hfar : size + 1 < |x lattice.clock.stride|)
    (hq : lattice.Reaches q t) :
    (lattice.folding.fold (q.shift lattice.clock.stride)).cell ≠ ⟨0, 0⟩ := by
  intro hcell
  have horigin := hx.inside ⟨0, 0⟩ (isOutside_origin hl.sized)
  obtain ⟨hleft, hright⟩ := hx.reaches_within hl hfar hq
  rw [← hcell, hx.fold, hx.shift] at horigin
  rw [lt_abs] at hfar
  simp only at hleft hright
  omega

theorem Axis.abs_le_of_returns (hl : lattice.Proper) {x : Cell → Int} {size : Int}
    (hx : Axis lattice.folding x size) (hreturns : lattice.Returns) :
    |x lattice.clock.stride| ≤ size + 1 := by
  by_contra hfar
  obtain ⟨q, hq, hcell⟩ :=
    hreturns ⟨0, 0⟩ ⟨isRepresentative_origin hl.sized, isOutside_origin hl.sized⟩
  exact hx.fold_stride_ne hl (not_le.mp hfar) hq hcell

/-! ## Steps that lose no cell -/

theorem mem_around {d : Cell} (hd : d.Within 1) (hne : d ≠ ⟨0, 0⟩) : d ∈ Cell.around := by
  obtain ⟨i, j⟩ := d
  obtain ⟨hi, hi', hj, hj'⟩ := hd
  simp only at hi hi' hj hj'
  interval_cases i <;> interval_cases j <;> simp [Cell.around] at hne ⊢

theorem stays_of_near (hl : lattice.Proper) (hp : lattice.folding.IsRepresentative p) {d : Cell}
    (hd : d.Within 1)
    (hin : lattice.folding.isOutside (lattice.folding.fold (p.shift d)).cell = false) :
    lattice.Stays p t := by
  by_cases hne : d = ⟨0, 0⟩
  · rw [hne, Cell.shift_zero, Folding.fold_of_isRepresentative hl.sized hp] at hin
    exact Inner.stays ⟨hp, hin⟩
  · exact ⟨hp, rfl, fun _ => ⟨_, mem_neighbors.mpr (.inl ⟨d, mem_around hd hne, rfl⟩), hin⟩⟩

theorem stays_of_next (hp : lattice.folding.IsRepresentative p)
    (hin : lattice.folding.isOutside
      (lattice.folding.fold (p.shift lattice.clock.stride)).cell = false) :
    lattice.Stays p (lattice.clock.period - 1) := by
  refine ⟨hp, rfl, fun _ => ⟨_, mem_neighbors.mpr (.inr rfl), ?_⟩⟩
  rw [next_eq, if_pos (by simp)]
  exact hin

theorem Reaches.near (hl : lattice.Proper) (h : lattice.Reaches p t) (hq : lattice.Stays q t)
    (hd : (q.shiftBack p).Within 1) : lattice.Reaches q t := by
  have hshift : p.shift (q.shiftBack p) = q := by simp [Cell.shift, Cell.shiftBack]
  by_cases hne : q.shiftBack p = ⟨0, 0⟩
  · rwa [← hshift, hne, Cell.shift_zero]
  · rw [← hshift]
    exact h.step hl (mem_around hd hne) (hshift.symm ▸ hq)

theorem reaches_iff_isRepresentative (hl : lattice.Proper)
    (hin : ∀ p, lattice.folding.isOutside p = false) (ht : 0 ≤ t) (ht' : t < lattice.clock.period) :
    lattice.Reaches p t ↔ lattice.folding.IsRepresentative p :=
  ⟨fun h => (placed_of_reaches hl h).isRepresentative,
    fun h => reaches_of_inner hl ⟨h, hin p⟩ ht ht'⟩

theorem returns_torus {m n s : Int} {c : Clock} (hl : Proper ⟨.torus m n s, c⟩) :
    Returns ⟨.torus m n s, c⟩ := by
  rintro p ⟨hp, -⟩
  have hperiod : 0 < c.period := hl.period_pos
  refine ⟨((Folding.torus m n s).fold (p.shiftBack c.stride)).cell, ?_, ?_⟩
  · refine (reaches_iff_isRepresentative hl (fun _ => rfl) (by simp only; omega)
      (by simp only; omega)).mpr ?_
    exact Folding.isRepresentative_fold hl.sized _
  · refine (Folding.fold_shift_fold hl.sized (fun t => by simp) _ _).trans ?_
    rw [Cell.shift_shiftBack, Folding.fold_of_isRepresentative hl.sized hp]

theorem returns_tessellated_iff {t : Tessellation} {c : Clock} (hl : Proper ⟨.tessellated t, c⟩) :
    Returns ⟨.tessellated t, c⟩ ↔ t.Covers c.stride := by
  have hperiod : 0 < c.period := hl.period_pos
  have hreaches : ∀ q, Reaches ⟨.tessellated t, c⟩ q (c.period - 1) ↔ t.IsRepresentative q :=
    fun q => reaches_iff_isRepresentative hl (fun _ => rfl) (by omega) (by simp only; omega)
  constructor
  · intro h p hp
    obtain ⟨q, hq, hcell⟩ := h p ⟨hp, rfl⟩
    exact ⟨q, (hreaches q).mp hq, hcell⟩
  · rintro h p ⟨hp, -⟩
    obtain ⟨q, hq, hcell⟩ := h p hp
    exact ⟨q, (hreaches q).mpr hq, hcell⟩

theorem isOutside_strip {m n : Int} : (Folding.strip m n).isOutside p = false ↔
    0 ≤ p.row ∧ p.row < m := by
  simp [Folding.isOutside]

theorem isOutside_bounded {m n : Int} : (Folding.bounded m n).isOutside p = false ↔
    (0 ≤ p.row ∧ p.row < m) ∧ 0 ≤ p.column ∧ p.column < n := by
  simp [Folding.isOutside, and_assoc]

/-- The step from the border of an interval to the inside. -/
def pull (size x : Int) : Int := if x < 0 then 1 else if size ≤ x then -1 else 0

theorem stays_strip {m n i j : Int} {c : Clock} (hl : Proper ⟨.strip m n, c⟩) (hi : -1 ≤ i)
    (hi' : i ≤ m) (hj : 0 ≤ j) (hj' : j < n) : Stays ⟨.strip m n, c⟩ ⟨i, j⟩ t := by
  have hm : 0 < m := hl.sized.rows_pos
  refine stays_of_near hl ⟨hj, hj'⟩ (d := ⟨pull m i, 0⟩) ?_ (isOutside_strip.mpr ?_)
  · simp only [Cell.Within, pull]
    split_ifs <;> omega
  · simp only [Folding.fold, Cell.shift, pull]
    split_ifs <;> omega

theorem stays_bounded {m n i j : Int} {c : Clock} (hl : Proper ⟨.bounded m n, c⟩) (hi : -1 ≤ i)
    (hi' : i ≤ m) (hj : -1 ≤ j) (hj' : j ≤ n) : Stays ⟨.bounded m n, c⟩ ⟨i, j⟩ t := by
  have hm : 0 < m := hl.sized.rows_pos
  have hn : 0 < n := hl.sized.columns_pos
  refine stays_of_near hl trivial (d := ⟨pull m i, pull n j⟩) ?_ (isOutside_bounded.mpr ?_)
  · simp only [Cell.Within, pull]
    split_ifs <;> omega
  · simp only [Folding.fold, Cell.shift, pull]
    split_ifs <;> omega

/-- On a strip one walks along a column to the place that leads to a cell. -/
theorem returns_strip {m n : Int} {c : Clock} (hl : Proper ⟨.strip m n, c⟩)
    (hs : |c.stride.row| ≤ m + 1) : Returns ⟨.strip m n, c⟩ := by
  have hm : 0 < m := hl.sized.rows_pos
  have hn : 0 < n := hl.sized.columns_pos
  have hperiod : 0 < c.period := hl.period_pos
  obtain ⟨hs₀, hs₁⟩ := abs_le.mp hs
  rintro p ⟨⟨hcolumn, hcolumn'⟩, hin⟩
  obtain ⟨hrow, hrow'⟩ := isOutside_strip.mp hin
  let y := (p.column - c.stride.column) % n
  have hy : 0 ≤ y ∧ y < n := ⟨Int.emod_nonneg _ hn.ne', Int.emod_lt_of_pos _ hn⟩
  have hstays : ∀ k, min (-1) (-c.stride.row) ≤ k → k < max (m + 1) (m - c.stride.row) →
      Stays ⟨.strip m n, c⟩ ⟨k, y⟩ (c.period - 1) := by
    intro k hk hk'
    by_cases hnear : -1 ≤ k ∧ k ≤ m
    · exact stays_strip hl hnear.1 hnear.2 hy.1 hy.2
    · refine stays_of_next hy (isOutside_strip.mpr ?_)
      simp only [Folding.fold, Cell.shift]
      omega
  have hstart : Reaches ⟨.strip m n, c⟩ ⟨0, y⟩ (c.period - 1) :=
    reaches_of_inner hl ⟨hy, isOutside_strip.mpr ⟨le_rfl, hm⟩⟩ (by omega) (by simp only; omega)
  refine ⟨⟨p.row - c.stride.row, y⟩, ?_, congrArg₂ Cell.mk (sub_add_cancel _ _) ?_⟩
  · exact Reaches.line hl (f := fun k => ⟨k, y⟩) (show ⟨1, 0⟩ ∈ Cell.around by decide)
      (fun k => by simp [Cell.shift]) hstays hstart (by omega) (by omega) (by omega) (by omega)
  · simp only [y, Cell.shift]
    rw [Int.emod_add_emod, sub_add_cancel, Int.emod_eq_of_lt hcolumn hcolumn']

/-- An interval with its border touches its image under a step that is not too long. -/
theorem exists_touching {size s : Int} (hsize : 0 < size) (hs : |s| ≤ size + 1) :
    ∃ y z, (-1 ≤ y ∧ y < size + 1) ∧ (-s ≤ z ∧ z < size - s) ∧ -1 ≤ z - y ∧ z - y ≤ 1 := by
  obtain ⟨hs₀, hs₁⟩ := abs_le.mp hs
  rcases le_total 0 s with h | h
  · exact ⟨max (-1) (size - 1 - s), size - 1 - s, by omega, by omega, by omega⟩
  · exact ⟨min size (-s), -s, by omega, by omega, by omega⟩

/-- One walks to the border, to the place that leads to the nearest corner inside, and on. -/
theorem returns_bounded {m n : Int} {c : Clock} (hl : Proper ⟨.bounded m n, c⟩)
    (hrow : |c.stride.row| ≤ m + 1) (hcolumn : |c.stride.column| ≤ n + 1) :
    Returns ⟨.bounded m n, c⟩ := by
  have hm : 0 < m := hl.sized.rows_pos
  have hn : 0 < n := hl.sized.columns_pos
  have hperiod : 0 < c.period := hl.period_pos
  have hborder : ∀ i j, -1 ≤ i → i < m + 1 → -1 ≤ j → j < n + 1 →
      Stays ⟨.bounded m n, c⟩ ⟨i, j⟩ (c.period - 1) := by
    intro i j hi hi' hj hj'
    exact stays_bounded hl hi (by omega) hj (by omega)
  have hbefore : ∀ i j, -c.stride.row ≤ i → i < m - c.stride.row → -c.stride.column ≤ j →
      j < n - c.stride.column → Stays ⟨.bounded m n, c⟩ ⟨i, j⟩ (c.period - 1) := by
    intro i j hi hi' hj hj'
    refine stays_of_next trivial (isOutside_bounded.mpr ?_)
    simp only [Folding.fold, Cell.shift]
    omega
  have hstart : Reaches ⟨.bounded m n, c⟩ ⟨0, 0⟩ (c.period - 1) :=
    reaches_of_inner hl ⟨trivial, isOutside_bounded.mpr ⟨⟨le_rfl, hm⟩, le_rfl, hn⟩⟩ (by omega)
      (by simp only; omega)
  obtain ⟨y, z, ⟨hy, hy'⟩, ⟨hz, hz'⟩, hyz⟩ := exists_touching hm hrow
  obtain ⟨y₁, z₁, ⟨hy₁, hy₁'⟩, ⟨hz₁, hz₁'⟩, hyz₁⟩ := exists_touching hn hcolumn
  have hnear : Reaches ⟨.bounded m n, c⟩ ⟨y, y₁⟩ (c.period - 1) :=
    hstart.rectangle hl hborder (by omega) (by omega) (by omega) (by omega) hy hy' hy₁ hy₁'
  have hfar : Reaches ⟨.bounded m n, c⟩ ⟨z, z₁⟩ (c.period - 1) :=
    hnear.near hl (hbefore z z₁ hz hz' hz₁ hz₁') ⟨hyz.1, hyz.2, hyz₁⟩
  rintro p ⟨-, hin⟩
  obtain ⟨⟨hp, hp'⟩, hp₁, hp₁'⟩ := isOutside_bounded.mp hin
  refine ⟨p.shiftBack c.stride, ?_, Cell.shift_shiftBack p c.stride⟩
  exact hfar.rectangle hl hbefore hz hz' hz₁ hz₁' (by omega) (by omega) (by omega) (by omega)

/-- **Returning cells** are on the grid exactly for the steps that lose no cell. -/
theorem returns_iff (hl : lattice.Proper) :
    lattice.Returns ↔ lattice.folding.Admits lattice.clock.stride := by
  obtain ⟨f, c⟩ := lattice
  cases f with
  | torus m n s => exact ⟨fun _ => trivial, fun _ => returns_torus hl⟩
  | bounded m n =>
    exact ⟨fun h => ⟨(axis_row_bounded m n).abs_le_of_returns hl h,
      (axis_column_bounded m n).abs_le_of_returns hl h⟩, fun h => returns_bounded hl h.1 h.2⟩
  | strip m n => exact ⟨(axis_row_strip m n).abs_le_of_returns hl, returns_strip hl⟩
  | tessellated t =>
    exact (returns_tessellated_iff hl).trans (Tessellation.covers_iff hl.sized.tessellation)

/-- **What comes before a cell.** A step after a period may lose cells. -/
theorem forall_exists_precedes_iff (hl : lattice.Proper)
    (hgrid : lattice.grid64 Node.origin = .ok grid) :
    (∀ n ∈ grid, lattice.isOutside n = false → 0 < n.generation →
        ∃ m ∈ grid, lattice.Precedes m n) ∧
      ((∀ n ∈ grid, lattice.isOutside n = false → ∃ m ∈ grid, lattice.Precedes m n) ↔
        lattice.folding.Admits lattice.clock.stride) := by
  obtain ⟨hmem, -⟩ := mem_grid_iff_reaches hl hgrid
  have hpos := fun n hn hin => exists_precedes_of_pos (n := n) hl hgrid hn hin
  refine ⟨hpos, (Iff.trans ?_ (returns_iff hl))⟩
  constructor
  · intro h p hp
    have horigin : (⟨p, 0, 0⟩ : Node) ∈ grid :=
      (hmem _).mpr (reaches_of_inner hl hp le_rfl hl.period_pos)
    exact (exists_precedes_iff hl hgrid rfl).mp (h _ horigin hp.2)
  · intro h n hn hin
    have hplaced := placed_of_reaches hl ((hmem n).mp hn)
    rcases hplaced.generation_nonneg.eq_or_lt with hzero | hlt
    · exact (exists_precedes_iff hl hgrid hzero.symm).mpr (h n.cell ⟨hplaced.isRepresentative, hin⟩)
    · exact hpos n hn hin hlt

/-- The farthest step that loses no cell, and one that does not fit a tiling of squares. -/
theorem forall_exists_precedes_iff_bounded_rotatedSquare :
    (∃ grid, grid64 ⟨.bounded 2 3, ⟨2, 3, -4⟩⟩ Node.origin = .ok grid ∧
      ∀ n ∈ grid, isOutside ⟨.bounded 2 3, ⟨2, 3, -4⟩⟩ n = false →
        ∃ m ∈ grid, Precedes ⟨.bounded 2 3, ⟨2, 3, -4⟩⟩ m n) ∧
    ∃ grid, grid64 ⟨.tessellated (.rotatedSquare 2), ⟨1, 1, 0⟩⟩ Node.origin = .ok grid ∧
      ¬ ∀ n ∈ grid, isOutside ⟨.tessellated (.rotatedSquare 2), ⟨1, 1, 0⟩⟩ n = false →
        ∃ m ∈ grid, Precedes ⟨.tessellated (.rotatedSquare 2), ⟨1, 1, 0⟩⟩ m n := by
  have hbounded : Proper ⟨.bounded 2 3, ⟨2, 3, -4⟩⟩ := ⟨⟨by decide, by decide⟩, by decide⟩
  have hsquare : Proper ⟨.tessellated (.rotatedSquare 2), ⟨1, 1, 0⟩⟩ :=
    ⟨⟨by decide, by decide⟩, by decide⟩
  obtain ⟨grid, hgrid⟩ := exists_grid64 hbounded
    ⟨⟨by decide, by decide, fun m n s h => by cases h⟩, by decide, by decide, by decide⟩
  obtain ⟨grid', hgrid'⟩ := exists_grid64 hsquare
    ⟨⟨by decide, by decide, fun m n s h => by cases h⟩, by decide, by decide, by decide⟩
  refine ⟨⟨grid, hgrid, ?_⟩, grid', hgrid', ?_⟩
  · exact (forall_exists_precedes_iff hbounded hgrid).2.mpr ⟨by decide, by decide⟩
  · intro h
    obtain ⟨hrow, -⟩ := (forall_exists_precedes_iff hsquare hgrid').2.mp h
    exact absurd hrow (by decide)

/-- The pattern of one cell jumps by five, so that nothing determines it. -/
theorem not_exists_precedes_of_far :
    Proper ⟨.bounded 1 1, ⟨1, 5, 0⟩⟩ ∧
    ∃ grid, grid64 ⟨.bounded 1 1, ⟨1, 5, 0⟩⟩ Node.origin = .ok grid ∧ Node.origin ∈ grid ∧
      isOutside ⟨.bounded 1 1, ⟨1, 5, 0⟩⟩ Node.origin = false ∧
      ¬ ∃ m ∈ grid, Precedes ⟨.bounded 1 1, ⟨1, 5, 0⟩⟩ m Node.origin := by
  have hl : Proper ⟨.bounded 1 1, ⟨1, 5, 0⟩⟩ := ⟨⟨by decide, by decide⟩, by decide⟩
  obtain ⟨grid, hgrid⟩ := exists_grid64 hl
    ⟨⟨by decide, by decide, fun m n s h => by cases h⟩, by decide, by decide, by decide⟩
  refine ⟨hl, grid, hgrid, ((mem_grid_iff_reaches hl hgrid).1 _).mpr .refl, by decide, ?_⟩
  rw [exists_precedes_iff hl hgrid rfl]
  rintro ⟨q, hq, hcell⟩
  exact (axis_row_bounded 1 1).fold_stride_ne hl (by decide) hq hcell

end Lattice

end CellSat
