import Mathlib
import CellSat.Proofs.Grid.Precedence
import CellSat.Proofs.Meaning
/-!
# The extent of a grid

The grid of a steady lattice is known beforehand: all representatives where no cell is outside, and
otherwise the inside with a border of one cell, at each generation of a period. It is found exactly
if machine words give the neighbours that the search asks for.

* `Folding.Extent`: the cells that a grid should have;
* `Lattice.placed_iff`: the nodes in their places are those of the extent;
* `Lattice.sorted_of_grid64`, `Lattice.eq_of_grid64`: a grid is strictly increasing;
* `Lattice.fits_of_grid64`: a grid is found only if machine words give what the search needs;
* **`Lattice.grid64_eq_extent`**: what the search for a grid returns.
-/

namespace CellSat

/-- The cells that a grid should have. A dead region is cut off at a border of one cell. -/
def Folding.Extent (f : Folding) (p : Cell) : Prop :=
  match f with
  | torus .. | tessellated _ => ∃ q, (f.fold q).cell = p
  | bounded m n => -1 ≤ p.row ∧ p.row ≤ m ∧ -1 ≤ p.column ∧ p.column ≤ n
  | strip m n => -1 ≤ p.row ∧ p.row ≤ m ∧ 0 ≤ p.column ∧ p.column < n

theorem Folding.exists_fold_eq_iff {f : Folding} (hf : f.Sized) {p : Cell} :
    (∃ q, (f.fold q).cell = p) ↔ f.IsRepresentative p := by
  constructor
  · rintro ⟨q, rfl⟩
    exact isRepresentative_fold hf q
  · intro hp
    exact ⟨p, by rw [fold_of_isRepresentative hf hp]⟩

namespace Lattice

variable {lattice : Lattice} {m n : Node} {p : Cell} {t : Int} {grid : List Node}

/-! ## Nodes of the extent -/

theorem Placed.extent (hl : lattice.Steady) (hn : lattice.Placed n) :
    lattice.folding.Extent n.cell := by
  by_cases hout : lattice.isOutside n = true
  · obtain ⟨q, hq, d, hd, hnode⟩ := hn.exists_step_of_steady hl hout
    have hcell : n.cell = (lattice.folding.fold (q.shift d)).cell := by rw [← hnode, node]
    have hstep := Cell.around_within d hd
    obtain ⟨f, c⟩ := lattice
    cases f with
    | torus k l s | tessellated t => exact absurd (flat_of_isOutside hout).1 id
    | bounded k l =>
      have hin := isOutside_bounded.mp hq.2
      rw [hcell]
      simp only [Folding.Extent, Folding.fold, Cell.shift, Cell.Within] at hstep ⊢
      omega
    | strip k l =>
      have hin := isOutside_strip.mp hq.2
      have hcolumn : 0 ≤ n.cell.column ∧ n.cell.column < l := hn.isRepresentative
      have hrow : n.cell.row = q.row + d.row := by rw [hcell]; rfl
      simp only [Folding.Extent, Cell.Within] at hstep ⊢
      omega
  · have hin := eq_false_of_ne_true hout
    obtain ⟨f, c⟩ := lattice
    cases f with
    | torus k l s | tessellated t =>
      exact (Folding.exists_fold_eq_iff hl.sized).mpr hn.isRepresentative
    | bounded k l =>
      have hin := isOutside_bounded.mp hin
      simp only [Folding.Extent]
      omega
    | strip k l =>
      have hin := isOutside_strip.mp hin
      have hcolumn : 0 ≤ n.cell.column ∧ n.cell.column < l := hn.isRepresentative
      simp only [Folding.Extent]
      omega

theorem stays_of_extent (hl : lattice.Proper) (hp : lattice.folding.Extent p) :
    lattice.Stays p t := by
  obtain ⟨f, c⟩ := lattice
  cases f with
  | torus k l s | tessellated t =>
    exact Inner.stays ⟨(Folding.exists_fold_eq_iff hl.sized).mp hp, rfl⟩
  | bounded k l => exact stays_bounded hl hp.1 hp.2.1 hp.2.2.1 hp.2.2.2
  | strip k l => exact stays_strip hl hp.1 hp.2.1 hp.2.2.1 hp.2.2.2

theorem placed_iff (hl : lattice.Steady) : lattice.Placed n ↔
    n.orientation = 0 ∧ 0 ≤ n.generation ∧ n.generation < lattice.clock.period ∧
      lattice.folding.Extent n.cell := by
  constructor
  · intro hn
    exact ⟨hn.belongs.1, hn.generation_nonneg, hn.generation_lt, hn.extent hl⟩
  · rintro ⟨horientation, h₀, h₁, hextent⟩
    obtain ⟨hrep, hbelongs⟩ := stays_of_extent (t := n.generation) hl.toProper hextent
    rw [← horientation] at hbelongs
    exact ⟨hrep, h₀, h₁, hbelongs⟩

/-- Time does not lead outside, and a step in space leads at most next to the inside. -/
theorem Placed.exists_samePlace (hl : lattice.Steady) (hn : lattice.Placed n)
    (hin : lattice.isOutside n = false) (hm : m ∈ lattice.neighbors n) :
    lattice.Placed { m with orientation := 0 } := by
  obtain ⟨q, u, hnode, h₀, h₁⟩ :=
    exists_node_of_mem_neighbors hl.toProper hn.generation_nonneg hn.generation_lt hm
  have hrep : lattice.folding.IsRepresentative m.cell := by
    rw [hnode]
    exact Folding.isRepresentative_fold hl.sized q
  have hgeneration : m.generation = u := by rw [hnode, node]
  refine ⟨hrep, hgeneration ▸ h₀, hgeneration ▸ h₁, rfl, fun hout => ?_⟩
  obtain ⟨hopen, hflat⟩ := flat_of_isOutside hout
  rcases mem_neighbors.mp hm with ⟨d, hd, rfl⟩ | rfl
  · obtain ⟨e, he, hback⟩ := exists_back hd
    refine ⟨_, mem_neighbors.mpr (.inl ⟨e, he, rfl⟩), ?_⟩
    have hcell : (lattice.folding.fold
        ((lattice.folding.fold (n.cell.shift d)).cell.shift e)).cell = n.cell := by
      rw [Folding.fold_shift_fold hl.sized hflat, hback,
        Folding.fold_of_isRepresentative hl.sized hn.isRepresentative]
    show lattice.folding.isOutside _ = false
    exact (congrArg lattice.folding.isOutside hcell).trans hin
  · have hnext := next_cell_of_isOpen hl hopen hn.isRepresentative
    have hout' : lattice.folding.isOutside (lattice.next n).cell = true := hout
    rw [hnext] at hout'
    exact absurd (hout'.symm.trans hin) (by simp)

/-! ## The order of a grid -/

instance : Std.TransCmp Node.compare :=
  inferInstanceAs (Std.TransCmp (compareLex (compareOn fun n : Node => n.cell.row)
    (compareLex (compareOn fun n : Node => n.cell.column) (compareOn Node.generation))))

theorem compare_eq_lt_iff : m.compare n = .lt ↔
    Prod.Lex (· < ·) (Prod.Lex (· < ·) (· < ·)) m.position n.position := by
  rw [Node.compare, Ordering.then_eq_lt, Ordering.then_eq_lt, compare_lt_iff_lt,
    compare_lt_iff_lt, compare_lt_iff_lt, compare_eq_iff_eq, compare_eq_iff_eq, Prod.lex_def,
    Prod.lex_def]
  rfl

theorem position_eq_of_compare (h : m.compare n = .eq) : m.position = n.position := by
  rw [Node.compare, Ordering.then_eq_eq, Ordering.then_eq_eq, compare_eq_iff_eq,
    compare_eq_iff_eq, compare_eq_iff_eq] at h
  rw [Node.position, Node.position, h.1, h.2.1, h.2.2]

theorem nodup_of_grid64 {root : Node} (h : lattice.grid64 root = .ok grid) : grid.Nodup := by
  obtain ⟨seen, -, h⟩ := bind_eq_ok.mp h
  rw [← Except.ok.inj h, (List.mergeSort_perm _ _).nodup_iff]
  exact Std.HashSet.distinct_toList.imp fun h => by simpa using h

theorem sorted_of_grid64 {root : Node} (h : lattice.grid64 root = .ok grid)
    (hzero : ∀ n ∈ grid, n.orientation = 0) :
    (grid.map Node.position).Pairwise (Prod.Lex (· < ·) (Prod.Lex (· < ·) (· < ·))) := by
  have hnodup := nodup_of_grid64 h
  have hsorted : grid.Pairwise fun m n => (m.compare n).isLE = true := by
    obtain ⟨seen, -, h⟩ := bind_eq_ok.mp h
    rw [← Except.ok.inj h]
    exact pairwise_mergeSort_isLE _
  rw [List.pairwise_map]
  refine (hsorted.and hnodup).imp_of_mem ?_
  intro m n hm hn hmn
  rw [← compare_eq_lt_iff]
  cases hcompare : m.compare n with
  | lt => rfl
  | gt => exact absurd hmn.1 (by rw [hcompare]; decide)
  | eq =>
    -- Two nodes at one place differ in their orientation only, which is 0 on the grid.
    have hposition := position_eq_of_compare hcompare
    rw [Node.position, Node.position, Prod.mk.injEq, Prod.mk.injEq] at hposition
    obtain ⟨⟨i, j⟩, t, o⟩ := m
    obtain ⟨⟨i', j'⟩, t', o'⟩ := n
    obtain ⟨rfl, rfl, rfl⟩ := hposition
    exact absurd (congrArg (Node.mk ⟨i, j⟩ t) ((hzero _ hm).trans (hzero _ hn).symm)) hmn.2

/-- The grid of a steady lattice is the increasing list of its nodes. -/
theorem eq_of_grid64 {nodes : List Node} (hl : lattice.Steady)
    (h : lattice.grid64 Node.origin = .ok grid)
    (hsorted : (nodes.map Node.position).Pairwise (Prod.Lex (· < ·) (Prod.Lex (· < ·) (· < ·))))
    (hnodes : ∀ n, n ∈ nodes ↔ n.orientation = 0 ∧ 0 ≤ n.generation ∧
      n.generation < lattice.clock.period ∧ lattice.folding.Extent n.cell) : grid = nodes := by
  have hmem : ∀ n, n ∈ grid ↔ n ∈ nodes := fun n => by
    rw [mem_grid_iff_placed hl h, placed_iff hl, hnodes]
  have hsorted' := sorted_of_grid64 h fun n hn => ((hnodes n).mp ((hmem n).mp hn)).1
  rw [List.pairwise_map] at hsorted hsorted'
  have hasymm : ∀ m n : Node, Prod.Lex (· < ·) (Prod.Lex (· < ·) (· < ·)) m.position n.position →
      ¬ Prod.Lex (· < ·) (Prod.Lex (· < ·) (· < ·)) n.position m.position := by
    intro m n
    simp only [Prod.lex_def]
    omega
  have hnodup : nodes.Nodup := hsorted.imp fun {m n} hlex heq => by
    subst heq
    exact hasymm m m hlex hlex
  refine List.Perm.eq_of_pairwise (fun m n _ _ hlex hlex' => absurd hlex' (hasymm m n hlex))
    hsorted' hsorted ?_
  exact (List.perm_ext_iff_of_nodup (nodup_of_grid64 h) hnodup).mpr hmem

/-! ## Grids in machine words -/

theorem fits_of_grid64 (hl : lattice.Steady) (h : lattice.grid64 Node.origin = .ok grid) :
    lattice.Fits := by
  have hmem := mem_grid_iff_placed hl h
  have hsurveyed := (surveyed_of_grid64 hl.toProper h).2
  constructor
  · intro n hn
    exact (hsurveyed n ((hmem n).mpr hn)).1
  · intro n hn m hm horientation hout
    rcases (hsurveyed n ((hmem n).mpr hn)).2 m hm with hreach | hfalse
    · have hplaced := placed_of_reaches hl.toProper hreach
      exact (hsurveyed m ((hmem m).mpr hplaced)).1
    · rw [belongs64, if_neg (not_not.mpr horientation), if_pos hout, isBoundary64,
        if_pos hout] at hfalse
      obtain ⟨l, hneighbors, -⟩ := bind_eq_ok.mp hfalse
      exact ⟨l, hneighbors⟩

/-- **The extent of a grid.** The search ends with nothing left to visit, or with a fault. -/
theorem grid64_eq_extent (hl : lattice.Steady) :
    (∃ outcome, lattice.Explores [Node.origin] (seed Node.origin) outcome ∧
      lattice.grid64 Node.origin = outcome.map sorted) ∧
    (lattice.Small → lattice.Fits) ∧
    (lattice.Fits → ∃ grid, lattice.grid64 Node.origin = .ok grid ∧
      (grid.map Node.position).Pairwise (Prod.Lex (· < ·) (Prod.Lex (· < ·) (· < ·))) ∧
      (∀ n, n ∈ grid ↔ n.orientation = 0 ∧ 0 ≤ n.generation ∧
        n.generation < lattice.clock.period ∧ lattice.folding.Extent n.cell) ∧
      ∀ n ∈ grid, lattice.isOutside n = false → ∃ ms, lattice.neighbors64 n = .ok ms ∧
        ∀ m ∈ ms, ∃ k ∈ grid, k.position = m.position) ∧
    (¬ lattice.Fits → ∃ fault, lattice.grid64 Node.origin = .error fault) := by
  refine ⟨explores_grid64 hl.toProper, Small.fits hl.toProper, fun hf => ?_, fun hf => ?_⟩
  · obtain ⟨grid, hgrid⟩ := exists_grid64_of_fits hl.toProper hf
    have hmem := mem_grid_iff_placed hl hgrid
    refine ⟨grid, hgrid, ?_, fun n => (hmem n).trans (placed_iff hl), ?_⟩
    · exact sorted_of_grid64 hgrid fun n hn => ((hmem n).mp hn).belongs.1
    · intro n hn hin
      have hplaced := (hmem n).mp hn
      obtain ⟨ms, hneighbors⟩ := hf.neighbors n hplaced
      refine ⟨ms, hneighbors, ?_⟩
      intro m hm
      rw [eq_of_neighbors64 hneighbors] at hm
      exact ⟨_, (hmem _).mpr (hplaced.exists_samePlace hl hin hm), rfl⟩
  · cases hgrid : lattice.grid64 Node.origin with
    | error fault => exact ⟨fault, rfl⟩
    | ok grid => exact absurd (fits_of_grid64 hl hgrid) hf

/-- A strip, and a rhombus whose pattern is shifted after a period. -/
theorem grid64_eq_extent_strip_rhombus :
    (∃ grid, grid64 ⟨.strip 3 2, ⟨2, 0, 0⟩⟩ Node.origin = .ok grid ∧
      ∀ n, n ∈ grid ↔ n.orientation = 0 ∧ 0 ≤ n.generation ∧ n.generation < 2 ∧
        -1 ≤ n.cell.row ∧ n.cell.row ≤ 3 ∧ 0 ≤ n.cell.column ∧ n.cell.column < 2) ∧
    ∃ grid, grid64 ⟨.tessellated (.faceRotatedRhombus 3), ⟨4, 5, -7⟩⟩ Node.origin = .ok grid ∧
      ∀ n, n ∈ grid ↔ n.orientation = 0 ∧ 0 ≤ n.generation ∧ n.generation < 4 ∧
        ∃ q, ((Folding.tessellated (.faceRotatedRhombus 3)).fold q).cell = n.cell := by
  have hstrip : Steady ⟨.strip 3 2, ⟨2, 0, 0⟩⟩ :=
    ⟨⟨⟨by decide, by decide⟩, by decide⟩, fun _ => ⟨rfl, rfl⟩⟩
  have hrhombus : Steady ⟨.tessellated (.faceRotatedRhombus 3), ⟨4, 5, -7⟩⟩ :=
    ⟨⟨⟨by decide, by decide⟩, by decide⟩, fun h => absurd h id⟩
  obtain ⟨-, hsmall, hfits, -⟩ := grid64_eq_extent hstrip
  obtain ⟨-, hsmall', hfits', -⟩ := grid64_eq_extent hrhombus
  obtain ⟨grid, hgrid, -, hmem, -⟩ := hfits (hsmall
    ⟨⟨by decide, by decide, fun m n s h => by cases h⟩, by decide, by decide, by decide⟩)
  obtain ⟨grid', hgrid', -, hmem', -⟩ := hfits' (hsmall'
    ⟨⟨by decide, by decide, fun m n s h => by cases h⟩, by decide, by decide, by decide⟩)
  exact ⟨⟨grid, hgrid, hmem⟩, grid', hgrid', hmem'⟩

/-- A shift by the greatest machine word: that of the second cell leaves the range. -/
theorem not_exists_grid64_of_long_shift :
    Steady ⟨.torus 2 1 0, ⟨1, 2 ^ 63 - 1, 0⟩⟩ ∧
      grid64 ⟨.torus 2 1 0, ⟨1, 2 ^ 63 - 1, 0⟩⟩ Node.origin = .error .overflow := by
  refine ⟨⟨⟨⟨by decide, by decide⟩, by decide⟩, fun h => absurd h id⟩, ?_⟩
  cbv

end Lattice

end CellSat
