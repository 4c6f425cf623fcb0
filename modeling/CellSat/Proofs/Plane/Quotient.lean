import Mathlib
import CellSat.Proofs.Plane.Fit
/-!
# Foldings as quotients of the plane

A folding gives two cells one representative exactly if a motion of the folding carries one of them
to the other. To walk on representatives is to walk on cells.

* `Folding.Identifies`: the cells that are one, by shifts or by the motions of a tiling;
* `Folding.Respects`: the walks that can be taken on representatives;
* **`Folding.fold_cell_eq_iff`**: a folding is a quotient map, and it leaves representatives alone;
* **`Folding.respects_of_sized`**: a folding respects neighbours.
-/

namespace CellSat.Folding

variable {f : Folding} {m n shift : Int} {p q : Cell}

/-- Two cells are one: on a torus their difference is a combination of a turn through the rows and a
turn through the columns, and in a tiling one of the motions carries one to the other. -/
def Identifies : Folding → Cell → Cell → Prop
  | torus m n shift, p, q => ∃ a b : Int, p.shiftBack q = ⟨a * m + b * 0, a * -shift + b * n⟩
  | bounded _ _, p, q => p = q
  | strip _ n, p, q => ∃ b : Int, p.shiftBack q = ⟨0, b * n⟩
  | tessellated t, p, q => ∃ g ∈ t.symmetries, g p = q

/-! ## Quotients -/

theorem identifies_torus_iff (hm : 0 < m) : (torus m n shift).Identifies p q ↔
    ((torus m n shift).fold p).cell = ((torus m n shift).fold q).cell := by
  constructor
  · rintro ⟨a, b, h⟩
    have hp : p = Cell.translation ⟨m * a, n * b - shift * a⟩ q := by
      simp only [Cell.shiftBack, Cell.mk.injEq] at h
      refine congrArg₂ Cell.mk ?_ ?_
      · linear_combination h.1
      · linear_combination h.2
    rw [hp]
    exact (isSymmetry_torus hm shift a b).fold_cell q
  · intro h
    obtain ⟨a, b, hp⟩ := exists_shift_torus m n shift p
    obtain ⟨c, d, hq⟩ := exists_shift_torus m n shift q
    rw [hp, hq] at h
    simp only [Cell.shift, Cell.mk.injEq] at h
    refine ⟨c - a, d - b, congrArg₂ Cell.mk ?_ ?_⟩
    · linear_combination h.1
    · linear_combination h.2

theorem identifies_strip_iff :
    (strip m n).Identifies p q ↔ ((strip m n).fold p).cell = ((strip m n).fold q).cell := by
  constructor
  · rintro ⟨b, h⟩
    have hp : p = Cell.translation ⟨0, n * b⟩ q := by
      simp only [Cell.shiftBack, Cell.mk.injEq] at h
      refine congrArg₂ Cell.mk ?_ ?_
      · linear_combination h.1
      · linear_combination h.2
    rw [hp]
    exact (isSymmetry_strip m n b).fold_cell q
  · intro h
    obtain ⟨b, hp⟩ := exists_shift_strip m n p
    obtain ⟨d, hq⟩ := exists_shift_strip m n q
    rw [hp, hq] at h
    simp only [Cell.shift, Cell.mk.injEq] at h
    refine ⟨d - b, congrArg₂ Cell.mk ?_ ?_⟩
    · linear_combination h.1
    · linear_combination h.2

theorem identifies_tessellated_iff {t : Tessellation} (ht : t.Sized) :
    (tessellated t).Identifies p q ↔
      ((tessellated t).fold p).cell = ((tessellated t).fold q).cell := by
  constructor
  · rintro ⟨g, hg, rfl⟩
    exact ((Tessellation.symmetries_le ht hg).fold_cell p).symm
  · intro h
    obtain ⟨g, hg, hp⟩ := Tessellation.exists_symmetry ht p
    obtain ⟨k, hk, hq⟩ := Tessellation.exists_symmetry ht q
    refine ⟨k⁻¹ * g, mul_mem (inv_mem hk) hg, ?_⟩
    rw [Equiv.Perm.mul_apply, Equiv.Perm.inv_eq_iff_eq, hp, hq]
    exact h

theorem identifies_iff (hf : f.Sized) : f.Identifies p q ↔ (f.fold p).cell = (f.fold q).cell := by
  cases f with
  | torus m n shift => exact identifies_torus_iff hf.rows_pos
  | bounded m n => exact Iff.rfl
  | strip m n => exact identifies_strip_iff
  | tessellated t => exact identifies_tessellated_iff hf.tessellation

/-- What machine words say of a cell: nothing but its representative, and that one if the sizes are
not too large and the cell is not far away. -/
def Computes (f : Folding) (p : Cell) : Prop :=
  (∀ r, f.fold64 p = .ok r → r = f.fold p) ∧
    (f.Small → p.Within (2 ^ 32) → f.fold64 p = .ok (f.fold p))

theorem computes (hf : f.Sized) (p : Cell) : f.Computes p :=
  ⟨fun _ => eq_of_fold64, fold64_eq_ok hf⟩

/-- **Foldings are quotient maps.** -/
theorem fold_cell_eq_iff (hf : f.Sized) :
    (∀ p q, (f.fold p).cell = (f.fold q).cell ↔ f.Identifies p q) ∧
      (∀ p, f.fold (f.fold p).cell = ⟨(f.fold p).cell, 0⟩) ∧ ∀ p, f.Computes p :=
  ⟨fun _ _ => (identifies_iff hf).symm, fold_fold hf, computes hf⟩

/-- Corners of a rhombus that is turned about cells: two of them are one, two are not. -/
theorem fold_cell_eq_iff_faceRotatedRhombus :
    (tessellated (.faceRotatedRhombus 3)).Identifies ⟨3, 0⟩ ⟨0, 3⟩ ∧
      ¬ (tessellated (.faceRotatedRhombus 3)).Identifies ⟨0, 0⟩ ⟨3, 3⟩ := by
  have hf : (tessellated (.faceRotatedRhombus 3)).Sized := ⟨by decide, by decide⟩
  obtain ⟨hiff, -⟩ := fold_cell_eq_iff hf
  exact ⟨(hiff _ _).mp (by decide), fun h => absurd ((hiff _ _).mpr h) (by decide)⟩

/-! ## Neighbours -/

/-- To walk on representatives is to walk on cells: any way where cells are identified by shifts,
and one step, up to the order of the steps, where they are identified by turns and reflections. -/
def Respects : Folding → Cell → Prop
  | tessellated t, p =>
    ((t.directions.filterMap Cell.displacement?).map
        fun d => (t.fold ((t.fold p).cell.shift d)).cell).Perm
      ((t.directions.filterMap Cell.displacement?).map fun d => (t.fold (p.shift d)).cell)
  | f, p => ∀ d, (f.fold ((f.fold p).cell.shift d)).cell = (f.fold (p.shift d)).cell

/-- **Foldings respect neighbours.** -/
theorem respects_of_sized (hf : f.Sized) : ∀ p, f.Respects p ∧ f.Computes p := by
  intro p
  refine ⟨?_, computes hf p⟩
  cases f with
  | torus m n shift => exact fold_shift_fold hf (fun t => by simp) p
  | bounded m n => exact fold_shift_fold hf (fun t => by simp) p
  | strip m n => exact fold_shift_fold hf (fun t => by simp) p
  | tessellated t => exact perm_fold_shift hf p

/-- A step within a plane of rhombi, and one on a sheared torus. -/
theorem respects_of_sized_rhombus_torus : (tessellated (.rotatedRhombus 2)).Respects ⟨-3, 5⟩ ∧
    (torus 2 3 1).Respects ⟨4, -1⟩ :=
  ⟨(respects_of_sized ⟨by decide, by decide⟩ _).1, (respects_of_sized ⟨by decide, by decide⟩ _).1⟩

end CellSat.Folding
