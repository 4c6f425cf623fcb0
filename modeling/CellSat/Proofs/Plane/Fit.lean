import Mathlib
import CellSat.Proofs.Plane.Symmetry
/-!
# Folds in machine words

Near the origin the fold of a cell leaves the range of machine words nowhere, if the sizes of the
folding are at most 2³⁰.

* `Cell.Fits`, `Tessellation.foldBy64_eq_ok_of_image`: what has to fit in the fold of a cell;
* `Folding.Small`: the foldings with such sizes;
* **`Folding.fold64_eq_ok`**: folds of cells near the origin;
* `Folding.fold_within`: representatives are near the origin too.
-/

namespace CellSat

/-- A cell of machine words. -/
def Cell.Fits (p : Cell) : Prop :=
  -2 ^ 63 ≤ p.row ∧ p.row < 2 ^ 63 ∧ -2 ^ 63 ≤ p.column ∧ p.column < 2 ^ 63

theorem Cell.Within.fits {b : Int} {p : Cell} (hp : p.Within b) (hb : b < 2 ^ 63) : p.Fits := by
  simp only [Within, Fits] at *
  omega

theorem Cell.shift64_of_fits {p d : Cell} (h : (p.shift d).Fits) :
    p.shift64 d = .ok (p.shift d) := by
  obtain ⟨hrow, hrow', hcolumn, hcolumn'⟩ := h
  refine Word.within_eq_ok ?_ _
  simp only [List.mem_cons, List.not_mem_nil, or_false, forall_eq_or_imp, forall_eq]
  exact ⟨⟨hrow, hrow'⟩, hcolumn, hcolumn'⟩

theorem Cell.shift64_eq_ok {p d : Cell} (h : (p.shift d).Within (2 ^ 62)) :
    p.shift64 d = .ok (p.shift d) :=
  shift64_of_fits (h.fits (by norm_num))

namespace Tessellation

section

variable {t : Tessellation} {p : Cell} (ht : t.Sized) (hrows : t.rows ≤ 2 ^ 30)
  (hcolumns : t.columns ≤ 2 ^ 30)

include ht

theorem boxOf64_eq_ok (hp : p.Fits) : t.boxOf64 p = .ok (t.boxOf p) := by
  obtain ⟨hrow, hrow', hcolumn, hcolumn'⟩ := hp
  rw [boxOf64, Word.div_eq_ok ht.rows_pos hrow hrow', Word.div_eq_ok ht.columns_pos hcolumn hcolumn']
  rfl

theorem reduce64_eq_ok (hp : p.Fits) : t.reduce64 p = .ok (t.reduce p) := by
  obtain ⟨hrow, hrow', hcolumn, hcolumn'⟩ := hp
  rw [reduce64, Word.mod_eq_ok ht.rows_pos hrow hrow', Word.mod_eq_ok ht.columns_pos hcolumn hcolumn']
  rfl

omit ht in
theorem boxOf_within {b : Int} (hp : p.Within b) : (t.boxOf p).Within b := by
  have hquotient : ∀ {x k : Int}, -b ≤ x → x ≤ b → -b ≤ x / k ∧ x / k ≤ b :=
    fun {x k} h h' => abs_le.mp ((Int.abs_ediv_le_abs x k).trans (abs_le.mpr ⟨h, h'⟩))
  obtain ⟨hrow, hrow', hcolumn, hcolumn'⟩ := hp
  exact ⟨(hquotient hrow hrow').1, (hquotient hrow hrow').2, hquotient hcolumn hcolumn'⟩

omit ht in
theorem isTurned64_eq_ok {b : Int} (hb : b < 2 ^ 62) {box : Cell} (hbox : box.Within b) :
    t.isTurned64 box = .ok (t.isTurned box) := by
  cases t with
  | rotatedRhombus n | faceRotatedRhombus n =>
    obtain ⟨hrow, hrow', hcolumn, hcolumn'⟩ := hbox
    refine Word.within_eq_ok ?_ _
    rw [List.forall_mem_singleton]
    omega
  | rotatedSquare n | faceRotatedSquare n | flippedRectangle m n | centerFlippedRectangle m n
  | crossSurface m n => rfl

/-- The fold of a cell, if its images fit and lie in boxes that are not too far away. -/
theorem foldBy64_eq_ok_of_image {b : Int} (hb : b < 2 ^ 62) (hp : p.Fits) (labels : List Nat)
    (himage : ∀ label ∈ labels, t.image64 label p = .ok (t.image label p) ∧
      (t.image label p).Fits ∧ (t.boxOf (t.image label p)).Within b ∧
      t.recenter64 (t.reduce (t.image label p)) label =
        .ok (t.recenter (t.reduce (t.image label p)) label)) :
    t.foldBy64 p labels = .ok (t.foldBy p labels) := by
  induction labels with
  | nil =>
    rw [foldBy64, reduce64_eq_ok ht hp]
    rfl
  | cons label labels ih =>
    obtain ⟨⟨himage, hfits, hbox, hrecenter⟩, hlabels⟩ := List.forall_mem_cons.mp himage
    rw [foldBy64, foldBy, himage]
    simp only [bind, Except.bind, boxOf64_eq_ok ht hfits, isTurned64_eq_ok hb hbox,
      reduce64_eq_ok ht hfits, hrecenter, ih hlabels]
    split_ifs <;> rfl

include hrows hcolumns

theorem image64_eq_ok (hp : p.Within (2 ^ 32)) (label : Nat) :
    t.image64 label p = .ok (t.image label p) ∧ (t.image label p).Within (2 ^ 34) := by
  obtain ⟨i, j⟩ := p
  obtain ⟨hrows₀, hcolumns₀⟩ := ht
  simp only [Cell.Within] at hp ⊢
  constructor
  · refine Word.within_eq_ok ?_ _
    cases t <;> simp only [rows, columns, imageSteps] at * <;> split_ifs <;> simp <;> omega
  · cases t <;> simp only [rows, columns, image] at * <;> split_ifs <;> dsimp only <;> omega

theorem reduce_within (p : Cell) : (t.reduce p).Within (2 ^ 30) := by
  have hrow := Int.emod_nonneg p.row ht.rows_pos.ne'
  have hrow' := Int.emod_lt_of_pos p.row ht.rows_pos
  have hcolumn := Int.emod_nonneg p.column ht.columns_pos.ne'
  have hcolumn' := Int.emod_lt_of_pos p.column ht.columns_pos
  simp only [Cell.Within, reduce]
  omega

theorem recenter64_eq_ok (hp : p.Within (2 ^ 30)) (label : Nat) :
    t.recenter64 p label = .ok (t.recenter p label) := by
  have horigin : (⟨0, 0⟩ : Cell).Within (2 ^ 32) := by simp [Cell.Within]
  obtain ⟨hcorner, hwithin⟩ := image64_eq_ok ht hrows hcolumns horigin label
  have hback : p.shiftBack64 (t.image label ⟨0, 0⟩) = .ok (p.shiftBack (t.image label ⟨0, 0⟩)) := by
    refine Word.within_eq_ok ?_ _
    simp only [Cell.Within] at hp hwithin
    simp only [List.mem_cons, List.not_mem_nil, or_false, forall_eq_or_imp, forall_eq]
    omega
  cases t with
  | rotatedSquare n | rotatedRhombus n | flippedRectangle m n | crossSurface m n => rfl
  | faceRotatedSquare n | faceRotatedRhombus n | centerFlippedRectangle m n =>
    rw [recenter64, hcorner]
    simp only [bind, Except.bind, hback]
    rfl

theorem foldBy64_eq_ok (hp : p.Within (2 ^ 32)) (labels : List Nat) :
    t.foldBy64 p labels = .ok (t.foldBy p labels) := by
  refine foldBy64_eq_ok_of_image ht (b := 2 ^ 34) (by norm_num) (hp.fits (by norm_num)) labels
    fun label _ => ?_
  obtain ⟨himage, hwithin⟩ := image64_eq_ok ht hrows hcolumns hp label
  exact ⟨himage, hwithin.fits (by norm_num), boxOf_within hwithin,
    recenter64_eq_ok ht hrows hcolumns (reduce_within ht hrows hcolumns _) label⟩

end

end Tessellation

namespace Folding

/-- A folding with sizes and shift that are not too large. -/
structure Small (f : Folding) : Prop where
  rows_le : f.rows ≤ 2 ^ 30
  columns_le : f.columns ≤ 2 ^ 30
  shift_le : ∀ m n s, f = torus m n s → |s| ≤ 2 ^ 30

variable {f : Folding} {p : Cell}

theorem fold64_torus_eq_ok {m n s : Int} (hm : 0 < m) (hn : 0 < n) (hs : |s| ≤ 2 ^ 30)
    (hp : p.Within (2 ^ 32)) : (torus m n s).fold64 p = .ok ((torus m n s).fold p) := by
  obtain ⟨hrow, hrow', hcolumn, hcolumn'⟩ := hp
  have hshift : |s * (p.row / m)| ≤ 2 ^ 30 * 2 ^ 32 := by
    rw [abs_mul]
    refine mul_le_mul hs ?_ (abs_nonneg _) (by norm_num)
    exact (Int.abs_ediv_le_abs p.row m).trans (abs_le.mpr ⟨hrow, hrow'⟩)
  obtain ⟨hproduct, hproduct'⟩ := abs_le.mp hshift
  have hmul : Word.mul s (p.row / m) = .ok (s * (p.row / m)) :=
    Word.int64_eq_ok (by omega) (by omega)
  have hadd : Word.add p.column (s * (p.row / m)) = .ok (p.column + s * (p.row / m)) :=
    Word.int64_eq_ok (by omega) (by omega)
  rw [fold64, fold, Word.mod_eq_ok hm (by omega) (by omega),
    Word.div_eq_ok hm (by omega) (by omega)]
  simp only [bind, Except.bind, hmul, hadd]
  rw [Word.mod_eq_ok hn (by omega) (by omega)]
  rfl

/-- **Folds fit** near the origin. -/
theorem fold64_eq_ok (hf : f.Sized) (hsmall : f.Small) (hp : p.Within (2 ^ 32)) :
    f.fold64 p = .ok (f.fold p) := by
  cases f with
  | torus m n s => exact fold64_torus_eq_ok hf.rows_pos hf.columns_pos (hsmall.shift_le m n s rfl) hp
  | bounded m n => rfl
  | strip m n =>
    obtain ⟨-, -, hcolumn, hcolumn'⟩ := hp
    have hn : 0 < n := hf.columns_pos
    rw [fold64, Word.mod_eq_ok hn (by omega) (by omega)]
    rfl
  | tessellated t =>
    exact Tessellation.foldBy64_eq_ok hf.tessellation hsmall.rows_le hsmall.columns_le hp _

/-- Representatives are not farther away than the cells they stand for, or than the sizes. -/
theorem fold_within (hf : f.Sized) (hsmall : f.Small) {b : Int} (hb : 2 ^ 30 ≤ b)
    (hp : p.Within b) : (f.fold p).cell.Within b := by
  have hrep := isRepresentative_fold hf p
  obtain ⟨hrows, hcolumns, -⟩ := hsmall
  cases f with
  | torus m n s =>
    simp only [rows, columns, IsRepresentative, Cell.Within] at *
    omega
  | bounded m n => exact hp
  | strip m n =>
    obtain ⟨hrow, hrow', -⟩ := hp
    obtain ⟨hcolumn, hcolumn'⟩ := hrep
    refine ⟨hrow, hrow', ?_⟩
    simp only [columns] at hcolumns
    omega
  | tessellated t =>
    obtain ⟨hrow, hrow', hcolumn, hcolumn'⟩ := Tessellation.bounds_of_isRepresentative hf.tessellation hrep
    simp only [rows, columns, Cell.Within] at *
    omega

end Folding

end CellSat
