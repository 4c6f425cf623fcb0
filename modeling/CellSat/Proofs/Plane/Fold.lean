import Mathlib
import CellSat.Plane.Folding
import CellSat.Proofs.Checked
/-!
# The fold of a cell

The representative of a cell depends on its box, by the parity of the row and column of the box or by
their sum modulo three, and on its place in the box.

* `Folding.eq_of_fold64`: machine words give the exact fold where they give a result;
* `Folding.Sized`, `Folding.Positive`: positive sides, and positive sides other than those of rhombi;
* `ediv_emod_reflect`, `ediv_emod_neg_of_pos` and the like: box and place after a reflection;
* `Tessellation.isTurned_boxOf_image`: one label leads into a box that is not turned;
* **`Tessellation.fold_cell`**: the representative of a cell, by box and place.
-/

namespace CellSat

/-! ## Machine words -/

namespace Tessellation

variable {t : Tessellation} {p q : Cell} {r : Folded}

theorem eq_of_boxOf64 (h : t.boxOf64 p = .ok q) : q = t.boxOf p := by
  obtain ⟨row, hrow, h⟩ := bind_eq_ok.mp h
  obtain ⟨column, hcolumn, h⟩ := bind_eq_ok.mp h
  rw [← Except.ok.inj h, Word.eq_of_div hrow, Word.eq_of_div hcolumn]
  rfl

theorem eq_of_reduce64 (h : t.reduce64 p = .ok q) : q = t.reduce p := by
  obtain ⟨row, hrow, h⟩ := bind_eq_ok.mp h
  obtain ⟨column, hcolumn, h⟩ := bind_eq_ok.mp h
  rw [← Except.ok.inj h, Word.eq_of_mod hrow, Word.eq_of_mod hcolumn]
  rfl

theorem eq_of_isTurned64 {b : Bool} (h : t.isTurned64 p = .ok b) : b = t.isTurned p := by
  cases t with
  | rotatedRhombus n | faceRotatedRhombus n => exact Word.eq_of_within h
  | rotatedSquare n | faceRotatedSquare n => exact (Except.ok.inj h).symm
  | flippedRectangle m n | centerFlippedRectangle m n | crossSurface m n =>
    exact (Except.ok.inj h).symm

theorem eq_of_recenter64 {label : Nat} (h : t.recenter64 p label = .ok r) :
    r = t.recenter p label := by
  cases t with
  | faceRotatedSquare n | faceRotatedRhombus n =>
    obtain ⟨_, -, h⟩ := bind_eq_ok.mp h
    obtain ⟨_, -, h⟩ := bind_eq_ok.mp h
    exact (Except.ok.inj h).symm
  | centerFlippedRectangle m n =>
    obtain ⟨_, -, h⟩ := bind_eq_ok.mp h
    obtain ⟨_, -, h⟩ := bind_eq_ok.mp h
    exact (Except.ok.inj h).symm
  | rotatedSquare n | rotatedRhombus n => exact (Except.ok.inj h).symm
  | flippedRectangle m n | crossSurface m n => exact (Except.ok.inj h).symm

theorem eq_of_foldBy64 {labels : List Nat} (h : t.foldBy64 p labels = .ok r) :
    r = t.foldBy p labels := by
  induction labels with
  | nil =>
    obtain ⟨q, hq, h⟩ := bind_eq_ok.mp h
    rw [← Except.ok.inj h, eq_of_reduce64 hq]
    rfl
  | cons label labels ih =>
    obtain ⟨q, hq, h⟩ := bind_eq_ok.mp h
    obtain ⟨box, hbox, h⟩ := bind_eq_ok.mp h
    obtain ⟨turned, hturned, h⟩ := bind_eq_ok.mp h
    rw [foldBy, ← Word.eq_of_within hq, ← eq_of_boxOf64 hbox, ← eq_of_isTurned64 hturned]
    cases turned with
    | true => simpa using ih h
    | false =>
      obtain ⟨s, hs, h⟩ := bind_eq_ok.mp h
      simpa [← eq_of_reduce64 hs] using eq_of_recenter64 h

end Tessellation

theorem Folding.eq_of_fold64 {f : Folding} {p : Cell} {r : Folded} (h : f.fold64 p = .ok r) :
    r = f.fold p := by
  cases f with
  | torus rows columns shift =>
    obtain ⟨row, hrow, h⟩ := bind_eq_ok.mp h
    obtain ⟨turns, hturns, h⟩ := bind_eq_ok.mp h
    obtain ⟨shear, hshear, h⟩ := bind_eq_ok.mp h
    obtain ⟨sum, hsum, h⟩ := bind_eq_ok.mp h
    obtain ⟨column, hcolumn, h⟩ := bind_eq_ok.mp h
    rw [← Except.ok.inj h, Word.eq_of_mod hcolumn, Word.eq_of_int64 hsum, Word.eq_of_int64 hshear,
      Word.eq_of_div hturns, Word.eq_of_mod hrow]
    rfl
  | bounded rows columns => exact (Except.ok.inj h).symm
  | strip rows columns =>
    obtain ⟨column, hcolumn, h⟩ := bind_eq_ok.mp h
    rw [← Except.ok.inj h, Word.eq_of_mod hcolumn]
    rfl
  | tessellated t => exact Tessellation.eq_of_foldBy64 h

/-! ## Quotients and remainders -/

theorem ediv_emod_of_eq {x n q r : Int} (hx : x = r + n * q) (hr : 0 ≤ r) (hrn : r < n) :
    x / n = q ∧ x % n = r :=
  (Int.ediv_emod_unique (hr.trans_lt hrn)).mpr ⟨hx.symm, hr, hrn⟩

theorem ediv_emod_of_lt {n x : Int} (hx : 0 ≤ x) (hn : x < n) : x / n = 0 ∧ x % n = x :=
  ediv_emod_of_eq (by simp) hx hn

section Side

variable {n : Int} (hn : 0 < n)

include hn

theorem ediv_emod_reflect (x : Int) :
    (-1 - x) / n = -1 - x / n ∧ (-1 - x) % n = n - 1 - x % n := by
  have h := Int.emod_add_mul_ediv x n
  have h₀ := Int.emod_nonneg x hn.ne'
  have h₁ := Int.emod_lt_of_pos x hn
  refine ediv_emod_of_eq ?_ (by omega) (by omega)
  linear_combination h

theorem ediv_emod_neg_sub_one (x : Int) :
    (-x - 1) / n = -1 - x / n ∧ (-x - 1) % n = n - 1 - x % n := by
  rw [neg_sub_comm]
  exact ediv_emod_reflect hn x

theorem ediv_emod_sub (x : Int) : (x - n) / n = x / n - 1 ∧ (x - n) % n = x % n := by
  have h := Int.emod_add_mul_ediv x n
  refine ediv_emod_of_eq ?_ (Int.emod_nonneg x hn.ne') (Int.emod_lt_of_pos x hn)
  linear_combination -h

theorem ediv_emod_last_sub (x : Int) :
    (n - 1 - x) / n = -(x / n) ∧ (n - 1 - x) % n = n - 1 - x % n := by
  have h := ediv_emod_reflect hn (x - n)
  rw [(ediv_emod_sub hn x).1, (ediv_emod_sub hn x).2] at h
  rw [show n - 1 - x = -1 - (x - n) by ring, h.1, h.2]
  exact ⟨by ring, rfl⟩

theorem ediv_emod_neg_of_pos {x : Int} (hx : 0 < x % n) :
    -x / n = -1 - x / n ∧ -x % n = n - x % n := by
  have h := Int.emod_add_mul_ediv x n
  have h₁ := Int.emod_lt_of_pos x hn
  refine ediv_emod_of_eq ?_ (by omega) (by omega)
  linear_combination h

theorem ediv_emod_neg_of_zero {x : Int} (hx : x % n = 0) : -x / n = -(x / n) ∧ -x % n = 0 := by
  have h := Int.emod_add_mul_ediv x n
  refine ediv_emod_of_eq ?_ le_rfl hn
  linear_combination h - hx

theorem ediv_emod_diff_of_le {x y : Int} (h : y % n ≤ x % n) :
    (x - y) / n = x / n - y / n ∧ (x - y) % n = x % n - y % n := by
  have hx := Int.emod_add_mul_ediv x n
  have hy := Int.emod_add_mul_ediv y n
  have h₀ := Int.emod_nonneg y hn.ne'
  have h₁ := Int.emod_lt_of_pos x hn
  refine ediv_emod_of_eq ?_ (by omega) (by omega)
  linear_combination hy - hx

theorem ediv_emod_diff_of_lt {x y : Int} (h : x % n < y % n) :
    (x - y) / n = x / n - y / n - 1 ∧ (x - y) % n = n + x % n - y % n := by
  have hx := Int.emod_add_mul_ediv x n
  have hy := Int.emod_add_mul_ediv y n
  have h₀ := Int.emod_nonneg x hn.ne'
  have h₁ := Int.emod_lt_of_pos y hn
  refine ediv_emod_of_eq ?_ (by omega) (by omega)
  linear_combination hy - hx

end Side

theorem reflect_emod_two (k : Int) : (-1 - k) % 2 = 1 - k % 2 := by omega

theorem pred_emod_two (k : Int) : (k - 1) % 2 = 1 - k % 2 := by omega

/-! ## Box and place -/

namespace Tessellation

/-- Boxes with positive sides. -/
structure Sized (t : Tessellation) : Prop where
  rows_pos : 0 < t.rows
  columns_pos : 0 < t.columns

/-- A positive size that is not one of a rhombus. -/
def Positive : Tessellation → Prop
  | rotatedSquare n | faceRotatedSquare n => 0 < n
  | flippedRectangle m n | centerFlippedRectangle m n | crossSurface m n => 0 < m ∧ 0 < n
  | rotatedRhombus _ | faceRotatedRhombus _ => False

variable {t : Tessellation}

theorem Positive.sized (ht : t.Positive) : t.Sized := by
  cases t with
  | rotatedRhombus n | faceRotatedRhombus n => exact ht.elim
  | rotatedSquare n | faceRotatedSquare n => exact ⟨ht, ht⟩
  | flippedRectangle m n | centerFlippedRectangle m n | crossSurface m n => exact ⟨ht.1, ht.2⟩

/-- The place in a square whose boxes are turned by quarters. The greatest place is `m`. -/
def quartered (m : Int) (box rest : Cell) : Cell :=
  if box.row % 2 = 0 then
    if box.column % 2 = 0 then rest else ⟨m - rest.column, rest.row⟩
  else if box.column % 2 = 0 then ⟨rest.column, m - rest.row⟩
  else ⟨m - rest.row, m - rest.column⟩

/-- The place in a rectangle whose odd boxes are reflected. The greatest places are `m` and `n`. -/
def mirrored (m n : Int) (box rest : Cell) : Cell :=
  ⟨if box.row % 2 = 0 then rest.row else m - rest.row,
    if box.column % 2 = 0 then rest.column else n - rest.column⟩

/-- The place in a rhombus of side `n` whose boxes are turned by thirds. The greatest place is `m`.
The two halves of a turned box are turned in different ways. -/
def thirded (n m : Int) (box rest : Cell) : Cell :=
  if (box.row + box.column) % 3 = 0 then rest
  else if (box.row + box.column) % 3 = 1 then
    if rest.column ≤ rest.row then ⟨m - rest.column, rest.row - rest.column⟩
    else ⟨m - n + rest.column - rest.row, m - rest.row⟩
  else if rest.column ≤ rest.row then ⟨m + rest.column - rest.row, m - rest.row⟩
  else ⟨m - rest.column, n + rest.row - rest.column⟩

/-- The representative of the cell at a place of a box. -/
def folded : Tessellation → Cell → Cell → Cell
  | rotatedSquare n, box, rest => quartered (n - 1) box rest
  | faceRotatedSquare n, box, rest =>
    let q := quartered n box rest
    if q.row = n ∨ q.column = 0 then q.transpose else q
  | flippedRectangle m n, box, rest => mirrored (m - 1) (n - 1) box rest
  | centerFlippedRectangle m n, box, rest => mirrored m n box rest
  -- Going on by one box of rows reflects the columns, and the other way round.
  | crossSurface m n, box, rest => mirrored (m - 1) (n - 1) box.transpose rest
  | rotatedRhombus n, box, rest => thirded n (n - 1) box rest
  | faceRotatedRhombus n, box, rest =>
    let q := thirded n n box rest
    if q.row = n ∨ q.column = 0 then q.transpose else q

/-- The label that leads from a place of a box into a box that is not turned. -/
def labelAt (t : Tessellation) (box rest : Cell) : Nat :=
  match t with
  | rotatedSquare _ | faceRotatedSquare _ =>
    if box.row % 2 = 0 then if box.column % 2 = 0 then 0 else 1
    else if box.column % 2 = 0 then 3 else 2
  | flippedRectangle _ _ | centerFlippedRectangle _ _ =>
    if box.row % 2 = 0 then if box.column % 2 = 0 then 0 else 2
    else if box.column % 2 = 0 then 1 else 3
  | crossSurface _ _ =>
    if box.row % 2 = 0 then if box.column % 2 = 0 then 0 else 3
    else if box.column % 2 = 0 then 1 else 2
  | rotatedRhombus _ | faceRotatedRhombus _ =>
    if (box.row + box.column) % 3 = 0 then 0
    else if ((box.row + box.column) % 3 = 1 ↔ rest.column ≤ rest.row) then 1 else 2

theorem labelAt_lt (t : Tessellation) (box rest : Cell) : t.labelAt box rest < t.labelCount := by
  cases t <;> simp only [labelAt, labelCount] <;> split_ifs <;> decide

/-- **Labels.** Exactly one label leads from a cell into a box that is not turned. -/
theorem isTurned_boxOf_image (ht : t.Sized) (p : Cell) {label : Nat} (hlabel : label < t.labelCount) :
    t.isTurned (t.boxOf (t.image label p)) = decide (label ≠ t.labelAt (t.boxOf p) (t.reduce p)) := by
  obtain ⟨i, j⟩ := p
  obtain ⟨hrows, hcolumns⟩ := ht
  cases t with
  | rotatedSquare n | faceRotatedSquare n =>
    have hi := ediv_emod_neg_sub_one (n := n) hrows i
    have hj := ediv_emod_neg_sub_one (n := n) hrows j
    replace hlabel : label < 4 := hlabel
    rcases Int.emod_two_eq_zero_or_one (i / n) with hk | hk <;>
      rcases Int.emod_two_eq_zero_or_one (j / n) with hl | hl <;>
      interval_cases label <;>
      simp [image, isTurned, boxOf, labelAt, rows, columns, hi, hj, hk, hl, reflect_emod_two]
  | flippedRectangle m n | centerFlippedRectangle m n =>
    have hi := ediv_emod_reflect (n := m) hrows i
    have hj := ediv_emod_reflect (n := n) hcolumns j
    replace hlabel : label < 4 := hlabel
    rcases Int.emod_two_eq_zero_or_one (i / m) with hk | hk <;>
      rcases Int.emod_two_eq_zero_or_one (j / n) with hl | hl <;>
      interval_cases label <;>
      simp [image, isTurned, boxOf, labelAt, rows, columns, hi, hj, hk, hl, reflect_emod_two]
  | crossSurface m n =>
    have hi := ediv_emod_reflect (n := m) hrows i
    have hj := ediv_emod_reflect (n := n) hcolumns j
    have hi₁ := ediv_emod_sub (n := m) hrows i
    have hj₁ := ediv_emod_sub (n := n) hcolumns j
    have hi₂ := ediv_emod_last_sub (n := m) hrows i
    have hj₂ := ediv_emod_last_sub (n := n) hcolumns j
    replace hlabel : label < 4 := hlabel
    rcases Int.emod_two_eq_zero_or_one (i / m) with hk | hk <;>
      rcases Int.emod_two_eq_zero_or_one (j / n) with hl | hl <;>
      interval_cases label <;>
      simp [image, isTurned, boxOf, labelAt, rows, columns, hi, hj, hi₁, hj₁, hi₂, hj₂, hk, hl,
        reflect_emod_two, pred_emod_two]
  | rotatedRhombus n | faceRotatedRhombus n =>
    replace hrows : 0 < n := hrows
    have hi := ediv_emod_neg_sub_one hrows i
    have hj := ediv_emod_neg_sub_one hrows j
    have hd := ediv_emod_neg_sub_one hrows (i - j)
    rw [neg_sub] at hd
    replace hlabel : label < 3 := hlabel
    -- The half of the box decides in which box the difference of row and column lies.
    rcases le_or_gt (j % n) (i % n) with hle | hlt
    · have hdiff := ediv_emod_diff_of_le hrows hle
      rw [hdiff.1] at hd
      interval_cases label <;>
        simp [image, isTurned, boxOf, reduce, labelAt, rows, columns, hi, hj, hd, hdiff, hle] <;>
        grind
    · have hdiff := ediv_emod_diff_of_lt hrows hlt
      rw [hdiff.1] at hd
      interval_cases label <;>
        simp [image, isTurned, boxOf, reduce, labelAt, rows, columns, hi, hj, hd, hdiff, hlt.not_ge] <;>
        grind

theorem foldBy_eq {p : Cell} {label : Nat} {labels : List Nat}
    (hlabels : ∀ l ∈ labels, t.isTurned (t.boxOf (t.image l p)) = decide (l ≠ label))
    (hmem : label ∈ labels) : t.foldBy p labels = t.recenter (t.reduce (t.image label p)) label := by
  induction labels with
  | nil => exact absurd hmem List.not_mem_nil
  | cons l labels ih =>
    obtain ⟨hl, hlabels⟩ := List.forall_mem_cons.mp hlabels
    rw [foldBy, hl]
    by_cases heq : l = label
    · simp [heq]
    · simpa [heq] using ih hlabels ((List.mem_cons.mp hmem).resolve_left (Ne.symm heq))

theorem fold_eq (ht : t.Sized) (p : Cell) :
    t.fold p = t.recenter (t.reduce (t.image (t.labelAt (t.boxOf p) (t.reduce p)) p))
      (t.labelAt (t.boxOf p) (t.reduce p)) := by
  refine foldBy_eq (fun l hl => ?_) (List.mem_range.mpr (labelAt_lt t _ _))
  exact isTurned_boxOf_image ht p (List.mem_range.mp hl)

theorem reduce_image_rhombus {n : Int} (hn : 0 < n)
    (ht : t = rotatedRhombus n ∨ t = faceRotatedRhombus n) (p : Cell) :
    t.reduce (t.image (t.labelAt (t.boxOf p) (t.reduce p)) p) =
      thirded n (n - 1) (t.boxOf p) (t.reduce p) := by
  obtain ⟨i, j⟩ := p
  have hi := (ediv_emod_neg_sub_one hn i).2
  have hj := (ediv_emod_neg_sub_one hn j).2
  have hd := (ediv_emod_neg_sub_one hn (i - j)).2
  rw [neg_sub] at hd
  rcases lt_or_ge (i % n) (j % n) with hlt | hle
  · have hdiff := (ediv_emod_diff_of_lt hn hlt).2
    rw [hdiff] at hd
    rcases ht with rfl | rfl <;>
      simp only [labelAt, boxOf, reduce, rows, columns, thirded, hlt.not_ge, iff_false, if_false] <;>
      split_ifs <;> simp [image, hi, hj, hd, hdiff] <;> ring
  · have hdiff := (ediv_emod_diff_of_le hn hle).2
    rw [hdiff] at hd
    rcases ht with rfl | rfl <;>
      simp only [labelAt, boxOf, reduce, rows, columns, thirded, hle, iff_true, if_true] <;>
      split_ifs <;> simp [image, hi, hj, hd, hdiff] <;> ring

theorem shiftBack_corner_rhombus (n : Int) (box rest : Cell) :
    (thirded n (n - 1) box rest).shiftBack
        (corner (faceRotatedRhombus n) (labelAt (faceRotatedRhombus n) box rest)) =
      thirded n n box rest := by
  by_cases hle : rest.column ≤ rest.row <;>
    simp only [thirded, labelAt, hle, iff_true, iff_false, if_true, if_false] <;>
    split_ifs <;> simp [corner, image, Cell.shiftBack] <;> grind

/-- **The representative of a cell**, by its box and its place there. -/
theorem fold_cell (ht : t.Sized) (p : Cell) :
    (t.fold p).cell = t.folded (t.boxOf p) (t.reduce p) := by
  obtain ⟨i, j⟩ := p
  rw [fold_eq ht]
  obtain ⟨hrows, hcolumns⟩ := ht
  have hcancel : ∀ n k : Int, n - 1 - k + 1 = n - k := by intro n k; ring
  cases t with
  | rotatedSquare n | faceRotatedSquare n =>
    have hi := ediv_emod_neg_sub_one (n := n) hrows i
    have hj := ediv_emod_neg_sub_one (n := n) hrows j
    rcases Int.emod_two_eq_zero_or_one (i / n) with hk | hk <;>
      rcases Int.emod_two_eq_zero_or_one (j / n) with hl | hl <;>
      simp [labelAt, image, boxOf, rows, columns, reduce, recenter, corner, Cell.shiftBack, folded,
        quartered, hi, hj, hk, hl, hcancel]
  | flippedRectangle m n | centerFlippedRectangle m n =>
    have hi := ediv_emod_reflect (n := m) hrows i
    have hj := ediv_emod_reflect (n := n) hcolumns j
    rcases Int.emod_two_eq_zero_or_one (i / m) with hk | hk <;>
      rcases Int.emod_two_eq_zero_or_one (j / n) with hl | hl <;>
      simp [labelAt, image, boxOf, rows, columns, reduce, recenter, corner, Cell.shiftBack, folded,
        mirrored, hi, hj, hk, hl, hcancel]
  | crossSurface m n =>
    have hi := ediv_emod_reflect (n := m) hrows i
    have hj := ediv_emod_reflect (n := n) hcolumns j
    have hi₁ := ediv_emod_sub (n := m) hrows i
    have hj₁ := ediv_emod_sub (n := n) hcolumns j
    have hi₂ := ediv_emod_last_sub (n := m) hrows i
    have hj₂ := ediv_emod_last_sub (n := n) hcolumns j
    rcases Int.emod_two_eq_zero_or_one (i / m) with hk | hk <;>
      rcases Int.emod_two_eq_zero_or_one (j / n) with hl | hl <;>
      simp [labelAt, image, boxOf, rows, columns, reduce, recenter, folded, mirrored, Cell.transpose,
        hi, hj, hi₁, hj₁, hi₂, hj₂, hk, hl]
  | rotatedRhombus n => exact reduce_image_rhombus hrows (.inl rfl) ⟨i, j⟩
  | faceRotatedRhombus n =>
    have hn : 0 < n := hrows
    rw [reduce_image_rhombus hn (.inr rfl), recenter, shiftBack_corner_rhombus]
    rfl

/-- A cell of a box that is not turned keeps its place and its orientation, but for a border. -/
theorem fold_of_not_isTurned {p : Cell} (hp : t.isTurned (t.boxOf p) = false) :
    t.fold p = t.recenter (t.reduce p) 0 := by
  have himage : t.image 0 p = p := rfl
  have hrange : List.range t.labelCount = 0 :: (List.range (t.labelCount - 1)).map (· + 1) := by
    cases t <;> rfl
  rw [fold, hrange, foldBy, himage, hp]
  rfl

theorem label_recenter_zero (t : Tessellation) (p : Cell) : (t.recenter p 0).label = 0 := by
  cases t <;> rfl

theorem label_foldBy (hrecenter : ∀ q label, (t.recenter q label).label = 0) (p : Cell)
    (labels : List Nat) : (t.foldBy p labels).label = 0 := by
  induction labels with
  | nil => rfl
  | cons label labels ih =>
    rw [foldBy]
    split
    · exact ih
    · exact hrecenter _ label

end Tessellation

/-- Positive sides. -/
structure Folding.Sized (f : Folding) : Prop where
  rows_pos : 0 < f.rows
  columns_pos : 0 < f.columns

/-- Positive sides, other than those of a rhombus. -/
def Folding.Positive : Folding → Prop
  | torus m n _ | bounded m n | strip m n => 0 < m ∧ 0 < n
  | tessellated t => t.Positive

theorem Folding.Positive.sized {f : Folding} (hf : f.Positive) : f.Sized := by
  cases f with
  | torus m n s | bounded m n | strip m n => exact ⟨hf.1, hf.2⟩
  | tessellated t => exact ⟨(Tessellation.Positive.sized hf).1, (Tessellation.Positive.sized hf).2⟩

end CellSat
