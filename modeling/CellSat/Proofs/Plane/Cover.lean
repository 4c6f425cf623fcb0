import Mathlib
import CellSat.Proofs.Plane.Symmetry
/-!
# Shifts of a tiling

After a shift, the representatives of a tiling stand for all cells again only if the shift is aligned
with the boxes.

* `Tessellation.Covers`: every representative is that of a shifted one;
* `Tessellation.Aligned`: the shifts that are aligned with the boxes;
* `Tessellation.Normal`: the shifts that the motions of the tiling do not disturb;
* **`Tessellation.covers_iff`**: the shifts that cover are the aligned ones.
-/

namespace CellSat.Tessellation

variable {t : Tessellation} {m n : Int} {s : Cell}

/-- Every representative is that of a shifted one. -/
def Covers (t : Tessellation) (s : Cell) : Prop :=
  ∀ p, t.IsRepresentative p → ∃ q, t.IsRepresentative q ∧ (t.fold (q.shift s)).cell = p

/-- Shifts by whole boxes, of which a square that is turned about cells admits every other one. The
boxes of a cross surface may be left in one direction. -/
def Aligned : Tessellation → Cell → Prop
  | faceRotatedSquare n, s => n ∣ s.row ∧ n ∣ s.column ∧ 2 * n ∣ s.row + s.column
  | crossSurface m n, s => m ∣ s.row ∨ n ∣ s.column
  | t, s => t.rows ∣ s.row ∧ t.columns ∣ s.column

/-! ## Shifts that the motions do not disturb -/

/-- Each motion turns the shift by whole boxes. -/
def Normal (t : Tessellation) (s : Cell) : Prop :=
  ∀ label < t.labelCount, ∃ box, t.isTurned box = false ∧
    s.shiftBack (t.linear label s) = ⟨t.rows * box.row, t.columns * box.column⟩

theorem Normal.fold_motion_shift (ht : t.Sized) (hs : t.Normal s) {label : Nat}
    (hlabel : label < t.labelCount) (p : Cell) :
    (t.fold ((t.motion label p).shift s)).cell = (t.fold (p.shift s)).cell := by
  obtain ⟨box, hbox, hdiff⟩ := hs label hlabel
  have hshift : (t.motion label p).shift s = t.boxTranslation box (t.motion label (p.shift s)) := by
    rw [boxTranslation_apply, ← hdiff, motion_apply, motion_apply, recentred_shift]
    simp only [Cell.shift, Cell.shiftBack, Cell.mk.injEq]
    constructor <;> ring
  rw [hshift]
  exact ((isSymmetry_boxTranslation ht hbox).fold_cell _).trans
    ((isSymmetry_motion ht hlabel).fold_cell _)

/-- Where motions do not disturb a shift, shifting a representative is shifting the cell. -/
theorem Normal.fold_shift_fold (ht : t.Sized) (hs : t.Normal s) (p : Cell) :
    (t.fold ((t.fold p).cell.shift s)).cell = (t.fold (p.shift s)).cell := by
  obtain ⟨g, hg, hp⟩ := exists_symmetry ht p
  have hshift : ∀ q : Cell, (t.fold ((g q).shift s)).cell = (t.fold (q.shift s)).cell := by
    clear hp
    induction hg using Subgroup.closure_induction with
    | mem g hg =>
      intro q
      rcases hg with ⟨label, hlabel, rfl⟩ | ⟨box, hbox, rfl⟩
      · exact hs.fold_motion_shift ht hlabel q
      · have hcomm : (t.boxTranslation box q).shift s = t.boxTranslation box (q.shift s) := by
          simp only [boxTranslation_apply, Cell.shift, Cell.mk.injEq]
          constructor <;> ring
        rw [hcomm]
        exact (isSymmetry_boxTranslation ht hbox).fold_cell _
    | one => exact fun q => rfl
    | mul g h _ _ hg hh => exact fun q => (hg (h q)).trans (hh q)
    | inv g _ hg =>
      intro q
      rw [← hg, ← Equiv.Perm.mul_apply, mul_inv_cancel, Equiv.Perm.one_apply]
  rw [← hp, hshift]

theorem Normal.covers (ht : t.Sized) (hs : t.Normal s) : t.Covers s := by
  intro p hp
  refine ⟨(t.fold (p.shiftBack s)).cell, isRepresentative_fold ht _, ?_⟩
  rw [hs.fold_shift_fold ht, Cell.shift_shiftBack, fold_cell_of_isRepresentative ht hp]

theorem normal_rhombus (ht : t = rotatedRhombus n ∨ t = faceRotatedRhombus n) (k l : Int) :
    t.Normal ⟨n * k, n * l⟩ := by
  intro label hlabel
  replace hlabel : label < 3 := by rcases ht with rfl | rfl <;> exact hlabel
  have hturned : ∀ box : Cell, (box.row + box.column) % 3 = 0 → t.isTurned box = false := by
    intro box hbox
    rcases ht with rfl | rfl <;> simp [isTurned, hbox]
  have hlinear : t.linear label ⟨n * k, n * l⟩ = if label = 0 then ⟨n * k, n * l⟩
      else if label = 1 then ⟨-(n * l), n * k - n * l⟩ else ⟨n * l - n * k, -(n * k)⟩ := by
    rcases ht with rfl | rfl <;> interval_cases label <;>
      simp [linear, corner, image, Cell.shiftBack]
  refine ⟨if label = 0 then ⟨0, 0⟩ else if label = 1 then ⟨k + l, 2 * l - k⟩
    else ⟨2 * k - l, k + l⟩, hturned _ ?_, ?_⟩
  · split_ifs <;> dsimp only <;> omega
  · rw [hlinear]
    rcases ht with rfl | rfl <;> split_ifs <;> simp [Cell.shiftBack, rows, columns] <;>
      constructor <;> ring

theorem normal_rectangle (ht : t = flippedRectangle m n ∨ t = centerFlippedRectangle m n)
    (k l : Int) : t.Normal ⟨m * k, n * l⟩ := by
  intro label hlabel
  replace hlabel : label < 4 := by rcases ht with rfl | rfl <;> exact hlabel
  refine ⟨⟨if label % 2 = 0 then 0 else 2 * k, if label < 2 then 0 else 2 * l⟩, ?_, ?_⟩
  · rcases ht with rfl | rfl <;> interval_cases label <;> simp [isTurned]
  · refine congrArg₂ Cell.mk ?_ ?_ <;> rcases ht with rfl | rfl <;> interval_cases label <;>
      simp [linear, corner, image, Cell.shiftBack, rows, columns] <;> ring

theorem normal_faceRotatedSquare {k l : Int} (h : (k + l) % 2 = 0) :
    (faceRotatedSquare n).Normal ⟨n * k, n * l⟩ := by
  intro label hlabel
  replace hlabel : label < 4 := hlabel
  refine ⟨if label = 0 then ⟨0, 0⟩ else if label = 1 then ⟨k + l, l - k⟩
    else if label = 2 then ⟨2 * k, 2 * l⟩ else ⟨k - l, k + l⟩, ?_, ?_⟩
  · have hdiff : (l - k) % 2 = 0 ∧ (k - l) % 2 = 0 := by omega
    interval_cases label <;> simp [isTurned, h, hdiff]
  · interval_cases label <;>
      simp [linear, corner, image, Cell.shiftBack, rows, columns] <;> constructor <;> ring

/-! ## Shifts by whole boxes -/

theorem fold_shift_box (ht : t.Sized) {q : Cell} (k l : Int) (hrow : 0 ≤ q.row)
    (hrow' : q.row < t.rows) (hcolumn : 0 ≤ q.column) (hcolumn' : q.column < t.columns) :
    (t.fold (q.shift ⟨t.rows * k, t.columns * l⟩)).cell = t.folded ⟨k, l⟩ q := by
  have hi : (q.row + t.rows * k) / t.rows = k ∧ (q.row + t.rows * k) % t.rows = q.row :=
    ediv_emod_of_eq rfl hrow hrow'
  have hj : (q.column + t.columns * l) / t.columns = l ∧
      (q.column + t.columns * l) % t.columns = q.column := ediv_emod_of_eq rfl hcolumn hcolumn'
  rw [fold_cell ht, boxOf, reduce]
  simp only [Cell.shift, hi, hj]

theorem covers_rotatedSquare (ht : (rotatedSquare n).Sized) (k l : Int) :
    (rotatedSquare n).Covers ⟨n * k, n * l⟩ := by
  rintro ⟨a, b⟩ ⟨ha, ha', hb, hb'⟩
  simp only [rows, columns] at ha ha' hb hb'
  let q : Cell := if k % 2 = 0 then if l % 2 = 0 then ⟨a, b⟩ else ⟨b, n - 1 - a⟩
    else if l % 2 = 0 then ⟨n - 1 - b, a⟩ else ⟨n - 1 - a, n - 1 - b⟩
  have hq : (rotatedSquare n).IsRepresentative q := by
    simp only [q, IsRepresentative, rows, columns]
    split_ifs <;> dsimp only <;> omega
  obtain ⟨hrow, hrow', hcolumn, hcolumn'⟩ := hq
  refine ⟨q, ⟨hrow, hrow', hcolumn, hcolumn'⟩, ?_⟩
  refine (fold_shift_box ht k l hrow hrow' hcolumn hcolumn').trans ?_
  simp only [folded, quartered, q]
  split_ifs <;> simp

theorem exists_mirrored {b : Int} (hb : 0 ≤ b) (hb' : b < n) (k : Int) :
    ∃ z, 0 ≤ z ∧ z < n ∧ (if k % 2 = 0 then z else n - 1 - z) = b := by
  refine ⟨if k % 2 = 0 then b else n - 1 - b, ?_⟩
  split_ifs <;> omega

theorem exists_residue {z : Int} (hz : 0 ≤ z) (hz' : z < n) (j : Int) :
    ∃ y, 0 ≤ y ∧ y < n ∧ (y + j) % n = z := by
  have hn : 0 < n := hz.trans_lt hz'
  refine ⟨(z - j) % n, Int.emod_nonneg _ hn.ne', Int.emod_lt_of_pos _ hn, ?_⟩
  rw [Int.emod_add_emod, sub_add_cancel, Int.emod_eq_of_lt hz hz']

/-- The other coordinate is chosen first, and the box that it leads to says whether this one is
reflected. -/
theorem covers_crossSurface_rows (ht : (crossSurface m n).Sized) (k j : Int) :
    (crossSurface m n).Covers ⟨m * k, j⟩ := by
  rintro ⟨a, b⟩ ⟨ha, ha', hb, hb'⟩
  obtain ⟨z, hz, hz', hzb⟩ := exists_mirrored hb hb' k
  obtain ⟨y, hy, hy', hyz⟩ := exists_residue hz hz' j
  obtain ⟨x, hx, hx', hxa⟩ := exists_mirrored ha ha' ((y + j) / n)
  refine ⟨⟨x, y⟩, ⟨hx, hx', hy, hy'⟩, ?_⟩
  have hi : (x + m * k) / m = k ∧ (x + m * k) % m = x := ediv_emod_of_eq rfl hx hx'
  simp only [columns] at hyz
  rw [fold_cell ht, folded, mirrored]
  simp only [boxOf, reduce, rows, columns, Cell.shift, Cell.transpose, hi, hyz]
  exact congrArg₂ Cell.mk hxa hzb

theorem covers_crossSurface_columns (ht : (crossSurface m n).Sized) (i l : Int) :
    (crossSurface m n).Covers ⟨i, n * l⟩ := by
  rintro ⟨a, b⟩ ⟨ha, ha', hb, hb'⟩
  obtain ⟨z, hz, hz', hza⟩ := exists_mirrored ha ha' l
  obtain ⟨x, hx, hx', hxz⟩ := exists_residue hz hz' i
  obtain ⟨y, hy, hy', hyb⟩ := exists_mirrored hb hb' ((x + i) / m)
  refine ⟨⟨x, y⟩, ⟨hx, hx', hy, hy'⟩, ?_⟩
  have hj : (y + n * l) / n = l ∧ (y + n * l) % n = y := ediv_emod_of_eq rfl hy hy'
  simp only [rows] at hxz
  rw [fold_cell ht, folded, mirrored]
  simp only [boxOf, reduce, rows, columns, Cell.shift, Cell.transpose, hj, hxz]
  exact congrArg₂ Cell.mk hza hyb

theorem Aligned.covers (ht : t.Sized) (hs : t.Aligned s) : t.Covers s := by
  obtain ⟨i, j⟩ := s
  cases t with
  | rotatedSquare n =>
    obtain ⟨⟨k, rfl⟩, l, rfl⟩ := hs
    exact covers_rotatedSquare ht k l
  | faceRotatedSquare n =>
    obtain ⟨⟨k, rfl⟩, ⟨l, rfl⟩, hsum⟩ := hs
    have hn : n ≠ 0 := ht.rows_pos.ne'
    rw [mul_comm 2 n, ← mul_add, mul_dvd_mul_iff_left hn] at hsum
    exact (normal_faceRotatedSquare (Int.emod_eq_zero_of_dvd hsum)).covers ht
  | rotatedRhombus n =>
    obtain ⟨⟨k, rfl⟩, l, rfl⟩ := hs
    exact (normal_rhombus (.inl rfl) k l).covers ht
  | faceRotatedRhombus n =>
    obtain ⟨⟨k, rfl⟩, l, rfl⟩ := hs
    exact (normal_rhombus (.inr rfl) k l).covers ht
  | flippedRectangle m n =>
    obtain ⟨⟨k, rfl⟩, l, rfl⟩ := hs
    exact (normal_rectangle (.inl rfl) k l).covers ht
  | centerFlippedRectangle m n =>
    obtain ⟨⟨k, rfl⟩, l, rfl⟩ := hs
    exact (normal_rectangle (.inr rfl) k l).covers ht
  | crossSurface m n =>
    rcases hs with ⟨k, rfl⟩ | ⟨l, rfl⟩
    · exact covers_crossSurface_rows ht k j
    · exact covers_crossSurface_columns ht i l

/-! ## Windows

After a shift the representatives form a window. It meets the corners of boxes in two rows and two
columns if the shift is by whole boxes, and else in one row or one column only. -/

theorem ediv_of_window (hn : 0 < n) {s x : Int} (hx : s ≤ x) (hx' : x ≤ s + n) :
    x / n = s / n ∧ x % n = s % n + (x - s) ∨
      x / n = s / n + 1 ∧ x % n = s % n + (x - s) - n := by
  have hs := Int.emod_add_mul_ediv s n
  have hs₀ := Int.emod_nonneg s hn.ne'
  have hs₁ := Int.emod_lt_of_pos s hn
  rcases lt_or_ge (s % n + (x - s)) n with h | h
  · exact .inl (ediv_emod_of_eq (by linarith) (by omega) h)
  · exact .inr (ediv_emod_of_eq (by linarith) (by omega) (by omega))

/-- A window of reflected boxes that shows both ends of a box. -/
theorem dvd_of_mirrored (hn : 0 < n) {M s x y : Int} (hM : M = n - 1 ∨ M = n) (hx : s ≤ x)
    (hx' : x ≤ s + M) (hy : s ≤ y) (hy' : y ≤ s + M)
    (hfirst : (if x / n % 2 = 0 then x % n else M - x % n) = 0)
    (hlast : (if y / n % 2 = 0 then y % n else M - y % n) = M) : n ∣ s := by
  have hxn := ediv_of_window hn hx (by omega)
  have hyn := ediv_of_window hn hy (by omega)
  have hx₁ := Int.emod_lt_of_pos x hn
  have hy₁ := Int.emod_lt_of_pos y hn
  have hs₀ := Int.emod_nonneg s hn.ne'
  have hs₁ := Int.emod_lt_of_pos s hn
  refine Int.dvd_of_emod_eq_zero ?_
  rcases hM with rfl | rfl <;> split_ifs at hfirst hlast <;> omega

/-- A corner of a box in a window, which is `e` boxes after the box that holds the cell. -/
theorem corner_of_window (hn : 0 < n) {s x e : Int} (hx : s ≤ x) (hx' : x ≤ s + n)
    (he : x % n = 0 ∧ e = 0 ∨ x % n = n - 1 ∧ e = 1 ∧ x < s + n) :
    s / n ≤ x / n + e ∧ x / n + e ≤ s / n + 1 ∧ (s % n ≠ 0 → x / n + e = s / n + 1) := by
  have hxn := ediv_of_window hn hx hx'
  have hs₀ := Int.emod_nonneg s hn.ne'
  have hs₁ := Int.emod_lt_of_pos s hn
  omega

theorem Covers.dvd (ht : t.Sized) (hs : t.Covers s) {M N : Int} (hM : M = t.rows - 1 ∨ M = t.rows)
    (hN : N = t.columns - 1 ∨ N = t.columns)
    (hrep : ∀ q, t.IsRepresentative q → 0 ≤ q.row ∧ q.row ≤ M ∧ 0 ≤ q.column ∧ q.column ≤ N)
    (hfirst : t.IsRepresentative ⟨0, 0⟩) (hlast : t.IsRepresentative ⟨M, N⟩)
    (hmirrored : ∀ box rest p, p = ⟨0, 0⟩ ∨ p = ⟨M, N⟩ → t.folded box rest = p →
      mirrored M N box rest = p) : t.rows ∣ s.row ∧ t.columns ∣ s.column := by
  obtain ⟨p, hp, h₀⟩ := hs _ hfirst
  obtain ⟨q, hq, h₁⟩ := hs _ hlast
  rw [fold_cell ht] at h₀ h₁
  obtain ⟨hrow₀, hcolumn₀⟩ := Cell.mk.inj (hmirrored _ _ _ (.inl rfl) h₀)
  obtain ⟨hrow₁, hcolumn₁⟩ := Cell.mk.inj (hmirrored _ _ _ (.inr rfl) h₁)
  obtain ⟨hp, hp', hpc, hpc'⟩ := hrep p hp
  obtain ⟨hq, hq', hqc, hqc'⟩ := hrep q hq
  simp only [boxOf, reduce, Cell.shift] at hrow₀ hcolumn₀ hrow₁ hcolumn₁
  exact ⟨dvd_of_mirrored ht.rows_pos hM (by omega) (by omega) (by omega) (by omega) hrow₀ hrow₁,
    dvd_of_mirrored ht.columns_pos hN (by omega) (by omega) (by omega) (by omega) hcolumn₀ hcolumn₁⟩

theorem mirrored_of_quartered {M a : Int} {box rest : Cell} (h : quartered M box rest = ⟨a, a⟩) :
    mirrored M M box rest = ⟨a, a⟩ := by
  unfold quartered at h
  unfold mirrored
  grind

theorem quartered_of_folded {a : Int} {box rest : Cell}
    (h : (faceRotatedSquare n).folded box rest = ⟨a, a⟩) : quartered n box rest = ⟨a, a⟩ := by
  simp only [folded] at h
  split_ifs at h
  · obtain ⟨hcolumn, hrow⟩ := Cell.mk.inj h
    exact congrArg₂ Cell.mk hrow hcolumn
  · exact h

theorem Covers.dvd_rotatedSquare (ht : (rotatedSquare n).Sized) (hs : (rotatedSquare n).Covers s) :
    n ∣ s.row ∧ n ∣ s.column := by
  have hn : 0 < n := ht.rows_pos
  refine hs.dvd ht (.inl rfl) (.inl rfl) (fun q hq => ?_) ⟨le_rfl, hn, le_rfl, hn⟩ ?_ ?_
  · simp only [IsRepresentative, rows, columns] at hq ⊢
    omega
  · simp only [IsRepresentative, rows, columns]
    omega
  · rintro box rest p (rfl | rfl) h <;> exact mirrored_of_quartered h

theorem Covers.dvd_flippedRectangle (ht : (flippedRectangle m n).Sized)
    (hs : (flippedRectangle m n).Covers s) : m ∣ s.row ∧ n ∣ s.column := by
  have hm : 0 < m := ht.rows_pos
  have hn : 0 < n := ht.columns_pos
  refine hs.dvd ht (.inl rfl) (.inl rfl) (fun q hq => ?_) ⟨le_rfl, hm, le_rfl, hn⟩ ?_
    fun _ _ _ _ => id
  · simp only [IsRepresentative, rows, columns] at hq ⊢
    omega
  · simp only [IsRepresentative, rows, columns]
    omega

theorem Covers.dvd_centerFlippedRectangle (ht : (centerFlippedRectangle m n).Sized)
    (hs : (centerFlippedRectangle m n).Covers s) : m ∣ s.row ∧ n ∣ s.column := by
  have hm : 0 < m := ht.rows_pos
  have hn : 0 < n := ht.columns_pos
  exact hs.dvd ht (.inr rfl) (.inr rfl) (fun q hq => hq) ⟨le_rfl, hm.le, le_rfl, hn.le⟩
    ⟨hm.le, le_rfl, hn.le, le_rfl⟩ fun _ _ _ _ => id

theorem mirrored_of_folded_faceRotatedSquare {a : Int} {box rest : Cell}
    (h : (faceRotatedSquare n).folded box rest = ⟨a, a⟩) : mirrored n n box rest = ⟨a, a⟩ :=
  mirrored_of_quartered (quartered_of_folded h)

theorem first_of_window (hn : 0 < n) {x k : Int} (hx : 0 ≤ x) (hx' : x ≤ n)
    (h : (if (x + n * k) / n % 2 = 0 then (x + n * k) % n else n - (x + n * k) % n) = 0) :
    x = 0 ∧ k % 2 = 0 ∨ x = n ∧ k % 2 = 1 := by
  have hwindow := ediv_of_window hn (show n * k ≤ x + n * k by omega) (by omega)
  have hlt := Int.emod_lt_of_pos (x + n * k) hn
  rw [Int.mul_ediv_cancel_left _ hn.ne', Int.mul_emod_right] at hwindow
  split_ifs at h <;> omega

theorem last_of_window (hn : 0 < n) {x k : Int} (hx : 0 ≤ x) (hx' : x ≤ n)
    (h : (if (x + n * k) / n % 2 = 0 then (x + n * k) % n else n - (x + n * k) % n) = n) :
    x = 0 ∧ k % 2 = 1 ∨ x = n ∧ k % 2 = 0 := by
  have hwindow := ediv_of_window hn (show n * k ≤ x + n * k by omega) (by omega)
  have hlt := Int.emod_lt_of_pos (x + n * k) hn
  rw [Int.mul_ediv_cancel_left _ hn.ne', Int.mul_emod_right] at hwindow
  split_ifs at h <;> omega

/-- A square that is turned about cells has three corners only. -/
theorem Covers.aligned_faceRotatedSquare (ht : (faceRotatedSquare n).Sized)
    (hs : (faceRotatedSquare n).Covers s) : (faceRotatedSquare n).Aligned s := by
  have hn : 0 < n := ht.rows_pos
  obtain ⟨⟨k, hk⟩, l, hl⟩ : n ∣ s.row ∧ n ∣ s.column := by
    refine hs.dvd ht (.inr rfl) (.inr rfl) (fun q hq => bounds_of_isRepresentative ht hq)
      (.inr (.inl rfl)) (.inr (.inr rfl)) ?_
    rintro box rest p (rfl | rfl) h <;> exact mirrored_of_folded_faceRotatedSquare h
  obtain ⟨i, j⟩ := s
  obtain rfl : i = n * k := hk
  obtain rfl : j = n * l := hl
  obtain ⟨⟨a, b⟩, hp, h₀⟩ := hs ⟨0, 0⟩ (.inr (.inl rfl))
  obtain ⟨⟨c, d⟩, hq, h₁⟩ := hs ⟨n, n⟩ (.inr (.inr rfl))
  rw [fold_cell ht] at h₀ h₁
  obtain ⟨hrow₀, hcolumn₀⟩ := Cell.mk.inj (mirrored_of_folded_faceRotatedSquare h₀)
  obtain ⟨hrow₁, hcolumn₁⟩ := Cell.mk.inj (mirrored_of_folded_faceRotatedSquare h₁)
  simp only [boxOf, reduce, rows, columns, Cell.shift] at hrow₀ hcolumn₀ hrow₁ hcolumn₁
  obtain ⟨hp₀, hp₁, hp₂, hp₃⟩ := bounds_of_isRepresentative ht hp
  obtain ⟨hq₀, hq₁, hq₂, hq₃⟩ := bounds_of_isRepresentative ht hq
  have hparity : (k + l) % 2 = 0 := by
    have ha := first_of_window hn hp₀ hp₁ hrow₀
    have hb := first_of_window hn hp₂ hp₃ hcolumn₀
    have hc := last_of_window hn hq₀ hq₁ hrow₁
    have hd := last_of_window hn hq₂ hq₃ hcolumn₁
    simp only [IsRepresentative, Cell.mk.injEq] at hp hq ha hb hc hd
    clear hrow₀ hcolumn₀ hrow₁ hcolumn₁
    omega
  refine ⟨⟨k, rfl⟩, ⟨l, rfl⟩, ?_⟩
  rw [mul_comm 2 n, ← mul_add]
  exact mul_dvd_mul_left n (Int.dvd_of_emod_eq_zero hparity)

/-- On a cross surface the window shows both ends of the first row only if the shift is aligned. -/
theorem Covers.aligned_crossSurface (ht : (crossSurface m n).Sized)
    (hs : (crossSurface m n).Covers s) : (crossSurface m n).Aligned s := by
  have hm : 0 < m := ht.rows_pos
  have hn : 0 < n := ht.columns_pos
  obtain ⟨p, ⟨hp, hp', hpc, hpc'⟩, h₀⟩ := hs ⟨0, 0⟩ ⟨le_rfl, hm, le_rfl, hn⟩
  obtain ⟨q, ⟨hq, hq', hqc, hqc'⟩, h₁⟩ := hs ⟨0, n - 1⟩ ⟨le_rfl, hm, Int.le_sub_one_of_lt hn, Int.sub_one_lt_of_le le_rfl⟩
  rw [fold_cell ht] at h₀ h₁
  obtain ⟨hrow₀, hcolumn₀⟩ := Cell.mk.inj h₀
  obtain ⟨hrow₁, hcolumn₁⟩ := Cell.mk.inj h₁
  simp only [boxOf, reduce, rows, columns, Cell.shift, Cell.transpose] at *
  have hpr := ediv_of_window hm (show s.row ≤ p.row + s.row by omega) (by omega)
  have hqr := ediv_of_window hm (show s.row ≤ q.row + s.row by omega) (by omega)
  have hpw := ediv_of_window hn (show s.column ≤ p.column + s.column by omega) (by omega)
  have hqw := ediv_of_window hn (show s.column ≤ q.column + s.column by omega) (by omega)
  have hs₀ := Int.emod_nonneg s.row hm.ne'
  have hs₁ := Int.emod_nonneg s.column hn.ne'
  have hs₂ := Int.emod_lt_of_pos s.row hm
  have hs₃ := Int.emod_lt_of_pos s.column hn
  simp only [Aligned, Int.dvd_iff_emod_eq_zero]
  split_ifs at hrow₀ hcolumn₀ hrow₁ hcolumn₁ <;> omega

/-! ### Rhombi

Three kinds of corners are told apart by the sum of the row and the column of the box. -/

/-- The window of a shift meets a corner of boxes of a kind. -/
def Meets (n : Int) (s : Cell) (kind : Int) : Prop :=
  ∃ v w, (v + w) % 3 = kind ∧
    (s.row / n ≤ v ∧ v ≤ s.row / n + 1 ∧ (s.row % n ≠ 0 → v = s.row / n + 1)) ∧
    (s.column / n ≤ w ∧ w ≤ s.column / n + 1 ∧ (s.column % n ≠ 0 → w = s.column / n + 1))

theorem meets_of_window (hn : 0 < n) {kind x y e f : Int} (hx : s.row ≤ x) (hx' : x ≤ s.row + n)
    (hy : s.column ≤ y) (hy' : y ≤ s.column + n)
    (he : x % n = 0 ∧ e = 0 ∨ x % n = n - 1 ∧ e = 1 ∧ x < s.row + n)
    (hf : y % n = 0 ∧ f = 0 ∨ y % n = n - 1 ∧ f = 1 ∧ y < s.column + n)
    (hsum : (x / n + e + (y / n + f)) % 3 = kind) : Meets n s kind :=
  ⟨_, _, hsum, corner_of_window hn hx hx' he, corner_of_window hn hy hy' hf⟩

/-- Corners of all three kinds do not fit in one row or one column. -/
theorem dvd_of_meets (h₀ : Meets n s 0) (h₁ : Meets n s 1) (h₂ : Meets n s 2) :
    n ∣ s.row ∧ n ∣ s.column := by
  obtain ⟨v₀, w₀, h₀⟩ := h₀
  obtain ⟨v₁, w₁, h₁⟩ := h₁
  obtain ⟨v₂, w₂, h₂⟩ := h₂
  simp only [Int.dvd_iff_emod_eq_zero]
  omega

theorem corner_of_thirded {kind r c : Int} {p box : Cell} (hr : 0 ≤ r) (hr' : r < n) (hc : 0 ≤ c)
    (hc' : c < n)
    (hkind : kind = 0 ∧ p = ⟨0, 0⟩ ∨ kind = 1 ∧ p = ⟨n - 1, 0⟩ ∨ kind = 2 ∧ p = ⟨n - 1, n - 1⟩)
    (h : thirded n (n - 1) box ⟨r, c⟩ = p) :
    ∃ e f, (r = 0 ∧ e = 0 ∨ r = n - 1 ∧ e = 1) ∧ (c = 0 ∧ f = 0 ∨ c = n - 1 ∧ f = 1) ∧
      (box.row + e + (box.column + f)) % 3 = kind := by
  have hpair : r = 0 ∧ c = 0 ∧ (box.row + box.column) % 3 = kind ∨
      r = n - 1 ∧ c = 0 ∧ (box.row + box.column + 1) % 3 = kind ∨
      r = n - 1 ∧ c = n - 1 ∧ (box.row + box.column + 2) % 3 = kind := by
    unfold thirded at h
    rcases hkind with ⟨rfl, rfl⟩ | ⟨rfl, rfl⟩ | ⟨rfl, rfl⟩ <;>
      split_ifs at h <;> simp only [Cell.mk.injEq] at h <;> omega
  rcases hpair with ⟨hr, hc, hsum⟩ | ⟨hr, hc, hsum⟩ | ⟨hr, hc, hsum⟩
  · exact ⟨0, 0, .inl ⟨hr, rfl⟩, .inl ⟨hc, rfl⟩, by omega⟩
  · exact ⟨1, 0, .inr ⟨hr, rfl⟩, .inl ⟨hc, rfl⟩, by omega⟩
  · exact ⟨1, 1, .inr ⟨hr, rfl⟩, .inr ⟨hc, rfl⟩, by omega⟩

theorem Covers.dvd_rotatedRhombus (ht : (rotatedRhombus n).Sized)
    (hs : (rotatedRhombus n).Covers s) : n ∣ s.row ∧ n ∣ s.column := by
  have hn : 0 < n := ht.rows_pos
  have hmeets : ∀ (kind : Int) (p : Cell), (kind = 0 ∧ p = ⟨0, 0⟩ ∨ kind = 1 ∧ p = ⟨n - 1, 0⟩ ∨
      kind = 2 ∧ p = ⟨n - 1, n - 1⟩) → Meets n s kind := by
    intro kind p hkind
    have hp : (rotatedRhombus n).IsRepresentative p := by
      rcases hkind with ⟨-, rfl⟩ | ⟨-, rfl⟩ | ⟨-, rfl⟩ <;>
        simp only [IsRepresentative, rows, columns] <;> omega
    obtain ⟨q, ⟨hq, hq', hqc, hqc'⟩, h⟩ := hs p hp
    simp only [rows, columns] at hq' hqc'
    rw [fold_cell ht] at h
    obtain ⟨e, f, he, hf, hsum⟩ := corner_of_thirded (Int.emod_nonneg _ hn.ne')
      (Int.emod_lt_of_pos _ hn) (Int.emod_nonneg _ hn.ne') (Int.emod_lt_of_pos _ hn) hkind h
    simp only [boxOf, rows, columns, Cell.shift] at he hf hsum
    exact meets_of_window hn (by omega) (by omega) (by omega) (by omega) (by omega) (by omega) hsum
  exact dvd_of_meets (hmeets 0 _ (.inl ⟨rfl, rfl⟩)) (hmeets 1 _ (.inr (.inl ⟨rfl, rfl⟩)))
    (hmeets 2 _ (.inr (.inr ⟨rfl, rfl⟩)))

theorem corner_of_faceThirded {kind r c : Int} {p box : Cell} (hr : 0 ≤ r) (hr' : r < n)
    (hc : 0 ≤ c) (hc' : c < n)
    (hkind : kind = 0 ∧ p = ⟨0, 0⟩ ∨ kind = 1 ∧ p = ⟨0, n⟩ ∨ kind = 2 ∧ p = ⟨n, n⟩)
    (h : (faceRotatedRhombus n).folded box ⟨r, c⟩ = p) :
    r = 0 ∧ c = 0 ∧ (box.row + box.column) % 3 = kind := by
  simp only [folded, thirded, Cell.transpose] at h
  rcases hkind with ⟨rfl, rfl⟩ | ⟨rfl, rfl⟩ | ⟨rfl, rfl⟩ <;> grind

theorem Covers.dvd_faceRotatedRhombus (ht : (faceRotatedRhombus n).Sized)
    (hs : (faceRotatedRhombus n).Covers s) : n ∣ s.row ∧ n ∣ s.column := by
  have hn : 0 < n := ht.rows_pos
  have hmeets : ∀ (kind : Int) (p : Cell), (kind = 0 ∧ p = ⟨0, 0⟩ ∨ kind = 1 ∧ p = ⟨0, n⟩ ∨
      kind = 2 ∧ p = ⟨n, n⟩) → Meets n s kind := by
    intro kind p hkind
    have hp : (faceRotatedRhombus n).IsRepresentative p := by
      rcases hkind with ⟨-, rfl⟩ | ⟨-, rfl⟩ | ⟨-, rfl⟩
      · exact .inr (.inl rfl)
      · exact .inl ⟨le_rfl, hn, hn, le_rfl⟩
      · exact .inr (.inr rfl)
    obtain ⟨q, hq, h⟩ := hs p hp
    obtain ⟨hq, hq', hqc, hqc'⟩ := bounds_of_isRepresentative ht hq
    simp only [rows, columns] at hq' hqc'
    rw [fold_cell ht] at h
    obtain ⟨he, hf, hsum⟩ := corner_of_faceThirded (Int.emod_nonneg _ hn.ne')
      (Int.emod_lt_of_pos _ hn) (Int.emod_nonneg _ hn.ne') (Int.emod_lt_of_pos _ hn) hkind h
    rw [← add_zero (boxOf _ _).row, ← add_zero (boxOf _ _).column] at hsum
    simp only [boxOf, rows, columns, Cell.shift] at he hf hsum
    exact meets_of_window hn (by omega) (by omega) (by omega) (by omega) (.inl ⟨he, rfl⟩)
      (.inl ⟨hf, rfl⟩) hsum
  exact dvd_of_meets (hmeets 0 _ (.inl ⟨rfl, rfl⟩)) (hmeets 1 _ (.inr (.inl ⟨rfl, rfl⟩)))
    (hmeets 2 _ (.inr (.inr ⟨rfl, rfl⟩)))

/-- **Shifts of a tiling** that lose no cell are aligned with the boxes. -/
theorem covers_iff (ht : t.Sized) : t.Covers s ↔ t.Aligned s := by
  refine ⟨fun hs => ?_, Aligned.covers ht⟩
  cases t with
  | rotatedSquare n => exact hs.dvd_rotatedSquare ht
  | faceRotatedSquare n => exact hs.aligned_faceRotatedSquare ht
  | rotatedRhombus n => exact hs.dvd_rotatedRhombus ht
  | faceRotatedRhombus n => exact hs.dvd_faceRotatedRhombus ht
  | flippedRectangle m n => exact hs.dvd_flippedRectangle ht
  | centerFlippedRectangle m n => exact hs.dvd_centerFlippedRectangle ht
  | crossSurface m n => exact hs.aligned_crossSurface ht

end CellSat.Tessellation
