import Mathlib
import CellSat.Proofs.Plane.Fold
/-!
# Symmetries of foldings

A folding identifies the cells of the plane by rigid maps, which carry the neighbours of a cell to
the neighbours of its image. So a cell and its representative have the same neighbours up to their
order. In a plane of rhombi a cell has six neighbours, elsewhere it has eight.

* `Cell.Rigid`: the maps that keep some steps;
* `Folding.IsSymmetry`, `Folding.symmetryGroup`: the rigid maps that a folding does not see;
* `Tessellation.motion`, `Tessellation.symmetries`: the maps of the labels, and what they generate;
* `Folding.IsRepresentative`: the cells that stand for themselves;
* **`Folding.exists_isSymmetry`**: a symmetry carries every cell to its representative.
-/

namespace CellSat

/-! ## Rigid maps -/

namespace Cell

/-- The steps to the eight neighbours, clockwise from the north. -/
def around : List Cell :=
  [⟨-1, 0⟩, ⟨-1, 1⟩, ⟨0, 1⟩, ⟨1, 1⟩, ⟨1, 0⟩, ⟨1, -1⟩, ⟨0, -1⟩, ⟨-1, -1⟩]

/-- The steps to the six neighbours of a hexagon, clockwise from the north. -/
def hexagon : List Cell := [⟨-1, 0⟩, ⟨0, 1⟩, ⟨1, 1⟩, ⟨1, 0⟩, ⟨0, -1⟩, ⟨-1, -1⟩]

/-- A cell whose coordinates are at most a bound. -/
def Within (b : Int) (p : Cell) : Prop :=
  -b ≤ p.row ∧ p.row ≤ b ∧ -b ≤ p.column ∧ p.column ≤ b

theorem Within.shift {b c : Int} {p d : Cell} (hp : p.Within b) (hd : d.Within c) :
    (p.shift d).Within (b + c) := by
  simp only [Within, Cell.shift] at *
  omega

theorem Within.mono {b c : Int} {p : Cell} (hp : p.Within b) (h : b ≤ c) : p.Within c := by
  simp only [Within] at *
  omega

theorem around_within : ∀ d ∈ around, d.Within 1 := by
  unfold Within
  decide

/-- A map carries the neighbours of a cell to the neighbours of its image. -/
def Rigid (steps : List Cell) (g : Cell → Cell) : Prop :=
  ∀ p : Cell, (steps.map fun d => g (p.shift d)).Perm (steps.map (g p).shift)

variable {steps : List Cell}

theorem Rigid.comp {g h : Cell → Cell} (hg : Rigid steps g) (hh : Rigid steps h) :
    Rigid steps (g ∘ h) := by
  intro p
  have hmap := (hh p).map g
  rw [List.map_map, List.map_map] at hmap
  exact hmap.trans (hg (h p))

theorem Rigid.symm {g : Equiv.Perm Cell} (hg : Rigid steps g) : Rigid steps g.symm := by
  intro p
  have hmap := (hg (g.symm p)).map g.symm
  simp only [List.map_map, Function.comp_def, Equiv.symm_apply_apply, Equiv.apply_symm_apply] at hmap
  exact hmap.symm

theorem rigid_of_affine {g h : Cell → Cell} (hg : ∀ p d : Cell, g (p.shift d) = (g p).shift (h d))
    (hsteps : (steps.map h).Perm steps) : Rigid steps g := by
  intro p
  have hmap := hsteps.map (g p).shift
  rw [List.map_map] at hmap
  refine List.Perm.trans (List.Perm.of_eq ?_) hmap
  exact List.map_congr_left fun d _ => hg p d

theorem shift_zero (p : Cell) : p.shift ⟨0, 0⟩ = p := by
  simp [shift]

theorem shiftBack_shift (p v : Cell) : (p.shift v).shiftBack v = p := by
  simp [shift, shiftBack]

theorem shift_shiftBack (p v : Cell) : (p.shiftBack v).shift v = p := by
  simp [shift, shiftBack]

/-- The plane moved by a step. -/
def translation (v : Cell) : Equiv.Perm Cell :=
  ⟨fun p => p.shift v, fun p => p.shiftBack v, (shiftBack_shift · v), (shift_shiftBack · v)⟩

theorem rigid_translation (v : Cell) : Rigid steps (translation v) := by
  refine rigid_of_affine (h := id) (fun p d => ?_) (by rw [List.map_id])
  simp only [translation, Equiv.coe_fn_mk, shift, id, Cell.mk.injEq]
  omega

end Cell

/-! ## Maps that a folding does not see -/

namespace Tessellation

/-- The compass symbols of the neighbours of a cell. -/
def directions : Tessellation → List String
  | rotatedRhombus _ | faceRotatedRhombus _ => ["N", "E", "SE", "S", "W", "NW"]
  | _ => ["N", "NE", "E", "SE", "S", "SW", "W", "NW"]

/-- The steps to the neighbours of a cell. -/
def steps (t : Tessellation) : List Cell := t.directions.filterMap Cell.displacement?

theorem steps_eq (t : Tessellation) :
    t.steps = if t.labelCount = 3 then Cell.hexagon else Cell.around := by
  cases t <;> simp [steps, directions, Cell.displacement?, labelCount, Cell.hexagon, Cell.around]

end Tessellation

namespace Folding

variable {f : Folding} {g h : Equiv.Perm Cell}

/-- The steps to the neighbours of a cell. -/
def steps : Folding → List Cell
  | torus .. | bounded .. | strip .. => Cell.around
  | tessellated t => t.steps

theorem Positive.steps_eq (hf : f.Positive) : f.steps = Cell.around := by
  cases f with
  | torus m n shift | bounded m n | strip m n => rfl
  | tessellated t =>
    rw [steps, Tessellation.steps_eq, if_neg]
    cases t <;> simp_all [Positive, Tessellation.Positive, Tessellation.labelCount]

/-- A rigid map that a folding does not see. -/
structure IsSymmetry (f : Folding) (g : Equiv.Perm Cell) : Prop where
  rigid : Cell.Rigid f.steps g
  fold_cell : ∀ p, (f.fold (g p)).cell = (f.fold p).cell

/-- The group of the rigid maps that a folding does not see. -/
def symmetryGroup (f : Folding) : Subgroup (Equiv.Perm Cell) where
  carrier := {g | f.IsSymmetry g}
  one_mem' := ⟨fun _ => .refl _, fun _ => rfl⟩
  mul_mem' hg hh := ⟨hg.rigid.comp hh.rigid, fun p => (hg.fold_cell _).trans (hh.fold_cell p)⟩
  inv_mem' {g} hg := by
    refine ⟨hg.rigid.symm, fun p => ?_⟩
    rw [← hg.fold_cell, ← Equiv.Perm.mul_apply, mul_inv_cancel, Equiv.Perm.one_apply]

theorem mem_symmetryGroup : g ∈ f.symmetryGroup ↔ f.IsSymmetry g := .rfl

theorem isSymmetry_torus {m n : Int} (hm : 0 < m) (shift a b : Int) :
    (torus m n shift).IsSymmetry (Cell.translation ⟨m * a, n * b - shift * a⟩) := by
  refine ⟨Cell.rigid_translation _, fun p => ?_⟩
  have hcolumn : p.column + (n * b - shift * a) + shift * (p.row / m + a) =
      p.column + shift * (p.row / m) + n * b := by ring
  simp only [fold, Cell.translation, Equiv.coe_fn_mk, Cell.shift, Int.add_mul_ediv_left _ _ hm.ne',
    Int.add_mul_emod_self_left, hcolumn]

theorem isSymmetry_strip (m n b : Int) :
    (strip m n).IsSymmetry (Cell.translation ⟨0, n * b⟩) :=
  ⟨Cell.rigid_translation _, fun p => by simp [fold, Cell.translation, Cell.shift]⟩

end Folding

/-! ## Motions of a tessellation -/

namespace Tessellation

variable {t : Tessellation} {m n : Int}

/-- Where boxes are turned or reflected about cells instead of corners, the image of the corner. -/
def center (t : Tessellation) (label : Nat) : Cell :=
  match t with
  | faceRotatedSquare _ | faceRotatedRhombus _ | centerFlippedRectangle _ _ => t.corner label
  | _ => ⟨0, 0⟩

/-- The map of a label, taken back by its center. -/
def recentred (t : Tessellation) (label : Nat) (p : Cell) : Cell :=
  (t.image label p).shiftBack (t.center label)

/-- The linear part of the map of a label. -/
def linear (t : Tessellation) (label : Nat) (d : Cell) : Cell :=
  (t.image label d).shiftBack (t.corner label)

theorem image_shift (t : Tessellation) (label : Nat) (p d : Cell) :
    t.image label (p.shift d) = (t.image label p).shift (t.linear label d) := by
  cases t <;>
    simp only [linear, corner, image, Cell.shift, Cell.shiftBack] <;>
    split_ifs <;> simp only [Cell.mk.injEq] <;> constructor <;> ring

theorem recentred_shift (t : Tessellation) (label : Nat) (p d : Cell) :
    t.recentred label (p.shift d) = (t.recentred label p).shift (t.linear label d) := by
  rw [recentred, recentred, image_shift]
  simp only [Cell.shift, Cell.shiftBack, Cell.mk.injEq]
  constructor <;> ring

theorem perm_linear (t : Tessellation) {label : Nat} (hlabel : label < t.labelCount) :
    (t.steps.map (t.linear label)).Perm t.steps := by
  rw [steps_eq]
  cases t with
  | rotatedSquare n | faceRotatedSquare n | flippedRectangle m n | centerFlippedRectangle m n
  | crossSurface m n =>
    replace hlabel : label < 4 := hlabel
    interval_cases label <;>
      simp [Cell.around, linear, corner, image, Cell.shiftBack, labelCount] <;> decide
  | rotatedRhombus n | faceRotatedRhombus n =>
    replace hlabel : label < 3 := hlabel
    interval_cases label <;>
      simp [Cell.hexagon, linear, corner, image, Cell.shiftBack, labelCount] <;> decide

theorem surjective_linear (t : Tessellation) (label : Nat) :
    Function.Surjective (t.linear label) := by
  rintro ⟨k, l⟩
  by_cases h₀ : label = 0
  · exact ⟨⟨k, l⟩, by simp [linear, corner, image, Cell.shiftBack, h₀]⟩
  simp only [linear, corner, image, if_neg h₀, Cell.shiftBack]
  cases t with
  | rotatedSquare n | faceRotatedSquare n =>
    refine ⟨if label = 1 then ⟨l, -k⟩ else if label = 2 then ⟨-k, -l⟩ else ⟨-l, k⟩, ?_⟩
    split_ifs <;> simp
  | rotatedRhombus n | faceRotatedRhombus n =>
    refine ⟨if label = 1 then ⟨l - k, -k⟩ else ⟨-l, k - l⟩, ?_⟩
    split_ifs <;> simp
  | flippedRectangle m n | centerFlippedRectangle m n =>
    refine ⟨if label = 1 then ⟨-k, l⟩ else if label = 2 then ⟨k, -l⟩ else ⟨-k, -l⟩, ?_⟩
    split_ifs <;> simp
  | crossSurface m n =>
    refine ⟨if label = 1 then ⟨k, -l⟩ else if label = 2 then ⟨-k, -l⟩ else ⟨-k, l⟩, ?_⟩
    split_ifs <;> simp

theorem bijective_recentred (t : Tessellation) (label : Nat) :
    Function.Bijective (t.recentred label) := by
  constructor
  · rintro ⟨i, j⟩ ⟨k, l⟩ h
    cases t <;>
      simp only [recentred, center, corner, image, Cell.shiftBack] at h <;>
      split_ifs at h <;> simp only [Cell.mk.injEq] at h ⊢ <;> omega
  · intro q
    obtain ⟨d, hd⟩ := surjective_linear t label (q.shiftBack (t.recentred label ⟨0, 0⟩))
    refine ⟨(⟨0, 0⟩ : Cell).shift d, ?_⟩
    rw [recentred_shift, hd]
    simp [Cell.shift, Cell.shiftBack]

/-- The map of a label as a motion of the plane. -/
noncomputable def motion (t : Tessellation) (label : Nat) : Equiv.Perm Cell :=
  Equiv.ofBijective (t.recentred label) (t.bijective_recentred label)

@[simp]
theorem motion_apply (t : Tessellation) (label : Nat) (p : Cell) :
    t.motion label p = t.recentred label p := rfl

/-- The plane moved by whole boxes. -/
def boxTranslation (t : Tessellation) (box : Cell) : Equiv.Perm Cell :=
  Cell.translation ⟨t.rows * box.row, t.columns * box.column⟩

@[simp]
theorem boxTranslation_apply (t : Tessellation) (box p : Cell) :
    t.boxTranslation box p = p.shift ⟨t.rows * box.row, t.columns * box.column⟩ := rfl

/-- The group that the motions of the labels generate together with the translations into boxes
that are not turned. -/
def symmetries (t : Tessellation) : Subgroup (Equiv.Perm Cell) :=
  Subgroup.closure ({g | ∃ label < t.labelCount, g = t.motion label} ∪
    {g | ∃ box, t.isTurned box = false ∧ g = t.boxTranslation box})

theorem motion_mem (label : Nat) (hlabel : label < t.labelCount) : t.motion label ∈ t.symmetries :=
  Subgroup.subset_closure (.inl ⟨label, hlabel, rfl⟩)

theorem boxTranslation_mem (box : Cell) (hbox : t.isTurned box = false) :
    t.boxTranslation box ∈ t.symmetries :=
  Subgroup.subset_closure (.inr ⟨box, hbox, rfl⟩)

/-! ### The folding does not see them -/

theorem fold_cell_congr (ht : t.Sized) {p q : Cell}
    (h : t.folded (t.boxOf p) (t.reduce p) = t.folded (t.boxOf q) (t.reduce q)) :
    (t.fold p).cell = (t.fold q).cell := by
  rw [fold_cell ht, fold_cell ht, h]

theorem folded_shift_box {box' : Cell} (hbox : t.isTurned box' = false) (box rest : Cell) :
    t.folded (box.shift box') rest = t.folded box rest := by
  cases t with
  | rotatedRhombus n | faceRotatedRhombus n =>
    have hsum : (box.row + box'.row + (box.column + box'.column)) % 3 = (box.row + box.column) % 3 := by
      simp only [isTurned, bne_eq_false_iff_eq] at hbox
      omega
    simp [folded, thirded, Cell.shift, hsum]
  | rotatedSquare n | faceRotatedSquare n | flippedRectangle m n | centerFlippedRectangle m n
  | crossSurface m n =>
    simp only [isTurned, Bool.or_eq_false_iff, bne_eq_false_iff_eq] at hbox
    have hrow : (box.row + box'.row) % 2 = box.row % 2 := by omega
    have hcolumn : (box.column + box'.column) % 2 = box.column % 2 := by omega
    simp [folded, quartered, mirrored, Cell.shift, Cell.transpose, hrow, hcolumn]

theorem boxOf_boxTranslation (ht : t.Sized) (box p : Cell) :
    t.boxOf (t.boxTranslation box p) = (t.boxOf p).shift box := by
  simp [boxOf, Cell.shift, Int.add_mul_ediv_left, ht.rows_pos.ne', ht.columns_pos.ne']

theorem reduce_boxTranslation (t : Tessellation) (box p : Cell) :
    t.reduce (t.boxTranslation box p) = t.reduce p := by
  simp [reduce, Cell.shift]

theorem isSymmetry_boxTranslation (ht : t.Sized) {box : Cell} (hbox : t.isTurned box = false) :
    (Folding.tessellated t).IsSymmetry (t.boxTranslation box) := by
  refine ⟨Cell.rigid_translation _, fun p => fold_cell_congr ht ?_⟩
  rw [boxOf_boxTranslation ht, reduce_boxTranslation, folded_shift_box hbox]

theorem isSymmetry_motion_iff (ht : t.Sized) {label : Nat} (hlabel : label < t.labelCount) :
    (Folding.tessellated t).IsSymmetry (t.motion label) ↔
      ∀ p, t.folded (t.boxOf (t.recentred label p)) (t.reduce (t.recentred label p)) =
        t.folded (t.boxOf p) (t.reduce p) := by
  have hrigid : Cell.Rigid t.steps (t.motion label) :=
    Cell.rigid_of_affine (recentred_shift t label) (perm_linear t hlabel)
  constructor
  · rintro ⟨-, h⟩ p
    rw [← fold_cell ht, ← fold_cell ht]
    exact h p
  · exact fun h => ⟨hrigid, fun p => fold_cell_congr ht (h p)⟩

theorem isSymmetry_rotatedSquare (ht : (rotatedSquare n).Sized) :
    (Folding.tessellated (rotatedSquare n)).IsSymmetry ((rotatedSquare n).motion 1) := by
  refine (isSymmetry_motion_iff ht (by simp [labelCount])).mpr fun ⟨i, j⟩ => ?_
  have hj := ediv_emod_neg_sub_one (n := n) ht.rows_pos j
  rcases Int.emod_two_eq_zero_or_one (i / n) with hk | hk <;>
    rcases Int.emod_two_eq_zero_or_one (j / n) with hl | hl <;>
    simp [folded, quartered, boxOf, rows, columns, reduce, recentred, image, center, Cell.shiftBack,
      hj, hk, hl, reflect_emod_two]

theorem isSymmetry_faceRotatedSquare (ht : (faceRotatedSquare n).Sized) :
    (Folding.tessellated (faceRotatedSquare n)).IsSymmetry ((faceRotatedSquare n).motion 1) := by
  refine (isSymmetry_motion_iff ht (by simp [labelCount])).mpr fun ⟨i, j⟩ => ?_
  have hn : 0 < n := ht.rows_pos
  have hturn : (faceRotatedSquare n).recentred 1 ⟨i, j⟩ = ⟨-j, i⟩ := by
    simp [recentred, image, center, corner, Cell.shiftBack]
  rw [hturn]
  rcases (Int.emod_nonneg j hn.ne').eq_or_lt with hs | hs
  -- On the first column of a box the turn leads to a border, where transposing takes it back.
  · have hi := Int.emod_lt_of_pos i hn
    have hj := ediv_emod_neg_of_zero hn hs.symm
    rcases Int.emod_two_eq_zero_or_one (i / n) with hk | hk <;>
      rcases Int.emod_two_eq_zero_or_one (j / n) with hl | hl <;>
      simp only [folded, quartered, boxOf, rows, columns, reduce, Cell.transpose, hj, hk,
        hl, ← hs, Int.neg_emod_two] <;>
      grind
  · have hj := ediv_emod_neg_of_pos hn hs
    rcases Int.emod_two_eq_zero_or_one (i / n) with hk | hk <;>
      rcases Int.emod_two_eq_zero_or_one (j / n) with hl | hl <;>
      simp [folded, quartered, boxOf, rows, columns, reduce, hj, hk, hl, reflect_emod_two]

theorem isSymmetry_flip (ht : (flippedRectangle m n).Sized) :
    (Folding.tessellated (flippedRectangle m n)).IsSymmetry ((flippedRectangle m n).motion 1) := by
  refine (isSymmetry_motion_iff ht (by simp [labelCount])).mpr fun ⟨i, j⟩ => ?_
  have hi := ediv_emod_reflect (n := m) ht.rows_pos i
  rcases Int.emod_two_eq_zero_or_one (i / m) with hk | hk <;>
    simp [folded, mirrored, boxOf, rows, columns, reduce, recentred, image, center, Cell.shiftBack,
      hi, hk, reflect_emod_two]

theorem isSymmetry_mirror (ht : (flippedRectangle m n).Sized) :
    (Folding.tessellated (flippedRectangle m n)).IsSymmetry ((flippedRectangle m n).motion 2) := by
  refine (isSymmetry_motion_iff ht (by simp [labelCount])).mpr fun ⟨i, j⟩ => ?_
  have hj := ediv_emod_reflect (n := n) ht.columns_pos j
  rcases Int.emod_two_eq_zero_or_one (j / n) with hl | hl <;>
    simp [folded, mirrored, boxOf, rows, columns, reduce, recentred, image, center, Cell.shiftBack,
      hj, hl, reflect_emod_two]

theorem isSymmetry_centerFlip (ht : (centerFlippedRectangle m n).Sized) :
    (Folding.tessellated (centerFlippedRectangle m n)).IsSymmetry
      ((centerFlippedRectangle m n).motion 1) := by
  refine (isSymmetry_motion_iff ht (by simp [labelCount])).mpr fun ⟨i, j⟩ => ?_
  have hm : 0 < m := ht.rows_pos
  have hflip : (centerFlippedRectangle m n).recentred 1 ⟨i, j⟩ = ⟨-i, j⟩ := by
    simp [recentred, image, center, corner, Cell.shiftBack]
    ring
  rw [hflip]
  rcases (Int.emod_nonneg i hm.ne').eq_or_lt with hr | hr
  · have hi := ediv_emod_neg_of_zero hm hr.symm
    simp [folded, mirrored, boxOf, rows, columns, reduce, hi, ← hr]
  · have hi := ediv_emod_neg_of_pos hm hr
    rcases Int.emod_two_eq_zero_or_one (i / m) with hk | hk <;>
      simp [folded, mirrored, boxOf, rows, columns, reduce, hi, hk, reflect_emod_two]

theorem isSymmetry_centerMirror (ht : (centerFlippedRectangle m n).Sized) :
    (Folding.tessellated (centerFlippedRectangle m n)).IsSymmetry
      ((centerFlippedRectangle m n).motion 2) := by
  refine (isSymmetry_motion_iff ht (by simp [labelCount])).mpr fun ⟨i, j⟩ => ?_
  have hn : 0 < n := ht.columns_pos
  have hmirror : (centerFlippedRectangle m n).recentred 2 ⟨i, j⟩ = ⟨i, -j⟩ := by
    simp [recentred, image, center, corner, Cell.shiftBack]
    ring
  rw [hmirror]
  rcases (Int.emod_nonneg j hn.ne').eq_or_lt with hs | hs
  · have hj := ediv_emod_neg_of_zero hn hs.symm
    simp [folded, mirrored, boxOf, rows, columns, reduce, hj, ← hs]
  · have hj := ediv_emod_neg_of_pos hn hs
    rcases Int.emod_two_eq_zero_or_one (j / n) with hl | hl <;>
      simp [folded, mirrored, boxOf, rows, columns, reduce, hj, hl, reflect_emod_two]

theorem isSymmetry_glideRows (ht : (crossSurface m n).Sized) :
    (Folding.tessellated (crossSurface m n)).IsSymmetry ((crossSurface m n).motion 1) := by
  refine (isSymmetry_motion_iff ht (by simp [labelCount])).mpr fun ⟨i, j⟩ => ?_
  have hi := ediv_emod_sub (n := m) ht.rows_pos i
  have hj := ediv_emod_last_sub (n := n) ht.columns_pos j
  rcases Int.emod_two_eq_zero_or_one (i / m) with hk | hk <;>
    simp [folded, mirrored, boxOf, rows, columns, reduce, recentred, image, center, Cell.shiftBack,
      Cell.transpose, hi, hj, hk, pred_emod_two]

theorem isSymmetry_glideColumns (ht : (crossSurface m n).Sized) :
    (Folding.tessellated (crossSurface m n)).IsSymmetry ((crossSurface m n).motion 3) := by
  refine (isSymmetry_motion_iff ht (by simp [labelCount])).mpr fun ⟨i, j⟩ => ?_
  have hj := ediv_emod_sub (n := n) ht.columns_pos j
  have hi := ediv_emod_last_sub (n := m) ht.rows_pos i
  rcases Int.emod_two_eq_zero_or_one (j / n) with hl | hl <;>
    simp [folded, mirrored, boxOf, rows, columns, reduce, recentred, image, center, Cell.shiftBack,
      Cell.transpose, hi, hj, hl, pred_emod_two]

theorem isSymmetry_rotatedRhombus (ht : (rotatedRhombus n).Sized) :
    (Folding.tessellated (rotatedRhombus n)).IsSymmetry ((rotatedRhombus n).motion 1) := by
  refine (isSymmetry_motion_iff ht (by simp [labelCount])).mpr fun ⟨i, j⟩ => ?_
  have hn : 0 < n := ht.rows_pos
  have hj := ediv_emod_neg_sub_one hn j
  have hi₁ := Int.emod_lt_of_pos i hn
  have hj₁ := Int.emod_lt_of_pos j hn
  have hi₀ := Int.emod_nonneg i hn.ne'
  have hj₀ := Int.emod_nonneg j hn.ne'
  rcases le_or_gt (j % n) (i % n) with hle | hlt
  · have hd := ediv_emod_diff_of_le hn hle
    simp only [folded, thirded, boxOf, rows, columns, reduce, recentred, image, center,
      Cell.shiftBack, hj, hd, sub_zero, one_ne_zero, if_true, if_false]
    grind
  · have hd := ediv_emod_diff_of_lt hn hlt
    simp only [folded, thirded, boxOf, rows, columns, reduce, recentred, image, center,
      Cell.shiftBack, hj, hd, sub_zero, one_ne_zero, if_true, if_false]
    grind

theorem isSymmetry_faceRotatedRhombus (ht : (faceRotatedRhombus n).Sized) :
    (Folding.tessellated (faceRotatedRhombus n)).IsSymmetry ((faceRotatedRhombus n).motion 1) := by
  refine (isSymmetry_motion_iff ht (by simp [labelCount])).mpr fun ⟨i, j⟩ => ?_
  have hn : 0 < n := ht.rows_pos
  have hspin : (faceRotatedRhombus n).recentred 1 ⟨i, j⟩ = ⟨-j, i - j⟩ := by
    simp [recentred, image, center, corner, Cell.shiftBack]
  rw [hspin]
  have hi₁ := Int.emod_lt_of_pos i hn
  have hj₁ := Int.emod_lt_of_pos j hn
  have hi₀ := Int.emod_nonneg i hn.ne'
  rcases (Int.emod_nonneg j hn.ne').eq_or_lt with hs | hs
  · have hj := ediv_emod_neg_of_zero hn hs.symm
    have hd := ediv_emod_diff_of_le hn (hs ▸ hi₀ : j % n ≤ i % n)
    simp only [folded, thirded, boxOf, rows, columns, reduce, Cell.transpose, hj, hd, ← hs]
    grind
  · have hj := ediv_emod_neg_of_pos hn hs
    rcases le_or_gt (j % n) (i % n) with hle | hlt
    · have hd := ediv_emod_diff_of_le hn hle
      simp only [folded, thirded, boxOf, rows, columns, reduce, Cell.transpose, hj, hd]
      grind
    · have hd := ediv_emod_diff_of_lt hn hlt
      simp only [folded, thirded, boxOf, rows, columns, reduce, Cell.transpose, hj, hd]
      grind

theorem motion_zero (t : Tessellation) : t.motion 0 = 1 := by
  refine Equiv.ext fun p => ?_
  cases t <;> simp [recentred, center, corner, image, Cell.shiftBack]

/-! The motions of the other labels are products of the first ones. -/

section Products

variable {H : Subgroup (Equiv.Perm Cell)} {label : Nat}

theorem motion_mem_of_square (ht : t = rotatedSquare n ∨ t = faceRotatedSquare n)
    (h₁ : t.motion 1 ∈ H) (hlabel : label < 4) : t.motion label ∈ H := by
  have h₂ : t.motion 2 = t.motion 1 * t.motion 1 := by
    refine Equiv.ext fun p => ?_
    rcases ht with rfl | rfl <;> simp [recentred, center, corner, image, Cell.shiftBack]
  have h₃ : t.motion 3 = t.motion 2 * t.motion 1 := by
    refine Equiv.ext fun p => ?_
    rcases ht with rfl | rfl <;> simp [recentred, center, corner, image, Cell.shiftBack]
  have hmem : t.motion 2 ∈ H := h₂ ▸ mul_mem h₁ h₁
  interval_cases label
  · exact motion_zero t ▸ one_mem H
  · exact h₁
  · exact hmem
  · exact h₃ ▸ mul_mem hmem h₁

theorem motion_mem_of_rhombus (ht : t = rotatedRhombus n ∨ t = faceRotatedRhombus n)
    (h₁ : t.motion 1 ∈ H) (hlabel : label < 3) : t.motion label ∈ H := by
  have h₂ : t.motion 2 = t.motion 1 * t.motion 1 := by
    refine Equiv.ext fun p => ?_
    rcases ht with rfl | rfl <;> simp [recentred, center, corner, image, Cell.shiftBack] <;> ring
  interval_cases label
  · exact motion_zero t ▸ one_mem H
  · exact h₁
  · exact h₂ ▸ mul_mem h₁ h₁

theorem motion_mem_of_rectangle (ht : t = flippedRectangle m n ∨ t = centerFlippedRectangle m n)
    (h₁ : t.motion 1 ∈ H) (h₂ : t.motion 2 ∈ H) (hlabel : label < 4) : t.motion label ∈ H := by
  have h₃ : t.motion 3 = t.motion 1 * t.motion 2 := by
    refine Equiv.ext fun p => ?_
    rcases ht with rfl | rfl <;> simp [recentred, center, corner, image, Cell.shiftBack]
  interval_cases label
  · exact motion_zero t ▸ one_mem H
  · exact h₁
  · exact h₂
  · exact h₃ ▸ mul_mem h₁ h₂

theorem motion_mem_of_crossSurface
    (hshift : (crossSurface m n).boxTranslation ⟨0, -2⟩ ∈ H)
    (h₁ : (crossSurface m n).motion 1 ∈ H) (h₃ : (crossSurface m n).motion 3 ∈ H)
    (hlabel : label < 4) : (crossSurface m n).motion label ∈ H := by
  have h₂ : (crossSurface m n).motion 2 = (crossSurface m n).boxTranslation ⟨0, -2⟩ *
      ((crossSurface m n).motion 1 * (crossSurface m n).motion 3) := by
    refine Equiv.ext fun p => ?_
    simp [recentred, center, image, Cell.shiftBack, Cell.shift, columns]
    constructor <;> ring
  interval_cases label
  · exact motion_zero (crossSurface m n) ▸ one_mem H
  · exact h₁
  · exact h₂ ▸ mul_mem hshift (mul_mem h₁ h₃)
  · exact h₃

end Products

theorem isSymmetry_motion (ht : t.Sized) {label : Nat} (hlabel : label < t.labelCount) :
    (Folding.tessellated t).IsSymmetry (t.motion label) := by
  rw [← Folding.mem_symmetryGroup]
  cases t with
  | rotatedSquare n => exact motion_mem_of_square (.inl rfl) (isSymmetry_rotatedSquare ht) hlabel
  | faceRotatedSquare n =>
    exact motion_mem_of_square (.inr rfl) (isSymmetry_faceRotatedSquare ht) hlabel
  | rotatedRhombus n => exact motion_mem_of_rhombus (.inl rfl) (isSymmetry_rotatedRhombus ht) hlabel
  | faceRotatedRhombus n =>
    exact motion_mem_of_rhombus (.inr rfl) (isSymmetry_faceRotatedRhombus ht) hlabel
  | flippedRectangle m n =>
    exact motion_mem_of_rectangle (.inl rfl) (isSymmetry_flip ht) (isSymmetry_mirror ht) hlabel
  | centerFlippedRectangle m n =>
    exact motion_mem_of_rectangle (.inr rfl) (isSymmetry_centerFlip ht) (isSymmetry_centerMirror ht)
      hlabel
  | crossSurface m n =>
    exact motion_mem_of_crossSurface (isSymmetry_boxTranslation ht rfl) (isSymmetry_glideRows ht)
      (isSymmetry_glideColumns ht) hlabel

/-- **Generators.** A folding sees none of the motions that its labels generate. -/
theorem symmetries_le (ht : t.Sized) : t.symmetries ≤ (Folding.tessellated t).symmetryGroup := by
  refine (Subgroup.closure_le _).mpr ?_
  rintro g (⟨label, hlabel, rfl⟩ | ⟨box, hbox, rfl⟩)
  · exact isSymmetry_motion ht hlabel
  · exact isSymmetry_boxTranslation ht hbox

/-! ### A motion carries every cell to its representative -/

theorem exists_transpose (ht : t = faceRotatedSquare n ∨ t = faceRotatedRhombus n) {p : Cell}
    (hp : p.row = n ∨ p.column = 0) : ∃ g ∈ t.symmetries, g p = p.transpose := by
  obtain ⟨i, j⟩ := p
  have h₁ : 1 < t.labelCount := by rcases ht with rfl | rfl <;> simp [labelCount]
  rcases hp with rfl | rfl
  · rcases ht with rfl | rfl
    · refine ⟨_, mul_mem (boxTranslation_mem ⟨0, 2⟩ rfl) (motion_mem 3 ?_), ?_⟩
      · simp [labelCount]
      · simp [recentred, center, corner, image, Cell.shiftBack, Cell.shift, Cell.transpose, columns]
        ring
    · refine ⟨_, mul_mem (boxTranslation_mem ⟨1, 2⟩ rfl) (motion_mem 2 ?_), ?_⟩
      · simp [labelCount]
      · simp [recentred, center, corner, image, Cell.shiftBack, Cell.shift, Cell.transpose, rows,
          columns]
        ring
  · refine ⟨_, motion_mem 1 h₁, ?_⟩
    rcases ht with rfl | rfl <;>
      simp [recentred, center, corner, image, Cell.shiftBack, Cell.transpose]

theorem reduce_eq (t : Tessellation) (p : Cell) :
    t.reduce p = p.shiftBack ⟨t.rows * (t.boxOf p).row, t.columns * (t.boxOf p).column⟩ := by
  simp only [reduce, boxOf, Cell.shiftBack, Int.emod_def]

theorem recenter_cell (t : Tessellation) (label : Nat) {p q : Cell}
    (hq : q = p.shiftBack (t.center label)) : (t.recenter p label).cell = q ∨
      (t = faceRotatedSquare t.rows ∨ t = faceRotatedRhombus t.rows) ∧
        (q.row = t.rows ∨ q.column = 0) ∧ (t.recenter p label).cell = q.transpose := by
  cases t with
  | faceRotatedSquare n | faceRotatedRhombus n =>
    simp only [recenter, rows]
    simp only [center] at hq
    rw [← hq]
    by_cases hborder : q.row = n ∨ q.column = 0
    · exact .inr ⟨by simp, hborder, if_pos hborder⟩
    · exact .inl (if_neg hborder)
  | centerFlippedRectangle m n => exact .inl hq.symm
  | rotatedSquare n | rotatedRhombus n | flippedRectangle m n | crossSurface m n =>
    left
    simp [recenter, hq, center, Cell.shiftBack]

theorem exists_symmetry (ht : t.Sized) (p : Cell) :
    ∃ g ∈ t.symmetries, g p = (t.fold p).cell := by
  have hlabel := labelAt_lt t (t.boxOf p) (t.reduce p)
  have hturned := isTurned_boxOf_image ht p hlabel
  rw [fold_eq ht]
  set label := t.labelAt (t.boxOf p) (t.reduce p)
  replace hturned : t.isTurned (t.boxOf (t.image label p)) = false := by simpa using hturned
  -- The motion of the label, and then back by whole boxes.
  let g := (t.boxTranslation (t.boxOf (t.image label p)))⁻¹ * t.motion label
  have hg : g ∈ t.symmetries :=
    mul_mem (inv_mem (boxTranslation_mem _ hturned)) (motion_mem label hlabel)
  have hplace : g p = (t.reduce (t.image label p)).shiftBack (t.center label) := by
    rw [reduce_eq]
    simp only [g, Equiv.Perm.mul_apply, motion_apply, Equiv.Perm.inv_def, boxTranslation,
      Cell.translation, Equiv.coe_fn_symm_mk, recentred, Cell.shiftBack, Cell.mk.injEq]
    constructor <;> ring
  rcases recenter_cell t label hplace with h | ⟨hface, hborder, h⟩
  · exact ⟨g, hg, h.symm⟩
  · obtain ⟨g', hg', htranspose⟩ := exists_transpose hface hborder
    exact ⟨g' * g, mul_mem hg' hg, htranspose.trans h.symm⟩

end Tessellation

/-! ## Representatives -/

namespace Tessellation

variable {t : Tessellation} {m n : Int} {p : Cell}

/-- The cells that stand for themselves. A box that is turned about cells keeps its upper and its
right border and two corners. -/
def IsRepresentative : Tessellation → Cell → Prop
  | faceRotatedSquare n, p | faceRotatedRhombus n, p =>
    0 ≤ p.row ∧ p.row < n ∧ 0 < p.column ∧ p.column ≤ n ∨ p = ⟨0, 0⟩ ∨ p = ⟨n, n⟩
  | centerFlippedRectangle m n, p => 0 ≤ p.row ∧ p.row ≤ m ∧ 0 ≤ p.column ∧ p.column ≤ n
  | t, p => 0 ≤ p.row ∧ p.row < t.rows ∧ 0 ≤ p.column ∧ p.column < t.columns

theorem bounds_of_isRepresentative (ht : t.Sized) (hp : t.IsRepresentative p) :
    0 ≤ p.row ∧ p.row ≤ t.rows ∧ 0 ≤ p.column ∧ p.column ≤ t.columns := by
  obtain ⟨i, j⟩ := p
  cases t with
  | faceRotatedSquare n | faceRotatedRhombus n =>
    have hn := ht.rows_pos
    simp only [rows, columns, IsRepresentative, Cell.mk.injEq] at hn hp ⊢
    omega
  | centerFlippedRectangle m n => exact hp
  | rotatedSquare n | rotatedRhombus n | flippedRectangle m n | crossSurface m n =>
    obtain ⟨hi, him, hj, hjn⟩ := hp
    exact ⟨hi, him.le, hj, hjn.le⟩

theorem isRepresentative_folded (box : Cell) {r s : Int} (hr : 0 ≤ r) (hr' : r < t.rows) (hs : 0 ≤ s)
    (hs' : s < t.columns) : t.IsRepresentative (t.folded box ⟨r, s⟩) := by
  cases t with
  | flippedRectangle m n | centerFlippedRectangle m n | crossSurface m n =>
    simp only [IsRepresentative, folded, mirrored, rows, columns, Cell.transpose] at *
    split_ifs <;> omega
  | rotatedSquare n | faceRotatedSquare n =>
    simp only [IsRepresentative, folded, quartered, rows, columns, Cell.transpose] at *
    grind
  | rotatedRhombus n | faceRotatedRhombus n =>
    simp only [IsRepresentative, folded, thirded, rows, columns, Cell.transpose] at *
    grind

theorem isRepresentative_fold (ht : t.Sized) (p : Cell) : t.IsRepresentative (t.fold p).cell := by
  rw [fold_cell ht]
  exact isRepresentative_folded _ (Int.emod_nonneg _ ht.rows_pos.ne')
    (Int.emod_lt_of_pos _ ht.rows_pos) (Int.emod_nonneg _ ht.columns_pos.ne')
    (Int.emod_lt_of_pos _ ht.columns_pos)

theorem fold_cell_of_isRepresentative (ht : t.Sized) (hp : t.IsRepresentative p) :
    (t.fold p).cell = p := by
  have hrows := Int.ediv_self ht.rows_pos.ne'
  rw [fold_cell ht]
  cases t with
  | rotatedSquare n | rotatedRhombus n | flippedRectangle m n | crossSurface m n =>
    obtain ⟨hi, him, hj, hjn⟩ := hp
    have hi := ediv_emod_of_lt hi him
    have hj := ediv_emod_of_lt hj hjn
    simp [folded, quartered, mirrored, thirded, boxOf, reduce, Cell.transpose, hi, hj]
  | centerFlippedRectangle m n =>
    obtain ⟨i, j⟩ := p
    obtain ⟨hi, him, hj, hjn⟩ := hp
    have hm : 0 < m := ht.rows_pos
    have hn : 0 < n := ht.columns_pos
    simp only at hi him hj hjn
    have hrow : (if i / m % 2 = 0 then i % m else m - i % m) = i := by
      rcases him.lt_or_eq with him | rfl
      · simp [ediv_emod_of_lt hi him]
      · simp [Int.ediv_self hm.ne']
    have hcolumn : (if j / n % 2 = 0 then j % n else n - j % n) = j := by
      rcases hjn.lt_or_eq with hjn | rfl
      · simp [ediv_emod_of_lt hj hjn]
      · simp [Int.ediv_self hn.ne']
    exact congrArg₂ Cell.mk hrow hcolumn
  | faceRotatedSquare n | faceRotatedRhombus n =>
    rcases hp with ⟨hi, hin, hj, hjn⟩ | rfl | rfl
    · obtain ⟨i, j⟩ := p
      have hi' := ediv_emod_of_lt hi hin
      simp only at hi hin hj hjn
      rcases hjn.lt_or_eq with hjn | rfl
      · have hj' := ediv_emod_of_lt hj.le hjn
        simp [folded, quartered, thirded, boxOf, reduce, rows, columns, hi', hj', hin.ne, hj.ne']
      · simp [folded, quartered, thirded, boxOf, reduce, rows, columns, hi', Int.ediv_self hj.ne',
          Cell.transpose, hi]
    · simp [folded, quartered, thirded, boxOf, reduce, rows, columns, Cell.transpose]
    · simp only [rows] at hrows
      simp [folded, quartered, thirded, boxOf, reduce, rows, columns, hrows, Cell.transpose]

theorem fold_of_isRepresentative (ht : t.Sized) (hp : t.IsRepresentative p) :
    t.fold p = ⟨p, 0⟩ := by
  have hlabel : (t.fold p).label = 0 := by
    cases t with
    | faceRotatedSquare n | faceRotatedRhombus n | centerFlippedRectangle m n =>
      exact label_foldBy (fun _ _ => rfl) p _
    | rotatedSquare n | rotatedRhombus n | flippedRectangle m n | crossSurface m n =>
      obtain ⟨hi, him, hj, hjn⟩ := hp
      have hbox : boxOf _ p = ⟨0, 0⟩ :=
        congrArg₂ Cell.mk (ediv_emod_of_lt hi him).1 (ediv_emod_of_lt hj hjn).1
      rw [fold_of_not_isTurned (by rw [hbox]; rfl), label_recenter_zero]
  rw [show t.fold p = ⟨(t.fold p).cell, (t.fold p).label⟩ from rfl, hlabel,
    fold_cell_of_isRepresentative ht hp]

end Tessellation

namespace Folding

variable {f : Folding} {p : Cell}

/-- The cells that stand for themselves. -/
def IsRepresentative : Folding → Cell → Prop
  | torus m n _, p => 0 ≤ p.row ∧ p.row < m ∧ 0 ≤ p.column ∧ p.column < n
  | bounded _ _, _ => True
  | strip _ n, p => 0 ≤ p.column ∧ p.column < n
  | tessellated t, p => t.IsRepresentative p

theorem Sized.tessellation {t : Tessellation} (hf : (tessellated t).Sized) : t.Sized :=
  ⟨hf.rows_pos, hf.columns_pos⟩

theorem fold_of_isRepresentative (hf : f.Sized) (hp : f.IsRepresentative p) :
    f.fold p = ⟨p, 0⟩ := by
  cases f with
  | torus m n shift =>
    obtain ⟨hi, him, hj, hjn⟩ := hp
    simp [fold, ediv_emod_of_lt hi him, ediv_emod_of_lt hj hjn]
  | bounded m n => rfl
  | strip m n => simp [fold, ediv_emod_of_lt hp.1 hp.2]
  | tessellated t => exact Tessellation.fold_of_isRepresentative hf.tessellation hp

theorem isRepresentative_fold (hf : f.Sized) (p : Cell) : f.IsRepresentative (f.fold p).cell := by
  cases f with
  | torus m n shift =>
    exact ⟨Int.emod_nonneg _ hf.rows_pos.ne', Int.emod_lt_of_pos _ hf.rows_pos,
      Int.emod_nonneg _ hf.columns_pos.ne', Int.emod_lt_of_pos _ hf.columns_pos⟩
  | bounded m n => trivial
  | strip m n => exact ⟨Int.emod_nonneg _ hf.columns_pos.ne', Int.emod_lt_of_pos _ hf.columns_pos⟩
  | tessellated t => exact Tessellation.isRepresentative_fold hf.tessellation p

theorem fold_fold (hf : f.Sized) (p : Cell) : f.fold (f.fold p).cell = ⟨(f.fold p).cell, 0⟩ :=
  fold_of_isRepresentative hf (isRepresentative_fold hf p)

theorem exists_shift_torus (m n shift : Int) (p : Cell) :
    ∃ a b, ((torus m n shift).fold p).cell = p.shift ⟨m * a, n * b - shift * a⟩ := by
  refine ⟨-(p.row / m), -((p.column + shift * (p.row / m)) / n), congrArg₂ Cell.mk ?_ ?_⟩
  · linear_combination Int.emod_add_mul_ediv p.row m
  · linear_combination Int.emod_add_mul_ediv (p.column + shift * (p.row / m)) n

theorem exists_shift_strip (m n : Int) (p : Cell) :
    ∃ b, ((strip m n).fold p).cell = p.shift ⟨0, n * b⟩ := by
  refine ⟨-(p.column / n), congrArg₂ Cell.mk (add_zero _).symm ?_⟩
  linear_combination Int.emod_add_mul_ediv p.column n

/-- **Cells and their representatives.** A symmetry carries every cell to its representative. -/
theorem exists_isSymmetry (hf : f.Sized) (p : Cell) :
    ∃ g, f.IsSymmetry g ∧ g p = (f.fold p).cell := by
  cases f with
  | torus m n shift =>
    obtain ⟨a, b, h⟩ := exists_shift_torus m n shift p
    exact ⟨_, isSymmetry_torus hf.rows_pos shift a b, h.symm⟩
  | bounded m n => exact ⟨1, one_mem (bounded m n).symmetryGroup, rfl⟩
  | strip m n =>
    obtain ⟨b, h⟩ := exists_shift_strip m n p
    exact ⟨_, isSymmetry_strip m n b, h.symm⟩
  | tessellated t =>
    obtain ⟨g, hg, h⟩ := Tessellation.exists_symmetry hf.tessellation p
    exact ⟨g, Tessellation.symmetries_le hf.tessellation hg, h⟩

theorem perm_fold_shift (hf : f.Sized) (p : Cell) :
    (f.steps.map fun d => (f.fold ((f.fold p).cell.shift d)).cell).Perm
      (f.steps.map fun d => (f.fold (p.shift d)).cell) := by
  obtain ⟨g, hg, hp⟩ := exists_isSymmetry hf p
  have hmap := (hg.rigid p).map fun q => (f.fold q).cell
  rw [List.map_map, List.map_map] at hmap
  rw [← hp]
  refine hmap.symm.trans (List.Perm.of_eq (List.map_congr_left fun d _ => ?_))
  exact hg.fold_cell (p.shift d)

theorem fold_shift_fold (hf : f.Sized) (hflat : ∀ t, f ≠ tessellated t) (p v : Cell) :
    (f.fold ((f.fold p).cell.shift v)).cell = (f.fold (p.shift v)).cell := by
  cases f with
  | torus m n shift =>
    obtain ⟨a, b, h⟩ := exists_shift_torus m n shift p
    have hcomm : (p.shift ⟨m * a, n * b - shift * a⟩).shift v =
        (p.shift v).shift ⟨m * a, n * b - shift * a⟩ := by
      simp only [Cell.shift, Cell.mk.injEq]
      constructor <;> ring
    rw [h, hcomm]
    exact (isSymmetry_torus hf.rows_pos shift a b).fold_cell (p.shift v)
  | bounded m n => rfl
  | strip m n => simp [fold, Cell.shift]
  | tessellated t => exact absurd rfl (hflat t)

end Folding

end CellSat
