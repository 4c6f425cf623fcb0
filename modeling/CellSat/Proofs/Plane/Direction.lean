import Mathlib
import CellSat.Proofs.Plane.Fit
import CellSat.Template.Turn
/-!
# Directions and orientations

Where boxes are turned about their corners, the label of a cell is the number of turns that lead to
its representative. A turn carries every direction to the one before it, so a step from a cell is a
step from the representative in a direction that is turned back, and turns add up along the way.

* `Tessellation.wheels`: the directions in the order of the turns;
* `Tessellation.image_image`, `Tessellation.linear_spoke`: turns add up, and turn directions back;
* `Tessellation.fold_shift_linear`: a step from a cell and a step from its representative;
* **`Tessellation.fold64_shift_spoke`**: the same in machine words.
-/

namespace CellSat.Tessellation

variable {t : Tessellation} {n : Int} {wheel : List String} {label k : Nat} {p : Cell}

/-- The sides and the corners of a cell, in the order in which turns of the boxes pass them. -/
def wheels : Tessellation → List (List String)
  | rotatedSquare _ => [["N", "E", "S", "W"], ["NE", "SE", "SW", "NW"]]
  | rotatedRhombus _ => [["N", "SE", "W"], ["NW", "E", "S"]]
  | _ => []

/-- The step in a direction of a wheel. -/
def spoke? (wheel : List String) (k : Nat) : Option Cell := wheel[k]?.bind Cell.displacement?

theorem eq_of_mem_wheels (h : wheel ∈ t.wheels) :
    t = rotatedSquare t.rows ∨ t = rotatedRhombus t.rows := by
  cases t with
  | rotatedSquare n => exact .inl rfl
  | rotatedRhombus n => exact .inr rfl
  | faceRotatedSquare n | faceRotatedRhombus n => exact absurd h List.not_mem_nil
  | flippedRectangle m n | centerFlippedRectangle m n | crossSurface m n =>
    exact absurd h List.not_mem_nil

/-! ## Turns -/

theorem image_image (ht : t = rotatedSquare n ∨ t = rotatedRhombus n) {l m : Nat}
    (hl : l < t.labelCount) (hm : m < t.labelCount) (p : Cell) :
    t.image l (t.image m p) = t.image ((l + m) % t.labelCount) p := by
  obtain ⟨i, j⟩ := p
  rcases ht with rfl | rfl
  · simp only [labelCount] at hl hm
    interval_cases l <;> interval_cases m <;> simp [image, labelCount]
  · simp only [labelCount] at hl hm
    interval_cases l <;> interval_cases m <;> simp [image, labelCount] <;> omega

theorem linear_spoke (hwheel : wheel ∈ t.wheels) (hlabel : label < t.labelCount)
    (hk : k < t.labelCount) :
    ∃ d, spoke? wheel k = some d ∧
      spoke? wheel ((Turn.cyclic t.labelCount).adjust label k) = some (t.linear label d) := by
  cases t with
  | rotatedSquare n =>
    simp only [labelCount] at hlabel hk
    simp only [wheels, List.mem_cons, List.not_mem_nil, or_false] at hwheel
    rcases hwheel with rfl | rfl <;> interval_cases label <;> interval_cases k <;>
      simp [spoke?, Cell.displacement?, Turn.adjust, labelCount, linear, corner, image,
        Cell.shiftBack]
  | rotatedRhombus n =>
    simp only [labelCount] at hlabel hk
    simp only [wheels, List.mem_cons, List.not_mem_nil, or_false] at hwheel
    rcases hwheel with rfl | rfl <;> interval_cases label <;> interval_cases k <;>
      simp [spoke?, Cell.displacement?, Turn.adjust, labelCount, linear, corner, image,
        Cell.shiftBack]
  | faceRotatedSquare n | faceRotatedRhombus n => exact absurd hwheel List.not_mem_nil
  | flippedRectangle m n | centerFlippedRectangle m n | crossSurface m n =>
    exact absurd hwheel List.not_mem_nil

/-! ## Folds -/

theorem fold_of_turning (hturning : t = rotatedSquare n ∨ t = rotatedRhombus n) (ht : t.Sized)
    (hlabel : label < t.labelCount) (hbox : t.isTurned (t.boxOf (t.image label p)) = false) :
    t.fold p = ⟨t.reduce (t.image label p), label⟩ := by
  have hunique := isTurned_boxOf_image ht p hlabel
  rw [hbox] at hunique
  obtain rfl : label = t.labelAt (t.boxOf p) (t.reduce p) := by simpa using hunique
  rw [fold_eq ht]
  rcases hturning with rfl | rfl <;> rfl

theorem isTurned_of_fold (hturning : t = rotatedSquare n ∨ t = rotatedRhombus n) (ht : t.Sized)
    (p : Cell) : (t.fold p).label < t.labelCount ∧
      t.isTurned (t.boxOf (t.image (t.fold p).label p)) = false := by
  have hlabel := labelAt_lt t (t.boxOf p) (t.reduce p)
  have hbox : t.isTurned (t.boxOf (t.image (t.labelAt (t.boxOf p) (t.reduce p)) p)) = false := by
    simpa using isTurned_boxOf_image ht p hlabel
  rw [fold_of_turning hturning ht hlabel hbox]
  exact ⟨hlabel, hbox⟩

theorem labelAt_shift_box {box : Cell} (hbox : t.isTurned box = false) (box' rest : Cell) :
    t.labelAt (box'.shift box) rest = t.labelAt box' rest := by
  cases t with
  | rotatedRhombus n | faceRotatedRhombus n =>
    have hsum : (box'.row + box.row + (box'.column + box.column)) % 3 =
        (box'.row + box'.column) % 3 := by
      simp only [isTurned, bne_eq_false_iff_eq] at hbox
      omega
    simp only [labelAt, Cell.shift, hsum]
  | rotatedSquare n | faceRotatedSquare n | flippedRectangle m n | centerFlippedRectangle m n
  | crossSurface m n =>
    simp only [isTurned, Bool.or_eq_false_iff, bne_eq_false_iff_eq] at hbox
    have hrow : (box'.row + box.row) % 2 = box'.row % 2 := by omega
    have hcolumn : (box'.column + box.column) % 2 = box'.column % 2 := by omega
    simp only [labelAt, Cell.shift, hrow, hcolumn]

/-- Neither the representative nor the label sees a move into a box that is not turned. -/
theorem fold_boxTranslation (hturning : t = rotatedSquare n ∨ t = rotatedRhombus n) (ht : t.Sized)
    {box : Cell} (hbox : t.isTurned box = false) (p : Cell) :
    t.fold (t.boxTranslation box p) = t.fold p := by
  have hcell : (t.fold (t.boxTranslation box p)).cell = (t.fold p).cell :=
    (isSymmetry_boxTranslation ht hbox).fold_cell p
  have hlabel : ∀ q, (t.fold q).label = t.labelAt (t.boxOf q) (t.reduce q) := by
    intro q
    rw [fold_eq ht]
    rcases hturning with rfl | rfl <;> rfl
  have hlabels : (t.fold (t.boxTranslation box p)).label = (t.fold p).label := by
    rw [hlabel, hlabel, boxOf_boxTranslation ht, reduce_boxTranslation, labelAt_shift_box hbox]
  exact congrArg₂ Folded.mk hcell hlabels

/-- **A step from a cell** is one from its representative, turned back, and the labels add up. -/
theorem fold_shift_linear (hturning : t = rotatedSquare n ∨ t = rotatedRhombus n) (ht : t.Sized)
    (p d : Cell) {r s : Folded} (hr : t.fold p = r)
    (hs : t.fold (r.cell.shift (t.linear r.label d)) = s) :
    t.fold (p.shift d) = ⟨s.cell, (r.label + s.label) % t.labelCount⟩ := by
  obtain ⟨hlabel, hbox⟩ := isTurned_of_fold hturning ht p
  have hcell : r.cell = t.reduce (t.image r.label p) := by
    rw [← hr]
    nth_rewrite 1 [fold_of_turning hturning ht hlabel hbox]
    rfl
  rw [hr] at hlabel hbox
  -- the image of the step is the same step from the representative, some boxes away
  have himage : t.image r.label (p.shift d) = t.boxTranslation (t.boxOf (t.image r.label p))
      (r.cell.shift (t.linear r.label d)) := by
    rw [image_shift, hcell, reduce_eq]
    simp only [boxTranslation_apply, Cell.shift, Cell.shiftBack, Cell.mk.injEq]
    constructor <;> ring
  have hfold : t.fold (t.image r.label (p.shift d)) = s := by
    rw [himage, fold_boxTranslation hturning ht hbox, hs]
  obtain ⟨hlabel', hbox'⟩ := isTurned_of_fold hturning ht (t.image r.label (p.shift d))
  have hcell' := fold_of_turning hturning ht hlabel' hbox'
  rw [hfold] at hlabel' hbox' hcell'
  have hsum : (s.label + r.label) % t.labelCount < t.labelCount := Nat.mod_lt _ (by omega)
  rw [image_image hturning hlabel' hlabel] at hbox' hcell'
  rw [fold_of_turning hturning ht hsum hbox', Nat.add_comm r.label]
  rw [hcell']

/-! ## Machine words -/

theorem okOrOverflow_recenter64 (t : Tessellation) (p : Cell) (label : Nat) :
    Word.OkOrOverflow (t.recenter64 p label) (t.recenter p label) := by
  cases t with
  | faceRotatedSquare n | faceRotatedRhombus n | centerFlippedRectangle m n =>
    exact (Word.okOrOverflow_within _ _).bind ((Word.okOrOverflow_within _ _).bind (.ok _))
  | rotatedSquare n | rotatedRhombus n | flippedRectangle m n | crossSurface m n => exact .ok _

theorem okOrOverflow_reduce64 (ht : t.Sized) (p : Cell) :
    Word.OkOrOverflow (t.reduce64 p) (t.reduce p) :=
  (Word.okOrOverflow_mod ht.rows_pos _).bind ((Word.okOrOverflow_mod ht.columns_pos _).bind (.ok _))

theorem okOrOverflow_boxOf64 (ht : t.Sized) (p : Cell) :
    Word.OkOrOverflow (t.boxOf64 p) (t.boxOf p) :=
  (Word.okOrOverflow_div ht.rows_pos _).bind ((Word.okOrOverflow_div ht.columns_pos _).bind (.ok _))

theorem okOrOverflow_isTurned64 (t : Tessellation) (box : Cell) :
    Word.OkOrOverflow (t.isTurned64 box) (t.isTurned box) := by
  cases t with
  | rotatedRhombus n | faceRotatedRhombus n => exact Word.okOrOverflow_within _ _
  | rotatedSquare n | faceRotatedSquare n | flippedRectangle m n | centerFlippedRectangle m n
  | crossSurface m n => exact .ok _

theorem okOrOverflow_foldBy64 (ht : t.Sized) (p : Cell) (labels : List Nat) :
    Word.OkOrOverflow (t.foldBy64 p labels) (t.foldBy p labels) := by
  induction labels with
  | nil => exact (okOrOverflow_reduce64 ht p).bind (.ok _)
  | cons label labels ih =>
    refine (Word.okOrOverflow_within _ _).bind ((okOrOverflow_boxOf64 ht _).bind
      ((okOrOverflow_isTurned64 t _).bind ?_))
    rw [foldBy]
    by_cases hturned : t.isTurned (t.boxOf (t.image label p)) = true
    · rw [if_pos hturned, if_pos hturned]
      exact ih
    · rw [if_neg hturned, if_neg hturned]
      exact (okOrOverflow_reduce64 ht _).bind (okOrOverflow_recenter64 t _ label)

section Turning

variable (hturning : t = rotatedSquare n ∨ t = rotatedRhombus n) (ht : t.Sized)

include hturning ht

theorem fold64_of_within (hp : p.Within (2 ^ 60)) : t.fold64 p = .ok (t.fold p) := by
  refine foldBy64_eq_ok_of_image ht (b := 2 ^ 61 + 1) (by norm_num) (hp.fits (by norm_num)) _
    fun label _ => ?_
  have himage : t.image64 label p = .ok (t.image label p) ∧
      (t.image label p).Within (2 ^ 61 + 1) := by
    obtain ⟨i, j⟩ := p
    simp only [Cell.Within] at hp ⊢
    constructor
    · refine Word.within_eq_ok ?_ _
      rcases hturning with rfl | rfl <;> simp only [imageSteps] <;> split_ifs <;> simp <;> omega
    · rcases hturning with rfl | rfl <;> simp only [image] <;> split_ifs <;> dsimp only <;> omega
  refine ⟨himage.1, himage.2.fits (by norm_num), boxOf_within himage.2, ?_⟩
  rcases hturning with rfl | rfl <;> rfl

/-- On the rhombus, not those whose row and column move in opposite ways. -/
theorem fold64_of_border (hrows : t.rows < 2 ^ 63) (hrow : -1 ≤ p.row) (hrow' : p.row ≤ t.rows)
    (hcolumn : -1 ≤ p.column) (hcolumn' : p.column ≤ t.rows)
    (hdiagonal : t = rotatedRhombus n → |p.row - p.column| ≤ n) :
    t.fold64 p = .ok (t.fold p) := by
  have hpos := ht.rows_pos
  have hfits : p.Fits := ⟨by omega, by omega, by omega, by omega⟩
  refine foldBy64_eq_ok_of_image ht (b := 2) (by norm_num) hfits _ fun label _ => ?_
  have himage : t.image64 label p = .ok (t.image label p) ∧
      (-t.rows - 1 ≤ (t.image label p).row ∧ (t.image label p).row ≤ t.rows) ∧
      (-t.rows - 1 ≤ (t.image label p).column ∧ (t.image label p).column ≤ t.rows) := by
    obtain ⟨i, j⟩ := p
    rcases hturning with rfl | rfl
    · simp only [rows] at *
      refine ⟨Word.within_eq_ok ?_ _, ?_⟩
      · simp only [imageSteps]
        split_ifs <;> simp <;> omega
      · simp only [image]
        split_ifs <;> dsimp only <;> omega
    · obtain ⟨hd, hd'⟩ := abs_le.mp (hdiagonal rfl)
      simp only [rows] at *
      refine ⟨Word.within_eq_ok ?_ _, ?_⟩
      · simp only [imageSteps]
        split_ifs <;> simp <;> omega
      · simp only [image]
        split_ifs <;> dsimp only <;> omega
  obtain ⟨himage, ⟨hi, hi'⟩, hj, hj'⟩ := himage
  have hbox : ∀ x : Int, -t.rows - 1 ≤ x → x ≤ t.rows → -2 ≤ x / t.rows ∧ x / t.rows ≤ 2 := by
    intro x hx hx'
    constructor
    · exact (Int.le_ediv_iff_mul_le hpos).mpr (by omega)
    · exact Int.lt_add_one_iff.mp ((Int.ediv_lt_iff_lt_mul hpos).mpr (by omega))
  have hcolumns : t.columns = t.rows := by rcases hturning with rfl | rfl <;> rfl
  refine ⟨himage, ⟨by omega, by omega, by omega, by omega⟩, ?_, ?_⟩
  · have := hbox _ hi hi'
    have := hbox _ hj hj'
    simp only [Cell.Within, boxOf, hcolumns]
    omega
  · rcases hturning with rfl | rfl <;> rfl

end Turning

/-! ## Steps in machine words -/

theorem spoke_bounds (hwheel : wheel ∈ t.wheels) {d : Cell} (hd : spoke? wheel k = some d) :
    d.Within 1 ∧ (t = rotatedRhombus n → |d.row - d.column| ≤ 1) := by
  obtain ⟨name, hname, hd⟩ := Option.bind_eq_some_iff.mp hd
  have hmem := List.mem_of_getElem? hname
  unfold Cell.Within
  rcases eq_of_mem_wheels hwheel with ht | ht
  · rw [ht] at hwheel ⊢
    simp only [wheels, List.mem_cons, List.not_mem_nil, or_false] at hwheel
    rcases hwheel with rfl | rfl <;>
      simp only [List.mem_cons, List.not_mem_nil, or_false] at hmem <;>
      rcases hmem with rfl | rfl | rfl | rfl <;> simp [Cell.displacement?] at hd <;> subst hd <;>
      simp
  · rw [ht] at hwheel ⊢
    simp only [wheels, List.mem_cons, List.not_mem_nil, or_false] at hwheel
    rcases hwheel with rfl | rfl <;>
      simp only [List.mem_cons, List.not_mem_nil, or_false] at hmem <;>
      rcases hmem with rfl | rfl | rfl <;> simp [Cell.displacement?] at hd <;> subst hd <;>
      simp

theorem fold64_spoke (ht : t.Sized) (hrows : t.rows ≤ Word.maxInt64) (hwheel : wheel ∈ t.wheels)
    {e : Cell} (he : spoke? wheel k = some e) {q : Cell} (hq : t.IsRepresentative q) :
    (q.shift64 e >>= t.fold64) = .ok (t.fold (q.shift e)) := by
  have hturning := eq_of_mem_wheels hwheel
  obtain ⟨⟨hr, hr', hc, hc'⟩, hdiagonal⟩ := spoke_bounds (n := t.rows) hwheel he
  have hbounds : 0 ≤ q.row ∧ q.row < t.rows ∧ 0 ≤ q.column ∧ q.column < t.rows := by
    rcases hturning with h | h <;> rw [h] at hq <;> exact hq
  have hmax : t.rows < 2 ^ 63 := by
    simp only [Word.maxInt64] at hrows
    omega
  have hshift : (q.shift e).Fits := by
    simp only [Cell.Fits, Cell.shift]
    omega
  rw [Cell.shift64_of_fits hshift]
  refine fold64_of_border hturning ht hmax ?_ ?_ ?_ ?_ fun h => ?_
  · simp only [Cell.shift]; omega
  · simp only [Cell.shift]; omega
  · simp only [Cell.shift]; omega
  · simp only [Cell.shift]; omega
  · obtain ⟨hd, hd'⟩ := abs_le.mp (hdiagonal h)
    rw [abs_le]
    simp only [Cell.shift]
    omega

/-- **Directions follow the fold**, as far as machine words reach. -/
theorem fold64_shift_spoke (ht : t.Sized) (hrows : t.rows ≤ Word.maxInt64)
    (hwheel : wheel ∈ t.wheels) (hk : k < t.labelCount) {r : Folded} (hr : t.fold64 p = .ok r) :
    ∃ d e s, spoke? wheel k = some d ∧
      spoke? wheel ((Turn.cyclic t.labelCount).adjust r.label k) = some e ∧
      (r.cell.shift64 e >>= t.fold64) = .ok s ∧
      Word.OkOrOverflow (p.shift64 d >>= t.fold64) ⟨s.cell, (r.label + s.label) % t.labelCount⟩ ∧
      ((p.shift d).Within (2 ^ 60) →
        (p.shift64 d >>= t.fold64) = .ok ⟨s.cell, (r.label + s.label) % t.labelCount⟩) := by
  have hturning := eq_of_mem_wheels hwheel
  obtain rfl : r = t.fold p := eq_of_foldBy64 hr
  obtain ⟨hlabel, -⟩ := isTurned_of_fold hturning ht p
  obtain ⟨d, hd, he⟩ := linear_spoke hwheel hlabel hk
  have hstep := fold_shift_linear hturning ht p d rfl rfl
  refine ⟨d, _, _, hd, he, fold64_spoke ht hrows hwheel he (isRepresentative_fold ht p), ?_, ?_⟩
  · rw [← hstep]
    exact (Word.okOrOverflow_within _ _).bind (okOrOverflow_foldBy64 ht _ _)
  · intro hwithin
    rw [← hstep, Cell.shift64_eq_ok (hwithin.mono (by norm_num))]
    exact fold64_of_within hturning ht hwithin

/-- Out of a rhombus of side 2: the labels 2 and 2 add up to 1. -/
theorem fold64_shift_spoke_rhombus : ∃ d e s, spoke? ["NW", "E", "S"] 2 = some d ∧
    spoke? ["NW", "E", "S"] ((Turn.cyclic 3).adjust 2 2) = some e ∧
    ((⟨0, 1⟩ : Cell).shift64 e >>= (rotatedRhombus 2).fold64) = .ok s ∧
    Word.OkOrOverflow ((⟨2, 1⟩ : Cell).shift64 d >>= (rotatedRhombus 2).fold64)
      ⟨s.cell, (2 + s.label) % 3⟩ ∧
    (((⟨2, 1⟩ : Cell).shift d).Within (2 ^ 60) →
      ((⟨2, 1⟩ : Cell).shift64 d >>= (rotatedRhombus 2).fold64) =
        .ok ⟨s.cell, (2 + s.label) % 3⟩) :=
  have hfold : (rotatedRhombus 2).fold64 ⟨2, 1⟩ = .ok ⟨⟨0, 1⟩, 2⟩ := by decide
  have hwheel : ["NW", "E", "S"] ∈ (rotatedRhombus 2).wheels := by decide
  have hlabel : 2 < (rotatedRhombus 2).labelCount := by decide
  fold64_shift_spoke ⟨by decide, by decide⟩ (by decide) hwheel hlabel hfold

/-- Far away a step overflows, though the cell has a fold. -/
theorem shift_spoke_overflows :
    (rotatedSquare 3).fold64 ⟨-2 ^ 63 + 1, 0⟩ = .ok ⟨⟨0, 0⟩, 3⟩ ∧
      spoke? ["N", "E", "S", "W"] 0 = some ⟨-1, 0⟩ ∧
      spoke? ["N", "E", "S", "W"] ((Turn.cyclic 4).adjust 3 0) = some ⟨0, 1⟩ ∧
      ((⟨0, 0⟩ : Cell).shift64 ⟨0, 1⟩ >>= (rotatedSquare 3).fold64) = .ok ⟨⟨0, 1⟩, 0⟩ ∧
      ((⟨-2 ^ 63 + 1, 0⟩ : Cell).shift64 ⟨-1, 0⟩ >>= (rotatedSquare 3).fold64) =
        .error .overflow := by
  decide

end CellSat.Tessellation
