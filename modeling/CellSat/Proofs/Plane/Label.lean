import Mathlib
import CellSat.Proofs.Plane.Direction
/-!
# The label of a fold

A fold tries labels until one of them leads into a box that is not turned. Exactly one label does,
so the fold never runs out of labels, and it does not matter in which order they are tried.

* `Tessellation.chosen?`: the label that a fold stops at;
* `Tessellation.foldBy_eq_chosen`: a fold is determined by it;
* `Tessellation.InBox`: the cells of the box at the origin, with its far borders where boxes are
  turned about cells;
* **`Tessellation.fold_label_unique`**: one label for every cell, in every order.
-/

namespace CellSat.Tessellation

variable {t : Tessellation} {p : Cell} {label : Nat} {labels : List Nat}

/-! ## The search for a label -/

/-- The first of the labels that leads into a box that is not turned. -/
def chosen? (t : Tessellation) (p : Cell) (labels : List Nat) : Option Nat :=
  labels.find? fun label => !t.isTurned (t.boxOf (t.image label p))

/-- A fold goes by the label that it stops at, and keeps the place in the box if there is none. -/
theorem foldBy_eq_chosen (t : Tessellation) (p : Cell) (labels : List Nat) :
    t.foldBy p labels = ((t.chosen? p labels).map fun label =>
      t.recenter (t.reduce (t.image label p)) label).getD ⟨t.reduce p, 0⟩ := by
  induction labels with
  | nil => rfl
  | cons label labels ih =>
    rw [foldBy, chosen?]
    by_cases hturned : t.isTurned (t.boxOf (t.image label p)) = true
    · rw [if_pos hturned, ih, chosen?, List.find?_cons_of_neg (by simp [hturned])]
    · rw [if_neg hturned, List.find?_cons_of_pos (by simpa using hturned)]
      rfl

theorem isTurned_eq_false_iff (ht : t.Sized) (p : Cell) (hlabel : label < t.labelCount) :
    t.isTurned (t.boxOf (t.image label p)) = false ↔
      label = t.labelAt (t.boxOf p) (t.reduce p) := by
  rw [isTurned_boxOf_image ht p hlabel, decide_eq_false_iff_not, not_not]

theorem chosen?_eq_some (ht : t.Sized) (p : Cell) (hlabels : ∀ l ∈ labels, l < t.labelCount)
    (hmem : t.labelAt (t.boxOf p) (t.reduce p) ∈ labels) :
    t.chosen? p labels = some (t.labelAt (t.boxOf p) (t.reduce p)) := by
  cases hchosen : t.chosen? p labels with
  | none =>
    have hturned := List.find?_eq_none.mp hchosen _ hmem
    rw [(isTurned_eq_false_iff ht p (hlabels _ hmem)).mpr rfl] at hturned
    exact absurd rfl hturned
  | some label =>
    have hturned := List.find?_some hchosen
    rw [Bool.not_eq_true', isTurned_eq_false_iff ht p
      (hlabels label (List.mem_of_find?_eq_some hchosen))] at hturned
    rw [hturned]

/-! ## The box at the origin -/

/-- The cells of the box at the origin. Where boxes are turned or reflected about cells, the cells
on the far borders belong to it. -/
def InBox (t : Tessellation) (q : Cell) : Prop :=
  match t with
  | faceRotatedSquare _ | faceRotatedRhombus _ | centerFlippedRectangle _ _ =>
    0 ≤ q.row ∧ q.row ≤ t.rows ∧ 0 ≤ q.column ∧ q.column ≤ t.columns
  | _ => 0 ≤ q.row ∧ q.row < t.rows ∧ 0 ≤ q.column ∧ q.column < t.columns

theorem inBox_of_isRepresentative (ht : t.Sized) {q : Cell} (hq : t.IsRepresentative q) :
    t.InBox q := by
  have hbounds := bounds_of_isRepresentative ht hq
  cases t with
  | faceRotatedSquare n | faceRotatedRhombus n | centerFlippedRectangle m n => exact hbounds
  | rotatedSquare n | rotatedRhombus n | flippedRectangle m n | crossSurface m n => exact hq

/-- **One label for every cell** leads into a box that is not turned, whatever the order in which
labels are tried. -/
theorem fold_label_unique (ht : t.Sized) (p : Cell) :
    ∃ label < t.labelCount,
      (∀ l < t.labelCount, t.isTurned (t.boxOf (t.image l p)) = false ↔ l = label) ∧
      (∀ labels, labels.Perm (List.range t.labelCount) →
        t.chosen? p labels = some label ∧
        t.foldBy p labels = t.recenter (t.reduce (t.image label p)) label ∧
        Word.OkOrOverflow (t.foldBy64 p labels) (t.fold p) ∧
        (t.rows ≤ 2 ^ 30 → t.columns ≤ 2 ^ 30 → p.Within (2 ^ 32) →
          t.foldBy64 p labels = .ok (t.fold p))) ∧
      t.InBox (t.fold p).cell := by
  have hlabel := labelAt_lt t (t.boxOf p) (t.reduce p)
  have hchosen : ∀ labels, labels.Perm (List.range t.labelCount) →
      t.chosen? p labels = some (t.labelAt (t.boxOf p) (t.reduce p)) := fun labels hperm =>
    chosen?_eq_some ht p (fun l hl => List.mem_range.mp (hperm.mem_iff.mp hl))
      (hperm.mem_iff.mpr (List.mem_range.mpr hlabel))
  have hfold : ∀ labels, labels.Perm (List.range t.labelCount) →
      t.foldBy p labels = t.fold p := fun labels hperm => by
    rw [fold, foldBy_eq_chosen, foldBy_eq_chosen, hchosen labels hperm, hchosen _ (.refl _)]
  refine ⟨_, hlabel, fun l hl => isTurned_eq_false_iff ht p hl, fun labels hperm => ?_,
    inBox_of_isRepresentative ht (isRepresentative_fold ht p)⟩
  refine ⟨hchosen labels hperm, ?_, ?_, fun hrows hcolumns hp => ?_⟩
  · rw [foldBy_eq_chosen, hchosen labels hperm]
    rfl
  · rw [← hfold labels hperm]
    exact okOrOverflow_foldBy64 ht p labels
  · rw [← hfold labels hperm]
    exact foldBy64_eq_ok ht hrows hcolumns hp labels

/-- A cell in a turned box of a plane of rhombi, with its label tried after another one. -/
theorem fold_label_unique_rhombus :
    (faceRotatedRhombus 3).Sized ∧ [1, 2, 0].Perm (List.range 3) ∧
      (faceRotatedRhombus 3).chosen? ⟨-4, 5⟩ [1, 2, 0] = some 2 ∧
      (faceRotatedRhombus 3).foldBy64 ⟨-4, 5⟩ [1, 2, 0] =
        .ok ((faceRotatedRhombus 3).fold ⟨-4, 5⟩) ∧
      (faceRotatedRhombus 3).InBox ((faceRotatedRhombus 3).fold ⟨-4, 5⟩).cell := by
  have ht : (faceRotatedRhombus 3).Sized := ⟨by decide, by decide⟩
  have hperm : [1, 2, 0].Perm (List.range 3) := by decide
  obtain ⟨label, -, hunique, horder, hbox⟩ := fold_label_unique ht ⟨-4, 5⟩
  obtain rfl : 2 = label := (hunique 2 (by decide)).mp (by decide)
  obtain ⟨hchosen, -, -, hnear⟩ := horder _ hperm
  exact ⟨ht, hperm, hchosen, hnear (by decide) (by decide) (by simp [Cell.Within]), hbox⟩

end CellSat.Tessellation
