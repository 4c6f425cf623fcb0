import Mathlib
import CellSat.Template.Turn
import CellSat.Word
/-!
# Turns of tags

Turns of a tag add up, and as many of them as there are directions are none. So each turn is undone
by another one, and the search for the tag behind a turned one cannot stop at a wrong tag.

* `Turn.IsNarrow`, `Turn.adjust_le`: turns of 32-bit tags;
* `Turn.adjust_one`, `Turn.adjust_adjust`, `Turn.exists_inverse`: one turn is a step back, turns add
  up, and they can be undone;
* `Turn.bijOn_adjust`: a turn permutes the 32-bit tags;
* `Turn.undo?_adjust`: the search finds a tag from what it is turned to;
* **`Turn.cyclic_action`**: turning is an invertible action.
-/

namespace CellSat

namespace Turn

variable {turn : Turn} {labels tag : Nat}

/-- The directions of turned tags have 32-bit numbers. -/
def IsNarrow : Turn → Prop
  | fixed => True
  | cyclic labels => labels ≤ Word.maxNat32

/-! ## Turns of directions -/

theorem adjust_of_lt (h : tag < labels) (orientation : Nat) :
    ((cyclic labels).adjust orientation tag : Int) = ((tag : Int) - orientation) % labels := by
  rw [adjust, if_pos h, Int.toNat_of_nonneg (Int.emod_nonneg _ (by omega))]

theorem adjust_of_le (h : labels ≤ tag) (orientation : Nat) :
    (cyclic labels).adjust orientation tag = tag := by
  rw [adjust, if_neg (by omega)]

theorem adjust_lt (h : tag < labels) (orientation : Nat) :
    (cyclic labels).adjust orientation tag < labels := by
  have hlt := Int.emod_lt_of_pos ((tag : Int) - orientation) (by omega : (0 : Int) < labels)
  rw [← adjust_of_lt h] at hlt
  omega

theorem adjust_le (h : turn.IsNarrow) (orientation : Nat) (htag : tag ≤ Word.maxNat32) :
    turn.adjust orientation tag ≤ Word.maxNat32 := by
  cases turn with
  | fixed => exact htag
  | cyclic labels =>
    have hlabels : labels ≤ Word.maxNat32 := h
    by_cases hlt : tag < labels
    · exact (adjust_lt hlt orientation).le.trans hlabels
    · rwa [adjust_of_le (by omega)]

theorem adjust_one (labels tag : Nat) : (cyclic labels).adjust 1 tag =
    if labels ≤ tag then tag else if tag = 0 then labels - 1 else tag - 1 := by
  split_ifs with hle hfirst
  · exact adjust_of_le hle 1
  · have hturned := adjust_of_lt (show tag < labels by omega) 1
    rw [← Int.add_emod_right, Int.emod_eq_of_lt (by omega) (by omega)] at hturned
    omega
  · have hturned := adjust_of_lt (show tag < labels by omega) 1
    rw [Int.emod_eq_of_lt (by omega) (by omega)] at hturned
    omega

theorem adjust_adjust (turn : Turn) (o₁ o₂ tag : Nat) :
    turn.adjust o₁ (turn.adjust o₂ tag) = turn.adjust (o₁ + o₂) tag := by
  cases turn with
  | fixed => rfl
  | cyclic labels =>
    by_cases hlt : tag < labels
    · apply Int.ofNat_inj.mp
      rw [adjust_of_lt (adjust_lt hlt o₂), adjust_of_lt hlt, adjust_of_lt hlt, Int.emod_sub_emod]
      congr 1
      push_cast
      ring
    · have hle : labels ≤ tag := by omega
      rw [adjust_of_le hle, adjust_of_le hle, adjust_of_le hle]

theorem adjust_mul_labels (count tag : Nat) :
    (cyclic labels).adjust (labels * count) tag = tag := by
  by_cases hlt : tag < labels
  · apply Int.ofNat_inj.mp
    rw [adjust_of_lt hlt, Nat.cast_mul, Int.sub_mul_emod_self_left]
    exact Int.emod_eq_of_lt (by omega) (by omega)
  · exact adjust_of_le (by omega) _

theorem exists_inverse (turn : Turn) (orientation : Nat) : ∃ back,
    Function.LeftInverse (turn.adjust back) (turn.adjust orientation) ∧
      Function.RightInverse (turn.adjust back) (turn.adjust orientation) := by
  cases turn with
  | fixed => exact ⟨0, fun _ => rfl, fun _ => rfl⟩
  | cyclic labels =>
    cases labels with
    | zero =>
      have hfixed : ∀ back tag, (cyclic 0).adjust back tag = tag := fun back tag =>
        adjust_of_le tag.zero_le back
      exact ⟨0, fun tag => by rw [hfixed, hfixed], fun tag => by rw [hfixed, hfixed]⟩
    | succ labels =>
      -- The turn is completed to full circles.
      refine ⟨labels * orientation, fun tag => ?_, fun tag => ?_⟩
      · rw [adjust_adjust, ← Nat.succ_mul, adjust_mul_labels]
      · rw [adjust_adjust, Nat.add_comm orientation, ← Nat.succ_mul, adjust_mul_labels]

theorem adjust_injective (turn : Turn) (orientation : Nat) :
    Function.Injective (turn.adjust orientation) := by
  obtain ⟨back, hleft, -⟩ := turn.exists_inverse orientation
  exact hleft.injective

theorem bijOn_adjust (h : turn.IsNarrow) (orientation : Nat) :
    Set.BijOn (turn.adjust orientation) (Set.Iic Word.maxNat32) (Set.Iic Word.maxNat32) := by
  obtain ⟨back, hleft, hright⟩ := turn.exists_inverse orientation
  have hinv : Set.InvOn (turn.adjust back) (turn.adjust orientation) (Set.Iic Word.maxNat32)
      (Set.Iic Word.maxNat32) := ⟨hleft.leftInvOn _, hright.rightInvOn _⟩
  exact hinv.bijOn (fun _ => adjust_le h orientation) fun _ => adjust_le h back

/-! ## The search for a tag -/

theorem firstFrom_eq_find? (p : Nat → Bool) (count start : Nat) :
    firstFrom p count start = (List.range' start count).find? p := by
  induction count generalizing start with
  | zero => rfl
  | succ count ih =>
    rw [firstFrom, List.range'_succ, List.find?_cons, ih]
    cases p start <;> rfl

/-- It does not stop before, for no other tag is turned to the same one. -/
theorem undo?_adjust (turn : Turn) (maxTag orientation tag : Nat) :
    turn.undo? maxTag orientation (turn.adjust orientation tag) =
      if tag ≤ maxTag then some tag else none := by
  have hother : ∀ other, other ≠ tag →
      (!(turn.adjust orientation other == turn.adjust orientation tag)) = true := by
    intro other hne
    simpa using (turn.adjust_injective orientation).ne hne
  rw [undo?, firstFrom_eq_find?]
  split_ifs with hle
  · rw [List.find?_range'_eq_some]
    exact ⟨beq_self_eq_true _, List.mem_range'_1.mpr ⟨tag.zero_le, by omega⟩,
      fun other _ hlt => hother other hlt.ne⟩
  · rw [List.find?_range'_eq_none]
    exact fun other _ hlt => hother other (by omega)

/-! ## Turning as an action -/

/-- **Turning is an invertible action** on the directions, and leaves other tags alone. -/
theorem cyclic_action (hlabels : labels ≤ Word.maxNat32) :
    (∀ tag, (cyclic labels).adjust 1 tag =
        if labels ≤ tag then tag else if tag = 0 then labels - 1 else tag - 1) ∧
      (∀ o₁ o₂ tag, (cyclic labels).adjust o₁ ((cyclic labels).adjust o₂ tag) =
        (cyclic labels).adjust (o₁ + o₂) tag) ∧
      (∀ orientation, Set.BijOn ((cyclic labels).adjust orientation) (Set.Iic Word.maxNat32)
        (Set.Iic Word.maxNat32)) ∧
      ∀ maxTag orientation tag,
        (cyclic labels).undo? maxTag orientation ((cyclic labels).adjust orientation tag) =
          if tag ≤ maxTag then some tag else none :=
  ⟨adjust_one labels, adjust_adjust (cyclic labels), bijOn_adjust hlabels,
    undo?_adjust (cyclic labels)⟩

/-- With six directions, 255 turns carry the tag 2 to 5, and the tag 6 is no direction. -/
theorem cyclic_action_six :
    (cyclic 6).adjust 200 ((cyclic 6).adjust 55 2) = (cyclic 6).adjust 255 2 ∧
      (cyclic 6).adjust 255 2 = 5 ∧ (cyclic 6).adjust 255 6 = 6 ∧
      Set.InjOn ((cyclic 6).adjust 255) (Set.Iic Word.maxNat32) ∧
      (cyclic 6).undo? 1 255 5 = none ∧ (cyclic 6).undo? 2 255 5 = some 2 := by
  obtain ⟨-, hadd, hbij, hundo⟩ := @cyclic_action 6 (by decide)
  have hturned : (cyclic 6).adjust 255 2 = 5 := by decide
  refine ⟨hadd 200 55 2, hturned, by decide, (hbij 255).injOn, ?_, ?_⟩
  · rw [← hturned]
    exact hundo 1 255 2
  · rw [← hturned]
    exact hundo 2 255 2

end Turn

end CellSat
