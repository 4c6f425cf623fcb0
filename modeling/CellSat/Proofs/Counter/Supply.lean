import Mathlib
import CellSat.Counter.Bound
import CellSat.Proofs.Checked
import CellSat.Proofs.Counter.Network
/-!
# The supply of temporaries

Temporaries have numbers of 32 bits, and each adder takes two of them. A network is built as it
should be if there are enough numbers left, and else building it overflows.

* `Network.takes_round32`, `Network.takes_build32`: one round, and a whole network;
* `Network.length_build`: the number of adders depends on the number of literals only;
* `Count.takes_atMost32`, `Count.takes_atLeast32`: bounds.
-/

namespace CellSat

open Word

namespace Network

theorem takes_addTriples32 (issued : Nat) (wires : List Literal) :
    Takes issued (issued + 2 * (addTriples issued wires).1.length) (addTriples32 issued wires)
      (addTriples issued wires) := by
  match wires with
  | [] | [a] | [a, b] => exact .ok issued _
  | a :: b :: c :: wires =>
    have hlast : issued + 2 * (addTriples issued (a :: b :: c :: wires)).1.length =
        issued + 2 + 2 * (addTriples (issued + 2) wires).1.length := by
      simp only [addTriples, List.length_cons]
      omega
    rw [hlast]
    refine (takes_nat32 issued).bind ?_ (by omega) (by omega)
    refine (takes_nat32 (issued + 1)).bind ?_ (by omega) (by omega)
    exact (takes_addTriples32 (issued + 2) wires).bind (.ok _ _) (by omega) le_rfl

theorem takes_roundFrom32 (issued : Nat) (carries : List Literal) (levels : List (List Literal)) :
    Takes issued (issued + 2 * (roundFrom issued carries levels).1.length)
      (roundFrom32 issued carries levels) (roundFrom issued carries levels) := by
  induction levels generalizing issued carries with
  | nil => exact .ok issued _
  | cons wires levels ih =>
    have hlast : issued + 2 * (roundFrom issued carries (wires :: levels)).1.length =
        issued + 2 * (addTriples issued (pad wires)).1.length +
          2 * (roundFrom (issued + 2 * (addTriples issued (pad wires)).1.length)
            ((addTriples issued (pad wires)).1.map (·.carry)) levels).1.length := by
      simp only [roundFrom, List.length_append]
      omega
    rw [hlast]
    refine (takes_addTriples32 issued (pad wires)).bind ?_ (by omega) (by omega)
    exact (ih _ _).bind (.ok _ _) (by omega) le_rfl

/-- **One round** takes two numbers for each adder. -/
theorem takes_round32 (issued : Nat) (levels : List (List Literal)) :
    Takes issued (issued + 2 * (round issued levels).1.length) (round32 issued levels)
      (round issued levels) :=
  takes_roundFrom32 issued [] levels

theorem takes_rounds32 (fuel issued : Nat) (levels : List (List Literal)) :
    Takes issued (issued + 2 * (rounds fuel issued levels).1.length)
      (rounds32 fuel issued levels) (rounds fuel issued levels) := by
  induction fuel generalizing issued levels with
  | zero => exact .ok issued _
  | succ fuel ih =>
    rw [rounds, rounds32]
    split_ifs with hmore
    · simp only [List.length_append, Nat.mul_add, ← Nat.add_assoc]
      refine (takes_round32 issued levels).bind ?_ (by omega) (by omega)
      exact (ih _ _).bind (.ok _ _) (by omega) le_rfl
    · exact .ok issued _

/-- **A network** takes two numbers for each adder. -/
theorem takes_build32 (issued : Nat) (literals : List Literal) :
    Takes issued (issued + 2 * (build issued literals).1.length) (build32 issued literals)
      (build issued literals) := by
  unfold build build32
  split_ifs with hnil
  · exact .ok issued _
  · exact (takes_rounds32 _ issued [literals]).bind (.ok _ _) (by omega) le_rfl

/-! ## The number of adders -/

/-- The literal that stands at a place of a list; other literals stay as they are. -/
def literalAt (literals : List Literal) (l : Literal) : Literal :=
  match l.tag with
  | none => l
  | some i => literals.getD i l

theorem literalAt_of_tag {literals : List Literal} {l : Literal} (h : l.tag = none) :
    literalAt literals l = l := by
  rw [literalAt, h]

theorem literalAt_position {literals : List Literal} {i : Nat} (h : i < literals.length) :
    literalAt literals (position i) = literals[i] := by
  simp [literalAt, position, h]

theorem map_positions (literals : List Literal) :
    (positions literals.length).map (literalAt literals) = literals := by
  refine List.ext_getElem (by simp [positions]) fun i h₁ h₂ => ?_
  simp only [positions, List.getElem_map, List.getElem_range, literalAt_position h₂]

theorem build_eq_map (issued : Nat) (literals : List Literal) :
    build issued literals =
      ((build issued (positions literals.length)).1.map (mapAdder (literalAt literals)),
        (build issued (positions literals.length)).2.map (literalAt literals)) := by
  have hmap := @build_map (literalAt literals) 0 (literalAt_of_tag rfl)
    (fun k => literalAt_of_tag rfl) issued (positions literals.length)
  rwa [map_positions] at hmap

open Classical in
/-- The temporary so many numbers further on; other literals stay as they are. -/
noncomputable def later (d : Nat) (l : Literal) : Literal :=
  if h : ∃ k, l = Temporary.literal k then Temporary.literal (h.choose + d) else l

theorem later_literal (d k : Nat) : later d (Temporary.literal k) = Temporary.literal (k + d) := by
  have h : ∃ m, Temporary.literal k = Temporary.literal m := ⟨k, rfl⟩
  rw [later, dif_pos h, ← Temporary.literal_injective h.choose_spec]

theorem later_of_ne {l : Literal} (h : ∀ k, l ≠ Temporary.literal k) (d : Nat) : later d l = l :=
  dif_neg (not_exists.mpr h)

theorem map_later_positions (d n : Nat) : (positions n).map (later d) = positions n := by
  rw [positions, List.map_map]
  exact List.map_congr_left fun i _ => later_of_ne (position_ne_literal i) d

/-- The number of adders that count so many literals. -/
def adderCount (n : Nat) : Nat := (build 0 (positions n)).1.length

theorem length_build (issued : Nat) (literals : List Literal) :
    (build issued literals).1.length = adderCount literals.length := by
  have hlater := build_map (later_of_ne Temporary.zero_ne_literal issued) (later_literal issued) 0
    (positions literals.length)
  rw [map_later_positions, Nat.zero_add] at hlater
  rw [build_eq_map, hlater, List.length_map, List.length_map, adderCount]

end Network

/-! ## Bounds -/

namespace Count

open Network

variable {issued : Nat} {literals : List Literal} {limit : Int}

theorem temporaries_atMost (issued : Nat) (literals : List Literal) (limit : Int) :
    (atMost issued literals limit).temporaries = 2 * adderCount literals.length :=
  congrArg (2 * ·) (length_build issued literals)

/-- **An upper bound** takes two numbers for each adder. -/
theorem takes_atMost32 (issued : Nat) (literals : List Literal) (limit : Int) :
    Takes issued (issued + 2 * adderCount literals.length) (atMost32 issued literals limit)
      (atMost issued literals limit) := by
  rw [← length_build issued]
  exact (takes_build32 issued literals).bind (.ok _ _) (by omega) le_rfl

/-- **A lower bound** takes as many, unless its limit already overflows. -/
theorem takes_atLeast32 {c : Count} (h : atLeast issued literals limit = .ok c) :
    Takes issued (issued + 2 * adderCount literals.length) (atLeast32 issued literals limit) c := by
  obtain ⟨others, hothers, h⟩ := bind_eq_ok.mp h
  obtain rfl := Except.ok.inj h
  rw [atLeast32, hothers, ← List.length_map Literal.negate]
  exact takes_atMost32 issued (literals.map Literal.negate) others

theorem eq_of_atMost32 {c : Count} (h : atMost32 issued literals limit = .ok c) :
    c = atMost issued literals limit :=
  (takes_atMost32 issued literals limit).eq_of_ok h

theorem le_of_atMost32 {c : Count} (h : atMost32 issued literals limit = .ok c)
    (hissued : issued ≤ maxNat32) : issued + c.temporaries ≤ maxNat32 := by
  rw [eq_of_atMost32 h, temporaries_atMost]
  exact (takes_atMost32 issued literals limit).le_of_ok hissued h

end Count

end CellSat
