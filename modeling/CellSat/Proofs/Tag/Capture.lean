import Mathlib
import CellSat.Clause.Text
import CellSat.Proofs.Tag.Expansion
/-!
# Names of bits

The bits of a tagged variable are boolean variables named after it. Nothing keeps an untagged
variable of the same list from having such a name, and then both are one variable of the list in
bits. Otherwise truth values and numbers can be chosen independently of each other.

* `Clause.Apart`: no untagged variable is named like a bit;
* `Interpretation.written`: the bits of an interpretation;
* `Interpretation.readBack`: the interpretation whose bits are given;
* **`Clause.expandTags_independent_iff_apart`**: the list in bits means the list wherever values can
  be written in bits, and all values can exactly if names are apart.
-/

namespace CellSat

/-- No untagged variable of a list is named like a bit of a tagged one. -/
def Clause.Apart (cs : List Clause) : Prop :=
  ∀ base, Clause.Tagged cs base → ∀ i < Tag.bitLength (Clause.largestTag cs base + 1),
    ¬ Clause.Untagged cs (Tag.bitName base i)

theorem Clause.apart_of_plain {cs : List Clause}
    (h : ∀ d ∈ disjunctions cs, ∀ l ∈ d, Tag.Plain l.name) : Apart cs := by
  rintro base _ i _ ⟨d, hd, l, hl, hname, -⟩
  exact Tag.bitName_ne (h d hd l hl) i hname.symm

namespace Interpretation

variable {cs : List Clause} {I J : Interpretation} {name : String}

/-! ## Writing -/

open Classical in
/-- The bits of an interpretation, where untagged variables take precedence. -/
noncomputable def written (I : Interpretation) (cs : List Clause) : Interpretation where
  truth name :=
    if Clause.Untagged cs name then I.truth name
    else Function.extend (fun bit : String × Nat => Tag.bitName bit.1 bit.2)
      (fun bit => (I.number bit.1).testBit bit.2) I.truth name
  number := I.number

theorem writes_written (h : Clause.Apart cs) (I : Interpretation) : (I.written cs).Writes I cs := by
  have hinjective : Function.Injective fun bit : String × Nat => Tag.bitName bit.1 bit.2 := by
    rintro ⟨x, i⟩ ⟨y, j⟩ hxy
    obtain ⟨rfl, rfl⟩ := Tag.bitName_injective hxy
    rfl
  intro name
  constructor
  · intro huntagged
    exact if_pos huntagged
  · intro htagged i hi
    have hextend := hinjective.extend_apply (fun bit => (I.number bit.1).testBit bit.2) I.truth
      (name, i)
    exact (if_neg (h name htagged i hi)).trans hextend

theorem InRange.fitsBits (h : I.InRange cs) : I.FitsBits cs := by
  intro name hname
  have hlt := Tag.lt_two_pow_bitLength (Clause.largestTag cs name + 1)
  have hle := h name hname
  omega

/-! ## Reading -/

open Classical in
/-- The interpretation whose bits are given. It follows another one where the list says nothing. -/
noncomputable def readBack (J I : Interpretation) (cs : List Clause) : Interpretation where
  truth name := if Clause.Untagged cs name then J.truth name else I.truth name
  number name :=
    if Clause.Tagged cs name then
      Tag.spelled (Tag.readBits J name (Tag.bitLength (Clause.largestTag cs name + 1)))
    else I.number name

theorem readBack_truth (huntagged : Clause.Untagged cs name) :
    (J.readBack I cs).truth name = J.truth name := if_pos huntagged

theorem readBack_number (htagged : Clause.Tagged cs name) : (J.readBack I cs).number name =
    Tag.spelled (Tag.readBits J name (Tag.bitLength (Clause.largestTag cs name + 1))) :=
  if_pos htagged

theorem testBit_spelled_readBits {k i : Nat} (hi : i < k) :
    (Tag.spelled (Tag.readBits J name k)).testBit i = J.truth (Tag.bitName name i) := by
  have hlength : (Tag.readBits J name k).length = k := by
    rw [Tag.readBits, List.length_map, List.length_range]
  have hlt : Tag.spelled (Tag.readBits J name k) < 2 ^ k := by
    have := Tag.spelled_lt (Tag.readBits J name k)
    rwa [hlength] at this
  -- The bits that the number has are those that spell it.
  have hbits : (List.range k).map (Tag.spelled (Tag.readBits J name k)).testBit =
      Tag.readBits J name k := by
    apply Tag.spelled_injective
    · rw [List.length_map, List.length_range, hlength]
    · rw [Tag.spelled_map_testBit, Nat.mod_eq_of_lt hlt]
  rw [Tag.readBits, List.map_inj_left] at hbits
  exact hbits i (List.mem_range.mpr hi)

theorem writes_readBack (J I : Interpretation) (cs : List Clause) :
    J.Writes (J.readBack I cs) cs := by
  intro name
  constructor
  · intro huntagged
    rw [readBack_truth huntagged]
  · intro htagged i hi
    rw [readBack_number htagged, testBit_spelled_readBits hi]

theorem fitsBits_readBack (J I : Interpretation) (cs : List Clause) :
    (J.readBack I cs).FitsBits cs := by
  intro name hname
  have hlt := Tag.spelled_lt
    (Tag.readBits J name (Tag.bitLength (Clause.largestTag cs name + 1)))
  rw [Tag.readBits, List.length_map, List.length_range] at hlt
  rwa [readBack_number hname]

theorem WritesAt.readBack_eq (h : J.WritesAt I cs name)
    (hfits : Clause.Tagged cs name →
      I.number name < 2 ^ Tag.bitLength (Clause.largestTag cs name + 1)) :
    (J.readBack I cs).truth name = I.truth name ∧
      (J.readBack I cs).number name = I.number name := by
  constructor
  · by_cases huntagged : Clause.Untagged cs name
    · rw [readBack_truth huntagged, h.truth huntagged]
    · exact if_neg huntagged
  · by_cases htagged : Clause.Tagged cs name
    · refine Tag.eq_of_testBit_eq_of_lt (fitsBits_readBack J I cs name htagged) (hfits htagged) ?_
      intro i hi
      rw [← (writes_readBack J I cs name).bits htagged i hi, h.bits htagged i hi]
    · exact if_neg htagged

end Interpretation

namespace Clause

variable {cs : List Clause}

/-- A true variable that is a bit of a variable with number 0 cannot be written. -/
theorem apart_of_forall_writes
    (h : ∀ I : Interpretation, I.InRange cs → ∃ J : Interpretation, J.Writes I cs) : Apart cs := by
  intro base hbase i hi huntagged
  obtain ⟨J, hJ⟩ := h ⟨fun _ => true, fun _ => 0⟩ fun _ _ => Nat.zero_le _
  have htrue : J.truth (Tag.bitName base i) = true := (hJ _).truth huntagged
  have hfalse : J.truth (Tag.bitName base i) = Nat.testBit 0 i := (hJ base).bits hbase i hi
  rw [Nat.zero_testBit, htrue] at hfalse
  exact absurd hfalse (by decide)

/-- **Names of bits.** All values can be written exactly if no untagged variable is named like a
bit. -/
theorem expandTags_independent_iff_apart (cs : List Clause) :
    ∃ es, expandTags cs = .ok es ∧
      (∀ e ∈ disjunctions es, ∀ k ∈ e, k.tag = none ∧ VariableInBits cs k.name) ∧
      (∀ I J : Interpretation, I.InRange cs → J.Writes I cs →
        (J.Satisfies (disjunctions es) ↔ I.Satisfies (disjunctions cs))) ∧
      ((∀ I : Interpretation, I.InRange cs → ∃ J : Interpretation, J.Writes I cs) ↔ Apart cs) := by
  obtain ⟨es, hes, hbool, hnames, hsat⟩ := expandTags_writes cs
  refine ⟨es, hes, fun e he k hk => ⟨hbool e he k hk, hnames e he k hk⟩, ?_, ?_⟩
  · intro I J hI hJ
    rw [hsat I J hJ hI.fitsBits, and_iff_right hI]
  · exact ⟨apart_of_forall_writes, fun h I _ => ⟨_, Interpretation.writes_written h I⟩⟩

/-- `x` is 1, and a variable named like the lowest bit of `x` is false. -/
theorem not_satisfies_of_captured :
    ∃ cs es, read (.text "x(1)\n~x#0") = .ok cs ∧ expandTags cs = .ok es ∧
      (∃ I : Interpretation, I.InRange cs ∧ I.Satisfies (disjunctions cs)) ∧
      ∀ J : Interpretation, ¬ J.Satisfies (disjunctions es) := by
  refine ⟨[.disjunction [⟨"x", true, some 1⟩], .disjunction [⟨"x#0", false, none⟩]],
    [.disjunction [⟨"x#0", true, none⟩], .disjunction [⟨"x#0", false, none⟩],
      .comment "Setting upper bound on tags.", .disjunction [⟨"x#1", false, none⟩]],
    by cbv, by cbv, ⟨⟨fun _ => false, fun _ => 1⟩, ?_, ?_⟩, ?_⟩
  · rintro name ⟨d, hd, l, hl, rfl, htag⟩
    fin_cases hd
    · rw [List.mem_singleton.mp hl]
      decide
    · rw [List.mem_singleton.mp hl] at htag
      exact absurd rfl htag
  · unfold Interpretation.Satisfies
    decide
  · intro J hJ
    have htrue := hJ [⟨"x#0", true, none⟩] (by decide)
    have hfalse := hJ [⟨"x#0", false, none⟩] (by decide)
    cases h : J.truth "x#0" <;> simp [Disjunction.holds, Literal.holds, h] at htrue hfalse

end Clause

end CellSat
