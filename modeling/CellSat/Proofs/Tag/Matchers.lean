import Mathlib
import CellSat.Proofs.Clause.Flatten
import CellSat.Proofs.Tag.Capture
import CellSat.Proofs.Tag.Tuples
/-!
# Two encodings of a relation

A relation can be encoded by the clauses that rule out what it does not list, or by one conjunction
about bits for each tuple, flattened into clauses. Both mean the relation.

* `Interpretation.satisfies_removeRedundant`, `Interpretation.satisfies_flattenOr`: one step of
  flattening, and all of them;
* `Tag.allOf_expands`, `Tag.matchers_eq_ok`: tuples in bits;
* `Interpretation.HasBits`: the bits of the numbers of a relation;
* **`Tag.flattenOr_matchers_iff`**: the two encodings agree.
-/

namespace CellSat

/-! ## Flattening -/

namespace Interpretation

variable {I : Interpretation}

/-- What is dropped follows from a smallest disjunction within it, which is kept. -/
theorem satisfies_removeRedundant {ds : List Disjunction} :
    I.Satisfies (Disjunction.removeRedundant ds) ↔ I.Satisfies ds := by
  constructor
  · intro h d hd
    obtain ⟨u, hud, hu⟩ := exists_minimal_le_of_wellFoundedLT
      (fun u => ∃ c ∈ ds, c.toFinset = u) d.toFinset ⟨d, hd, rfl⟩
    obtain ⟨c, hc, rfl⟩ := hu.prop
    have hkept : c ∈ Disjunction.removeRedundant ds :=
      Disjunction.mem_removeRedundant_iff.mpr ⟨hc, fun e he hlt => hu.not_lt ⟨e, he, rfl⟩ hlt⟩
    obtain ⟨l, hl, hholds⟩ := Disjunction.holds_iff.mp (h c hkept)
    have hld : l ∈ d := List.mem_toFinset.mp (hud (List.mem_toFinset.mpr hl))
    exact Disjunction.holds_iff.mpr ⟨l, hld, hholds⟩
  · intro h d hd
    exact h d (List.mem_of_mem_filter hd)

theorem satisfies_flattenOr (as : List (List Disjunction)) :
    I.Satisfies (Disjunction.flattenOr as) ↔ ∃ a ∈ as, I.Satisfies a := by
  induction as using List.reverseRecOn with
  | nil => simp [Disjunction.flattenOr, Satisfies, Disjunction.holds]
  | append_singleton as a ih =>
    rw [Disjunction.flattenOr_concat, satisfies_removeRedundant, satisfies_orOf, ih]
    simp [or_and_right, exists_or]

end Interpretation

/-! ## Tuples in bits -/

/-- The bits of the variables of a relation are those of their numbers. -/
def Interpretation.HasBits (J I : Interpretation) (tuples : List Disjunction) : Prop :=
  ∀ name, Clause.Tagged (tuples.map .disjunction) name →
    ∀ i < Tag.bitLength (Clause.largestTag (tuples.map .disjunction) name),
      J.truth (Tag.bitName name i) = (I.number name).testBit i

namespace Tag

variable {names : List String} {tuples : List Disjunction} {I J : Interpretation}

/-- **All of some literals in bits.** -/
theorem allOf_expands {max : MaxTags} {t : Disjunction} (ht : ∀ l ∈ t, Covered max l) :
    ∃ ds, allOf max t = .ok ds ∧ ∀ I J : Interpretation, (∀ l ∈ t, Spells max I J l) →
      (J.Satisfies ds ↔ ∀ l ∈ t, l.holds I = true) := by
  induction t with
  | nil => exact ⟨[], rfl, by simp [Interpretation.satisfies_nil]⟩
  | cons l t ih =>
    rw [List.forall_mem_cons] at ht
    obtain ⟨cs, hcs, hl⟩ := oneOf_expands ht.1
    obtain ⟨ds, hds, hall⟩ := ih ht.2
    refine ⟨cs ++ ds, by rw [allOf, hcs, hds]; rfl, fun I J hJ => ?_⟩
    rw [List.forall_mem_cons] at hJ
    rw [Interpretation.satisfies_append, hl.meaning I J (List.forall_mem_singleton.mpr hJ.1),
      hall I J hJ.2, List.forall_mem_cons]
    simp [Disjunction.holds]

/-- The conjunctions of tuples about bits. One of them holds exactly if the values are listed. -/
theorem matchers_eq_ok (tuples : List Disjunction) :
    ∃ as, matchers tuples none = .ok as ∧ ∀ I J : Interpretation,
      (∀ t ∈ tuples, ∀ l ∈ t, Spells (maxOfTuples tuples) I J l) →
        ((∃ a ∈ as, J.Satisfies a) ↔ I.Takes tuples) := by
  have hcovered : ∀ t ∈ tuples, ∀ l ∈ t, Covered (maxOfTuples tuples) l := by
    intro t ht l hl
    rw [maxOfTuples_eq]
    exact Clause.covered_maxOfClauses (by rwa [Clause.disjunctions_map]) hl
  obtain ⟨as, has, hall⟩ := mapM_eq_ok fun t ht => allOf_expands (hcovered t ht)
  refine ⟨as, has, fun I J hJ => ?_⟩
  clear has hcovered
  generalize maxOfTuples tuples = max at hall hJ
  rw [Interpretation.Takes]
  induction hall with
  | nil => simp
  | cons ht _ ih =>
    rw [List.forall_mem_cons] at hJ
    rw [List.exists_mem_cons_iff, List.exists_mem_cons_iff, ht I J hJ.1, ih hJ.2]

theorem Uniform.exists_hasBits (h : Uniform names tuples) (I : Interpretation) :
    ∃ J : Interpretation, J.HasBits I tuples := by
  have hapart : Clause.Apart (tuples.map .disjunction) := by
    rintro base - i - ⟨t, ht, l, hl, -, hnone⟩
    rw [Clause.disjunctions_map] at ht
    exact h.tagged t ht l hl hnone
  refine ⟨I.written (tuples.map .disjunction), fun name hname i hi => ?_⟩
  refine (Interpretation.writes_written hapart I name).bits hname i (hi.trans_le ?_)
  exact bitLength_mono (Nat.le_succ _)

theorem Uniform.spells (h : Uniform names tuples) (hI : I.InRange (tuples.map .disjunction))
    (hJ : J.HasBits I tuples) {t : Disjunction} (ht : t ∈ tuples) {l : Literal} (hl : l ∈ t) :
    Spells (maxOfTuples tuples) I J l where
  truth hnone := absurd hnone (h.tagged t ht l hl)
  bits _ m hm := by
    rw [maxOfTuples_eq, Clause.maxOfClauses_eq_some_iff] at hm
    obtain ⟨hname, rfl⟩ := hm
    exact ⟨hI l.name hname, hJ l.name hname⟩

/-! ## The two encodings -/

/-- **Two encodings of a relation agree**: the conjunctions about bits, and what is ruled out. -/
theorem flattenOr_matchers_iff (h : Uniform names tuples) :
    ∃ as ds, matchers tuples none = .ok as ∧ matching tuples = .ok ds ∧
      ∀ I : Interpretation, I.InRange (tuples.map .disjunction) →
        (∃ J : Interpretation, J.HasBits I tuples) ∧
        ∀ J : Interpretation, J.HasBits I tuples →
          (J.Satisfies (Disjunction.flattenOr as) ↔ I.Satisfies ds) := by
  obtain ⟨as, has, htakes⟩ := matchers_eq_ok tuples
  obtain ⟨ds, hds, hrule⟩ := h.matching_eq_ok
  refine ⟨as, ds, has, hds, fun I hI => ⟨h.exists_hasBits I, fun J hJ => ?_⟩⟩
  calc J.Satisfies (Disjunction.flattenOr as)
      ↔ ∃ a ∈ as, J.Satisfies a := Interpretation.satisfies_flattenOr as
    _ ↔ I.Takes tuples := htakes I J fun t ht l hl => h.spells hI hJ ht hl
    _ ↔ I.Satisfies ds := (h.satisfies_iff hrule hI).symm

/-- The listed values 2 and 0 of two variables, of which the first takes two bits. -/
theorem flattenOr_matchers_iff_sparse :
    ∃ as ds, matchers zeroOneOrTwoZero none = .ok as ∧ matching zeroOneOrTwoZero = .ok ds ∧
      ∃ I J : Interpretation, I.number "x" = 2 ∧ J.HasBits I zeroOneOrTwoZero ∧
        J.Satisfies (Disjunction.flattenOr as) ∧ I.Satisfies ds := by
  obtain ⟨as, ds, has, hds, hagree⟩ := flattenOr_matchers_iff uniform_zeroOneOrTwoZero
  let I : Interpretation := ⟨fun _ => false, fun name => if name = "x" then 2 else 0⟩
  have hrange : I.InRange (zeroOneOrTwoZero.map .disjunction) :=
    inRange_zeroOneOrTwoZero (by decide) (by decide)
  have htakes : I.Takes zeroOneOrTwoZero := by
    simp [Interpretation.Takes, zeroOneOrTwoZero, Literal.holds, I]
  obtain ⟨ds', hds', hrule⟩ := uniform_zeroOneOrTwoZero.matching_eq_ok
  obtain rfl : ds = ds' := Except.ok.inj (hds.symm.trans hds')
  have hI : I.Satisfies ds := (uniform_zeroOneOrTwoZero.satisfies_iff hrule hrange).mpr htakes
  obtain ⟨⟨J, hJ⟩, hiff⟩ := hagree I hrange
  exact ⟨as, ds, has, hds, I, J, rfl, hJ, (hiff J hJ).mpr hI, hI⟩

end Tag

end CellSat
