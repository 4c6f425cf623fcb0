import Mathlib
import CellSat.Proofs.Counter.Exact
/-!
# Limits that are out of range

A limit fixes the outputs of a network to its lowest digits, so that bounds with limits below 0 or
above the number of literals are bounds with other limits. A single literal is its own output and is
fixed to a digit as well.

* `Count.Saturates`: bounds that should hold always or never do so;
* `Count.satisfiable_singleton`: a single literal is fixed to the lowest digit;
* `Count.satisfiable_of_forall_false`: false literals satisfy all upper bounds, also negative ones;
* **`Count.saturates_iff`**: limits have to be between 0 and the number of literals, of which there
  have to be two.
-/

namespace CellSat.Count

open Network

/-- Limits that all numbers of true literals meet can always be satisfied, and limits that none
meets never. -/
structure Saturates (issued : Nat) (literals : List Literal) (limit : Int) : Prop where
  atMost_always : literals.length ≤ limit → ∀ I, (atMost issued literals limit).Satisfiable I
  atMost_never : limit < 0 → ∀ I, ¬ (atMost issued literals limit).Satisfiable I
  atLeast : ∃ c, atLeast issued literals limit = .ok c ∧ (limit ≤ 0 → ∀ I, c.Satisfiable I) ∧
    (literals.length < limit → ∀ I, ¬ c.Satisfiable I)

variable {issued : Nat} {literals : List Literal} {limit : Int} {I : Interpretation}

theorem satisfiable_singleton {l : Literal} (hl : l.IsOrdinary) :
    (atMost issued [l] limit).Satisfiable I ↔ l.holds I = limitBit limit 0 := by
  have hclauses : ∀ J : Interpretation, J.Satisfies (atMost issued [l] limit).clauses ↔
      l.holds J = limitBit limit 0 := fun J => by
    rw [satisfies_atMost (List.cons_ne_nil l [])]
    simp [build, rounds, Adder.clauses, Interpretation.satisfies_nil]
  constructor
  · rintro ⟨J, hJ, hsat⟩
    rw [← hJ.holds_eq hl]
    exact (hclauses J).mp hsat
  · exact fun h => ⟨I, ⟨rfl, fun _ _ => rfl⟩, (hclauses I).mpr h⟩

theorem satisfiable_of_forall_false (hn : 2 ≤ literals.length)
    (hliterals : ∀ l ∈ literals, l.IsOrdinary) (hfalse : ∀ l ∈ literals, l.holds I = false)
    (limit : Int) : (atMost issued literals limit).Satisfiable I := by
  obtain ⟨v, -, hkeeps, hdigits⟩ := @exists_map_outputs _ issued hn
    ((List.range (build issued (positions literals.length)).2.length).map (limitBit limit))
    (by simp)
  refine satisfiable_of_values hn hliterals (fun i hi htrue => ?_) hkeeps hdigits
  rw [hfalse _ (List.getElem_mem hi)] at htrue
  cases htrue

theorem saturates_of_range (hn : 2 ≤ literals.length) (hliterals : ∀ l ∈ literals, l.IsOrdinary)
    (hmax : (literals.length : Int) ≤ Word.maxInt64) (h0 : 0 ≤ limit)
    (hlimit : limit ≤ literals.length) : Saturates issued literals limit := by
  have hcount := fun I => List.countP_le_length (p := Literal.holds I) (l := literals)
  refine ⟨fun hle I => ?_, fun hneg => absurd h0 (by omega), ?_⟩
  · have := hcount I
    rw [satisfiable_atMost_iff hn hliterals hmax h0 hlimit]
    omega
  · refine ⟨_, atLeast_eq_ok (by simp only [Word.minInt64]; omega) (by omega), fun hle I => ?_,
      fun hlt => absurd hlimit (by omega)⟩
    rw [satisfiable_atMost_iff (by simpa using hn) (isOrdinary_negate hliterals)
      (by simpa using hmax) (by omega) (by simpa using h0), countP_negate]
    omega

theorem not_saturates_singleton {l : Literal} (hl : l.IsOrdinary) {I J : Interpretation}
    (hI : l.holds I = true) (hJ : l.holds J = false) : ¬ Saturates issued [l] limit := by
  intro h
  rcases lt_trichotomy limit 0 with hneg | rfl | hpos
  · obtain ⟨K, hK⟩ : ∃ K, l.holds K = limitBit limit 0 := by
      cases limitBit limit 0 with
      | false => exact ⟨J, hJ⟩
      | true => exact ⟨I, hI⟩
    exact h.atMost_never hneg K ((satisfiable_singleton hl).mpr hK)
  · -- The lower bound 0 is the upper bound 1 on the negation, which is fixed to be true.
    obtain ⟨c, hc, halways, -⟩ := h.atLeast
    have hmin : Word.minInt64 ≤ ([l].length : Int) - 0 := by
      rw [List.length_singleton]
      decide
    have hmax : ([l].length : Int) - 0 ≤ Word.maxInt64 := by
      rw [List.length_singleton]
      decide
    obtain rfl := Except.ok.inj (hc.symm.trans (atLeast_eq_ok hmin hmax))
    have hnegate : l.negate.IsOrdinary := hl
    have hItrue := (satisfiable_singleton hnegate).mp (halways le_rfl I)
    have hJtrue := (satisfiable_singleton hnegate).mp (halways le_rfl J)
    rw [Literal.holds_negate, hI] at hItrue
    rw [Literal.holds_negate, hJ, ← hItrue] at hJtrue
    cases hJtrue
  · have halways := h.atMost_always (by simp only [List.length_singleton]; omega)
    have hItrue := (satisfiable_singleton hl).mp (halways I)
    have hJtrue := (satisfiable_singleton hl).mp (halways J)
    rw [hI] at hItrue
    rw [hJ, ← hItrue] at hJtrue
    cases hJtrue

theorem range_of_saturates (hn : 2 ≤ literals.length) (hliterals : ∀ l ∈ literals, l.IsOrdinary)
    {I J : Interpretation} (hI : ∀ l ∈ literals, l.holds I = true)
    (hJ : ∀ l ∈ literals, l.holds J = false) (h : Saturates issued literals limit)
    (hmin : Word.minInt64 ≤ literals.length - limit)
    (hmax : literals.length - limit ≤ Word.maxInt64) : 0 ≤ limit ∧ limit ≤ literals.length := by
  constructor
  · by_contra hneg
    exact h.atMost_never (by omega) J (satisfiable_of_forall_false hn hliterals hJ limit)
  · by_contra hlarge
    obtain ⟨c, hc, -, hnever⟩ := h.atLeast
    obtain rfl := Except.ok.inj (hc.symm.trans (atLeast_eq_ok hmin hmax))
    refine hnever (by omega) I (satisfiable_of_forall_false (by simpa using hn)
      (isOrdinary_negate hliterals) (fun l hl => ?_) _)
    obtain ⟨k, hk, rfl⟩ := List.mem_map.mp hl
    rw [Literal.holds_negate, hI k hk]
    rfl

theorem eq_exact_of_room (hmin : Word.minInt64 ≤ literals.length - limit)
    (hmax : literals.length - limit ≤ Word.maxInt64)
    (hroom : issued + 2 * adderCount literals.length ≤ Word.maxNat32) :
    atMost32 issued literals limit = .ok (atMost issued literals limit) ∧
      atLeast32 issued literals limit = atLeast issued literals limit := by
  have hissued : issued ≤ Word.maxNat32 := by omega
  have hatMost := (takes_atMost32 issued literals limit).eq_ite hissued
  have hatLeast := (takes_atLeast32 (@atLeast_eq_ok issued literals limit hmin hmax)).eq_ite hissued
  rw [if_pos hroom] at hatMost hatLeast
  exact ⟨hatMost, hatLeast.trans (atLeast_eq_ok hmin hmax).symm⟩

/-- **When limits saturate.** The conditions are necessary if the literals are free. -/
theorem saturates_iff (hne : literals ≠ []) (hliterals : ∀ l ∈ literals, l.IsOrdinary)
    (hlength : (literals.length : Int) ≤ Word.maxInt64)
    (hmin : Word.minInt64 ≤ literals.length - limit)
    (hmax : literals.length - limit ≤ Word.maxInt64) (issued : Nat) :
    (issued + 2 * adderCount literals.length ≤ Word.maxNat32 →
        atMost32 issued literals limit = .ok (atMost issued literals limit) ∧
          atLeast32 issued literals limit = atLeast issued literals limit) ∧
      (2 ≤ literals.length ∧ 0 ≤ limit ∧ limit ≤ literals.length →
        Saturates issued literals limit) ∧
      ∀ I J : Interpretation, (∀ l ∈ literals, l.holds I = true) →
        (∀ l ∈ literals, l.holds J = false) →
        (Saturates issued literals limit ↔
          2 ≤ literals.length ∧ 0 ≤ limit ∧ limit ≤ literals.length) := by
  have hrange : 2 ≤ literals.length ∧ 0 ≤ limit ∧ limit ≤ literals.length →
      Saturates issued literals limit := fun ⟨hn, h0, hlimit⟩ =>
    saturates_of_range hn hliterals hlength h0 hlimit
  refine ⟨eq_exact_of_room hmin hmax, hrange, fun I J hI hJ => ⟨fun h => ?_, hrange⟩⟩
  have hn : 2 ≤ literals.length := by
    by_contra hlt
    obtain ⟨l, rfl⟩ : ∃ l, literals = [l] := by
      have := List.length_pos_iff.mpr hne
      exact List.length_eq_one_iff.mp (by omega)
    simp only [List.mem_singleton, forall_eq] at hliterals hI hJ
    exact not_saturates_singleton hliterals hI hJ h
  exact ⟨hn, range_of_saturates hn hliterals hI hJ h hmin hmax⟩

/-- At most four of two literals is a bound that some values of the literals violate. -/
theorem saturates_iff_pair :
    ¬ Saturates 0 [{ name := "a" }, { name := "b" }] 4 ∧
      Saturates 0 [{ name := "a" }, { name := "b" }] 2 := by
  have hiff := fun limit hmin hmax => @saturates_iff [{ name := "a" }, { name := "b" }] limit
    (by decide) (by decide +kernel) (by decide) hmin hmax 0
  refine ⟨fun h => ?_, (hiff 2 (by decide) (by decide)).2.1 (by decide)⟩
  have hrange := ((hiff 4 (by decide) (by decide)).2.2 ⟨fun _ => true, fun _ => 0⟩
    ⟨fun _ => false, fun _ => 0⟩ (by decide) (by decide)).mp h
  exact absurd hrange (by decide)

/-- At most one of one literal forces the literal to be true. -/
theorem not_satisfiable_atMost_singleton :
    ¬ (atMost 0 [{ name := "c_0_0_0" }] 1).Satisfiable ⟨fun _ => false, fun _ => 0⟩ := by
  rw [satisfiable_singleton (by decide +kernel)]
  decide

end CellSat.Count
