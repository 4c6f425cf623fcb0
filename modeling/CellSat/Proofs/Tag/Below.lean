import Mathlib
import CellSat.Proofs.Tag.Expansion
/-!
# Upper bounds on numbers in bits

An upper bound forbids the bit pattern of the limit, adds the lowest set bit to it, and goes on
until the carry is lost and no bit is set. Each round clears one more of the low bits, so there are
at most as many rounds as bits.

* `Tag.Rounds`: the patterns of a run of rounds, from given bits to the end;
* `Tag.clear_advance`, **`Tag.rounds_patterns`**: what a round clears, and that all rounds end;
* `Interpretation.exists_readBits`: bits of a variable can be chosen freely;
* **`Tag.below_exact`**: the clauses of an upper bound keep exactly the numbers below it.
-/

namespace CellSat

namespace Tag

/-! ## Rounds -/

/-- The patterns of all rounds, from the given bits on until no bit is set. -/
inductive Rounds : List Bool → List (List Bool) → Prop
  /-- No bit is set. -/
  | done {bits : List Bool} : bits.any id = false → Rounds bits []
  /-- The bits are a pattern, and the next round starts with their successor. -/
  | round {bits : List Bool} {ps : List (List Bool)} :
      bits.any id = true → Rounds (advance bits) ps → Rounds bits (bits :: ps)

/-- The lowest bits of a number are not set. -/
def Clear (k : Nat) (bits : List Bool) : Prop := ∀ b ∈ bits.take k, b = false

/-- A round clears one more bit: the lowest set bit is cleared, and the carry goes to bits above. -/
theorem clear_advance {k : Nat} {bits : List Bool} (h : Clear k bits) :
    Clear (k + 1) (advance bits) := by
  fun_induction advance bits generalizing k with
  | case1 => simp [Clear]
  | case2 bits ih =>
    rw [Clear, List.take_succ_cons, List.forall_mem_cons]
    refine ⟨rfl, ?_⟩
    cases k with
    | zero => simp
    | succ k =>
      rw [Clear, List.take_succ_cons, List.forall_mem_cons] at h
      exact ih h.2
  | case3 bits =>
    cases k with
    | zero => simp [Clear]
    | succ k =>
      rw [Clear, List.take_succ_cons, List.forall_mem_cons] at h
      exact absurd h.1 (by decide)

theorem rounds_patterns {fuel k : Nat} {bits : List Bool} (hclear : Clear k bits)
    (hfuel : bits.length ≤ k + fuel) : Rounds bits (patterns fuel bits) := by
  induction fuel generalizing k bits with
  | zero =>
    rw [Clear, List.take_of_length_le (by omega)] at hclear
    exact .done (List.any_eq_false.mpr fun b hb => by simp [hclear b hb])
  | succ fuel ih =>
    rw [patterns]
    split_ifs with hany
    · refine .round hany (ih (clear_advance hclear) ?_)
      rw [length_advance]
      omega
    · exact .done (Bool.eq_false_iff.mpr hany)

theorem length_patterns_le (fuel : Nat) (bits : List Bool) :
    (patterns fuel bits).length ≤ fuel := by
  induction fuel generalizing bits with
  | zero => exact le_rfl
  | succ fuel ih =>
    rw [patterns]
    split_ifs
    · exact Nat.succ_le_succ (ih _)
    · exact Nat.zero_le _

end Tag

/-! ## Bits of a variable -/

/-- The names of the bits of a variable differ, so each of them can have any value. -/
theorem Interpretation.exists_readBits (name : String) (bits : List Bool) :
    ∃ I : Interpretation, Tag.readBits I name bits.length = bits := by
  have hinjective : Function.Injective (Tag.bitName name) := fun i j hij =>
    (Tag.bitName_injective hij).2
  refine ⟨⟨Function.extend (Tag.bitName name) (fun i => bits.getD i false) fun _ => false,
    fun _ => 0⟩, List.ext_getElem (by simp [Tag.readBits]) fun i _ hi => ?_⟩
  simp [Tag.readBits, hinjective.extend_apply, hi]

namespace Tag

/-! ## Upper bounds -/

theorem below_eq_ok {limit : Int} (hlimit : 0 < limit) (name : String) :
    below name limit = .ok (forbidFrom name (bitLength limit.toNat) (bitsOf limit.toNat)) := by
  rw [below, if_neg (by omega), ← length_bitsOf]

/-- **Upper bounds are exact**, and take at most as many rounds as the limit has bits. -/
theorem below_exact (l : Literal) (limit : Int) :
    ((∃ e, below l.name limit = .error e) ↔ limit ≤ 0) ∧
      (0 < limit → ∃ ps ds, Rounds (bitsOf limit.toNat) ps ∧ ps.length ≤ bitLength limit.toNat ∧
        ds = ps.map (forbid l.name 0) ∧ below l.name limit = .ok ds ∧
        (∀ d ∈ ds, ∀ k ∈ d,
          k.tag = none ∧ ∃ i < bitLength limit.toNat, k.name = bitName l.name i) ∧
        ∀ bits : List Bool, bits.length = bitLength limit.toNat →
          (∃ I : Interpretation, readBits I l.name bits.length = bits) ∧
          ∀ I : Interpretation, readBits I l.name bits.length = bits →
            (I.Satisfies ds ↔ (spelled bits : Int) < limit)) := by
  constructor
  · constructor
    · rintro ⟨e, he⟩
      by_contra hpos
      rw [below_eq_ok (not_le.mp hpos)] at he
      contradiction
    · intro hlimit
      exact ⟨_, if_pos hlimit⟩
  · intro hlimit
    have hclear : Clear 0 (bitsOf limit.toNat) := by simp [Clear]
    refine ⟨patterns (bitLength limit.toNat) (bitsOf limit.toNat),
      forbidFrom l.name (bitLength limit.toNat) (bitsOf limit.toNat),
      rounds_patterns hclear (by rw [length_bitsOf, Nat.zero_add]), length_patterns_le _ _,
      forbidFrom_eq _ _ _, below_eq_ok hlimit l.name, fun d hd k hk => ?_, fun bits hbits => ?_⟩
    · have h := mem_forbidFrom hd hk
      rwa [length_bitsOf] at h
    · refine ⟨Interpretation.exists_readBits l.name bits, fun I hI => ?_⟩
      have hsat := @satisfies_forbidFrom I l.name (bitsOf limit.toNat)
        (by rw [spelled_bitsOf]; omega)
      rw [length_bitsOf, ← hbits, hI, spelled_bitsOf] at hsat
      rw [← hbits, hsat]
      omega

/-- Below 5, of the numbers with three bits, 4 is kept and 5 is not. -/
theorem below_exact_five : ∃ ds, below "x" 5 = .ok ds ∧
    (∀ I : Interpretation, readBits I "x" 3 = [false, false, true] → I.Satisfies ds) ∧
    ∃ I : Interpretation, readBits I "x" 3 = [true, false, true] ∧ ¬ I.Satisfies ds := by
  obtain ⟨ps, ds, -, -, -, hds, -, hexact⟩ := (below_exact { name := "x" } 5).2 (by decide)
  refine ⟨ds, hds, fun I hI => ?_, ?_⟩
  · exact ((hexact [false, false, true] (by decide)).2 I hI).mpr (by decide)
  · obtain ⟨⟨I, hI⟩, hiff⟩ := hexact [true, false, true] (by decide)
    exact ⟨I, hI, fun hsat => absurd ((hiff I hI).mp hsat) (by decide)⟩

end Tag

end CellSat
