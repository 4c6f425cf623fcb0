import Mathlib
import CellSat.Proofs.Meaning
import CellSat.Tag.Bits
/-!
# Numbers in bits

* `Tag.spelled`: the number that bits spell, the lowest bit first; `spelled_map_eq_sum`,
  `spelled_map_testBit`;
* `Tag.bitLength_le_iff`: how many bits a number needs;
* `Tag.patterns`: the bit patterns that an upper bound forbids, in order;
* `Tag.exists_pattern_le_iff`: a number includes one of them exactly if it reaches the limit;
* **`Tag.satisfies_forbidFrom`**: the clauses of an upper bound mean the bound.
-/

namespace CellSat.Tag

/-! ## Spelling -/

/-- The number that bits spell, the lowest first. -/
def spelled : List Bool → Nat
  | [] => 0
  | b :: bits => b.toNat + 2 * spelled bits

theorem spelled_lt (bits : List Bool) : spelled bits < 2 ^ bits.length := by
  induction bits with
  | nil => simp [spelled]
  | cons b bits ih =>
    have := b.toNat_le
    rw [spelled, List.length_cons, pow_succ]
    omega

theorem spelled_map_eq_sum {α : Type} (u : α → Bool) (l : List α) :
    spelled (l.map u) = ∑ i : Fin l.length, 2 ^ i.val * (u l[i]).toNat := by
  induction l with
  | nil => rfl
  | cons a l ih =>
    have hshift : 2 * ∑ i : Fin l.length, 2 ^ i.val * (u l[i]).toNat =
        ∑ i : Fin l.length, 2 ^ (i.val + 1) * (u l[i]).toNat := by
      rw [Finset.mul_sum]
      exact Finset.sum_congr rfl fun i _ => by ring
    rw [List.map_cons, spelled, ih, hshift]
    simp [Fin.sum_univ_succ]

theorem spelled_map_testBit (n k : Nat) : spelled ((List.range k).map n.testBit) = n % 2 ^ k := by
  induction k generalizing n with
  | zero => simp [spelled, Nat.mod_one]
  | succ k ih =>
    have htail : (List.range k).map (n.testBit ∘ Nat.succ) = (List.range k).map (n / 2).testBit :=
      List.map_congr_left fun i _ => Nat.testBit_succ n i
    rw [List.range_succ_eq_map, List.map_cons, List.map_map, htail, spelled, ih, pow_succ',
      Nat.mod_mul, Nat.testBit_zero]
    rcases Nat.mod_two_eq_zero_or_one n with h | h <;> simp [h]

theorem spelled_injective {p q : List Bool} (hlen : p.length = q.length)
    (h : spelled p = spelled q) : p = q := by
  induction p generalizing q with
  | nil => exact (List.length_eq_zero_iff.mp hlen.symm).symm
  | cons b p ih =>
    obtain ⟨c, q, rfl⟩ := List.exists_cons_of_length_eq_add_one hlen.symm
    simp only [spelled] at h
    have hbc : b = c := by cases b <;> cases c <;> simp at h ⊢ <;> omega
    rw [hbc, ih (by simpa using hlen) (show spelled p = spelled q by rw [hbc] at h; omega)]

theorem spelled_mono {p q : List Bool} (h : List.Forall₂ (· ≤ ·) p q) : spelled p ≤ spelled q := by
  induction h with
  | nil => exact Nat.le_refl _
  | cons hbc _ ih =>
    have := Bool.toNat_le_toNat hbc
    simp only [spelled]
    omega

theorem any_iff_spelled_pos (bits : List Bool) : bits.any id = true ↔ 0 < spelled bits := by
  induction bits with
  | nil => simp [spelled]
  | cons b bits ih => cases b <;> simp [spelled, ih]

theorem bitLength_le_iff {n k : Nat} : bitLength n ≤ k ↔ n < 2 ^ k := by
  unfold bitLength
  split_ifs with h
  · simp [h]
  · rw [← Nat.log2_lt h]; omega

theorem lt_two_pow_bitLength (n : Nat) : n < 2 ^ bitLength n := bitLength_le_iff.mp (Nat.le_refl _)

theorem bitLength_mono {m n : Nat} (h : m ≤ n) : bitLength m ≤ bitLength n :=
  bitLength_le_iff.mpr (Nat.lt_of_le_of_lt h (lt_two_pow_bitLength n))

theorem length_bitsOf (n : Nat) : (bitsOf n).length = bitLength n := by simp [bitsOf]

theorem spelled_bitsOf (n : Nat) : spelled (bitsOf n) = n := by
  rw [bitsOf, spelled_map_testBit, Nat.mod_eq_of_lt (lt_two_pow_bitLength n)]

theorem eq_of_testBit_eq_of_lt {m n k : Nat} (hm : m < 2 ^ k) (hn : n < 2 ^ k)
    (h : ∀ i < k, m.testBit i = n.testBit i) : m = n := by
  rw [← Nat.mod_eq_of_lt hm, ← Nat.mod_eq_of_lt hn, ← spelled_map_testBit, ← spelled_map_testBit]
  exact congrArg spelled (List.map_congr_left fun i hi => h i (List.mem_range.mp hi))

/-! ## Counting up -/

@[simp] theorem length_increment (bits : List Bool) : (increment bits).length = bits.length := by
  fun_induction increment bits <;> simp_all

@[simp] theorem length_advance (bits : List Bool) : (advance bits).length = bits.length := by
  fun_induction advance bits <;> simp_all

/-- Adding one either works or loses the carry out of a row of ones. -/
theorem spelled_increment (bits : List Bool) :
    spelled (increment bits) = spelled bits + 1 ∨
      spelled (increment bits) = 0 ∧ spelled bits + 1 = 2 ^ bits.length := by
  fun_induction increment bits with
  | case1 => simp [spelled]
  | case2 bits ih =>
    simp only [spelled, List.length_cons, pow_succ, Bool.toNat_true, Bool.toNat_false]
    omega
  | case3 bits =>
    left
    simp only [spelled, Bool.toNat_true, Bool.toNat_false]
    omega

/-- The patterns from a given one upward until none is left. -/
def patterns : Nat → List Bool → List (List Bool)
  | 0, _ => []
  | fuel + 1, bits => if bits.any id then bits :: patterns fuel (advance bits) else []

theorem forbidFrom_eq (name : String) (fuel : Nat) (bits : List Bool) :
    forbidFrom name fuel bits = (patterns fuel bits).map (forbid name 0) := by
  induction fuel generalizing bits with
  | zero => rfl
  | succ fuel ih =>
    rw [forbidFrom, patterns]
    split_ifs with h
    · rw [List.map_cons, ih]
    · rfl

theorem patterns_false (fuel : Nat) (bits : List Bool) :
    patterns fuel (false :: bits) = (patterns fuel bits).map (false :: ·) := by
  induction fuel generalizing bits with
  | zero => rfl
  | succ fuel ih =>
    simp only [patterns, List.any_cons, id, Bool.false_or, advance, ih]
    split_ifs <;> rfl

theorem length_of_mem_patterns {fuel : Nat} {bits p : List Bool} (h : p ∈ patterns fuel bits) :
    p.length = bits.length := by
  induction fuel generalizing bits with
  | zero => simp [patterns] at h
  | succ fuel ih =>
    rw [patterns] at h
    split_ifs at h
    · rcases List.mem_cons.mp h with rfl | h
      · rfl
      · rw [ih h, length_advance]
    · simp at h

theorem forall₂_cons_iff {b c : Bool} {p q : List Bool} :
    List.Forall₂ (· ≤ ·) (b :: p) (c :: q) ↔ b ≤ c ∧ List.Forall₂ (· ≤ ·) p q :=
  List.forall₂_cons

theorem patterns_of_spelled_eq_zero {fuel : Nat} {bits : List Bool} (h : spelled bits = 0) :
    patterns fuel bits = [] := by
  have hany : ¬ bits.any id = true := by rw [any_iff_spelled_pos]; omega
  cases fuel with
  | zero => rfl
  | succ fuel => rw [patterns, if_neg hany]

/-- **A number reaches the limit exactly if it includes one of the patterns.** Below the lowest set
bit nothing changes; at it, the number includes all of the limit or is larger already. -/
theorem exists_pattern_le_iff (n : Nat) :
    ∀ (bits q : List Bool) (fuel : Nat), bits.length = n → q.length = n → n ≤ fuel →
      ((∃ p ∈ patterns fuel bits, List.Forall₂ (· ≤ ·) p q) ↔
        0 < spelled bits ∧ spelled bits ≤ spelled q) := by
  induction n with
  | zero =>
    intro bits q fuel hbits _ _
    rw [List.length_eq_zero_iff.mp hbits, patterns_of_spelled_eq_zero rfl]
    simp [spelled]
  | succ n ih =>
    intro bits q fuel hbits hq hfuel
    obtain ⟨b, bits, rfl⟩ := List.exists_cons_of_length_eq_add_one hbits
    obtain ⟨c, q, rfl⟩ := List.exists_cons_of_length_eq_add_one hq
    simp only [List.length_cons, Nat.add_right_cancel_iff] at hbits hq
    have hc := c.toNat_le
    have hlt := spelled_lt q
    rw [hq] at hlt
    cases b with
    | false =>
      have h := ih bits q fuel hbits hq (by omega)
      simp only [patterns_false, List.mem_map, exists_exists_and_eq_and, forall₂_cons_iff,
        Bool.false_le, true_and, h, spelled, Bool.toNat_false]
      omega
    | true =>
      obtain ⟨fuel, rfl⟩ : ∃ k, fuel = k + 1 := ⟨fuel - 1, by omega⟩
      -- The patterns after the first one are those of the successor of the higher bits.
      have hrest : (∃ p ∈ patterns fuel (false :: increment bits),
          List.Forall₂ (· ≤ ·) p (c :: q)) ↔ spelled bits + 1 ≤ spelled q := by
        have h := ih (increment bits) q fuel (by simp [hbits]) hq (by omega)
        simp only [patterns_false, List.mem_map, exists_exists_and_eq_and, forall₂_cons_iff,
          Bool.false_le, true_and, h]
        rcases spelled_increment bits with hinc | ⟨hinc, hmax⟩
        · omega
        · rw [hbits] at hmax
          omega
      simp only [patterns, List.any_cons, id, Bool.true_or, if_true, advance, List.mem_cons,
        exists_eq_or_imp, hrest, forall₂_cons_iff, spelled, Bool.toNat_true]
      constructor
      · rintro (⟨hc', hle⟩ | h)
        · have := spelled_mono hle
          rw [Bool.eq_true_of_true_le hc', Bool.toNat_true]
          omega
        · omega
      · rintro ⟨-, hle⟩
        rcases Nat.lt_or_ge (spelled bits) (spelled q) with h | h
        · exact Or.inr h
        · have hc' : c = true := by cases c <;> simp at hle ⊢; omega
          have heq : bits = q := spelled_injective (by omega) (by simp [hc'] at hle; omega)
          exact Or.inl ⟨by simp [hc'], heq ▸ List.forall₂_refl bits⟩

/-! ## The meaning of upper bounds -/

variable {I : Interpretation} {name : String}

/-- The first bits of a variable. -/
def readBits (I : Interpretation) (name : String) (n : Nat) : List Bool :=
  (List.range n).map fun i => I.truth (bitName name i)

/-- The clause of a pattern fails exactly if all of its bits are set. -/
theorem holds_forbid_eq_false_iff (bits : List Bool) (start : Nat) :
    Disjunction.holds I (forbid name start bits) = false ↔
      List.Forall₂ (· ≤ ·) bits
        ((List.range bits.length).map fun i => I.truth (bitName name (start + i))) := by
  induction bits generalizing start with
  | nil => simp [forbid, Disjunction.holds]
  | cons b bits ih =>
    have hshift :
        (List.range bits.length).map ((fun i => I.truth (bitName name (start + i))) ∘ Nat.succ)
        = (List.range bits.length).map fun i => I.truth (bitName name (start + 1 + i)) :=
      List.map_congr_left fun i _ => by simp [Nat.add_right_comm, Nat.add_assoc]
    rw [List.length_cons, List.range_succ_eq_map, List.map_cons, List.map_map, hshift,
      forall₂_cons_iff, ← ih, forbid]
    cases b with
    | false => simp
    | true =>
      simp only [if_true, Disjunction.holds, List.any_cons, Bool.or_eq_false_iff, Nat.add_zero]
      refine and_congr_left fun _ => ?_
      cases h : I.truth (bitName name start) <;> simp [Literal.holds, h]

/-- **The clauses of an upper bound** keep the number in the bits below it. -/
theorem satisfies_forbidFrom {bits : List Bool} (hbits : 0 < spelled bits) :
    I.Satisfies (forbidFrom name bits.length bits) ↔
      spelled (readBits I name bits.length) < spelled bits := by
  have h := exists_pattern_le_iff bits.length bits (readBits I name bits.length) bits.length rfl
    (by simp [readBits]) (Nat.le_refl _)
  rw [and_iff_right hbits] at h
  rw [← not_iff_not, Nat.not_lt, ← h, forbidFrom_eq]
  simp only [Interpretation.Satisfies, List.forall_mem_map, not_forall, Bool.not_eq_true,
    exists_prop]
  refine exists_congr fun p => and_congr_right fun hp => ?_
  rw [holds_forbid_eq_false_iff, length_of_mem_patterns hp]
  simp [readBits]

theorem mem_forbid {l : Literal} {bits : List Bool} {start : Nat} (h : l ∈ forbid name start bits) :
    l.tag = none ∧ ∃ i < start + bits.length, l.name = bitName name i := by
  fun_induction forbid name start bits with
  | case1 => simp at h
  | case2 start bits rest ih =>
    rcases List.mem_cons.mp h with rfl | h
    · exact ⟨rfl, start, by simp, rfl⟩
    · obtain ⟨ht, i, hi, hn⟩ := ih h
      exact ⟨ht, i, by simp only [List.length_cons]; omega, hn⟩
  | case3 start b bits rest _ ih =>
    obtain ⟨ht, i, hi, hn⟩ := ih h
    exact ⟨ht, i, by simp only [List.length_cons]; omega, hn⟩

theorem mem_forbidFrom {d : Disjunction} {l : Literal} {fuel : Nat} {bits : List Bool}
    (hd : d ∈ forbidFrom name fuel bits) (hl : l ∈ d) :
    l.tag = none ∧ ∃ i < bits.length, l.name = bitName name i := by
  rw [forbidFrom_eq, List.mem_map] at hd
  obtain ⟨p, hp, rfl⟩ := hd
  have h := mem_forbid hl
  rwa [Nat.zero_add, length_of_mem_patterns hp] at h

end CellSat.Tag
