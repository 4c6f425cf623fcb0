import Mathlib
import CellSat.Proofs.Counter.Freshness
/-!
# Temporaries that are fixed by what is counted

An adder may lose no weight, but it may gain some, so the temporaries of a bound can have different
values while what is counted stays the same. They cannot if the bound is met with equality, for then
no adder gains anything, nor if so little is counted that all of them are outputs.

* `Network.Adds.exact_of_weigh_le`, `Network.Adds.eq_of_exact`: networks that gain no weight;
* `Bound.exists_mem_clauses64`: the temporaries of a bound occur in its clauses;
* `Count.holds_eq_of_mem_outputs`, `Network.literal_mem_outputs`: outputs have the digits of the
  limit, and three literals or fewer have no other temporaries;
* **`Bound.temporary_eq`**: when the counted variables fix the temporaries of a bound.
-/

namespace CellSat

namespace Network

variable {issued : Nat} {s t : Multiset (Nat × Literal)} {adders : List Adder}

/-! ## Networks that gain no weight -/

/-- If no adder loses weight and the network as a whole gains none, no adder gains any. -/
theorem Adds.exact_of_weigh_le (h : Adds issued s adders t) {u : Literal → Int}
    (hzero : u .zero = 0) (hkeeps : ∀ a ∈ adders, a.Keeps u) (hle : weigh u t ≤ weigh u s) :
    ∀ a ∈ adders, a.Exact u := by
  induction h with
  | done issued s => simp
  | @full issued level x y z s t adders h ih | @half issued level x y s t adders h ih =>
    rw [List.forall_mem_cons] at hkeeps ⊢
    have hafter := h.weigh_le hzero hkeeps.2
    simp only [weigh_cons, pow_succ] at hafter hle ih
    have hpos : (0 : Int) < 2 ^ level := by positivity
    have hexact := le_antisymm hkeeps.1
      (le_of_mul_le_mul_left (by simp only [hzero]; linarith) hpos)
    have hweight := congrArg (2 ^ level * ·) hexact
    simp only [hzero] at hweight
    exact ⟨hexact, ih hkeeps.2 (by linarith)⟩

theorem digits_unique {sum carry sum' carry' : Bool}
    (h : (2 * carry.toNat + sum.toNat : Int) = 2 * carry'.toNat + sum'.toNat) :
    sum = sum' ∧ carry = carry' := by
  revert h
  cases sum <;> cases carry <;> cases sum' <;> cases carry' <;> decide

/-- Exact adders have one sum and one carry, so the wires before a network fix all temporaries. -/
theorem Adds.eq_of_exact (h : Adds issued s adders t) {u v : Literal → Bool}
    (hzero : u .zero = v .zero) (hs : ∀ p ∈ s, u p.2 = v p.2)
    (hu : ∀ a ∈ adders, a.Exact (value u)) (hv : ∀ a ∈ adders, a.Exact (value v)) {k : Nat}
    (hk : issued < k) (hk' : k ≤ issued + 2 * adders.length) :
    u (Temporary.literal k) = v (Temporary.literal k) := by
  induction h with
  | done issued s =>
    rw [List.length_nil] at hk'
    omega
  | @full issued level x y z s t adders h ih | @half issued level x y s t adders h ih =>
    rw [List.forall_mem_cons] at hu hv
    rw [List.length_cons] at hk'
    have hrest : ∀ p ∈ s, u p.2 = v p.2 := fun p hp => hs p (by simp [hp])
    simp only [Multiset.mem_cons, forall_eq_or_imp] at hs
    obtain ⟨hsum, hcarry⟩ :
        u (Temporary.literal (issued + 1)) = v (Temporary.literal (issued + 1)) ∧
          u (Temporary.literal (issued + 2)) = v (Temporary.literal (issued + 2)) := by
      have hu := hu.1
      have hv := hv.1
      simp only [Adder.Exact, value, hs, hzero] at hu hv
      exact digits_unique (hu.symm.trans hv)
    have ih := ih (@forall_after _ _ (fun l => u l = v l) _ hsum hcarry hrest) hu.2 hv.2
    by_cases hlate : issued + 2 < k
    · exact ih hlate (by omega)
    · obtain rfl | rfl : k = issued + 1 ∨ k = issued + 2 := by omega
      · exact hsum
      · exact hcarry

theorem Adds.exists_adder (h : Adds issued s adders t) {k : Nat} (hk : issued < k)
    (hk' : k ≤ issued + 2 * adders.length) :
    ∃ a ∈ adders, a.sum = Temporary.literal k ∨ a.carry = Temporary.literal k := by
  induction h with
  | done issued s =>
    rw [List.length_nil] at hk'
    omega
  | @full issued level x y z s t adders h ih | @half issued level x y s t adders h ih =>
    rw [List.length_cons] at hk'
    by_cases hlate : issued + 2 < k
    · obtain ⟨a, ha, hdriven⟩ := ih hlate (by omega)
      exact ⟨a, List.mem_cons_of_mem _ ha, hdriven⟩
    · refine ⟨_, List.mem_cons_self, ?_⟩
      obtain rfl | rfl : k = issued + 1 ∨ k = issued + 2 := by omega
      · exact .inl rfl
      · exact .inr rfl

/-- Two or three literals need one adder, and its wires are the outputs. -/
theorem build_one_adder {literals : List Literal} (h : 2 ≤ literals.length)
    (h' : literals.length ≤ 3) : (build issued literals).1.length = 1 ∧
      (build issued literals).2 =
        [Temporary.literal (issued + 1), Temporary.literal (issued + 2)] := by
  obtain ⟨a, b, rfl⟩ | ⟨a, b, c, rfl⟩ :
      (∃ a b, literals = [a, b]) ∨ ∃ a b c, literals = [a, b, c] := by
    rw [← List.length_eq_two, ← List.length_eq_three]
    omega
  all_goals simp [build, rounds, round, roundFrom, pad, addTriples]

theorem literal_mem_outputs {literals : List Literal} (h : literals.length ≤ 3) {k : Nat}
    (hk : issued < k) (hk' : k ≤ issued + 2 * (build issued literals).1.length) :
    Temporary.literal k ∈ (build issued literals).2 := by
  by_cases hlength : 2 ≤ literals.length
  · obtain ⟨hadders, houtputs⟩ := @build_one_adder issued literals hlength h
    rw [hadders] at hk'
    rw [houtputs]
    obtain rfl | rfl : k = issued + 1 ∨ k = issued + 2 := by omega
    · simp
    · simp
  · have hadders : (build issued literals).1.length = 0 := by
      obtain rfl | ⟨a, rfl⟩ : literals = [] ∨ ∃ a, literals = [a] := by
        rw [← List.length_eq_zero_iff, ← List.length_eq_one_iff]
        omega
      all_goals simp [build, rounds]
    omega

end Network

/-! ## Counts -/

namespace Count

open Network

variable {issued : Nat} {literals : List Literal} {limit : Int} {I J : Interpretation}

theorem exists_mem_clauses (hliterals : ∀ l ∈ literals, l.name ≠ Literal.zeroName) {k : Nat}
    (hk : issued < k) (hk' : k ≤ issued + (atMost issued literals limit).temporaries) :
    ∃ d ∈ (atMost issued literals limit).clauses, Temporary.literal k ∈ d := by
  have hne : literals ≠ [] := by
    rintro rfl
    simp [temporaries, atMost, ofNetwork, build] at hk'
    omega
  obtain ⟨a, ha, hdriven⟩ := (build_adds issued hne).exists_adder hk hk'
  refine ⟨[a.carry, a.sum, a.first.negate],
    List.mem_append_left _ (List.mem_filter.mpr ⟨?_, ?_⟩), ?_⟩
  · exact List.mem_flatMap.mpr ⟨a, ha, by simp [Adder.allClauses]⟩
  · simpa [Adder.endsInZero, Literal.negate] using (wires_ne_zeroName hne hliterals ha).2.2.1
  · rcases hdriven with hsum | hcarry
    · simp [hsum]
    · simp [hcarry]

theorem holds_eq_of_mem_outputs (hne : literals ≠ [])
    (hI : I.Satisfies (atMost issued literals limit).clauses)
    (hJ : J.Satisfies (atMost issued literals limit).clauses) :
    ∀ l ∈ (build issued literals).2, l.holds I = l.holds J := by
  have hdigits := ((satisfies_atMost hne).mp hI).2.trans ((satisfies_atMost hne).mp hJ).2.symm
  exact List.map_inj_left.mp hdigits

/-- A bound that is met with equality leaves its adders no weight to gain. -/
theorem exact_of_countP_eq (hn : 2 ≤ literals.length)
    (hliterals : ∀ l ∈ literals, l.name ≠ Literal.zeroName) (hmax : limit ≤ Word.maxInt64)
    (hJ : J.Satisfies (atMost issued literals limit).clauses)
    (hcount : (literals.countP (Literal.holds J) : Int) = limit) :
    ∀ a ∈ (build issued literals).1, a.Exact (value (wire J)) := by
  have hne : literals ≠ [] := by
    rintro rfl
    simp at hn
  obtain ⟨hadders, hdigits⟩ := (satisfies_atMost hne).mp hJ
  rw [Adder.satisfies_clauses fun a => wires_ne_zeroName hne hliterals] at hadders
  refine (build_adds issued hne).exact_of_weigh_le (by simp [value, wire, Literal.zero]) hadders ?_
  have hwire : literals.countP (wire J) = literals.countP (Literal.holds J) :=
    List.countP_congr fun l hl => by rw [Adder.wire_of_ne (hliterals l hl)]
  have hspelled := spelled_limitBit (by omega : 0 ≤ limit) hmax (build issued literals).2.length
  rw [weigh_wiresAt_zero, weigh_placed, pow_zero, one_mul, map_wire_outputs hn, hdigits, hspelled,
    hwire]
  have := Nat.mod_le limit.toNat (2 ^ (build issued literals).2.length)
  omega

/-- A bound that is met with equality, or of three literals at most, leaves nothing open. -/
theorem holds_literal_eq (hliterals : ∀ l ∈ literals, l.name ≠ Literal.zeroName)
    (hmax : limit ≤ Word.maxInt64) (hI : I.Satisfies (atMost issued literals limit).clauses)
    (hJ : J.Satisfies (atMost issued literals limit).clauses)
    (hagree : ∀ l ∈ literals, l.holds I = l.holds J)
    (htight : literals.length ≤ 3 ∨ (literals.countP (Literal.holds I) : Int) = limit) {k : Nat}
    (hk : issued < k) (hk' : k ≤ issued + (atMost issued literals limit).temporaries) :
    (Temporary.literal k).holds I = (Temporary.literal k).holds J := by
  by_cases hfew : literals.length ≤ 3
  · have hmem := literal_mem_outputs hfew hk hk'
    have hne : literals ≠ [] := by
      rintro rfl
      simp [build] at hmem
    exact holds_eq_of_mem_outputs hne hI hJ _ hmem
  · have hcount := htight.resolve_left hfew
    have hcount' : literals.countP (Literal.holds J) = literals.countP (Literal.holds I) :=
      List.countP_congr fun l hl => by rw [hagree l hl]
    have hne : literals ≠ [] := by
      rintro rfl
      simp at hfew
    have hwires : ∀ p ∈ wiresAt 0 literals, wire I p.2 = wire J p.2 := by
      intro p hp
      have hp := (mem_wiresAt.mp hp).2
      rw [Adder.wire_of_ne (hliterals _ hp), Adder.wire_of_ne (hliterals _ hp), hagree _ hp]
    have heq := (build_adds issued hne).eq_of_exact (by simp [wire, Literal.zero]) hwires
      (exact_of_countP_eq (by omega) hliterals hmax hI hcount)
      (exact_of_countP_eq (by omega) hliterals hmax hJ (hcount' ▸ hcount)) hk hk'
    have hname := Temporary.name_ne_zeroName k
    rwa [Adder.wire_of_ne hname, Adder.wire_of_ne hname] at heq

end Count

/-! ## Bounds -/

namespace Bound

variable {b : Bound} {lattice : Lattice} {grid : List Node} {issued issued' : Nat}
  {cs : List Clause} {I J : Interpretation}

theorem name_ne_zeroName {l : Literal} (h : l ∈ b.literals lattice grid) :
    l.name ≠ Literal.zeroName := by
  obtain ⟨n, -, start, rfl, -⟩ := mem_literals h
  intro hname
  have hmem : '_' ∈ Literal.zeroName.toList := by
    rw [← hname]
    simp [Node.name]
  exact absurd hmem (by decide)

theorem exists_atMost (h : b.clauses64 lattice grid issued = .ok (cs, issued')) :
    ∃ literals limit, Clause.disjunctions cs = (Count.atMost issued literals limit).clauses ∧
      issued' = issued + (Count.atMost issued literals limit).temporaries ∧
      (literals = b.literals lattice grid ∧ limit = b.size ∨
        literals = (b.literals lattice grid).map Literal.negate ∧
          limit = (b.literals lattice grid).length - b.size ∧ limit ≤ Word.maxInt64) := by
  obtain ⟨c, hc, h⟩ := bind_eq_ok.mp h
  obtain ⟨rfl, rfl⟩ := Prod.mk.inj (Except.ok.inj h)
  rw [heading, Clause.disjunctions_comment, Clause.disjunctions_map]
  cases hcomparator : b.comparator with
  | atMost =>
    rw [hcomparator] at hc
    obtain rfl := Count.eq_of_atMost32 hc
    exact ⟨_, _, rfl, rfl, .inl ⟨rfl, rfl⟩⟩
  | atLeast =>
    rw [hcomparator] at hc
    obtain ⟨others, hothers, hc⟩ := bind_eq_ok.mp hc
    obtain rfl := Count.eq_of_atMost32 hc
    have hbounds := (Word.bounds_of_int64 hothers).2
    rw [Word.eq_of_int64 hothers]
    exact ⟨_, _, rfl, rfl, .inr ⟨rfl, rfl, hbounds⟩⟩

theorem name_ne_zeroName_of_negate {l : Literal}
    (h : l ∈ (b.literals lattice grid).map Literal.negate) : l.name ≠ Literal.zeroName := by
  obtain ⟨k, hk, rfl⟩ := List.mem_map.mp h
  show k.name ≠ Literal.zeroName
  exact name_ne_zeroName hk

theorem exists_mem_clauses64 (h : b.clauses64 lattice grid issued = .ok (cs, issued')) {k : Nat}
    (hk : issued < k) (hk' : k ≤ issued') :
    ∃ d ∈ Clause.disjunctions cs, Temporary.literal k ∈ d := by
  obtain ⟨literals, limit, hclauses, rfl, hliterals⟩ := exists_atMost h
  rw [hclauses]
  refine Count.exists_mem_clauses (fun l hl => ?_) hk hk'
  rcases hliterals with ⟨rfl, -⟩ | ⟨rfl, -⟩
  · exact name_ne_zeroName hl
  · exact name_ne_zeroName_of_negate hl

/-- A bound **leaves slack** if it counts four literals or more, and not exactly as many of them are
true as it says. -/
def Slack (b : Bound) (literals : List Literal) (I : Interpretation) : Prop :=
  4 ≤ literals.length ∧ (literals.countP (Literal.holds I) : Int) ≠ b.size

/-- **The counted variables fix the temporaries** of a bound without slack. -/
theorem temporary_eq (h : b.clauses64 lattice grid issued = .ok (cs, issued'))
    (hmax : b.size ≤ Word.maxInt64) (hI : I.Satisfies (Clause.disjunctions cs))
    (hJ : J.Satisfies (Clause.disjunctions cs))
    (hagree : ∀ l ∈ b.literals lattice grid, l.holds I = l.holds J)
    (hslack : ¬ b.Slack (b.literals lattice grid) I) {k : Nat} (hk : issued < k)
    (hk' : k ≤ issued') : (Temporary.literal k).holds I = (Temporary.literal k).holds J := by
  have htight : (b.literals lattice grid).length ≤ 3 ∨
      ((b.literals lattice grid).countP (Literal.holds I) : Int) = b.size := by
    by_cases hfew : (b.literals lattice grid).length ≤ 3
    · exact .inl hfew
    · exact .inr (by_contra fun hne => hslack ⟨by omega, hne⟩)
  obtain ⟨literals, limit, hclauses, rfl, hliterals⟩ := exists_atMost h
  rw [hclauses] at hI hJ
  rcases hliterals with ⟨rfl, rfl⟩ | ⟨rfl, rfl, hbound⟩
  · exact Count.holds_literal_eq (fun l => name_ne_zeroName) hmax hI hJ hagree htight hk hk'
  · refine Count.holds_literal_eq (fun l => name_ne_zeroName_of_negate) hbound hI hJ ?_ ?_ hk hk'
    · refine List.forall_mem_map.mpr fun l hl => ?_
      rw [Literal.holds_negate, Literal.holds_negate, hagree l hl]
    · have hle := (b.literals lattice grid).countP_le_length (p := Literal.holds I)
      rw [List.length_map, Count.countP_negate]
      omega

end Bound

end CellSat
