import Mathlib
import CellSat.Proofs.Counter.Supply
import CellSat.Proofs.Meaning
/-!
# What bounds on the number of true literals mean

The clauses of a bound speak about literals and about temporaries. They are read as a statement
about the literals alone: there are values of the temporaries that satisfy them.

* `Literal.IsOrdinary`, `Temporary.Extends`, `Count.Satisfiable`: the reading;
* `Adder.satisfies_clauses`: what the clauses of adders say about wires;
* `Count.satisfies_fixOutputs`: the outputs have the digits of the limit;
* **`Count.satisfiable_iff_countP`**: between 0 and the number of literals, bounds mean what they
  say, if there are numbers for their temporaries.
-/

namespace CellSat

/-! ## Temporaries and other variables -/

/-- Whether a name has the form of a temporary. -/
def Temporary.isName (name : String) : Bool := ['\x7b', 'x'].isPrefixOf name.toList

/-- A literal about neither a temporary nor the false wire. -/
def Literal.IsOrdinary (l : Literal) : Prop :=
  Temporary.isName l.name = false ∧ l.name ≠ Literal.zeroName

instance (l : Literal) : Decidable l.IsOrdinary := inferInstanceAs (Decidable (_ ∧ _))

/-- The second interpretation differs from the first one in temporaries at most. -/
structure Temporary.Extends (I J : Interpretation) : Prop where
  number : J.number = I.number
  truth : ∀ name, isName name = false → J.truth name = I.truth name

namespace Temporary

theorem isName_literal (k : Nat) : isName (literal k).name = true := by
  simp [isName, literal, List.isPrefixOf]

theorem name_ne_zeroName (k : Nat) : (literal k).name ≠ Literal.zeroName := fun h =>
  zero_ne_literal k (by rw [Literal.zero, ← h]; rfl)

theorem Extends.holds_eq {I J : Interpretation} (h : Extends I J) {l : Literal}
    (hl : l.IsOrdinary) : l.holds J = l.holds I :=
  Literal.holds_congr (h.truth l.name hl.1) (by rw [h.number])

/-- The interpretation with other values of the temporaries. -/
def extend (I : Interpretation) (v : Literal → Bool) : Interpretation where
  truth name := if isName name then v { name } else I.truth name
  number := I.number

theorem extends_extend (I : Interpretation) (v : Literal → Bool) : Extends I (extend I v) where
  number := rfl
  truth name h := by simp [extend, h]

theorem holds_extend (I : Interpretation) (v : Literal → Bool) (k : Nat) :
    (literal k).holds (extend I v) = v (literal k) := by
  have hname : isName (literal k).name = true := isName_literal k
  have htruth : (extend I v).truth (literal k).name = v (literal k) := by
    simp only [extend, hname, if_true]
    rfl
  rw [← htruth]
  simp [Literal.holds, literal]

end Temporary

/-! ## The clauses of adders -/

/-- The value of a wire, where the padding wire is false. -/
def Network.wire (I : Interpretation) (l : Literal) : Bool :=
  l.name != Literal.zeroName && l.holds I

namespace Adder

open Network

variable {I : Interpretation} {a : Adder}

theorem wire_of_ne {l : Literal} (h : l.name ≠ Literal.zeroName) : wire I l = l.holds I := by
  simp [wire, h]

theorem satisfies_padded {c s f g : Literal} :
    I.Satisfies [[c, f.negate, g.negate], [c, s, f.negate], [c, s, g.negate]] ↔
      ((f.holds I).toNat : Int) + (g.holds I).toNat + (false.toNat : Nat) ≤
        2 * (c.holds I).toNat + (s.holds I).toNat := by
  simp only [Interpretation.satisfies_cons, Interpretation.satisfies_nil, and_true,
    Disjunction.holds, List.any_cons, List.any_nil, Literal.holds_negate]
  cases c.holds I <;> cases s.holds I <;> cases f.holds I <;> cases g.holds I <;> decide

theorem satisfies_all {c s f g h : Literal} :
    I.Satisfies [[c, f.negate, g.negate], [c, f.negate, h.negate], [c, g.negate, h.negate],
        [c, s, f.negate], [c, s, g.negate], [c, s, h.negate],
        [s, f.negate, g.negate, h.negate]] ↔
      ((f.holds I).toNat : Int) + (g.holds I).toNat + (h.holds I).toNat ≤
        2 * (c.holds I).toNat + (s.holds I).toNat := by
  simp only [Interpretation.satisfies_cons, Interpretation.satisfies_nil, and_true,
    Disjunction.holds, List.any_cons, List.any_nil, Literal.holds_negate]
  cases c.holds I <;> cases s.holds I <;> cases f.holds I <;> cases g.holds I <;>
    cases h.holds I <;> decide

/-- The clauses of one adder say that no weight is lost. -/
theorem satisfies_allClauses (hsum : a.sum.name ≠ Literal.zeroName)
    (hcarry : a.carry.name ≠ Literal.zeroName) (hfirst : a.first.name ≠ Literal.zeroName)
    (hsecond : a.second.name ≠ Literal.zeroName) :
    I.Satisfies (a.allClauses.filter fun d => !endsInZero d) ↔ a.Keeps (value (wire I)) := by
  simp only [Keeps, value, wire_of_ne hsum, wire_of_ne hcarry, wire_of_ne hfirst,
    wire_of_ne hsecond]
  by_cases hthird : a.third.name = Literal.zeroName
  · have hzero : wire I a.third = false := by simp [wire, hthird]
    have hkept : (a.allClauses.filter fun d => !endsInZero d) =
        [[a.carry, a.first.negate, a.second.negate], [a.carry, a.sum, a.first.negate],
          [a.carry, a.sum, a.second.negate]] := by
      simp [allClauses, endsInZero, Literal.negate, hfirst, hsecond, hthird]
    rw [hkept, hzero, satisfies_padded]
  · have hkept : (a.allClauses.filter fun d => !endsInZero d) = a.allClauses := by
      simp [allClauses, endsInZero, Literal.negate, hfirst, hsecond, hthird]
    rw [hkept, wire_of_ne hthird]
    exact satisfies_all

theorem satisfies_clauses {adders : List Adder}
    (hadders : ∀ a ∈ adders, a.sum.name ≠ Literal.zeroName ∧ a.carry.name ≠ Literal.zeroName ∧
      a.first.name ≠ Literal.zeroName ∧ a.second.name ≠ Literal.zeroName) :
    I.Satisfies (clauses adders) ↔ ∀ a ∈ adders, a.Keeps (value (wire I)) := by
  induction adders with
  | nil => simp [clauses, Interpretation.satisfies_nil]
  | cons a adders ih =>
    rw [List.forall_mem_cons] at hadders ⊢
    obtain ⟨⟨hsum, hcarry, hfirst, hsecond⟩, hrest⟩ := hadders
    rw [← ih hrest, ← satisfies_allClauses hsum hcarry hfirst hsecond,
      ← Interpretation.satisfies_append, clauses, clauses, List.flatMap_cons, List.filter_append]

end Adder

/-! ## The digits of the limit -/

namespace Count

variable {I : Interpretation}

theorem holds_flipIf (l : Literal) (flip : Bool) :
    (l.flipIf flip).holds I = (l.holds I ^^ flip) := by
  cases flip with
  | false => simp [Literal.flipIf]
  | true =>
    have hnegate : l.flipIf true = l.negate := by simp [Literal.flipIf, Literal.negate]
    rw [hnegate, Literal.holds_negate, Bool.xor_true]

/-- The outputs have the digits of the limit. -/
theorem satisfies_fixOutputs (limit : Int) (digit : Nat) (outputs : List Literal) :
    I.Satisfies (fixOutputs limit digit outputs) ↔
      outputs.map (Literal.holds I) =
        (List.range outputs.length).map fun i => limitBit limit (digit + i) := by
  induction outputs generalizing digit with
  | nil => simp [fixOutputs, Interpretation.satisfies_nil]
  | cons l outputs ih =>
    have htail : ((fun i => limitBit limit (digit + i)) ∘ Nat.succ) =
        fun i => limitBit limit (digit + 1 + i) := by
      funext i
      simp only [Function.comp, Nat.succ_eq_add_one]
      congr 1
      omega
    have hhead : Disjunction.holds I [l.flipIf !limitBit limit digit] = true ↔
        l.holds I = limitBit limit digit := by
      rw [Disjunction.holds, List.any_cons, List.any_nil, Bool.or_false, holds_flipIf]
      cases l.holds I <;> cases limitBit limit digit <;> simp
    rw [fixOutputs, Interpretation.satisfies_cons, ih, hhead, List.length_cons,
      List.range_succ_eq_map, List.map_cons, List.map_cons, List.map_map, htail, List.cons.injEq]
    exact Iff.rfl

theorem limitBit_eq_testBit {limit : Nat} (h : (limit : Int) ≤ Word.maxInt64) (digit : Nat) :
    limitBit limit digit = limit.testBit digit := by
  have hlt : limit < 2 ^ 63 := by
    simp only [Word.maxInt64] at h
    omega
  have hdiv : limit / 2 ^ min digit 63 = limit / 2 ^ digit := by
    rcases Nat.le_total digit 63 with hle | hge
    · rw [Nat.min_eq_left hle]
    · rw [Nat.min_eq_right hge, Nat.div_eq_of_lt hlt,
        Nat.div_eq_of_lt (Nat.lt_of_lt_of_le hlt (Nat.pow_le_pow_right (by omega) hge))]
  have hcast : (limit : Int) / (Nat.pow 2 (min digit 63) : Nat) % 2 =
      ((limit / 2 ^ digit % 2 : Nat) : Int) := by
    rw [← hdiv]
    rfl
  rw [limitBit, hcast, Nat.testBit_eq_decide_div_mod_eq]
  rcases Nat.mod_two_eq_zero_or_one (limit / 2 ^ digit) with hmod | hmod <;> simp [hmod]

theorem spelled_limitBit {limit : Int} (h0 : 0 ≤ limit) (h : limit ≤ Word.maxInt64) (count : Nat) :
    Tag.spelled ((List.range count).map (limitBit limit)) = limit.toNat % 2 ^ count := by
  obtain ⟨limit, rfl⟩ := Int.eq_ofNat_of_zero_le h0
  rw [Int.toNat_natCast, ← Tag.spelled_map_testBit]
  congr 2
  exact funext fun digit => limitBit_eq_testBit h digit

end Count

/-! ## Values of temporaries -/

namespace Network

variable {literals : List Literal} {I : Interpretation}

theorem wire_of_ordinary {J : Interpretation} (hJ : Temporary.Extends I J) {l : Literal}
    (hl : l.IsOrdinary) : wire J l = l.holds I := by
  rw [Adder.wire_of_ne hl.2, hJ.holds_eq hl]

theorem wires_ne_zeroName {issued : Nat} (hne : literals ≠ [])
    (hliterals : ∀ l ∈ literals, l.name ≠ Literal.zeroName) {a : Adder}
    (ha : a ∈ (build issued literals).1) :
    a.sum.name ≠ Literal.zeroName ∧ a.carry.name ≠ Literal.zeroName ∧
      a.first.name ≠ Literal.zeroName ∧ a.second.name ≠ Literal.zeroName := by
  have hwires : ∀ p ∈ wiresAt 0 literals, p.2.name ≠ Literal.zeroName := fun p hp =>
    hliterals p.2 (mem_wiresAt.mp hp).2
  obtain ⟨hfirst, hsecond, -, ⟨k, -, -, hsum⟩, m, -, -, hcarry⟩ :=
    @Adds.forall_adders _ _ _ _ (build_adds issued hne) (·.name ≠ Literal.zeroName) hwires
      (fun k _ _ => Temporary.name_ne_zeroName k) a ha
  exact ⟨hsum ▸ Temporary.name_ne_zeroName k, hcarry ▸ Temporary.name_ne_zeroName m, hfirst,
    hsecond⟩

theorem name_ne_zeroName_of_mem_build {issued : Nat} (hne : literals ≠ [])
    (hliterals : ∀ l ∈ literals, l.IsOrdinary) {a : Adder} (ha : a ∈ (build issued literals).1) :
    a.sum.name ≠ Literal.zeroName ∧ a.carry.name ≠ Literal.zeroName ∧
      a.first.name ≠ Literal.zeroName ∧ a.second.name ≠ Literal.zeroName :=
  wires_ne_zeroName hne (fun l hl => (hliterals l hl).2) ha

theorem satisfies_extend (issued : Nat) (hne : literals ≠ [])
    (hliterals : ∀ l ∈ literals, l.IsOrdinary) {v : Literal → Bool}
    (hv : ∀ i (h : i < literals.length), literals[i].holds I = true → v (position i) = true)
    (hkeeps : ∀ a ∈ (build issued (positions literals.length)).1, a.Keeps (value v)) :
    (Temporary.extend I v).Satisfies (Adder.clauses (build issued literals).1) := by
  rw [Adder.satisfies_clauses fun a => name_ne_zeroName_of_mem_build hne hliterals]
  intro a ha
  rw [build_eq_map, List.mem_map] at ha
  obtain ⟨a, ha, rfl⟩ := ha
  -- At the places the values are at least those of the literals, elsewhere they are the same.
  have hle : ∀ p ∈ wiresAt 0 (positions literals.length),
      value (wire (Temporary.extend I v)) (literalAt literals p.2) ≤ value v p.2 := fun p hp => by
    obtain ⟨-, i, hi, hp⟩ := mem_wiresAt_positions.mp hp
    rw [hp, literalAt_position hi, value, value,
      wire_of_ordinary (Temporary.extends_extend I v) (hliterals _ (List.getElem_mem hi))]
    exact_mod_cast Bool.toNat_le_toNat (hv i hi)
  have hliteral : ∀ k, value (wire (Temporary.extend I v)) (Temporary.literal k) =
      value v (Temporary.literal k) := fun k => by
    rw [value, value, Adder.wire_of_ne (Temporary.name_ne_zeroName k), Temporary.holds_extend]
  have hliteralAt : ∀ k, literalAt literals (Temporary.literal k) = Temporary.literal k :=
    fun k => literalAt_of_tag rfl
  have hkeep := hkeeps a ha
  obtain ⟨hfirst, hsecond, hthird, ⟨k, -, -, hsum⟩, m, -, -, hcarry⟩ :=
    @Adds.forall_adders _ _ _ _ (build_adds issued (positions_ne_nil (by simpa using hne)))
      (fun l => value (wire (Temporary.extend I v)) (literalAt literals l) ≤ value v l) hle
      (fun k _ _ => by rw [hliteralAt, hliteral]) a ha
  have hthird' : value (wire (Temporary.extend I v)) (literalAt literals a.third) ≤
      value v a.third := by
    rcases hthird with hthird | hthird
    · exact hthird
    · rw [hthird, literalAt_of_tag rfl]
      simp [value, wire, Literal.zero]
  simp only [Adder.Keeps, mapAdder, hsum, hcarry, hliteralAt, hliteral] at hkeep ⊢
  linarith

theorem outputs_eq (issued : Nat) (hn : 2 ≤ literals.length) :
    (build issued literals).2 = (build issued (positions literals.length)).2 := by
  have hid : (build issued (positions literals.length)).2.map (literalAt literals) =
      (build issued (positions literals.length)).2.map id := by
    refine List.map_congr_left fun l hl => ?_
    obtain ⟨k, rfl⟩ := exists_literal_of_mem_outputs issued hn hl
    exact literalAt_of_tag rfl
  rw [build_eq_map, hid, List.map_id]

theorem countP_eq_countP_range (p : Literal → Bool) (literals : List Literal) :
    literals.countP p =
      (List.range literals.length).countP fun i => p (literalAt literals (position i)) := by
  conv_lhs => rw [← map_positions literals, positions, List.map_map, List.countP_map]
  rfl

end Network

/-! ## Bounds -/

/-- Some values of the temporaries satisfy the clauses of a bound. -/
def Count.Satisfiable (c : Count) (I : Interpretation) : Prop :=
  ∃ J, Temporary.Extends I J ∧ J.Satisfies c.clauses

namespace Count

open Network

variable {issued : Nat} {literals : List Literal} {limit : Int} {I : Interpretation}

theorem clauses_atMost_nil (issued : Nat) (limit : Int) :
    (atMost issued [] limit).clauses = if limit < 0 then [[]] else [] := by
  simp [clauses, adderClauses, atMost, ofNetwork, build, Adder.clauses]

theorem satisfies_atMost {J : Interpretation} (hne : literals ≠ []) :
    J.Satisfies (atMost issued literals limit).clauses ↔
      J.Satisfies (Adder.clauses (build issued literals).1) ∧
        (build issued literals).2.map (Literal.holds J) =
          (List.range (build issued literals).2.length).map (limitBit limit) := by
  have hout : (build issued literals).2 ≠ [] := by
    rw [build_eq_map]
    simpa using outputs_ne_nil issued (by simpa using hne)
  rw [clauses, adderClauses, Interpretation.satisfies_append]
  simp only [atMost, ofNetwork, hout, if_false, satisfies_fixOutputs, Nat.zero_add]

theorem satisfiable_of_values (hn : 2 ≤ literals.length) (hliterals : ∀ l ∈ literals, l.IsOrdinary)
    {v : Literal → Bool}
    (hv : ∀ i (h : i < literals.length), literals[i].holds I = true → v (position i) = true)
    (hkeeps : ∀ a ∈ (build issued (positions literals.length)).1, a.Keeps (value v))
    (hdigits : (build issued (positions literals.length)).2.map v =
      (List.range (build issued (positions literals.length)).2.length).map (limitBit limit)) :
    (atMost issued literals limit).Satisfiable I := by
  have hne : literals ≠ [] := by
    rintro rfl
    simp at hn
  refine ⟨Temporary.extend I v, Temporary.extends_extend I v, (satisfies_atMost hne).mpr
    ⟨satisfies_extend issued hne hliterals hv hkeeps, ?_⟩⟩
  rw [outputs_eq issued hn, ← hdigits]
  refine List.map_congr_left fun l hl => ?_
  obtain ⟨k, rfl⟩ := exists_literal_of_mem_outputs issued hn hl
  exact Temporary.holds_extend I v k

theorem countP_range_update {n : Nat} (b : Nat → Bool) (x : Bool) :
    (List.range (n + 1)).countP (Function.update b n x) = (List.range n).countP b + x.toNat := by
  have hcongr : (List.range n).countP (Function.update b n x) = (List.range n).countP b :=
    List.countP_congr fun i hi => by
      rw [Function.update_of_ne (List.mem_range.mp hi).ne]
  rw [List.range_succ, List.countP_append, hcongr, List.countP_singleton, Function.update_self]
  cases x <;> rfl

theorem exists_countP_eq {n k : Nat} (h : Nat → Bool) (hle : (List.range n).countP h ≤ k)
    (hk : k ≤ n) :
    ∃ b : Nat → Bool, (∀ i < n, h i = true → b i = true) ∧ (List.range n).countP b = k := by
  induction n generalizing k with
  | zero => exact ⟨h, fun i _ hi => hi, by simp at hk ⊢; omega⟩
  | succ n ih =>
    have hcount : (List.range (n + 1)).countP h = (List.range n).countP h + (h n).toNat := by
      conv_lhs => rw [← Function.update_eq_self n h]
      exact countP_range_update h (h n)
    have hlength : (List.range n).countP h ≤ n := by
      simpa using List.countP_le_length (p := h) (l := List.range n)
    -- The last place has to be made true if it is, or if all others are needed.
    obtain ⟨x, hx, j, hj, hjn, rfl⟩ : ∃ x : Bool, (h n = true → x = true) ∧
        ∃ j, (List.range n).countP h ≤ j ∧ j ≤ n ∧ k = j + x.toNat := by
      by_cases hlast : h n = true ∨ k = n + 1
      · rcases hlast with hlast | rfl
        · rw [hlast, Bool.toNat_true] at hcount
          exact ⟨true, fun _ => rfl, k - 1, by omega, by omega, by simp; omega⟩
        · exact ⟨true, fun _ => rfl, n, hlength, Nat.le_refl n, rfl⟩
      · rw [not_or] at hlast
        exact ⟨false, fun hn => absurd hn hlast.1, k, by omega, by omega, rfl⟩
    obtain ⟨b, hb, hbcount⟩ := ih hj hjn
    refine ⟨Function.update b n x, fun i hi htrue => ?_, by rw [countP_range_update, hbcount]⟩
    rcases Nat.lt_succ_iff_lt_or_eq.mp hi with hi | rfl
    · rw [Function.update_of_ne hi.ne]
      exact hb i hi htrue
    · rw [Function.update_self]
      exact hx htrue

theorem map_wire_outputs {J : Interpretation} (hn : 2 ≤ literals.length) :
    (build issued literals).2.map (wire J) = (build issued literals).2.map (Literal.holds J) := by
  rw [outputs_eq issued hn]
  refine List.map_congr_left fun l hl => ?_
  obtain ⟨k, rfl⟩ := exists_literal_of_mem_outputs issued hn hl
  exact Adder.wire_of_ne (Temporary.name_ne_zeroName k)

/-- What satisfies the clauses of an upper bound makes no more literals true than the limit says. -/
theorem countP_le_of_satisfies (hn : 2 ≤ literals.length)
    (hliterals : ∀ l ∈ literals, l.IsOrdinary) (h0 : 0 ≤ limit) (hlimit : limit ≤ Word.maxInt64)
    {J : Interpretation} (hsat : J.Satisfies (atMost issued literals limit).clauses) :
    (literals.countP (Literal.holds J) : Int) ≤ limit := by
  have hne : literals ≠ [] := by
    rintro rfl
    simp at hn
  obtain ⟨hadders, hdigits⟩ := (satisfies_atMost hne).mp hsat
  rw [Adder.satisfies_clauses fun a => name_ne_zeroName_of_mem_build hne hliterals] at hadders
  have hle := countP_le_spelled_outputs issued hne (u := wire J) (by simp [wire, Literal.zero])
    hadders
  rw [map_wire_outputs hn, hdigits, spelled_limitBit h0 hlimit] at hle
  have hcount : literals.countP (wire J) = literals.countP (Literal.holds J) :=
    List.countP_congr fun l hl => by rw [Adder.wire_of_ne (hliterals l hl).2]
  have := Nat.mod_le limit.toNat (2 ^ (build issued literals).2.length)
  omega

theorem satisfiable_atMost_iff (hn : 2 ≤ literals.length)
    (hliterals : ∀ l ∈ literals, l.IsOrdinary) (hmax : (literals.length : Int) ≤ Word.maxInt64)
    (h0 : 0 ≤ limit) (hlimit : limit ≤ literals.length) :
    (atMost issued literals limit).Satisfiable I ↔
      (literals.countP (Literal.holds I) : Int) ≤ limit := by
  have hspelled := fun count => spelled_limitBit h0 (le_trans hlimit hmax) count
  constructor
  · rintro ⟨J, hJ, hsat⟩
    have hcount : literals.countP (Literal.holds J) = literals.countP (Literal.holds I) :=
      List.countP_congr fun l hl => by rw [hJ.holds_eq (hliterals l hl)]
    rw [← hcount]
    exact countP_le_of_satisfies hn hliterals h0 (le_trans hlimit hmax) hsat
  · intro hle
    rw [countP_eq_countP_range] at hle
    have hle' : (List.range literals.length).countP
        (fun i => (literalAt literals (position i)).holds I) ≤ limit.toNat := by omega
    obtain ⟨b, hb, hcount⟩ := exists_countP_eq _ hle' (by omega)
    obtain ⟨v, hv, hkeeps, hout⟩ :=
      exists_spelled_outputs issued (by omega : literals.length ≠ 0) b
    refine satisfiable_of_values hn hliterals (fun i hi htrue => ?_) hkeeps
      (Tag.spelled_injective (by simp) ?_)
    · rw [hv i]
      exact hb i hi (by rwa [literalAt_position hi])
    · have hlt := Tag.spelled_lt ((build issued (positions literals.length)).2.map v)
      rw [List.length_map, hout, hcount] at hlt
      rw [hout, hcount, hspelled, Nat.mod_eq_of_lt hlt]

theorem countP_negate (literals : List Literal) (I : Interpretation) :
    (literals.map Literal.negate).countP (Literal.holds I) =
      literals.length - literals.countP (Literal.holds I) := by
  have hsum := literals.length_eq_countP_add_countP (p := Literal.holds I)
  have hnegate : (literals.map Literal.negate).countP (Literal.holds I) =
      literals.countP fun l => decide ¬(l.holds I = true) := by
    rw [List.countP_map]
    exact List.countP_congr fun l _ => by simp
  omega

theorem isOrdinary_negate (hliterals : ∀ l ∈ literals, l.IsOrdinary) :
    ∀ l ∈ literals.map Literal.negate, l.IsOrdinary := by
  intro l hl
  obtain ⟨k, hk, rfl⟩ := List.mem_map.mp hl
  exact hliterals k hk

theorem atLeast_eq_ok (hmin : Word.minInt64 ≤ literals.length - limit)
    (hmax : literals.length - limit ≤ Word.maxInt64) :
    atLeast issued literals limit =
      .ok (atMost issued (literals.map Literal.negate) (literals.length - limit)) := by
  rw [atLeast, Word.sub, Word.int64, if_pos ⟨hmin, hmax⟩]
  rfl

/-- **Counting is exact** at every counter. Where the temporaries run out, there are no clauses. -/
theorem satisfiable_iff_countP (hn : 2 ≤ literals.length)
    (hliterals : ∀ l ∈ literals, l.IsOrdinary) (hmax : (literals.length : Int) ≤ Word.maxInt64)
    (h0 : 0 ≤ limit) (hlimit : limit ≤ literals.length) (hissued : issued ≤ Word.maxNat32) :
    (issued + 2 * adderCount literals.length ≤ Word.maxNat32 →
      (∃ c, atMost32 issued literals limit = .ok c ∧
        ∀ I, c.Satisfiable I ↔ (literals.countP (Literal.holds I) : Int) ≤ limit) ∧
      ∃ c, atLeast32 issued literals limit = .ok c ∧
        ∀ I, c.Satisfiable I ↔ limit ≤ literals.countP (Literal.holds I)) ∧
    (Word.maxNat32 < issued + 2 * adderCount literals.length →
      atMost32 issued literals limit = .error .overflow ∧
        atLeast32 issued literals limit = .error .overflow) := by
  have hatMost := (takes_atMost32 issued literals limit).eq_ite hissued
  have hatLeast := (takes_atLeast32 (@atLeast_eq_ok issued literals limit
    (by simp only [Word.minInt64]; omega) (by omega))).eq_ite hissued
  constructor
  · intro hroom
    rw [if_pos hroom] at hatMost hatLeast
    refine ⟨⟨_, hatMost, fun I => satisfiable_atMost_iff hn hliterals hmax h0 hlimit⟩,
      _, hatLeast, fun I => ?_⟩
    rw [satisfiable_atMost_iff (by simpa using hn) (isOrdinary_negate hliterals)
      (by simpa using hmax) (by omega) (by simpa using h0), countP_negate]
    have := literals.countP_le_length (p := Literal.holds I)
    omega
  · intro hroom
    rw [if_neg (by omega)] at hatMost hatLeast
    exact ⟨hatMost, hatLeast⟩

/-- The last two temporaries count three places, two of which hold the same literal. -/
theorem satisfiable_iff_countP_repeated :
    let literals : List Literal :=
      [{ name := "a" }, { name := "b", positive := false }, { name := "a" }]
    let I : Interpretation := ⟨fun _ => true, fun _ => 0⟩
    (∃ c, atMost32 4294967293 literals 1 = .ok c ∧ ¬ c.Satisfiable I) ∧
      (∃ c, atMost32 4294967293 literals 2 = .ok c ∧ c.Satisfiable I) ∧
      atMost32 4294967294 literals 2 = .error .overflow := by
  intro literals I
  have hexact := fun issued limit h0 h3 => @satisfiable_iff_countP issued literals limit (by decide)
    (by decide +kernel) (by decide) h0 h3
  have hcount : adderCount literals.length = 1 := by decide +kernel
  rw [hcount] at hexact
  obtain ⟨⟨c, hc, hone⟩, -⟩ :=
    (hexact 4294967293 1 (by decide) (by decide) (by decide)).1 (by decide)
  obtain ⟨⟨d, hd, htwo⟩, -⟩ :=
    (hexact 4294967293 2 (by decide) (by decide) (by decide)).1 (by decide)
  refine ⟨⟨c, hc, fun h => absurd ((hone I).mp h) (by decide)⟩,
    ⟨d, hd, (htwo I).mpr (by decide)⟩, ?_⟩
  exact ((hexact 4294967294 2 (by decide) (by decide) (by decide)).2 (by decide)).1

end Count

end CellSat
