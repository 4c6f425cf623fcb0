import Mathlib
import CellSat.Proofs.Counter.Rigid
/-!
# The clauses of a bound one by one

The wires of a network have different names, and each temporary is driven by one adder. So no
clause of an adder always holds, and no two clauses of a network are the same set. A bound on two
literals or more fixes outputs that are temporaries.

* `Adder.Separate`: adders whose wires have different names;
* `Network.Distinct`: different wires that no adder has driven yet;
* `Network.Adds.nodup_clauses`: the clauses of a network differ;
* `Count.nil_mem_atMost`: when a bound has an empty clause;
* **`Count.nodup_clauses`**, `Count.isAlwaysTrue_of_mem`, `Count.exists_named_of_mem`: the clauses
  of a bound differ, may fail and mention temporaries.
-/

namespace CellSat

theorem Disjunction.isAlwaysTrue_eq_false {d : Disjunction}
    (h : ∀ l ∈ d, ∀ m ∈ d, l.name = m.name → l = m) : d.isAlwaysTrue = false := by
  simp only [isAlwaysTrue, List.any_eq_false, Bool.and_eq_true, List.any_eq_true, not_and,
    not_exists, Bool.not_eq_true', beq_iff_eq]
  intro l hl hneg m hm hpos hname
  rw [h m hm l hl hname, hneg] at hpos
  contradiction

/-! ## One adder -/

namespace Adder

variable {a : Adder} {d : Disjunction}

/-- What the clauses of an adder are about: its outputs, and the negations of its inputs. -/
def wires (a : Adder) : Fin 5 → Literal :=
  ![a.sum, a.carry, a.first.negate, a.second.negate, a.third.negate]

/-- The clauses of an adder, by the numbers of their literals. -/
def shapes : List (List (Fin 5)) :=
  [[1, 2, 3], [1, 2, 4], [1, 3, 4], [1, 0, 2], [1, 0, 3], [1, 0, 4], [0, 2, 3, 4]]

theorem allClauses_eq (a : Adder) : a.allClauses = shapes.map (·.map a.wires) := rfl

/-- The wires of an adder have different names. -/
def Separate (a : Adder) : Prop := Function.Injective fun i => (a.wires i).name

theorem Separate.injective (h : a.Separate) : Function.Injective a.wires := fun _ _ hij =>
  h (congrArg Literal.name hij)

theorem exists_shape (hd : d ∈ a.allClauses) : ∃ c ∈ shapes, d = c.map a.wires := by
  rw [allClauses_eq] at hd
  obtain ⟨c, hc, rfl⟩ := List.mem_map.mp hd
  exact ⟨c, hc, rfl⟩

theorem nodup_allClauses (h : a.Separate) : (a.allClauses.map Literal.toSet).Nodup := by
  have hshapes : ∀ c ∈ shapes, ∀ d ∈ shapes, c.toFinset = d.toFinset → c = d := by decide
  rw [allClauses_eq, List.map_map]
  refine List.Nodup.map_on (fun c hc d hd heq => hshapes c hc d hd ?_) (by decide)
  ext i
  have hmem : a.wires i ∈ Literal.toSet (c.map a.wires) ↔
      a.wires i ∈ Literal.toSet (d.map a.wires) := iff_of_eq (congrArg (a.wires i ∈ ·) heq)
  simpa only [Literal.mem_toSet, List.mem_map_of_injective h.injective, List.mem_toFinset]
    using hmem

theorem isAlwaysTrue_of_mem_allClauses (h : a.Separate) (hd : d ∈ a.allClauses) :
    Disjunction.isAlwaysTrue (Literal.toSet d) = false := by
  obtain ⟨c, -, rfl⟩ := exists_shape hd
  refine Disjunction.isAlwaysTrue_eq_false fun l hl m hm hname => ?_
  obtain ⟨i, -, rfl⟩ := List.mem_map.mp (Literal.mem_toSet.mp hl)
  obtain ⟨j, -, rfl⟩ := List.mem_map.mp (Literal.mem_toSet.mp hm)
  rw [h hname]

theorem sum_or_carry_mem (hd : d ∈ a.allClauses) : a.sum ∈ d ∨ a.carry ∈ d := by
  have hshapes : ∀ c ∈ shapes, 0 ∈ c ∨ 1 ∈ c := by decide
  obtain ⟨c, hc, rfl⟩ := exists_shape hd
  exact (hshapes c hc).imp (List.mem_map.mpr ⟨0, ·, rfl⟩) (List.mem_map.mpr ⟨1, ·, rfl⟩)

theorem exists_ne_of_mem_allClauses (h : a.Separate) (hd : d ∈ a.allClauses) :
    ∃ l ∈ d, ∃ m ∈ d, l ≠ m := by
  have hshapes : ∀ c ∈ shapes, ∃ i ∈ c, ∃ j ∈ c, i ≠ j := by decide
  obtain ⟨c, hc, rfl⟩ := exists_shape hd
  obtain ⟨i, hi, j, hj, hij⟩ := hshapes c hc
  exact ⟨_, List.mem_map.mpr ⟨i, hi, rfl⟩, _, List.mem_map.mpr ⟨j, hj, rfl⟩,
    fun heq => hij (h.injective heq)⟩

theorem exists_mem_of_mem_clauses {adders : List Adder} (hd : d ∈ clauses adders) :
    ∃ a ∈ adders, d ∈ a.allClauses :=
  List.mem_flatMap.mp (List.mem_of_mem_filter hd)

theorem clauses_cons (a : Adder) (adders : List Adder) : clauses (a :: adders) =
    (a.allClauses.filter fun d => !endsInZero d) ++ clauses adders := by
  rw [clauses, List.flatMap_cons, List.filter_append, clauses]

end Adder

/-! ## Networks -/

namespace Network

open Temporary

variable {issued : Nat} {s t : Multiset (Nat × Literal)} {adders : List Adder}

/-- Wires with different names that no adder after `issued` drives. None of them is the false wire
or the negation of a temporary. -/
structure Distinct (issued : Nat) (s : Multiset (Nat × Literal)) : Prop where
  nodup : (s.map fun p => p.2.name).Nodup
  old : ∀ p ∈ s, ∀ k, issued < k → p.2.name ≠ (literal k).name
  ne_zero : ∀ p ∈ s, p.2.name ≠ Literal.zeroName
  input : ∀ p ∈ s, ∀ k, p.2.negate ≠ literal k

theorem Distinct.tail {p : Nat × Literal} (h : Distinct issued (p ::ₘ s)) : Distinct issued s where
  nodup := by
    have := h.nodup
    rw [Multiset.map_cons, Multiset.nodup_cons] at this
    exact this.2
  old q hq := h.old q (Multiset.mem_cons_of_mem hq)
  ne_zero q hq := h.ne_zero q (Multiset.mem_cons_of_mem hq)
  input q hq := h.input q (Multiset.mem_cons_of_mem hq)

theorem literal_name_ne {j k : Nat} (h : j ≠ k) : (literal j).name ≠ (literal k).name :=
  fun heq => h (name_injective heq)

theorem negate_literal_ne (j k : Nat) : (literal j).negate ≠ literal k := fun h => by
  simpa [literal, Literal.negate] using congrArg Literal.positive h

theorem Distinct.after (h : Distinct issued s) {level : Nat} :
    Distinct (issued + 2) ((level, literal (issued + 1)) ::ₘ
      (level + 1, literal (issued + 2)) ::ₘ s) where
  nodup := by
    have hnot : ∀ k, issued < k → (literal k).name ∉ s.map fun p => p.2.name := by
      intro k hk hmem
      obtain ⟨p, hp, heq⟩ := Multiset.mem_map.mp hmem
      exact h.old p hp k hk heq
    simp only [Multiset.map_cons, Multiset.nodup_cons, Multiset.mem_cons, not_or]
    exact ⟨⟨literal_name_ne (by omega), hnot _ (by omega)⟩, hnot _ (by omega), h.nodup⟩
  old := @forall_after _ _ (fun l => ∀ k, issued + 2 < k → l.name ≠ (literal k).name) _
    (fun k hk => literal_name_ne (by omega)) (fun k hk => literal_name_ne (by omega))
    fun p hp k hk => h.old p hp k (by omega)
  ne_zero := @forall_after _ _ (fun l => l.name ≠ Literal.zeroName) _ (name_ne_zeroName _)
    (name_ne_zeroName _) h.ne_zero
  input := @forall_after _ _ (fun l => ∀ k, l.negate ≠ literal k) _ (negate_literal_ne _)
    (negate_literal_ne _) h.input

theorem separate_of_nodup {x y z : Literal} (hnodup : [x.name, y.name, z.name].Nodup)
    (hx : ∀ k, issued < k → x.name ≠ (literal k).name)
    (hy : ∀ k, issued < k → y.name ≠ (literal k).name)
    (hz : ∀ k, issued < k → z.name ≠ (literal k).name) :
    Adder.Separate ⟨literal (issued + 1), literal (issued + 2), x, y, z⟩ := by
  have hlist : [(literal (issued + 1)).name, (literal (issued + 2)).name, x.name, y.name,
      z.name].Nodup := by
    simp only [List.nodup_cons, List.mem_cons, List.not_mem_nil, or_false, not_or,
      not_false_eq_true, List.nodup_nil, and_true] at hnodup ⊢
    have h₁ : issued < issued + 1 := by omega
    have h₂ : issued < issued + 2 := by omega
    exact ⟨⟨literal_name_ne (by omega), (hx _ h₁).symm, (hy _ h₁).symm, (hz _ h₁).symm⟩,
      ⟨(hx _ h₂).symm, (hy _ h₂).symm, (hz _ h₂).symm⟩, hnodup⟩
  have hofFn : (List.ofFn fun i => (Adder.wires
      ⟨literal (issued + 1), literal (issued + 2), x, y, z⟩ i).name).Nodup := hlist
  exact List.nodup_ofFn.mp hofFn

theorem Distinct.separate_full {level : Nat} {x y z : Literal}
    (h : Distinct issued ((level, x) ::ₘ (level, y) ::ₘ (level, z) ::ₘ s)) :
    Adder.Separate ⟨literal (issued + 1), literal (issued + 2), x, y, z⟩ := by
  have hnodup := h.nodup
  simp only [Multiset.map_cons, Multiset.nodup_cons, Multiset.mem_cons, not_or] at hnodup
  refine separate_of_nodup ?_ (h.old (level, x) (by simp)) (h.old (level, y) (by simp))
    (h.old (level, z) (by simp))
  simp [hnodup]

theorem Distinct.separate_half {level : Nat} {x y : Literal}
    (h : Distinct issued ((level, x) ::ₘ (level, y) ::ₘ s)) :
    Adder.Separate ⟨literal (issued + 1), literal (issued + 2), x, y, .zero⟩ := by
  have hnodup := h.nodup
  simp only [Multiset.map_cons, Multiset.nodup_cons, Multiset.mem_cons, not_or] at hnodup
  refine separate_of_nodup ?_ (h.old (level, x) (by simp)) (h.old (level, y) (by simp))
    fun k _ => (name_ne_zeroName k).symm
  have hx := h.ne_zero (level, x) (by simp)
  have hy := h.ne_zero (level, y) (by simp)
  simp [hnodup, Literal.zero, hx, hy]

namespace Adds

theorem separate (h : Adds issued s adders t) (hs : Distinct issued s) :
    ∀ a ∈ adders, a.Separate := by
  induction h with
  | done issued s => simp
  | full h ih => exact List.forall_mem_cons.mpr ⟨hs.separate_full, ih hs.tail.tail.tail.after⟩
  | half h ih => exact List.forall_mem_cons.mpr ⟨hs.separate_half, ih hs.tail.tail.after⟩

theorem literal_not_mem (h : Adds issued s adders t) (hs : Distinct issued s) {d : Disjunction}
    (hd : d ∈ Adder.clauses adders) {k : Nat} (hk : k ≤ issued) : literal k ∉ d := by
  obtain ⟨a, ha, hd⟩ := Adder.exists_mem_of_mem_clauses hd
  obtain ⟨hfirst, hsecond, hthird, ⟨i, hi, -, hsum⟩, j, hj, -, hcarry⟩ :=
    @Adds.forall_adders _ _ _ _ h (fun l => ∀ k, l.negate ≠ literal k) hs.input
      (fun i _ _ => negate_literal_ne i) a ha
  have hzero : Literal.zero.negate ≠ literal k := fun heq =>
    name_ne_zeroName k (congrArg Literal.name heq).symm
  have hwires : ∀ i, a.wires i ≠ literal k := by
    intro m
    fin_cases m
    · intro heq
      have := literal_injective (hsum.symm.trans heq)
      omega
    · intro heq
      have := literal_injective (hcarry.symm.trans heq)
      omega
    · exact hfirst k
    · exact hsecond k
    · rcases hthird with hthird | hthird
      · exact hthird k
      · show a.third.negate ≠ literal k
        rw [hthird]
        exact hzero
  obtain ⟨c, -, rfl⟩ := Adder.exists_shape hd
  intro hmem
  obtain ⟨m, -, heq⟩ := List.mem_map.mp hmem
  exact hwires m heq

theorem nodup_cons {a : Adder} (ha : a.Separate)
    (hsum : ∀ d ∈ Adder.clauses adders, a.sum ∉ d)
    (hcarry : ∀ d ∈ Adder.clauses adders, a.carry ∉ d)
    (hnodup : ((Adder.clauses adders).map Literal.toSet).Nodup) :
    ((Adder.clauses (a :: adders)).map Literal.toSet).Nodup := by
  rw [Adder.clauses_cons, List.map_append]
  refine List.nodup_append'.mpr ⟨?_, hnodup, ?_⟩
  · exact (List.filter_sublist.map _).nodup (Adder.nodup_allClauses ha)
  · intro e he he'
    obtain ⟨c, hc, rfl⟩ := List.mem_map.mp he
    obtain ⟨d, hd, heq⟩ := List.mem_map.mp he'
    have hmem : ∀ l ∈ c, l ∈ d := fun l hl => by
      rw [← Literal.mem_toSet, heq, Literal.mem_toSet]
      exact hl
    rcases Adder.sum_or_carry_mem (List.mem_of_mem_filter hc) with h | h
    · exact hsum d hd (hmem _ h)
    · exact hcarry d hd (hmem _ h)

/-- **The clauses of a network differ** as sets. -/
theorem nodup_clauses (h : Adds issued s adders t) (hs : Distinct issued s) :
    ((Adder.clauses adders).map Literal.toSet).Nodup := by
  induction h with
  | done issued s => simp [Adder.clauses]
  | @full _ level _ _ _ _ _ _ h ih =>
    have hafter := @Distinct.after _ _ hs.tail.tail.tail level
    exact nodup_cons hs.separate_full (fun d hd => h.literal_not_mem hafter hd (by omega))
      (fun d hd => h.literal_not_mem hafter hd le_rfl) (ih hafter)
  | @half _ level _ _ _ _ _ h ih =>
    have hafter := @Distinct.after _ _ hs.tail.tail level
    exact nodup_cons hs.separate_half (fun d hd => h.literal_not_mem hafter hd (by omega))
      (fun d hd => h.literal_not_mem hafter hd le_rfl) (ih hafter)

end Adds

theorem build_outputs_ne_nil {literals : List Literal} (h : literals ≠ []) :
    (build issued literals).2 ≠ [] := by
  rw [build_eq_map]
  simpa using outputs_ne_nil issued (by simpa using h)

theorem distinct_wiresAt {literals : List Literal} (hnodup : (literals.map Literal.name).Nodup)
    (hnamed : ∀ l ∈ literals, ¬ Named l.name)
    (hzero : ∀ l ∈ literals, l.name ≠ Literal.zeroName) : Distinct issued (wiresAt 0 literals) where
  nodup := by
    rw [wiresAt, Multiset.map_coe, List.map_map, Multiset.coe_nodup]
    exact hnodup
  old p hp k _ hname := hnamed p.2 (mem_wiresAt.mp hp).2 ⟨k, hname.symm⟩
  ne_zero p hp := hzero p.2 (mem_wiresAt.mp hp).2
  input p hp k hneg := hnamed p.2 (mem_wiresAt.mp hp).2 ⟨k, (congrArg Literal.name hneg).symm⟩

end Network

/-! ## Bounds -/

namespace Count

open Network

variable {issued : Nat} {literals : List Literal} {limit : Int} {d : Disjunction}

theorem clauses_atMost (h : literals ≠ []) : (atMost issued literals limit).clauses =
    Adder.clauses (build issued literals).1 ++ fixOutputs limit 0 (build issued literals).2 := by
  simp only [clauses, adderClauses, atMost, ofNetwork, build_outputs_ne_nil h, if_false]

theorem exists_of_mem_fixOutputs {digit : Nat} {outputs : List Literal}
    (hd : d ∈ fixOutputs limit digit outputs) : ∃ l ∈ outputs, ∃ flip, d = [l.flipIf flip] := by
  induction outputs generalizing digit with
  | nil => simp [fixOutputs] at hd
  | cons l outputs ih =>
    rcases List.mem_cons.mp hd with rfl | hd
    · exact ⟨l, List.mem_cons_self, _, rfl⟩
    · obtain ⟨m, hm, hflip⟩ := ih hd
      exact ⟨m, List.mem_cons_of_mem l hm, hflip⟩

theorem nodup_fixOutputs {outputs : List Literal} (h : (outputs.map Literal.name).Nodup)
    (digit : Nat) : ((fixOutputs limit digit outputs).map Literal.toSet).Nodup := by
  induction outputs generalizing digit with
  | nil => simp [fixOutputs]
  | cons l outputs ih =>
    rw [List.map_cons, List.nodup_cons] at h
    rw [fixOutputs, List.map_cons, List.nodup_cons]
    refine ⟨fun hmem => ?_, ih h.2 (digit + 1)⟩
    obtain ⟨d, hd, heq⟩ := List.mem_map.mp hmem
    obtain ⟨m, hm, flip, rfl⟩ := exists_of_mem_fixOutputs hd
    have hflip : m.flipIf flip ∈ Literal.toSet [l.flipIf !limitBit limit digit] := by
      rw [← heq, Literal.mem_toSet, List.mem_singleton]
    rw [Literal.mem_toSet, List.mem_singleton] at hflip
    have hname := congrArg Literal.name hflip
    exact h.1 (List.mem_map.mpr ⟨m, hm, hname⟩)

theorem nil_mem_atMost :
    [] ∈ (atMost issued literals limit).clauses ↔ literals = [] ∧ limit < 0 := by
  by_cases h : literals = []
  · rw [h, clauses_atMost_nil]
    split_ifs with hlimit <;> simp [hlimit]
  · refine iff_of_false ?_ fun hnil => h hnil.1
    rw [clauses_atMost h, List.mem_append, not_or]
    constructor
    · intro hmem
      obtain ⟨a, -, hmem⟩ := Adder.exists_mem_of_mem_clauses hmem
      simpa using Adder.sum_or_carry_mem hmem
    · intro hmem
      obtain ⟨l, -, flip, hnil⟩ := exists_of_mem_fixOutputs hmem
      contradiction

section Two

variable (hn : 2 ≤ literals.length)

include hn

theorem nodup_names_outputs : ((build issued literals).2.map Literal.name).Nodup := by
  rw [outputs_eq issued hn]
  refine List.Nodup.map_on (fun l hl m hm hname => ?_) (nodup_outputs issued (by omega))
  obtain ⟨j, rfl⟩ := exists_literal_of_mem_outputs issued hn hl
  obtain ⟨k, rfl⟩ := exists_literal_of_mem_outputs issued hn hm
  rw [Temporary.name_injective hname]

theorem exists_named_of_mem_fixOutputs {digit : Nat}
    (hd : d ∈ fixOutputs limit digit (build issued literals).2) :
    ∃ k flip, d = [(Temporary.literal k).flipIf flip] := by
  obtain ⟨l, hl, flip, rfl⟩ := exists_of_mem_fixOutputs hd
  rw [outputs_eq issued hn] at hl
  obtain ⟨k, rfl⟩ := exists_literal_of_mem_outputs issued hn hl
  exact ⟨k, flip, rfl⟩

/-- **Each clause of a bound is about a temporary.** -/
theorem exists_named_of_mem (hd : d ∈ (atMost issued literals limit).clauses) :
    ∃ l ∈ d, Temporary.Named l.name := by
  have hne : literals ≠ [] := List.length_pos_iff.mp (by omega)
  rw [clauses_atMost hne] at hd
  rcases List.mem_append.mp hd with hd | hd
  · obtain ⟨a, ha, hd⟩ := Adder.exists_mem_of_mem_clauses hd
    obtain ⟨-, -, -, ⟨j, -, -, hsum⟩, k, -, -, hcarry⟩ :=
      @Adds.forall_adders _ _ _ _ (build_adds issued hne) (fun _ => True)
        (fun _ _ => trivial) (fun _ _ _ => trivial) a ha
    rcases Adder.sum_or_carry_mem hd with hmem | hmem
    · exact ⟨_, hmem, j, by rw [hsum]⟩
    · exact ⟨_, hmem, k, by rw [hcarry]⟩
  · obtain ⟨k, flip, rfl⟩ := exists_named_of_mem_fixOutputs hn hd
    exact ⟨_, List.mem_singleton_self _, k, rfl⟩

variable (hdistinct : Distinct issued (wiresAt 0 literals))

include hdistinct

theorem isAlwaysTrue_of_mem (hd : d ∈ (atMost issued literals limit).clauses) :
    Disjunction.isAlwaysTrue (Literal.toSet d) = false := by
  have hne : literals ≠ [] := List.length_pos_iff.mp (by omega)
  rw [clauses_atMost hne] at hd
  rcases List.mem_append.mp hd with hd | hd
  · obtain ⟨a, ha, hd⟩ := Adder.exists_mem_of_mem_clauses hd
    have hseparate := (build_adds issued hne).separate hdistinct a ha
    exact Adder.isAlwaysTrue_of_mem_allClauses hseparate hd
  · obtain ⟨l, -, flip, rfl⟩ := exists_of_mem_fixOutputs hd
    refine Disjunction.isAlwaysTrue_eq_false fun k hk m hm _ => ?_
    rw [Literal.mem_toSet, List.mem_singleton] at hk hm
    rw [hk, hm]

/-- **The clauses of a bound differ** as sets, if what is counted has different names. -/
theorem nodup_clauses : ((atMost issued literals limit).clauses.map Literal.toSet).Nodup := by
  have hne : literals ≠ [] := List.length_pos_iff.mp (by omega)
  rw [clauses_atMost hne, List.map_append]
  refine List.nodup_append'.mpr
    ⟨(build_adds issued hne).nodup_clauses hdistinct, nodup_fixOutputs (nodup_names_outputs hn) 0,
      ?_⟩
  -- A clause of an adder has two literals at least.
  intro e he he'
  obtain ⟨c, hc, rfl⟩ := List.mem_map.mp he
  obtain ⟨d, hd, heq⟩ := List.mem_map.mp he'
  obtain ⟨a, ha, hc⟩ := Adder.exists_mem_of_mem_clauses hc
  obtain ⟨x, -, flip, rfl⟩ := exists_of_mem_fixOutputs hd
  obtain ⟨l, hl, m, hm, hlm⟩ := Adder.exists_ne_of_mem_allClauses
    ((build_adds issued hne).separate hdistinct a ha) hc
  rw [← Literal.mem_toSet, ← heq, Literal.mem_toSet, List.mem_singleton] at hl hm
  exact hlm (hl.trans hm.symm)

end Two

end Count

end CellSat
