import Mathlib
import CellSat.Proofs.Tag.Expansion
import CellSat.Tag.Relation
/-!
# Relations in clauses

A relation is given by tuples of tagged literals over the same names. It is encoded by the clauses
that rule out every tuple of values that is not listed, up to the largest values listed.

* `Tag.Uniform`: tuples that give a value to each of the same distinct names;
* `Interpretation.Takes`, `Interpretation.Misses`: values that are listed, and values in range that
  are not;
* `Tag.sortedNames`, `Tag.taggedNames`, `Tag.matching_eq_ok_iff`: the check of the tuples;
* `Tag.mem_exclusions`, `Uniform.exclusion_eq_iff`: the clauses that rule out tuples;
* `Uniform.matching_eq_ok`, `Uniform.satisfies_iff`: the clauses of a relation and what they mean;
* **`Tag.matching_exact`**: encoding a relation fails for bad tuples only, and is exact in range.
-/

namespace CellSat

/-- The variables take the values of one of the tuples. -/
def Interpretation.Takes (I : Interpretation) (tuples : List Disjunction) : Prop :=
  ∃ t ∈ tuples, ∀ l ∈ t, l.holds I = true

/-- The variables take values up to the largest ones of the tuples, but those of no tuple. -/
def Interpretation.Misses (I : Interpretation) (tuples : List Disjunction) : Prop :=
  I.InRange (tuples.map .disjunction) ∧ ¬ I.Takes tuples

namespace Tag

/-- Tuples of positive tagged literals, each of them over the same distinct names. -/
structure Uniform (names : List String) (tuples : List Disjunction) : Prop where
  nonempty : tuples ≠ []
  nodup : names.Nodup
  names : ∀ t ∈ tuples, (t.map (·.name)).Perm names
  positive : ∀ t ∈ tuples, ∀ l ∈ t, l.positive = true
  tagged : ∀ t ∈ tuples, ∀ l ∈ t, l.tag ≠ none

/-! ## The check of the tuples -/

section Check

variable {names : List String} {tuples : List Disjunction} {t : Disjunction} {name : String}

/-- The names of a tuple in order, with repetitions. -/
def sortedNames (t : Disjunction) : List String :=
  (t.map (·.name)).mergeSort fun a b => (compare a b).isLE

/-- The names that tuples use with a tag, in order and each of them once. -/
def taggedNames (tuples : List Disjunction) : List String :=
  sortedSet compare ((tuples.flatten.filter fun l => l.tag.isSome).map (·.name))

theorem maxOfTuples_eq (tuples : List Disjunction) :
    maxOfTuples tuples = maxOfClauses (tuples.map .disjunction) := by
  rw [maxOfClauses, Clause.disjunctions_map]

theorem mem_keys_maxOfTuples :
    name ∈ (maxOfTuples tuples).keys ↔ Clause.Tagged (tuples.map .disjunction) name := by
  rw [Std.TreeMap.mem_keys, Std.TreeMap.mem_iff_isSome_getElem?, Option.isSome_iff_exists,
    maxOfTuples_eq]
  simp [Clause.maxOfClauses_eq_some_iff]

theorem inRange_iff {I : Interpretation} : I.InRange (tuples.map .disjunction) ↔
    ∀ e ∈ (maxOfTuples tuples).toList, I.number e.1 ≤ e.2 := by
  simp only [Prod.forall, Std.TreeMap.mem_toList_iff_getElem?_eq_some, maxOfTuples_eq,
    Clause.maxOfClauses_eq_some_iff]
  constructor
  · rintro hI name m ⟨hname, rfl⟩
    exact hI name hname
  · exact fun hI name hname => hI name _ ⟨hname, rfl⟩

theorem keys_maxOfTuples (tuples : List Disjunction) :
    (maxOfTuples tuples).keys = taggedNames tuples := by
  refine (sortedSet_eq_of_lt Std.TreeMap.ordered_keys fun name => ?_).symm
  rw [mem_keys_maxOfTuples, Clause.Tagged, Clause.disjunctions_map]
  simp only [List.mem_map, List.mem_filter, List.mem_flatten, Option.isSome_iff_ne_none]
  constructor
  · rintro ⟨l, ⟨⟨t, ht, hl⟩, htag⟩, rfl⟩
    exact ⟨t, ht, l, hl, rfl, htag⟩
  · rintro ⟨t, ht, l, hl, rfl, htag⟩
    exact ⟨l, ⟨⟨t, ht, hl⟩, htag⟩, rfl⟩

theorem checkTuple_eq_ok_iff :
    checkTuple names t = .ok () ↔ (∀ l ∈ t, l.tag ≠ none) ∧ sortedNames t = names := by
  have hbool : t.any Literal.isBoolean = true ↔ ∃ l ∈ t, l.tag = none := by
    simp [Literal.isBoolean]
  rw [checkTuple]
  split_ifs with huntagged hnames
  · obtain ⟨l, hl, hnone⟩ := hbool.mp huntagged
    exact iff_of_false (by simp) fun h => h.1 l hl hnone
  · exact iff_of_false (by simp) fun h => hnames h.2
  · refine iff_of_true rfl ⟨fun l hl hnone => huntagged (hbool.mpr ⟨l, hl, hnone⟩), ?_⟩
    exact not_not.mp hnames

theorem checkTuples_eq_ok_iff :
    checkTuples names tuples = .ok () ↔ ∀ t ∈ tuples, checkTuple names t = .ok () := by
  induction tuples with
  | nil => simp [checkTuples]
  | cons t tuples ih =>
    rw [checkTuples, bind_eq_ok, List.forall_mem_cons, ← ih]
    exact ⟨fun ⟨_, ht, hrest⟩ => ⟨ht, hrest⟩, fun ⟨ht, hrest⟩ => ⟨(), ht, hrest⟩⟩

theorem matching_eq_ok_iff {ds : List Disjunction} : matching tuples = .ok ds ↔
    tuples ≠ [] ∧ (∀ t ∈ tuples, (∀ l ∈ t, l.tag ≠ none) ∧ sortedNames t = taggedNames tuples) ∧
      ds = (exclusions (maxOfTuples tuples).toList).filter
        fun d => !(tuples.map exclusion).contains d := by
  rw [matching]
  by_cases hnil : tuples = []
  · rw [if_pos hnil]
    exact iff_of_false (by simp) fun h => h.1 hnil
  · rw [if_neg hnil, and_iff_right hnil, bind_eq_ok]
    simp only [← keys_maxOfTuples, ← checkTuple_eq_ok_iff, ← checkTuples_eq_ok_iff]
    exact ⟨fun ⟨_, hcheck, h⟩ => ⟨hcheck, (Except.ok.inj h).symm⟩,
      fun ⟨hcheck, h⟩ => ⟨(), hcheck, by rw [h]; rfl⟩⟩

end Check

/-! ## Clauses that rule out a tuple -/

/-- The disjunction "the variables do not have these values". -/
def excluded (names : List String) (v : String → Nat) : Disjunction :=
  names.map fun name => ⟨name, false, some (v name)⟩

theorem holds_excluded {names : List String} {v : String → Nat} {I : Interpretation} :
    (excluded names v).holds I = true ↔ ∃ name ∈ names, I.number name ≠ v name := by
  simp [excluded, Disjunction.holds_iff, Literal.holds]

theorem eq_of_mem_excluded {names : List String} {v : String → Nat} {l : Literal}
    (h : l ∈ excluded names v) : l = ⟨l.name, false, some (v l.name)⟩ := by
  obtain ⟨name, -, rfl⟩ := List.mem_map.mp h
  rfl

theorem mem_exclusions {entries : List (String × Nat)} (hnodup : (entries.map (·.1)).Nodup)
    {d : Disjunction} : d ∈ exclusions entries ↔
      ∃ v : String → Nat, (∀ e ∈ entries, v e.1 ≤ e.2) ∧ d = excluded (entries.map (·.1)) v := by
  induction entries generalizing d with
  | nil => simp [exclusions, excluded]
  | cons e entries ih =>
    obtain ⟨name, m⟩ := e
    rw [List.map_cons, List.nodup_cons] at hnodup
    simp only [exclusions, List.mem_flatMap, List.mem_range, List.mem_map, ih hnodup.2,
      Nat.lt_succ_iff]
    constructor
    · rintro ⟨tag, htag, _, ⟨v, hv, rfl⟩, rfl⟩
      -- the names of the other entries differ, so their values stay
      have hne : ∀ e ∈ entries, e.1 ≠ name := fun e he heq =>
        hnodup.1 (List.mem_map.mpr ⟨e, he, heq⟩)
      refine ⟨Function.update v name tag, ?_, ?_⟩
      · rw [List.forall_mem_cons]
        refine ⟨by simpa using htag, fun e he => ?_⟩
        rw [Function.update_of_ne (hne e he)]
        exact hv e he
      · simp only [excluded, List.map_cons, Function.update_self, List.map_map, List.cons.injEq,
          true_and]
        refine List.map_congr_left fun e he => ?_
        simp [Function.update_of_ne (hne e he)]
    · rintro ⟨v, hv, rfl⟩
      rw [List.forall_mem_cons] at hv
      exact ⟨v name, hv.1, _, ⟨v, hv.2, rfl⟩, rfl⟩

/-- Clauses that rule out the tuples of values in range that a relation does not list. -/
def RuleOut (tuples ds : List Disjunction) : Prop :=
  ∀ d, d ∈ ds ↔
    ∃ J : Interpretation, J.Misses tuples ∧ d = excluded (maxOfTuples tuples).keys J.number

namespace Uniform

variable {names : List String} {tuples : List Disjunction} {name : String} {t : Disjunction}
  {l : Literal} {I J : Interpretation}

theorem mem_names (h : Uniform names tuples) (ht : t ∈ tuples) :
    name ∈ names ↔ ∃ l ∈ t, l.name = name := by
  rw [← (h.names t ht).mem_iff, List.mem_map]

theorem holds_iff (h : Uniform names tuples) (ht : t ∈ tuples) (hl : l ∈ t) :
    l.holds I = true ↔ l.negate = ⟨l.name, false, some (I.number l.name)⟩ := by
  have hpositive := h.positive t ht l hl
  obtain ⟨tag, htag⟩ := Option.ne_none_iff_exists'.mp (h.tagged t ht l hl)
  simp only [Literal.holds, Literal.negate, Literal.mk.injEq, htag, hpositive, Option.some.injEq,
    beq_iff_eq, Bool.not_true, true_and, beq_true]
  exact eq_comm

theorem tagged_iff (h : Uniform names tuples) :
    Clause.Tagged (tuples.map .disjunction) name ↔ name ∈ names := by
  rw [Clause.Tagged, Clause.disjunctions_map]
  constructor
  · rintro ⟨t, ht, l, hl, hname, -⟩
    exact (h.mem_names ht).mpr ⟨l, hl, hname⟩
  · intro hname
    obtain ⟨t, ht⟩ := List.exists_mem_of_ne_nil tuples h.nonempty
    obtain ⟨l, hl, hlname⟩ := (h.mem_names ht).mp hname
    exact ⟨t, ht, l, hl, hlname, h.tagged t ht l hl⟩

theorem takes_congr (h : Uniform names tuples)
    (hIJ : ∀ name ∈ names, I.number name = J.number name) (hI : I.Takes tuples) :
    J.Takes tuples := by
  obtain ⟨t, ht, hall⟩ := hI
  refine ⟨t, ht, fun l hl => ?_⟩
  rw [h.holds_iff ht hl, ← hIJ l.name ((h.mem_names ht).mpr ⟨l, hl, rfl⟩), ← h.holds_iff ht hl]
  exact hall l hl

/-! ## The names of a relation in order -/

theorem mem_keys (h : Uniform names tuples) : name ∈ (maxOfTuples tuples).keys ↔ name ∈ names :=
  mem_keys_maxOfTuples.trans h.tagged_iff

theorem names_perm_keys (h : Uniform names tuples) (ht : t ∈ tuples) :
    (t.map (·.name)).Perm (maxOfTuples tuples).keys := by
  have hkeys : (maxOfTuples tuples).keys.Perm names :=
    (List.perm_ext_iff_of_nodup Std.TreeMap.nodup_keys h.nodup).mpr fun _ => h.mem_keys
  exact (h.names t ht).trans hkeys.symm

theorem sortedNames_eq (h : Uniform names tuples) (ht : t ∈ tuples) :
    sortedNames t = taggedNames tuples := by
  rw [← keys_maxOfTuples]
  refine mergeSort_eq_of_perm (h.names_perm_keys ht) ?_
  exact Std.TreeMap.ordered_keys.imp fun hab => by rw [hab]; rfl

/-- The exclusion of a tuple rules out exactly its own values. -/
theorem exclusion_eq_iff (h : Uniform names tuples) (ht : t ∈ tuples) :
    exclusion t = excluded (maxOfTuples tuples).keys I.number ↔ ∀ l ∈ t, l.holds I = true := by
  constructor
  · intro heq l hl
    have hmem : l.negate ∈ excluded (maxOfTuples tuples).keys I.number := by
      rw [← heq, exclusion, List.mem_mergeSort]
      exact List.mem_map_of_mem hl
    rw [h.holds_iff ht hl]
    exact eq_of_mem_excluded hmem
  · intro hall
    refine mergeSort_eq_of_perm ?_ ?_
    · have hnegate : t.map Literal.negate = excluded (t.map (·.name)) I.number := by
        rw [excluded, List.map_map]
        exact List.map_congr_left fun l hl => (h.holds_iff ht hl).mp (hall l hl)
      rw [hnegate]
      exact (h.names_perm_keys ht).map _
    · rw [excluded, List.pairwise_map]
      refine Std.TreeMap.ordered_keys.imp fun hab => ?_
      simp [Literal.compare, hab]

/-! ## The clauses of a relation -/

theorem matching_eq_ok (h : Uniform names tuples) :
    ∃ ds, matching tuples = .ok ds ∧ RuleOut tuples ds := by
  have hkeys : (maxOfTuples tuples).toList.map (·.1) = (maxOfTuples tuples).keys :=
    Std.TreeMap.map_fst_toList_eq_keys
  have hnodup : ((maxOfTuples tuples).toList.map (·.1)).Nodup := by
    rw [hkeys]
    exact Std.TreeMap.nodup_keys
  have hallowed : ∀ J : Interpretation,
      excluded (maxOfTuples tuples).keys J.number ∈ tuples.map exclusion ↔ J.Takes tuples := by
    intro J
    rw [List.mem_map]
    exact exists_congr fun t => and_congr_right fun ht => h.exclusion_eq_iff ht
  refine ⟨_, matching_eq_ok_iff.mpr
    ⟨h.nonempty, fun t ht => ⟨h.tagged t ht, h.sortedNames_eq ht⟩, rfl⟩, fun d => ?_⟩
  rw [List.mem_filter, mem_exclusions hnodup, hkeys, Bool.not_eq_true', ← Bool.not_eq_true,
    List.contains_iff_mem]
  constructor
  · rintro ⟨⟨v, hv, rfl⟩, hd⟩
    let J : Interpretation := ⟨fun _ => false, v⟩
    refine ⟨J, ⟨inRange_iff.mpr hv, ?_⟩, rfl⟩
    rwa [← hallowed]
  · rintro ⟨J, ⟨hrange, hJ⟩, rfl⟩
    refine ⟨⟨J.number, inRange_iff.mp hrange, rfl⟩, ?_⟩
    rwa [hallowed]

/-- **The meaning of the clauses.** In range they hold for the listed tuples only. -/
theorem satisfies_iff (h : Uniform names tuples) {ds : List Disjunction} (hds : RuleOut tuples ds)
    (hI : I.InRange (tuples.map .disjunction)) : I.Satisfies ds ↔ I.Takes tuples := by
  constructor
  · intro hsat
    by_contra hnot
    have := hsat _ ((hds _).mpr ⟨I, ⟨hI, hnot⟩, rfl⟩)
    obtain ⟨name, -, hne⟩ := holds_excluded.mp this
    exact hne rfl
  · intro htakes d hd
    obtain ⟨J, ⟨-, hJ⟩, rfl⟩ := (hds d).mp hd
    rw [holds_excluded]
    by_contra hall
    push Not at hall
    exact hJ (h.takes_congr (fun name hname => hall name (h.mem_keys.mpr hname)) htakes)

end Uniform

/-- **Relations are encoded exactly**, and fail only for tuples that are not over the same names. -/
theorem matching_exact (tuples : List Disjunction) :
    ((∃ e, matching tuples = .error e) ↔ tuples = [] ∨ (∃ t ∈ tuples, ∃ l ∈ t, l.tag = none) ∨
      ∃ t ∈ tuples, sortedNames t ≠ taggedNames tuples) ∧
    ∀ names, Uniform names tuples → ∃ ds, matching tuples = .ok ds ∧
      ∀ I : Interpretation, I.InRange (tuples.map .disjunction) →
        (I.Satisfies ds ↔ I.Takes tuples) := by
  constructor
  · have hok : (∃ ds, matching tuples = .ok ds) ↔ tuples ≠ [] ∧
        ∀ t ∈ tuples, (∀ l ∈ t, l.tag ≠ none) ∧ sortedNames t = taggedNames tuples := by
      simp [matching_eq_ok_iff]
    have herror : (∃ e, matching tuples = .error e) ↔ ¬ ∃ ds, matching tuples = .ok ds := by
      cases matching tuples <;> simp
    rw [herror, hok, ← not_iff_not, not_not]
    constructor
    · rintro ⟨hne, hcheck⟩ (hnil | ⟨t, ht, l, hl, hnone⟩ | ⟨t, ht, hnames⟩)
      · exact hne hnil
      · exact (hcheck t ht).1 l hl hnone
      · exact hnames (hcheck t ht).2
    · intro h
      refine ⟨fun hnil => h (.inl hnil), fun t ht => ⟨fun l hl hnone => ?_, ?_⟩⟩
      · exact h (.inr (.inl ⟨t, ht, l, hl, hnone⟩))
      · by_contra hnames
        exact h (.inr (.inr ⟨t, ht, hnames⟩))
  · intro names h
    obtain ⟨ds, hds, hrule⟩ := h.matching_eq_ok
    exact ⟨ds, hds, fun I => h.satisfies_iff hrule⟩

/-- The values 0 and 1, or 2 and 0, of two variables. -/
def zeroOneOrTwoZero : List Disjunction :=
  [[{ name := "x", tag := some 0 }, { name := "y", tag := some 1 }],
    [{ name := "y", tag := some 0 }, { name := "x", tag := some 2 }]]

theorem uniform_zeroOneOrTwoZero : Uniform ["x", "y"] zeroOneOrTwoZero :=
  ⟨by decide, by decide, by decide, by decide, by decide⟩

theorem inRange_zeroOneOrTwoZero {I : Interpretation} (hx : I.number "x" ≤ 2)
    (hy : I.number "y" ≤ 1) : I.InRange (zeroOneOrTwoZero.map .disjunction) := by
  intro name hname
  rw [uniform_zeroOneOrTwoZero.tagged_iff] at hname
  rcases List.mem_pair.mp hname with rfl | rfl
  · exact hx
  · exact hy

/-- The listed values 2 and 0 satisfy the clauses, and 1 and 0 do not. -/
theorem matching_exact_sparse :
    ∃ ds, matching zeroOneOrTwoZero = .ok ds ∧
      Interpretation.Satisfies ⟨fun _ => false, fun name => if name = "x" then 2 else 0⟩ ds ∧
      ¬ Interpretation.Satisfies ⟨fun _ => false, fun name => if name = "x" then 1 else 0⟩ ds := by
  obtain ⟨ds, hds, hiff⟩ := (matching_exact zeroOneOrTwoZero).2 ["x", "y"] uniform_zeroOneOrTwoZero
  refine ⟨ds, hds, ?_, ?_⟩
  · rw [hiff _ (inRange_zeroOneOrTwoZero (by decide) (by decide))]
    simp [Interpretation.Takes, zeroOneOrTwoZero, Literal.holds]
  · rw [hiff _ (inRange_zeroOneOrTwoZero (by decide) (by decide))]
    simp [Interpretation.Takes, zeroOneOrTwoZero, Literal.holds]

end Tag

end CellSat
