import Mathlib
import CellSat.Proofs.Meaning
/-!
# One conjunction for a disjunction of conjunctions

An alternative is a conjunction of disjunctions. "All of one of the alternatives" is the conjunction
of the unions of one disjunction from each alternative. Flattening goes through the alternatives one
by one, and drops tautologies and what follows from smaller unions as soon as they turn up. What it
drops early would have been dropped in the end, so the result does not depend on the order.

* `Literal.Ascending`, `Disjunction.Ascending`: lists in increasing order without repetitions;
* `Disjunction.Chosen`, `Disjunction.Candidate`: unions of one disjunction from each alternative;
* `Disjunction.mem_orOf_iff`, `Disjunction.mem_removeRedundant_iff`: one step;
* **`Disjunction.mem_flattenOr_iff`**: the result has the smallest candidates;
* **`Disjunction.forall_flattenOr_iff`**: it means that one of the alternatives is true;
* **`Disjunction.flattenOr_canonical`**: it is a canonical form.
-/

namespace CellSat

open scoped FinsetFamily

/-! ## Strictly increasing lists -/

section Increasing

variable {α : Type} {cmp : α → α → Ordering}

theorem pairwise_sortedSet [DecidableEq α] [Std.TransCmp cmp] [Std.LawfulEqCmp cmp] (l : List α) :
    (sortedSet cmp l).Pairwise fun a b => cmp a b = .lt := by
  have hsorted := (@pairwise_mergeSort_isLE _ cmp _ l).sublist (distinct_sublist _)
  refine (hsorted.and (nodup_sortedSet l)).imp fun {a b} h => ?_
  cases hab : cmp a b with
  | lt => rfl
  | eq => exact absurd (Std.LawfulEqCmp.eq_of_compare hab) h.2
  | gt => simp [hab] at h

theorem eq_of_increasing [DecidableEq α] [Std.TransCmp cmp] [Std.LawfulEqCmp cmp] {l m : List α}
    (hl : l.Pairwise fun a b => cmp a b = .lt) (hm : m.Pairwise fun a b => cmp a b = .lt)
    (hmem : ∀ a, a ∈ l ↔ a ∈ m) : l = m :=
  (sortedSet_eq_of_lt hl fun _ => Iff.rfl).symm.trans (sortedSet_eq_of_lt hm hmem)

theorem compareLists_eq_compareLex (l m : List α) :
    compareLists cmp l m = List.compareLex cmp l m := by
  fun_induction compareLists cmp l m with
  | case1 => rfl
  | case2 => rfl
  | case3 => rfl
  | case4 a l b m ih =>
    rw [List.compareLex_cons_cons, ih]

end Increasing

theorem Disjunction.compare_eq : Disjunction.compare = List.compareLex Literal.compare :=
  funext₂ compareLists_eq_compareLex

instance : Std.TransCmp Disjunction.compare := by
  rw [Disjunction.compare_eq]
  infer_instance

instance : Std.LawfulEqCmp Disjunction.compare := by
  rw [Disjunction.compare_eq]
  infer_instance

/-- A disjunction in increasing order, each literal once. -/
def Literal.Ascending (d : Disjunction) : Prop := d.Pairwise fun l m => l.compare m = .lt

/-- Disjunctions in increasing order, each of them once. -/
def Disjunction.Ascending (ds : List Disjunction) : Prop :=
  ds.Pairwise fun c d => c.compare d = .lt

namespace Literal

theorem ascending_toSet (d : Disjunction) : Ascending (toSet d) := pairwise_sortedSet d

@[simp] theorem toFinset_toSet (d : Disjunction) : (toSet d).toFinset = d.toFinset := by
  ext l
  simp

theorem Ascending.eq_of_toFinset {c d : Disjunction} (hc : Ascending c) (hd : Ascending d)
    (h : c.toFinset = d.toFinset) : c = d :=
  eq_of_increasing hc hd fun l => by rw [← List.mem_toFinset, h, List.mem_toFinset]

theorem exists_ascending (u : Finset Literal) : ∃ d, Ascending d ∧ List.toFinset d = u :=
  ⟨toSet u.toList, ascending_toSet _, by simp⟩

theorem length_toSet (d : Disjunction) : (toSet d).length = d.toFinset.card := by
  have hnodup : (toSet d).Nodup := nodup_sortedSet d
  rw [← toFinset_toSet, List.toFinset_card_of_nodup hnodup]

/-- Some literal and its negation are among the literals. -/
def Contradictory (u : Finset Literal) : Prop := ∃ l ∈ u, l.negate ∈ u

theorem Contradictory.mono {u v : Finset Literal} (h : u ⊆ v) (hu : Contradictory u) :
    Contradictory v := by
  obtain ⟨l, hl, hl'⟩ := hu
  exact ⟨l, h hl, h hl'⟩

end Literal

namespace Disjunction

variable {as bs : List (List Disjunction)} {a cs ds : List Disjunction} {c d : Disjunction}
  {u : Finset Literal}

theorem isTautology_iff : d.isTautology = true ↔ Literal.Contradictory d.toFinset := by
  simp [isTautology, Literal.Contradictory]

theorem strictlySmaller_iff : strictlySmaller c d = true ↔ c.toFinset ⊂ d.toFinset := by
  have hsub : c.all d.contains = true ↔ c.toFinset ⊆ d.toFinset := by
    simp [Finset.subset_iff]
  rw [strictlySmaller, Bool.and_eq_true, decide_eq_true_eq, Literal.length_toSet,
    Literal.length_toSet, hsub]
  constructor
  · rintro ⟨hcard, hsub⟩
    exact ⟨hsub, fun hsup => absurd (Finset.card_le_card hsup) (by omega)⟩
  · intro h
    exact ⟨Finset.card_lt_card h, h.subset⟩

/-! ## Unions of one disjunction from each alternative -/

/-- The literals of disjunctions of which one is chosen from each alternative. -/
def Chosen (as : List (List Disjunction)) (u : Finset Literal) : Prop :=
  ∃ cs ∈ as.sections, cs.flatten.toFinset = u

/-- A union of one disjunction from each alternative that is not a tautology. -/
def Candidate (as : List (List Disjunction)) (u : Finset Literal) : Prop :=
  Chosen as u ∧ ¬ Literal.Contradictory u

theorem chosen_nil : Chosen [] u ↔ u = ∅ := by
  simp [Chosen, eq_comm]

theorem chosen_cons :
    Chosen (a :: as) u ↔ ∃ c ∈ a, ∃ v, Chosen as v ∧ c.toFinset ∪ v = u := by
  constructor
  · rintro ⟨cs, hcs, rfl⟩
    obtain ⟨c, rest, hc, hrest, rfl⟩ := List.forall₂_cons_right_iff.mp (List.mem_sections.mp hcs)
    refine ⟨c, hc, _, ⟨rest, List.mem_sections.mpr hrest, rfl⟩, ?_⟩
    rw [List.flatten_cons, List.toFinset_append]
  · rintro ⟨c, hc, _, ⟨cs, hcs, rfl⟩, rfl⟩
    refine ⟨c :: cs, List.mem_sections.mpr (.cons hc (List.mem_sections.mp hcs)), ?_⟩
    rw [List.flatten_cons, List.toFinset_append]

theorem chosen_concat :
    Chosen (as ++ [a]) u ↔ ∃ v, Chosen as v ∧ ∃ c ∈ a, v ∪ c.toFinset = u := by
  induction as generalizing u with
  | nil => simp [chosen_cons, chosen_nil]
  | cons b as ih =>
    simp only [List.cons_append, chosen_cons, ih]
    constructor
    · rintro ⟨d, hd, _, ⟨v, hv, c, hc, rfl⟩, rfl⟩
      exact ⟨d.toFinset ∪ v, ⟨d, hd, v, hv, rfl⟩, c, hc, Finset.union_assoc _ _ _⟩
    · rintro ⟨_, ⟨d, hd, v, hv, rfl⟩, c, hc, rfl⟩
      exact ⟨d, hd, v ∪ c.toFinset, ⟨v, hv, c, hc, rfl⟩, (Finset.union_assoc _ _ _).symm⟩

/-! ## One step -/

theorem mem_orOf_iff : d ∈ orOf cs ds ↔ Literal.Ascending d ∧ ¬ Literal.Contradictory d.toFinset ∧
    ∃ c ∈ cs, ∃ e ∈ ds, c.toFinset ∪ e.toFinset = d.toFinset := by
  have hunion : ∀ c e : Disjunction, (union c e).toFinset = c.toFinset ∪ e.toFinset := fun c e => by
    rw [union, Literal.toFinset_toSet, List.toFinset_append]
  rw [orOf, mem_toSet, List.mem_filter, Bool.not_eq_true', Bool.eq_false_iff, ne_eq,
    isTautology_iff, List.mem_flatMap]
  constructor
  · rintro ⟨⟨c, hc, hd⟩, htaut⟩
    obtain ⟨e, he, rfl⟩ := List.mem_map.mp hd
    exact ⟨Literal.ascending_toSet _, htaut, c, hc, e, he, (hunion c e).symm⟩
  · rintro ⟨hasc, htaut, c, hc, e, he, heq⟩
    refine ⟨⟨c, hc, List.mem_map.mpr ⟨e, he, ?_⟩⟩, htaut⟩
    exact (Literal.ascending_toSet _).eq_of_toFinset hasc ((hunion c e).trans heq)

theorem mem_removeRedundant_iff :
    d ∈ removeRedundant ds ↔ d ∈ ds ∧ ∀ c ∈ ds, ¬ c.toFinset ⊂ d.toFinset := by
  simp only [removeRedundant, List.mem_filter, Bool.not_eq_true', List.any_eq_false,
    strictlySmaller_iff]

/-! ## All steps -/

theorem flattenOr_concat (as : List (List Disjunction)) (a : List Disjunction) :
    flattenOr (as ++ [a]) = removeRedundant (orOf (flattenOr as) a) := by
  rw [flattenOr, List.foldl_append]
  rfl

/-- Sets have the same smallest ones as some of them, if each contains one of those. -/
theorem minimal_iff_of_subset {P Q : Finset Literal → Prop} (hQP : ∀ u, Q u → P u)
    (hPQ : ∀ u, P u → ∃ v ⊆ u, Q v) : Minimal P u ↔ Minimal Q u := by
  constructor
  · intro h
    obtain ⟨v, hvu, hv⟩ := hPQ u h.prop
    obtain rfl : v = u := hvu.antisymm (h.le_of_le (hQP v hv) hvu)
    exact h.mono hQP hv
  · intro h
    refine ⟨hQP u h.prop, fun v hv hvu => ?_⟩
    obtain ⟨w, hwv, hw⟩ := hPQ v hv
    exact (h.le_of_le hw (hwv.trans hvu)).trans hwv

/-- A step leaves the smallest combinations of what was there before with the next alternative. -/
theorem mem_removeRedundant_orOf_iff : d ∈ removeRedundant (orOf cs ds) ↔ Literal.Ascending d ∧
    Minimal (fun u => ¬ Literal.Contradictory u ∧
      ∃ c ∈ cs, ∃ e ∈ ds, c.toFinset ∪ e.toFinset = u) d.toFinset := by
  rw [mem_removeRedundant_iff, mem_orOf_iff, and_assoc, minimal_iff_forall_lt]
  refine and_congr_right fun _ => and_congr_right fun _ => ⟨fun h u hu hmem => ?_, fun h c hc => ?_⟩
  · obtain ⟨c, hc, rfl⟩ := Literal.exists_ascending u
    exact h c (mem_orOf_iff.mpr ⟨hc, hmem⟩) hu
  · exact fun hlt => h hlt (mem_orOf_iff.mp hc).2

/-- **The result has the smallest candidates.** -/
theorem mem_flattenOr_iff :
    d ∈ flattenOr as ↔ Literal.Ascending d ∧ Minimal (Candidate as) d.toFinset := by
  induction as using List.reverseRecOn generalizing d with
  | nil =>
    have hnil : Minimal (Candidate []) d.toFinset ↔ d = [] := by
      rw [← List.toFinset_eq_empty_iff, ← chosen_nil]
      refine ⟨fun h => h.prop.1, fun h => ⟨⟨h, ?_⟩, fun u hu _ => ?_⟩⟩
      · simp [chosen_nil.mp h, Literal.Contradictory]
      · simp [chosen_nil.mp h]
    rw [hnil, flattenOr, List.foldl_nil, List.mem_singleton]
    exact ⟨fun h => ⟨h ▸ .nil, h⟩, And.right⟩
  | append_singleton as a ih =>
    rw [flattenOr_concat, mem_removeRedundant_orOf_iff]
    refine and_congr_right fun _ => (minimal_iff_of_subset ?_ ?_).symm
    · rintro u ⟨hu, c, hc, e, he, rfl⟩
      exact ⟨chosen_concat.mpr ⟨_, (ih.mp hc).2.prop.1, e, he, rfl⟩, hu⟩
    · -- what is left of the others is enough, because a smaller union gives a smaller combination
      rintro u ⟨hchosen, hu⟩
      obtain ⟨v, hv, e, he, rfl⟩ := chosen_concat.mp hchosen
      have hv' : ¬ Literal.Contradictory v := fun h => hu (h.mono Finset.subset_union_left)
      obtain ⟨w, hwv, hw⟩ := exists_minimal_le_of_wellFoundedLT (Candidate as) v ⟨hv, hv'⟩
      obtain ⟨c, hc, rfl⟩ := Literal.exists_ascending w
      have hsub : c.toFinset ∪ e.toFinset ⊆ v ∪ e.toFinset := Finset.union_subset_union_left hwv
      exact ⟨_, hsub, fun h => hu (h.mono hsub), c, ih.mpr ⟨hc, hw⟩, e, he, rfl⟩

theorem ascending_flattenOr (as : List (List Disjunction)) : Ascending (flattenOr as) := by
  induction as using List.reverseRecOn with
  | nil => exact List.pairwise_singleton _ _
  | append_singleton as a _ =>
    rw [flattenOr_concat]
    exact (pairwise_sortedSet _).sublist List.filter_sublist

theorem exists_mem_flattenOr (hu : Candidate as u) : ∃ d ∈ flattenOr as, ∀ l ∈ d, l ∈ u := by
  obtain ⟨v, hvu, hv⟩ := exists_minimal_le_of_wellFoundedLT (Candidate as) u hu
  obtain ⟨d, hd, rfl⟩ := Literal.exists_ascending v
  exact ⟨d, mem_flattenOr_iff.mpr ⟨hd, hv⟩, fun l hl => hvu (List.mem_toFinset.mpr hl)⟩

end Disjunction

/-! ## Meaning -/

/-- Whether a literal is true, given the truth values of atoms. Each name, with any tag or without
one, is an atom of its own. -/
def Literal.trueIn (V : String → Option Nat → Bool) (l : Literal) : Bool :=
  V l.name l.tag == l.positive

theorem Literal.trueIn_negate (V : String → Option Nat → Bool) (l : Literal) :
    l.negate.trueIn V = !l.trueIn V := by
  cases hV : V l.name l.tag <;> cases hl : l.positive <;> simp [trueIn, negate, hV, hl]

theorem Literal.Contradictory.exists_trueIn {u : Finset Literal} (hu : Contradictory u)
    (V : String → Option Nat → Bool) : ∃ l ∈ u, l.trueIn V = true := by
  obtain ⟨l, hl, hl'⟩ := hu
  by_cases h : l.trueIn V = true
  · exact ⟨l, hl, h⟩
  · exact ⟨l.negate, hl', by simpa [trueIn_negate] using h⟩

namespace Disjunction

variable {as bs : List (List Disjunction)}

theorem exists_chosen {P : Disjunction → Prop} (h : ∀ a ∈ as, ∃ d ∈ a, P d) :
    ∃ cs ∈ as.sections, ∀ c ∈ cs, P c := by
  choose! f hmem hP using h
  refine ⟨as.map f, List.mem_sections.mpr ?_, List.forall_mem_map.mpr hP⟩
  rw [List.forall₂_map_left_iff, List.forall₂_same]
  exact hmem

theorem exists_mem_of_mem_sections {cs a : List Disjunction} (hcs : cs ∈ as.sections)
    (ha : a ∈ as) : ∃ c ∈ cs, c ∈ a := by
  rw [List.mem_sections] at hcs
  induction hcs with
  | nil => contradiction
  | cons hc _ ih =>
    rcases List.mem_cons.mp ha with rfl | ha
    · exact ⟨_, List.mem_cons_self, hc⟩
    · obtain ⟨c, hmem, hca⟩ := ih ha
      exact ⟨c, List.mem_cons_of_mem _ hmem, hca⟩

/-- **The meaning of the result**, whatever is true of the atoms. -/
theorem forall_flattenOr_iff (V : String → Option Nat → Bool) (as : List (List Disjunction)) :
    (∀ d ∈ flattenOr as, ∃ l ∈ d, l.trueIn V = true) ↔
      ∃ a ∈ as, ∀ d ∈ a, ∃ l ∈ d, l.trueIn V = true := by
  constructor
  · intro h
    by_contra hnone
    push Not at hnone
    -- disjunctions that fail, one from each alternative, make a union that fails
    obtain ⟨cs, hcs, hfail⟩ := exists_chosen hnone
    have hfails : ∀ l ∈ cs.flatten.toFinset, l.trueIn V ≠ true := by
      intro l hl
      obtain ⟨c, hc, hlc⟩ := List.mem_flatten.mp (List.mem_toFinset.mp hl)
      exact hfail c hc l hlc
    have hcandidate : Candidate as cs.flatten.toFinset := by
      refine ⟨⟨cs, hcs, rfl⟩, fun hu => ?_⟩
      obtain ⟨l, hl, htrue⟩ := hu.exists_trueIn V
      exact hfails l hl htrue
    obtain ⟨d, hd, hsub⟩ := exists_mem_flattenOr hcandidate
    obtain ⟨l, hl, htrue⟩ := h d hd
    exact hfails l (hsub l hl) htrue
  · rintro ⟨a, ha, htrue⟩ d hd
    obtain ⟨cs, hcs, heq⟩ := (mem_flattenOr_iff.mp hd).2.prop.1
    obtain ⟨c, hc, hca⟩ := exists_mem_of_mem_sections hcs ha
    obtain ⟨l, hl, hl'⟩ := htrue c hca
    refine ⟨l, ?_, hl'⟩
    rw [← List.mem_toFinset, ← heq, List.mem_toFinset]
    exact List.mem_flatten_of_mem hc hl

/-! ## Order and repetitions -/

/-- An alternative as a set of sets of literals. -/
def asSets (a : List Disjunction) : Finset (Finset Literal) := (a.map List.toFinset).toFinset

theorem mem_asSets {a : List Disjunction} {u : Finset Literal} :
    u ∈ asSets a ↔ ∃ c ∈ a, c.toFinset = u := by
  simp [asSets]

/-- What can be chosen depends on the sets that alternatives are. -/
theorem chosen_iff {u : Finset Literal} :
    Chosen as u ↔ u ∈ (as.map asSets).foldr (· ⊻ ·) {∅} := by
  induction as generalizing u with
  | nil => rw [chosen_nil, List.map_nil, List.foldr_nil, Finset.mem_singleton]
  | cons a as ih =>
    rw [chosen_cons, List.map_cons, List.foldr_cons, Finset.mem_sups]
    simp only [mem_asSets, ih]
    constructor
    · rintro ⟨c, hc, v, hv, rfl⟩
      exact ⟨c.toFinset, ⟨c, hc, rfl⟩, v, hv, rfl⟩
    · rintro ⟨_, ⟨c, hc, rfl⟩, v, hv, rfl⟩
      exact ⟨c, hc, v, hv, rfl⟩

theorem chosen_of_perm (h : (as.map asSets).Perm (bs.map asSets)) : Chosen as = Chosen bs := by
  have hcomm : LeftCommutative fun s t : Finset (Finset Literal) => s ⊻ t :=
    ⟨Finset.sups_left_comm⟩
  funext u
  rw [eq_iff_iff, chosen_iff, chosen_iff, h.foldr_eq]

/-- **A canonical form**: the smallest unions of one disjunction from each alternative, whatever the
order and repetitions. -/
theorem flattenOr_canonical (as : List (List Disjunction)) :
    Ascending (flattenOr as) ∧
      (∀ d, d ∈ flattenOr as ↔ Literal.Ascending d ∧ Minimal (Candidate as) d.toFinset) ∧
      ∀ bs, (bs.map asSets).Perm (as.map asSets) → flattenOr bs = flattenOr as := by
  refine ⟨ascending_flattenOr as, fun d => mem_flattenOr_iff, fun bs h => ?_⟩
  refine eq_of_increasing (ascending_flattenOr bs) (ascending_flattenOr as) fun d => ?_
  have hcandidate : Candidate bs = Candidate as := by
    unfold Candidate
    rw [chosen_of_perm h]
  rw [mem_flattenOr_iff, mem_flattenOr_iff, hcandidate]

/-- Two alternatives in both orders, with a repeated disjunction and a repeated literal. -/
theorem flattenOr_canonical_rearranged :
    let x : Literal := { name := "x" }
    let y : Literal := { name := "y", tag := some 2 }
    let as : List (List Disjunction) := [[[x], [y.negate, x]], [[y], [x, y]]]
    let bs : List (List Disjunction) := [[[y, x, y], [y]], [[x, y.negate], [x], [x, x]]]
    (bs.map asSets).Perm (as.map asSets) ∧ flattenOr bs = flattenOr as := by
  intro x y as bs
  have h : (bs.map asSets).Perm (as.map asSets) := by decide
  exact ⟨h, (flattenOr_canonical as).2.2 bs h⟩

end Disjunction

end CellSat
