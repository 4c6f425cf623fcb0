import Mathlib
import CellSat.Proofs.Clause.Flatten
/-!
# Satisfying tuples

The tuples that satisfy a conjunction are found by exclusion. A disjunction that mentions every
variable fails under one tuple only, its opposite. So a tuple satisfies a conjunction exactly if its
opposite contains no disjunction of it, and the canonical form has the opposites that contain one.

* `Literal.Full`: sets of literals that mention given names and no others;
* `Disjunction.mem_extendBy_iff_chosen`, `Disjunction.mem_extendBy_iff`: the disjunctions that
  mention all names;
* `Disjunction.IsTuple`, `Interpretation.ofTuple`: tuples, and what they make true;
* `Disjunction.mem_canonical_iff`: the canonical form has the tuples that contain a disjunction;
* **`Disjunction.trueTuples_enumerates`**: the result has each satisfying tuple once.
-/

namespace CellSat

/-! ## Sets that mention given names -/

namespace Literal

variable {l m : Literal} {names : List String} {u : Finset Literal}

@[simp] theorem negate_negate (l : Literal) : l.negate.negate = l := by
  simp [negate]

theorem negate_ne (l : Literal) : l.negate ≠ l := by
  intro h
  have hpositive := congrArg Literal.positive h
  simp [negate] at hpositive

theorem eq_or_eq_negate (hl : l.tag = none) (hm : m.tag = none) (hname : l.name = m.name) :
    l = m ∨ l = m.negate := by
  obtain ⟨name, positive, tag⟩ := l
  obtain ⟨name', positive', tag'⟩ := m
  obtain rfl : name = name' := hname
  obtain rfl : tag = none := hl
  obtain rfl : tag' = none := hm
  cases positive <;> cases positive' <;> simp [negate]

/-- A set of literals without tags that mentions each of the names, and no others. -/
structure Full (names : List String) (u : Finset Literal) : Prop where
  tag_eq : ∀ l ∈ u, l.tag = none
  name_mem : ∀ l ∈ u, l.name ∈ names
  exists_mem : ∀ name ∈ names, ∃ l ∈ u, l.name = name

end Literal

namespace Disjunction

open Literal

variable {as : List (List Disjunction)} {a cs ds : List Disjunction} {c d : Disjunction}
  {u : Finset Literal} {names : List String} {name : String} {l : Literal}

theorem mem_alwaysFalse :
    d ∈ alwaysFalse name ↔ ∃ l : Literal, l.tag = none ∧ l.name = name ∧ d = [l] := by
  simp only [alwaysFalse, List.mem_cons, List.not_mem_nil, or_false]
  constructor
  · rintro (rfl | rfl) <;> exact ⟨_, rfl, rfl, rfl⟩
  · rintro ⟨⟨_, positive, _⟩, rfl, rfl, rfl⟩
    cases positive <;> simp

theorem full_of_chosen (h : Chosen (names.map alwaysFalse) u) : Full names u := by
  induction names generalizing u with
  | nil =>
    rw [List.map_nil, chosen_nil] at h
    constructor <;> simp [h]
  | cons name names ih =>
    obtain ⟨c, hc, v, hv, rfl⟩ := chosen_cons.mp h
    obtain ⟨l, htag, rfl, rfl⟩ := mem_alwaysFalse.mp hc
    obtain ⟨htags, hmem, hexists⟩ := ih hv
    refine ⟨?_, ?_, ?_⟩
    · simpa [htag] using htags
    · simpa using fun m hm => Or.inr (hmem m hm)
    · simp only [List.forall_mem_cons, List.toFinset_cons, List.toFinset_nil, insert_empty_eq,
        Finset.singleton_union, Finset.exists_mem_insert, true_or, true_and]
      exact fun name hname => .inr (hexists name hname)

theorem chosen_of_full (hu : Full names u) (hcon : ¬ Contradictory u) :
    Chosen (names.map alwaysFalse) u := by
  have hchoice : ∀ a ∈ names.map alwaysFalse, ∃ d ∈ a, ∀ l ∈ d, l ∈ u := by
    rw [List.forall_mem_map]
    intro name hname
    obtain ⟨l, hl, rfl⟩ := hu.exists_mem name hname
    exact ⟨[l], mem_alwaysFalse.mpr ⟨l, hu.tag_eq l hl, rfl, rfl⟩, by simpa using hl⟩
  obtain ⟨cs, hcs, hmem⟩ := exists_chosen hchoice
  refine ⟨cs, hcs, Finset.ext fun l => ?_⟩
  rw [List.mem_toFinset, List.mem_flatten]
  constructor
  · rintro ⟨c, hc, hl⟩
    exact hmem c hc l hl
  · intro hl
    obtain ⟨c, hc, hname⟩ := exists_mem_of_mem_sections hcs (List.mem_map_of_mem (hu.name_mem l hl))
    obtain ⟨m, htag, hm, rfl⟩ := mem_alwaysFalse.mp hname
    refine ⟨_, hc, List.mem_singleton.mpr ?_⟩
    -- The other literal of this name would contradict this one.
    refine (eq_or_eq_negate (hu.tag_eq l hl) htag hm.symm).resolve_right fun heq => hcon ?_
    exact ⟨m, hmem _ hc m List.mem_cons_self, heq ▸ hl⟩

/-! ## Mentioning all names -/

theorem chosen_orOf_cons (hu : ¬ Contradictory u) :
    Chosen (orOf cs a :: as) u ↔ Chosen (cs :: a :: as) u := by
  simp only [chosen_cons]
  constructor
  · rintro ⟨d, hd, v, hv, rfl⟩
    obtain ⟨-, -, c, hc, e, he, heq⟩ := mem_orOf_iff.mp hd
    exact ⟨c, hc, e.toFinset ∪ v, ⟨e, he, v, hv, rfl⟩, by rw [← Finset.union_assoc, heq]⟩
  · rintro ⟨c, hc, _, ⟨e, he, v, hv, rfl⟩, rfl⟩
    rw [← Finset.union_assoc] at hu ⊢
    obtain ⟨d, hd, heq⟩ := Literal.exists_ascending (c.toFinset ∪ e.toFinset)
    refine ⟨d, mem_orOf_iff.mpr ⟨hd, fun h => hu (h.mono ?_), c, hc, e, he, heq.symm⟩, v, hv, ?_⟩
    · exact heq ▸ Finset.subset_union_left
    · rw [heq]

theorem mem_extendBy_iff_chosen (hcs : ∀ c ∈ cs, Literal.Ascending c) (hd : Literal.Ascending d)
    (hcon : ¬ Contradictory d.toFinset) :
    d ∈ extendBy names cs ↔ Chosen (cs :: names.map alwaysFalse) d.toFinset := by
  induction names generalizing cs with
  | nil =>
    simp only [extendBy, List.foldl_nil, List.map_nil, chosen_cons, chosen_nil, exists_eq_left,
      Finset.union_empty]
    exact ⟨fun h => ⟨d, h, rfl⟩, fun ⟨c, hc, heq⟩ => (hcs c hc).eq_of_toFinset hd heq ▸ hc⟩
  | cons name names ih =>
    rw [extendBy, List.foldl_cons, ← extendBy, ih fun c hc => (mem_orOf_iff.mp hc).1,
      chosen_orOf_cons hcon, List.map_cons]

theorem mem_extendBy_iff (hcs : ∀ c ∈ cs, Literal.Ascending c)
    (hnames : ∀ c ∈ cs, ∀ l ∈ c, l.tag = none ∧ l.name ∈ names) (hd : Literal.Ascending d)
    (hcon : ¬ Contradictory d.toFinset) :
    d ∈ extendBy names cs ↔ Full names d.toFinset ∧ ∃ c ∈ cs, c.toFinset ⊆ d.toFinset := by
  rw [mem_extendBy_iff_chosen hcs hd hcon, chosen_cons]
  constructor
  · rintro ⟨c, hc, v, hv, heq⟩
    obtain ⟨htag, hmem, hexists⟩ := full_of_chosen hv
    rw [← heq]
    refine ⟨⟨?_, ?_, ?_⟩, c, hc, Finset.subset_union_left⟩
    · simpa only [Finset.forall_mem_union, List.mem_toFinset] using
        ⟨fun l hl => (hnames c hc l hl).1, htag⟩
    · simpa only [Finset.forall_mem_union, List.mem_toFinset] using
        ⟨fun l hl => (hnames c hc l hl).2, hmem⟩
    · intro name hname
      obtain ⟨l, hl, h⟩ := hexists name hname
      exact ⟨l, Finset.mem_union_right _ hl, h⟩
  · rintro ⟨hfull, c, hc, hsub⟩
    exact ⟨c, hc, _, chosen_of_full hfull hcon, Finset.union_eq_right.mpr hsub⟩

theorem forall_mem_extendBy {P : Disjunction → Prop} (hcs : ∀ c ∈ cs, P c)
    (horOf : ∀ bs cs, ∀ d ∈ orOf bs cs, P d) : ∀ d ∈ extendBy names cs, P d := by
  induction names generalizing cs with
  | nil => exact hcs
  | cons name names ih => exact ih (horOf cs _)

theorem nodup_extendBy (hcs : cs.Nodup) : (extendBy names cs).Nodup := by
  induction names generalizing cs with
  | nil => exact hcs
  | cons name names ih => exact ih (nodup_sortedSet _)

end Disjunction

/-! ## Tuples -/

/-- One literal without a tag for each name that the disjunctions mention, in increasing order of
the names. -/
structure Disjunction.IsTuple (ds : List Disjunction) (c : Disjunction) : Prop where
  tag_eq : ∀ l ∈ c, l.tag = none
  increasing : c.Pairwise fun l m => l.name < m.name
  mentions : ∀ name, (∃ l ∈ c, l.name = name) ↔ ∃ d ∈ ds, ∃ l ∈ d, l.name = name

/-- The truth values that the literals of a tuple ask for. -/
def Interpretation.ofTuple (c : Disjunction) : Interpretation where
  truth name := c.contains { name }
  number _ := 0

namespace Disjunction

open Literal

variable {ds : List Disjunction} {c d : Disjunction} {l m : Literal} {name : String}

theorem mem_namesOf : name ∈ Clause.namesOf ds ↔ ∃ d ∈ ds, ∃ l ∈ d, l.name = name := by
  simp only [Clause.namesOf, mem_sortedSet, List.mem_map, List.mem_flatten]
  grind

theorem increasing_iff (htag : ∀ l ∈ c, l.tag = none) :
    c.Pairwise (fun l m => l.name < m.name) ↔
      Literal.Ascending c ∧ ¬ Contradictory c.toFinset := by
  constructor
  · intro h
    refine ⟨h.imp fun {l m} hlt => ?_, ?_⟩
    · rw [Literal.compare, compare_lt_iff_lt.mpr hlt]
      rfl
    · rintro ⟨l, hl, hl'⟩
      rw [List.mem_toFinset] at hl hl'
      have hnodup : (c.map Literal.name).Nodup := List.pairwise_map.mpr (h.imp fun hlt => hlt.ne)
      exact negate_ne l (List.inj_on_of_nodup_map hnodup hl' hl rfl)
  · rintro ⟨hasc, hcon⟩
    refine hasc.imp_of_mem fun {l m} hl hm hlt => ?_
    rcases Ordering.then_eq_lt.mp hlt with hname | ⟨hname, -⟩
    · exact compare_lt_iff_lt.mp hname
    · rcases eq_or_eq_negate (htag l hl) (htag m hm) (compare_eq_iff_eq.mp hname) with rfl | rfl
      · rw [@Std.ReflCmp.compare_self _ Literal.compare] at hlt
        contradiction
      · exact absurd ⟨m, List.mem_toFinset.mpr hm, List.mem_toFinset.mpr hl⟩ hcon

theorem isTuple_iff : IsTuple ds c ↔ Literal.Ascending c ∧ ¬ Contradictory c.toFinset ∧
    Full (Clause.namesOf ds) c.toFinset := by
  constructor
  · rintro ⟨htag, hincreasing, hmentions⟩
    obtain ⟨hasc, hcon⟩ := (increasing_iff htag).mp hincreasing
    simp only [← mem_namesOf] at hmentions
    refine ⟨hasc, hcon, ?_, ?_, ?_⟩
    · simpa using htag
    · simpa using fun l hl => (hmentions l.name).mp ⟨l, hl, rfl⟩
    · simpa using fun name hname => (hmentions name).mpr hname
  · rintro ⟨hasc, hcon, htag, hmem, hexists⟩
    simp only [List.mem_toFinset] at htag hmem hexists
    refine ⟨htag, (increasing_iff htag).mpr ⟨hasc, hcon⟩, fun name => ?_⟩
    rw [← mem_namesOf]
    refine ⟨?_, hexists name⟩
    rintro ⟨l, hl, rfl⟩
    exact hmem l hl

theorem IsTuple.map_negate (hc : IsTuple ds c) : IsTuple ds (c.map negate) where
  tag_eq := List.forall_mem_map.mpr hc.tag_eq
  increasing := List.pairwise_map.mpr hc.increasing
  mentions name := by
    rw [← hc.mentions name]
    simp [negate]

theorem IsTuple.negate_mem_iff (hc : IsTuple ds c) (htag : l.tag = none)
    (hname : ∃ d ∈ ds, ∃ m ∈ d, m.name = l.name) : l.negate ∈ c ↔ l ∉ c := by
  obtain ⟨-, hcon, -⟩ := isTuple_iff.mp hc
  obtain ⟨m, hm, hname⟩ := (hc.mentions l.name).mpr hname
  constructor
  · exact fun hnegate hl => hcon ⟨l, List.mem_toFinset.mpr hl, List.mem_toFinset.mpr hnegate⟩
  · intro hl
    rcases eq_or_eq_negate (hc.tag_eq m hm) htag hname with rfl | rfl
    · exact absurd hm hl
    · exact hm

theorem IsTuple.holds_iff (hc : IsTuple ds c) (htag : l.tag = none)
    (hname : ∃ d ∈ ds, ∃ m ∈ d, m.name = l.name) :
    l.holds (Interpretation.ofTuple c) = true ↔ l ∈ c := by
  obtain ⟨name, positive, tag⟩ := l
  obtain rfl : tag = none := htag
  cases positive with
  | true => simp [Literal.holds, Interpretation.ofTuple]
  | false =>
    have hnegate := hc.negate_mem_iff (l := { name }) rfl hname
    simp only [Literal.holds, Interpretation.ofTuple, beq_false, Bool.not_eq_true',
      List.contains_eq_mem, decide_eq_false_iff_not, ← hnegate]
    rfl

theorem IsTuple.satisfies_iff (hds : Boolean ds) (hc : IsTuple ds c) :
    (Interpretation.ofTuple c).Satisfies ds ↔ ∀ d ∈ ds, ∃ l ∈ d, l ∈ c := by
  refine forall₂_congr fun d hd => ?_
  rw [Disjunction.holds_iff]
  refine exists_congr fun l => and_congr_right fun hl => ?_
  exact hc.holds_iff (hds d hd l hl) ⟨d, hd, l, hl, rfl⟩

/-! ## The canonical form -/

/-- **The canonical form** has the tuples that contain a disjunction. -/
theorem mem_canonical_iff (hds : Boolean ds) (hc : IsTuple ds c) :
    c ∈ canonical ds ↔ ∃ d ∈ ds, ∀ l ∈ d, l ∈ c := by
  obtain ⟨hasc, hcon, hfull⟩ := isTuple_iff.mp hc
  have hmem : ∀ d, d ∈ toSet (ds.map Literal.toSet) ↔ ∃ e ∈ ds, Literal.toSet e = d := fun d => by
    rw [mem_toSet, List.mem_map]
  rw [canonical, mem_extendBy_iff ?_ ?_ hasc hcon, and_iff_right hfull]
  · simp only [hmem, Finset.subset_iff, List.mem_toFinset]
    constructor
    · rintro ⟨_, ⟨e, he, rfl⟩, hsub⟩
      exact ⟨e, he, fun l hl => hsub (Literal.mem_toSet.mpr hl)⟩
    · rintro ⟨e, he, hsub⟩
      exact ⟨_, ⟨e, he, rfl⟩, fun l hl => hsub l (Literal.mem_toSet.mp hl)⟩
  · intro d hd
    obtain ⟨e, he, rfl⟩ := (hmem d).mp hd
    exact Literal.ascending_toSet e
  · intro d hd l hl
    obtain ⟨e, he, rfl⟩ := (hmem d).mp hd
    rw [Literal.mem_toSet] at hl
    exact ⟨hds e he l hl, mem_namesOf.mpr ⟨e, he, l, hl, rfl⟩⟩

/-- To mention every variable in all ways is to list the tuples. -/
theorem mem_extendBy_namesOf_iff : c ∈ extendBy (Clause.namesOf ds) [[]] ↔ IsTuple ds c := by
  have hnil : ∀ d ∈ ([[]] : List Disjunction),
      Literal.Ascending d ∧ ¬ Contradictory d.toFinset := by
    simp [Literal.Ascending, Contradictory]
  have hall : ∀ d ∈ extendBy (Clause.namesOf ds) [[]],
      Literal.Ascending d ∧ ¬ Contradictory d.toFinset :=
    forall_mem_extendBy hnil fun bs cs d hd => ⟨(mem_orOf_iff.mp hd).1, (mem_orOf_iff.mp hd).2.1⟩
  have hfull : Literal.Ascending c → ¬ Contradictory c.toFinset →
      (c ∈ extendBy (Clause.namesOf ds) [[]] ↔ Full (Clause.namesOf ds) c.toFinset) := by
    intro hasc hcon
    rw [mem_extendBy_iff (fun d hd => (hnil d hd).1) (by simp) hasc hcon]
    simp
  rw [isTuple_iff]
  constructor
  · intro h
    obtain ⟨hasc, hcon⟩ := hall c h
    exact ⟨hasc, hcon, (hfull hasc hcon).mp h⟩
  · rintro ⟨hasc, hcon, h⟩
    exact (hfull hasc hcon).mpr h

/-- A tuple satisfies the disjunctions exactly if its opposite is not in the canonical form. -/
theorem IsTuple.satisfies_negate_iff (hds : Boolean ds) (hc : IsTuple ds c) :
    (Interpretation.ofTuple (c.map negate)).Satisfies ds ↔ c ∉ canonical ds := by
  rw [hc.map_negate.satisfies_iff hds, mem_canonical_iff hds hc]
  push Not
  refine forall₂_congr fun d hd => exists_congr fun l => and_congr_right fun hl => ?_
  rw [← hc.negate_mem_iff (hds d hd l hl) ⟨d, hd, l, hl, rfl⟩, List.mem_map]
  constructor
  · rintro ⟨m, hm, rfl⟩
    rwa [negate_negate]
  · exact fun h => ⟨_, h, negate_negate l⟩

theorem map_negate_map_negate (c : Disjunction) : (c.map negate).map negate = c := by
  simp [Function.comp_def]

/-- **Satisfying tuples** are listed once, and no others are. -/
theorem trueTuples_enumerates (hds : Boolean ds) : (trueTuples ds).Nodup ∧
    ∀ c, c ∈ trueTuples ds ↔ IsTuple ds c ∧ (Interpretation.ofTuple c).Satisfies ds := by
  have hmem : ∀ c, c ∈ trueTuples ds ↔
      ∃ d, (IsTuple ds d ∧ d ∉ canonical ds) ∧ d.map negate = c := by
    intro c
    simp only [trueTuples, List.mem_map, List.mem_filter, mem_extendBy_namesOf_iff]
    simp
  constructor
  · refine List.Nodup.map ?_ ((nodup_extendBy (List.nodup_singleton _)).filter _)
    exact Function.LeftInverse.injective map_negate_map_negate
  · intro c
    rw [hmem]
    constructor
    · rintro ⟨d, ⟨hd, hcanonical⟩, rfl⟩
      exact ⟨hd.map_negate, (hd.satisfies_negate_iff hds).mpr hcanonical⟩
    · rintro ⟨hc, hsat⟩
      refine ⟨c.map negate, ⟨hc.map_negate, ?_⟩, map_negate_map_negate c⟩
      rw [← hc.map_negate.satisfies_negate_iff hds, map_negate_map_negate]
      exact hsat

/-- One of two variables, with a repeated literal and a tautology. -/
theorem trueTuples_enumerates_exclusiveOr :
    let x : Literal := { name := "x" }
    let y : Literal := { name := "y" }
    let ds : List Disjunction := [[y, x, y], [x.negate, y.negate], [x, x.negate]]
    Boolean ds ∧ [x, y.negate] ∈ trueTuples ds ∧ [x, y] ∉ trueTuples ds := by
  intro x y ds
  have hds : ∀ d ∈ ds, ∀ l ∈ d, l.tag = none := by decide
  have htuple : IsTuple ds [x, y.negate] := by
    refine ⟨by decide, by decide, fun name => ?_⟩
    simp only [ds, x, y, negate, List.mem_cons, List.not_mem_nil, or_false, exists_eq_or_imp,
      ↓existsAndEq, true_and]
    tauto
  have hsat : ∀ d ∈ ds, d.holds (Interpretation.ofTuple [x, y.negate]) = true := by decide
  have hfails : ¬ ∀ d ∈ ds, d.holds (Interpretation.ofTuple [x, y]) = true := by decide
  obtain ⟨-, hmem⟩ := trueTuples_enumerates hds
  exact ⟨hds, (hmem _).mpr ⟨htuple, hsat⟩, fun h => hfails ((hmem _).mp h).2⟩

end Disjunction

end CellSat
