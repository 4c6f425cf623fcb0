import Mathlib
import CellSat.Proofs.Cnf.Exclusion
import CellSat.Proofs.Tag.Tuples
/-!
# Relations in bits

The clauses of a relation say what they should of the values up to the largest ones listed. Compiled
on their own they say more: a variable is then kept within the largest value that some clause still
mentions.

* `Tag.IsTable`: tuples with a value for each of some names, which can be compiled;
* `IsTable.inRange_ruleOut_iff`: the ranges that these clauses leave to the variables;
* **`Tag.matching_decodes_iff`**: the listed tuples that are decoded from the compiled clauses.
-/

namespace CellSat

/-! ## Tables -/

/-- The largest tag of a variable is one of its tags: if all of them were smaller, so would it be. -/
theorem Clause.exists_largestTag {cs : List Clause} {name : String} (hname : Tagged cs name) :
    ∃ d ∈ disjunctions cs, ∃ l ∈ d, l.name = name ∧ l.tag = some (largestTag cs name) := by
  by_contra hnone
  push Not at hnone
  have hlt : ∀ d ∈ disjunctions cs, ∀ l ∈ d, l.name = name → ∀ tag, l.tag = some tag →
      tag < largestTag cs name := by
    intro d hd l hl hlname tag htag
    refine Nat.lt_of_le_of_ne (largestTag_le_iff.mp (Nat.le_refl _) d hd l hl hlname tag htag) ?_
    rintro rfl
    exact hnone d hd l hl hlname htag
  obtain ⟨d, hd, l, hl, hlname, hne⟩ := hname
  obtain ⟨tag, htag⟩ := Option.ne_none_iff_exists'.mp hne
  have hpos := hlt d hd l hl hlname tag htag
  have hle : largestTag cs name ≤ largestTag cs name - 1 :=
    largestTag_le_iff.mpr fun d hd l hl hlname tag htag =>
      Nat.le_pred_of_lt (hlt d hd l hl hlname tag htag)
  omega

/-- Tuples that give each of some distinct names a value. -/
structure Tag.IsTable (names : List String) (tuples : List Disjunction) : Prop where
  nonempty : tuples ≠ []
  plain : ∀ name ∈ names, Tag.Plain name
  nodup : names.Nodup
  names : ∀ t ∈ tuples, (t.map (·.name)).Perm names
  positive : ∀ t ∈ tuples, ∀ l ∈ t, l.positive = true
  tagged : ∀ t ∈ tuples, ∀ l ∈ t, l.tag ≠ none ∧ l.tag.getD 0 ≤ Word.maxNat32

namespace Tag

/-! ## The clauses of a table -/

namespace IsTable

variable {names : List String} {tuples : List Disjunction} {name : String} {I : Interpretation}
  {ds : List Disjunction}

theorem uniform (h : IsTable names tuples) : Uniform names tuples :=
  ⟨h.nonempty, h.nodup, h.names, h.positive, fun t ht l hl => (h.tagged t ht l hl).1⟩

theorem tagged_iff (h : IsTable names tuples) :
    Clause.Tagged (tuples.map .disjunction) name ↔ name ∈ names :=
  h.uniform.tagged_iff

theorem matching_eq_ok (h : IsTable names tuples) :
    ∃ ds, matching tuples = .ok ds ∧ RuleOut tuples ds :=
  h.uniform.matching_eq_ok

theorem satisfies_iff (h : IsTable names tuples) (hds : RuleOut tuples ds)
    (hI : I.InRange (tuples.map .disjunction)) : I.Satisfies ds ↔ I.Takes tuples :=
  h.uniform.satisfies_iff hds hI

theorem mem_ruleOut (h : IsTable names tuples) (hds : RuleOut tuples ds) {tag : Nat} :
    (∃ d ∈ ds, ∃ l ∈ d, l.name = name ∧ l.tag = some tag) ↔
      name ∈ names ∧ ∃ J : Interpretation, J.Misses tuples ∧ J.number name = tag := by
  constructor
  · rintro ⟨d, hd, l, hl, rfl, htag⟩
    obtain ⟨J, hJ, rfl⟩ := (hds d).mp hd
    obtain ⟨name, hname, rfl⟩ := List.mem_map.mp hl
    exact ⟨h.uniform.mem_keys.mp hname, J, hJ, Option.some.inj htag⟩
  · rintro ⟨hname, J, hJ, rfl⟩
    have hkey := h.uniform.mem_keys.mpr hname
    exact ⟨_, (hds _).mpr ⟨J, hJ, rfl⟩, _, List.mem_map_of_mem hkey, rfl, rfl⟩

/-- The clauses keep a variable within its largest value among the tuples that are not listed. -/
theorem inRange_ruleOut_iff (h : IsTable names tuples) (hds : RuleOut tuples ds) :
    I.InRange (ds.map .disjunction) ↔
      (∀ J : Interpretation, ¬ J.Misses tuples) ∨
        ∀ name ∈ names, ∃ J : Interpretation, J.Misses tuples ∧ I.number name ≤ J.number name := by
  have hnames : ∀ name, Clause.Tagged (ds.map .disjunction) name →
      name ∈ names ∧ ∃ J : Interpretation, J.Misses tuples ∧
        J.number name = Clause.largestTag (ds.map .disjunction) name := by
    intro name hname
    have hlargest := Clause.exists_largestTag hname
    rwa [Clause.disjunctions_map, h.mem_ruleOut hds] at hlargest
  by_cases hmiss : ∀ J : Interpretation, ¬ J.Misses tuples
  · refine iff_of_true (fun name hname => ?_) (Or.inl hmiss)
    obtain ⟨-, J, hJ, -⟩ := hnames name hname
    exact absurd hJ (hmiss J)
  · rw [or_iff_right hmiss]
    push Not at hmiss
    obtain ⟨K, hK⟩ := hmiss
    constructor
    · intro hI name hname
      have htagged : Clause.Tagged (ds.map .disjunction) name := by
        rw [Clause.Tagged, Clause.disjunctions_map]
        obtain ⟨d, hd, l, hl, hlname, htag⟩ := (h.mem_ruleOut hds).mpr ⟨hname, K, hK, rfl⟩
        exact ⟨d, hd, l, hl, hlname, by simp [htag]⟩
      obtain ⟨-, J, hJ, hlargest⟩ := hnames name htagged
      exact ⟨J, hJ, hlargest ▸ hI name htagged⟩
    · intro hI name hname
      obtain ⟨J, hJ, hle⟩ := hI name (hnames name hname).1
      obtain ⟨d, hd, l, hl, hlname, htag⟩ :=
        (h.mem_ruleOut hds).mpr ⟨(hnames name hname).1, J, hJ, rfl⟩
      refine hle.trans (Clause.largestTag_le_iff.mp (Nat.le_refl _) d ?_ l hl hlname _ htag)
      rwa [Clause.disjunctions_map]

theorem largestTag_le (h : IsTable names tuples) (name : String) :
    Clause.largestTag (tuples.map .disjunction) name ≤ Word.maxNat32 := by
  rw [Clause.largestTag_le_iff, Clause.disjunctions_map]
  intro t ht l hl _ tag htag
  simpa [htag] using (h.tagged t ht l hl).2

theorem encodable (h : IsTable names tuples) (hds : RuleOut tuples ds) :
    Clause.Encodable (ds.map .disjunction) := by
  have hliteral : ∀ d ∈ ds, ∀ l ∈ d,
      l.name ∈ names ∧ l.tag ≠ none ∧ l.tag.getD 0 ≤ Word.maxNat32 := by
    intro d hd l hl
    obtain ⟨J, ⟨hrange, -⟩, rfl⟩ := (hds d).mp hd
    obtain ⟨name, hname, rfl⟩ := List.mem_map.mp hl
    rw [h.uniform.mem_keys] at hname
    exact ⟨hname, by simp, (hrange name (h.tagged_iff.mpr hname)).trans (h.largestTag_le name)⟩
  refine ⟨?_, ?_, ?_⟩
  all_goals rw [Clause.disjunctions_map]
  · exact fun d hd l hl => h.plain l.name (hliteral d hd l hl).1
  · exact fun d hd l hl e he k hk _ =>
      iff_of_false (hliteral d hd l hl).2.1 (hliteral e he k hk).2.1
  · exact fun d hd l hl => (hliteral d hd l hl).2.2

end IsTable

theorem RuleOut.excluding {tuples ds : List Disjunction} (hds : RuleOut tuples ds) :
    Clause.Excluding (ds.map .disjunction) := by
  intro d hd
  rw [Clause.disjunctions_map] at hd
  obtain ⟨J, -, rfl⟩ := (hds d).mp hd
  exact ⟨J.number, fun l hl => eq_of_mem_excluded hl⟩

/-! ## Compiling the clauses of a table -/

/-- **The tuples that compiling keeps.** Where a variable exceeds its values in all tuples that are
not listed, a listed tuple is lost. -/
theorem matching_decodes_iff {names : List String} {tuples : List Disjunction}
    (h : IsTable names tuples)
    (hcount : ∀ ds es, matching tuples = .ok ds →
      Clause.expandTags (ds.map .disjunction) = .ok es →
        (Clause.variableNames es).length < 2 ^ 31) :
    ∃ ds f, matching tuples = .ok ds ∧ Formula.compile (ds.map .disjunction) = .ok f ∧
      (∀ numbers, Assignment.Total f.variableCount numbers →
        ∃ values, Assignment.decode f.symbols numbers = .ok values) ∧
      ∀ I : Interpretation, I.InRange (tuples.map .disjunction) →
        (f.Decodes I ↔ I.Takes tuples ∧
          ((∀ J : Interpretation, ¬ J.Misses tuples) ∨
            ∀ name ∈ names,
              ∃ J : Interpretation, J.Misses tuples ∧ I.number name ≤ J.number name)) := by
  obtain ⟨ds, hds, hrule⟩ := h.matching_eq_ok
  obtain ⟨f, hf, hdecode, hexact⟩ :=
    Formula.compile_exact (h.encodable hrule) hrule.excluding fun es => hcount ds es hds
  refine ⟨ds, f, hds, hf, hdecode, fun I hI => ?_⟩
  rw [hexact, Clause.disjunctions_map, h.satisfies_iff hrule hI, h.inRange_ruleOut_iff hrule]
  exact and_comm

/-- The table of the different values 0 and 1 of `x` and `y`. -/
def unequalPairs : List Disjunction :=
  [[{ name := "x", tag := some 0 }, { name := "y", tag := some 1 }],
    [{ name := "y", tag := some 0 }, { name := "x", tag := some 1 }]]

theorem matching_decodes_iff_different :
    IsTable ["x", "y"] unequalPairs ∧
      ∃ ds f, matching unequalPairs = .ok ds ∧ Formula.compile (ds.map .disjunction) = .ok f ∧
        f.Decodes ⟨fun _ => false, fun name => if name = "x" then 1 else 0⟩ ∧
        ¬ f.Decodes ⟨fun _ => false, fun _ => 1⟩ := by
  have h : IsTable ["x", "y"] unequalPairs :=
    ⟨by decide, by simp [Plain], by decide, by decide, by decide, by decide⟩
  have hfour : ((matching unequalPairs).toOption.bind fun ds =>
      (Clause.expandTags (ds.map .disjunction)).toOption).map
        (fun es => (Clause.variableNames es).length) = some 4 := by cbv
  obtain ⟨ds, f, hds, hf, -, hdecodes⟩ := matching_decodes_iff h fun ds es hds hes => by
    rw [hds] at hfour
    simp only [Except.toOption, Option.bind_some, hes, Option.map_some, Option.some.injEq] at hfour
    omega
  have hrange : ∀ I : Interpretation, I.number "x" ≤ 1 → I.number "y" ≤ 1 →
      I.InRange (unequalPairs.map .disjunction) := by
    intro I hx hy name hname
    rw [h.tagged_iff] at hname
    rcases List.mem_pair.mp hname with rfl | rfl
    · exact hx
    · exact hy
  have hmiss : Interpretation.Misses ⟨fun _ => false, fun _ => 1⟩ unequalPairs :=
    ⟨hrange _ (by decide) (by decide), by simp [Interpretation.Takes, unequalPairs, Literal.holds]⟩
  refine ⟨h, ds, f, hds, hf, ?_, ?_⟩
  · rw [hdecodes _ (hrange _ (by decide) (by decide))]
    refine ⟨by simp [Interpretation.Takes, unequalPairs, Literal.holds], Or.inr fun name _ => ?_⟩
    exact ⟨_, hmiss, by dsimp only; split_ifs <;> omega⟩
  · rw [hdecodes _ hmiss.1]
    exact fun hboth => hmiss.2 hboth.1

/-- The table that lists the values 0 and 2 of `x`. -/
def zeroAndTwo : List Disjunction :=
  [[{ name := "x", tag := some 0 }], [{ name := "x", tag := some 2 }]]

/-- The clause rules out the value 1 and mentions no larger one, so the value 2 is lost. -/
theorem not_decodes_gap :
    ∃ ds f, ∃ I : Interpretation, matching zeroAndTwo = .ok ds ∧
      Formula.compile (ds.map .disjunction) = .ok f ∧ I.InRange (zeroAndTwo.map .disjunction) ∧
      I.Takes zeroAndTwo ∧ ¬ f.Decodes I := by
  have h : IsTable ["x"] zeroAndTwo :=
    ⟨by decide, by simp [Plain], by decide, by decide, by decide, by decide⟩
  let ds : List Disjunction := [[{ name := "x", positive := false, tag := some 1 }]]
  have hcs : Clause.Encodable (ds.map .disjunction) := by decide
  have hexcluding : Clause.Excluding (ds.map .disjunction) := by
    intro d hd
    obtain rfl := List.mem_singleton.mp hd
    exact ⟨fun _ => 1, by simp [Disjunction.Excludes]⟩
  have htwo : (Clause.expandTags (ds.map .disjunction)).toOption.map
      (fun es => (Clause.variableNames es).length) = some 2 := by cbv
  obtain ⟨f, hf, -, hexact⟩ := Formula.compile_exact hcs hexcluding fun es hes => by
    rw [hes] at htwo
    have : (Clause.variableNames es).length = 2 := Option.some.inj htwo
    omega
  refine ⟨ds, f, ⟨fun _ => false, fun _ => 2⟩, by cbv, hf, ?_, ?_, ?_⟩
  · intro name hname
    rw [h.tagged_iff, List.mem_singleton] at hname
    subst hname
    decide
  · simp [Interpretation.Takes, zeroAndTwo, Literal.holds]
  · rw [hexact]
    rintro ⟨hrange, -⟩
    have hle := hrange "x" ⟨_, List.mem_singleton_self _, _, List.mem_singleton_self _, rfl, by simp⟩
    exact absurd hle (by decide)

end Tag

end CellSat
