import Mathlib
import CellSat.Clause.Text
import CellSat.Proofs.Cnf.Answer
/-!
# Answers with both signs of a variable

The check of an answer takes its numbers as a set, while decoding goes through them in order, so
that the last number about a variable decides. An answer with both signs of a variable may then pass
the check and decode to values that break a clause. What decoding keeps of an answer is its settled
part, and checking that part is exact.

* `Clause.isAlwaysTrue_eq_false`: the clauses of a formula can fail;
* `Assignment.against`: decoded values that are extended so that a disjunction fails if it can;
* **`Formula.forall_extends_satisfies_iff`**: the extensions of the decoded values satisfy the
  clauses exactly if the settled part of the answer passes the check.
-/

namespace CellSat

theorem Clause.isAlwaysTrue_eq_false {cs : List Clause} {seen : Std.HashSet Disjunction}
    {d : Disjunction} (hd : d ∈ disjunctions (minimizeFrom seen cs)) : d.isAlwaysTrue = false := by
  fun_induction minimizeFrom seen cs with
  | case1 => simp at hd
  | case2 seen text cs ih => exact ih hd
  | case3 seen e cs set _ ih => exact ih hd
  | case4 seen e cs set hkeep ih =>
    rw [disjunctions_disjunction, List.mem_cons] at hd
    rcases hd with rfl | hd
    · rw [Bool.or_eq_true, not_or] at hkeep
      exact Bool.eq_false_of_not_eq_true hkeep.2
    · exact ih hd

namespace Assignment

variable {values : Std.TreeMap String Value} {d : Disjunction} {l : Literal}

/-- The interpretation that has given values, and makes literals of a disjunction false where there
are none. -/
def against (values : Std.TreeMap String Value) (d : Disjunction) : Interpretation where
  truth name :=
    match values[name]? with
    | some (.truth b) => b
    | _ => d.any fun l => !l.positive && l.name == name
  number := (interpretation values).number

theorem extends_against (values : Std.TreeMap String Value) (d : Disjunction) :
    (against values d).Extends values.toList where
  truth name b h := by
    rw [Std.TreeMap.mem_toList_iff_getElem?_eq_some] at h
    simp [against, h]
  number := (extends_interpretation values).number

/-- A disjunction that can fail holds there only because of a value that is given. -/
theorem getElem?_of_holds_against (hd : d.isAlwaysTrue = false) (hl : l ∈ d) (htag : l.tag = none)
    (h : l.holds (against values d) = true) : values[l.name]? = some (.truth l.positive) := by
  have htruth : (against values d).truth l.name = l.positive := by
    simpa [Literal.holds, htag] using h
  simp only [against] at htruth
  split at htruth
  · next b hb => rw [hb, ← htruth]
  · exfalso
    by_cases hpos : l.positive = true
    · rw [hpos, List.any_eq_true] at htruth
      obtain ⟨m, hm, hname⟩ := htruth
      rw [Bool.and_eq_true, beq_iff_eq] at hname
      refine absurd (List.any_eq_true.mpr ⟨m, hm, ?_⟩) (Bool.eq_false_iff.mp hd)
      rw [Bool.and_eq_true, List.any_eq_true]
      exact ⟨hname.1, l, hl, by simp [hpos, hname.2]⟩
    · rw [Bool.eq_false_of_not_eq_true hpos, List.any_eq_false] at htruth
      exact htruth l hl (by simpa using hpos)

end Assignment

namespace Formula

variable {t : SymbolTable} {names : List String} {f : Formula} {cs : List Clause}
  {numbers : List Int} {l : Literal} {n : Int}

theorem mem_iff_gives (ht : t.Numbers names) (h : encodeLiteral t l = .ok n) :
    n ∈ numbers ↔ Assignment.Gives t numbers l.name l.positive := by
  obtain ⟨i, hi, rfl⟩ := eq_of_encodeLiteral h
  have h1 := (ht.le_of_index? hi).1
  have hname := ht.index?_eq_some_iff.mp hi
  constructor
  · intro hn
    refine ⟨_, hn, ?_, ?_⟩
    · by_cases hpos : l.positive = true
      · rwa [if_pos hpos, Int.natAbs_of_nonneg (by omega)]
      · rwa [if_neg hpos, Int.natAbs_neg, Int.natAbs_of_nonneg (by omega)]
    · by_cases hpos : l.positive = true
      · rw [if_pos hpos, hpos, decide_eq_true_iff]
        omega
      · rw [if_neg hpos, Bool.eq_false_of_not_eq_true hpos, decide_eq_false_iff_not]
        omega
  · rintro ⟨m, hm, hmname, hsign⟩
    have habs : (m.natAbs : Int) = i :=
      Option.some.inj ((ht.index?_eq_some_iff.mpr hmname).symm.trans hi)
    have hmi : (if l.positive = true then i else -i) = m := by
      simp only [← hsign, decide_eq_true_eq]
      split_ifs <;> omega
    rwa [hmi]

/-- **Checking what decoding keeps.** A number counts if no later number contradicts it. -/
theorem forall_extends_satisfies_iff (hcs : Disjunction.Boolean (Clause.disjunctions cs))
    (hplain : ∀ name ∈ Clause.variableNames cs, Tag.Plain name) (hf : compile cs = .ok f)
    {values : Valuation} (hvalues : Assignment.decode f.symbols numbers = .ok values) :
    ((∀ I : Interpretation, I.Extends values → I.Satisfies (Clause.disjunctions cs)) ↔
      (f.validate (Assignment.settled numbers)).isValid = true) ∧
    ((f.validate (Assignment.settled numbers)).isValid = true →
      (f.validate numbers).isValid = true) ∧
    (Assignment.Consistent numbers → Assignment.settled numbers = numbers) := by
  have hes := Clause.expandTags_of_boolean hcs
  have ht := SymbolTable.numbers_ofNames (Clause.variableNames cs)
  rw [← symbols_of_compile hf hes] at ht
  have hwhole : ∀ name ∈ sortedSet compare (Clause.variableNames cs), Assignment.IsWhole name :=
    fun name hname => Assignment.isWhole_of_plain (hplain name (mem_sortedSet.mp hname))
  have hmem : ∀ {l : Literal} {n : Int}, encodeLiteral f.symbols l = .ok n →
      (n ∈ Assignment.settled numbers ↔ (l.name, Value.truth l.positive) ∈ values) := by
    intro l n hn
    rw [mem_iff_gives ht hn, Assignment.mem_decode_settled_iff ht hwhole hvalues]
    simp
  have htag : ∀ d ∈ Clause.disjunctions (Clause.minimize cs), ∀ l ∈ d, l.tag = none := by
    intro d hd l hl
    obtain ⟨c, hc, hsub⟩ := Clause.mem_of_mem_minimizeFrom hd
    exact hcs c hc l (hsub l hl)
  simp only [isValid_validate_iff]
  refine ⟨⟨fun h clause hclause => ?_, fun h I hI => ?_⟩, fun h clause hclause => ?_,
    fun h => Assignment.settled_of_consistent h (Assignment.ne_zero_of_decode ht hvalues)⟩
  · -- The literal that is true against the clause has a value, which is the last one given.
    obtain ⟨d, hd, hencode⟩ := (mem_clauses_iff hf hes).mp hclause
    obtain ⟨tree, htree, hlist⟩ := bind_eq_ok.mp hvalues
    obtain rfl := Except.ok.inj hlist
    have hholds := (Clause.satisfies_minimize hcs).mpr (h _ (Assignment.extends_against tree d)) d hd
    obtain ⟨l, hl, hlholds⟩ := Disjunction.holds_iff.mp hholds
    obtain ⟨n, hn, hln⟩ := exists_of_mapM_eq_ok hencode hl
    refine ⟨n, hn, (hmem hln).mpr (Std.TreeMap.mem_toList_iff_getElem?_eq_some.mpr ?_)⟩
    exact Assignment.getElem?_of_holds_against (Clause.isAlwaysTrue_eq_false hd) hl (htag d hd l hl)
      hlholds
  · rw [← Clause.satisfies_minimize hcs]
    intro d hd
    obtain ⟨clause, hclause, hencode⟩ := exists_clause_of_mem hf hes hd
    obtain ⟨n, hn, hsettled⟩ := h clause hclause
    obtain ⟨l, hl, hln⟩ := (mem_of_mapM_eq_ok hencode).mp hn
    have htruth := hI.truth _ _ ((hmem hln).mp hsettled)
    exact Disjunction.holds_iff.mpr ⟨l, hl, by simp [Literal.holds, htag d hd l hl, htruth]⟩
  · obtain ⟨n, hn, hsettled⟩ := h clause hclause
    exact ⟨n, hn, Assignment.mem_of_mem_settled hsettled⟩

/-- The clauses that make `b` true whatever `a` is. -/
def eitherWay : List Clause :=
  [.disjunction [{ name := "a" }, { name := "b" }],
    .disjunction [{ name := "a", positive := false }, { name := "b" }]]

theorem forall_extends_satisfies_eitherWay :
    ∃ f, compile eitherWay = .ok f ∧
      Assignment.decode f.symbols [-1, 2, 1] = .ok [("a", .truth true), ("b", .truth true)] ∧
      Assignment.settled [-1, 2, 1] = [2, 1] ∧
      ((∀ I : Interpretation, I.Extends [("a", .truth true), ("b", .truth true)] →
          I.Satisfies (Clause.disjunctions eitherWay)) ↔
        (f.validate [2, 1]).isValid = true) := by
  have hcs : Disjunction.Boolean (Clause.disjunctions eitherWay) := by
    unfold Disjunction.Boolean
    decide
  have hnames : Clause.variableNames eitherWay = ["a", "b"] := by cbv
  obtain ⟨f, hf, hsymbols, -⟩ := compile_of_expandTags (Clause.expandTags_of_boolean hcs) hcs
    (by rw [hnames]; decide)
  have hvalues : Assignment.decode f.symbols [-1, 2, 1] =
      .ok [("a", .truth true), ("b", .truth true)] := by
    rw [hsymbols, hnames]
    cbv
  have hplain : ∀ name ∈ Clause.variableNames eitherWay, Tag.Plain name := by
    rw [hnames]
    unfold Tag.Plain
    decide
  exact ⟨f, hf, hvalues, by decide, (forall_extends_satisfies_iff hcs hplain hf hvalues).1⟩

/-- The answer `1 -1` passes the check of the clause `a` and is decoded to a value that breaks it.
-/
theorem not_satisfies_of_both_signs :
    ∃ cs f, Clause.read (.text "a") = .ok cs ∧ compile cs = .ok f ∧
      (f.validate [1, -1]).isValid = true ∧
      Assignment.decode f.symbols [1, -1] = .ok [("a", .truth false)] ∧
      ∀ I : Interpretation, I.Extends [("a", .truth false)] →
        ¬ I.Satisfies (Clause.disjunctions cs) := by
  have hcs : Disjunction.Boolean (Clause.disjunctions [.disjunction [{ name := "a" }]]) := by
    unfold Disjunction.Boolean
    decide
  have hes := Clause.expandTags_of_boolean hcs
  have hnames : Clause.variableNames [.disjunction [{ name := "a" }]] = ["a"] := by cbv
  have hminimal : Clause.minimize [.disjunction [{ name := "a" }]] =
      [.disjunction [{ name := "a" }]] := by
    have hset : Literal.toSet [{ name := "a" }] = [{ name := "a" }] := by cbv
    simp [Clause.minimize, Clause.minimizeFrom, hset, Disjunction.isAlwaysTrue]
  obtain ⟨f, hf, hsymbols, -⟩ := compile_of_expandTags hes hcs (by rw [hnames]; decide)
  rw [hnames] at hsymbols
  refine ⟨_, f, by cbv, hf, isValid_validate_iff.mpr fun clause hclause => ?_, ?_, ?_⟩
  · obtain ⟨d, hd, hencode⟩ := (mem_clauses_iff hf hes).mp hclause
    rw [hminimal] at hd
    obtain rfl : d = [{ name := "a" }] := List.mem_singleton.mp hd
    have hone : List.mapM (encodeLiteral f.symbols) [{ name := "a" }] = .ok [1] := by
      rw [hsymbols]
      cbv
    obtain rfl := Except.ok.inj (hone.symm.trans hencode)
    exact ⟨1, by decide, by decide⟩
  · rw [hsymbols]
    cbv
  · intro I hI hsat
    have hfalse := hI.truth "a" false List.mem_cons_self
    have hholds := hsat [{ name := "a" }] List.mem_cons_self
    simp [Disjunction.holds, Literal.holds, hfalse] at hholds

end Formula

end CellSat
