import Mathlib
import CellSat.Problem.Validation
import CellSat.Proofs.Cnf.Compile
/-!
# Answers that leave variables open

The answer of a solver need not have a number for every variable. It is checked against the clauses
of a formula, each of which has to have a number of the answer, and decoded to values of the
variables that it has numbers for.

* `Assignment.Consistent`, `Assignment.lowest`: answers with one sign for each variable at most, and
  the interpretation where nothing is true but what an answer says;
* `Formula.isValid_validate_iff`: what the check says;
* **`Formula.satisfies_lowest`**: a consistent answer that passes it satisfies the clauses;
* `Assignment.settled`: an answer without what it contradicts later;
* **`Assignment.mem_decode_settled_iff`**: the values that it is decoded to.
-/

namespace CellSat

namespace Assignment

variable {t : SymbolTable} {names : List String} {numbers : List Int} {name : String}

/-- No variable has both signs. -/
def Consistent (numbers : List Int) : Prop := ∀ n ∈ numbers, 0 < n → -n ∉ numbers

/-- The interpretation where the variables with a positive number are true and no others. -/
def lowest (t : SymbolTable) (numbers : List Int) : Interpretation where
  truth name := (t.index? name).any fun i => decide (i ∈ numbers)
  number _ := 0

theorem truth_lowest (numbers : List Int) {i : Int} (hi : t.index? name = some i) :
    (lowest t numbers).truth name = true ↔ i ∈ numbers := by
  simp [lowest, hi]

theorem truth_lowest_iff_gives (ht : t.Numbers names) :
    (lowest t numbers).truth name = true ↔ Gives t numbers name true := by
  constructor
  · intro h
    obtain ⟨i, hi, hmem⟩ : ∃ i, t.index? name = some i ∧ i ∈ numbers := by
      simpa [lowest, Option.any_eq_true] using h
    have hle := (ht.le_of_index? hi).1
    refine ⟨i, hmem, ?_, decide_eq_true (by omega)⟩
    rw [Int.natAbs_of_nonneg (by omega)]
    exact ht.index?_eq_some_iff.mp hi
  · rintro ⟨n, hn, hname, hpos⟩
    have hpos : 0 < n := by simpa using hpos
    rw [Int.natAbs_of_nonneg hpos.le] at hname
    exact (truth_lowest numbers (ht.index?_eq_some_iff.mpr hname)).mpr hn

theorem gives_unique (ht : t.Numbers names) (hconsistent : Consistent numbers) {b c : Bool}
    (hb : Gives t numbers name b) (hc : Gives t numbers name c) : b = c := by
  obtain ⟨m, hm, hmname, rfl⟩ := hb
  obtain ⟨n, hn, hnname, rfl⟩ := hc
  have hindex := ht.index?_eq_some_iff.mpr hmname
  have hle := (ht.le_of_index? hindex).1
  rw [ht.index?_eq_some_iff.mpr hnname, Option.some.injEq] at hindex
  rcases Int.natAbs_eq_natAbs_iff.mp (Int.ofNat_inj.mp hindex) with rfl | hneg
  · rfl
  · by_cases hpos : 0 < m
    · exact absurd (hneg ▸ hn) (hconsistent m hm hpos)
    · have hpos' : 0 < n := by omega
      exact absurd hm (by simpa [hneg] using hconsistent n hn hpos')

end Assignment

/-! ## Checking -/

theorem Clause.expandTags_of_boolean {cs : List Clause}
    (hcs : Disjunction.Boolean (disjunctions cs)) : expandTags cs = .ok cs := by
  have hempty : (Tag.maxOfClauses cs).isEmpty = true := by
    rw [isEmpty_maxOfClauses]
    rintro name ⟨d, hd, l, hl, -, htag⟩
    exact htag (hcs d hd l hl)
  rw [expandTags, if_pos hempty]
  rfl

theorem Clause.mem_disjunctions {cs : List Clause} {d : Disjunction} :
    d ∈ disjunctions cs ↔ .disjunction d ∈ cs := by
  rw [disjunctions, List.mem_filterMap]
  constructor
  · rintro ⟨c, hc, hd⟩
    cases c with
    | comment text => simp [disjunction?] at hd
    | disjunction e =>
      obtain rfl := Option.some.inj hd
      exact hc
  · exact fun h => ⟨_, h, rfl⟩

namespace Formula

variable {t : SymbolTable} {f : Formula} {numbers : List Int} {cs : List Clause}

theorem map_fst_commented (context : Option String) (lines : List FormulaLine) :
    (commented context lines).map Prod.fst = lines.filterMap FormulaLine.clause? := by
  induction lines generalizing context with
  | nil => rfl
  | cons line lines ih =>
    cases line with
    | comment text => exact ih (some text)
    | clause clause => exact congrArg (clause :: ·) (ih context)

/-- **What the check says**: each clause has a number of the answer. -/
theorem isValid_validate_iff : (f.validate numbers).isValid = true ↔ f.SatisfiedBy numbers := by
  have hclauses : f.clauses = (commented none f.lines).map Prod.fst :=
    (map_fst_commented none f.lines).symm
  have hgiven : ∀ c : List Int,
      (!c.any (Std.HashSet.ofList numbers).contains) = true ↔ ¬ ∃ n ∈ c, n ∈ numbers := by
    simp [Std.HashSet.contains_ofList]
  rw [SatisfiedBy, hclauses, List.forall_mem_map, Validation.isValid, validate, List.isEmpty_map,
    List.isEmpty_iff, List.filter_eq_nil_iff]
  simp only [hgiven, not_not]
  constructor
  · intro h c hc
    obtain ⟨i, hi⟩ := List.getElem?_of_mem hc
    exact h (c, i) (List.mem_zipIdx_iff_getElem?.mpr hi)
  · exact fun h c hc => h c.1 (List.fst_mem_of_mem_zipIdx hc)

theorem eq_of_encodeLiteral {l : Literal} {n : Int} (h : encodeLiteral t l = .ok n) :
    ∃ i, t.index? l.name = some i ∧ n = if l.positive then i else -i := by
  obtain ⟨number?, hnumber, h⟩ := bind_eq_ok.mp h
  replace hnumber : t.encode32? l = .ok number? := Checked.toResult_eq_ok.mp hnumber
  unfold SymbolTable.encode32? at hnumber
  cases hindex : t.index? l.name with
  | none =>
    rw [hindex] at hnumber
    obtain rfl := Except.ok.inj hnumber
    contradiction
  | some i =>
    rw [hindex] at hnumber
    refine ⟨i, rfl, ?_⟩
    by_cases hpos : l.positive = true
    · simp only [if_pos hpos] at hnumber ⊢
      obtain rfl := Except.ok.inj hnumber
      exact (Except.ok.inj h).symm
    · simp only [if_neg hpos] at hnumber ⊢
      obtain ⟨j, hj, hnumber⟩ := bind_eq_ok.mp hnumber
      obtain rfl := Except.ok.inj hnumber
      obtain rfl := Except.ok.inj h
      exact Word.eq_of_int32 hj

theorem holds_lowest {names : List String} (ht : t.Numbers names)
    (hconsistent : Assignment.Consistent numbers) {l : Literal} (hl : l.tag = none) {n : Int}
    (h : encodeLiteral t l = .ok n) (hn : n ∈ numbers) :
    l.holds (Assignment.lowest t numbers) = true := by
  obtain ⟨i, hi, rfl⟩ := eq_of_encodeLiteral h
  have htruth := Assignment.truth_lowest numbers hi
  by_cases hpos : l.positive = true
  · rw [if_pos hpos] at hn
    simp [Literal.holds, hl, hpos, htruth.mpr hn]
  · rw [if_neg hpos] at hn
    have hi1 := (ht.le_of_index? hi).1
    have hnot : i ∉ numbers := fun hmem => hconsistent i hmem (by omega) hn
    have hfalse : (Assignment.lowest t numbers).truth l.name = false := by
      simpa using fun h => hnot (htruth.mp h)
    simp [Literal.holds, hl, hpos, hfalse]

/-- The clauses of a formula are the numbered disjunctions of the minimized list in bits. -/
theorem mem_clauses_iff {es : List Clause} (hf : compile cs = .ok f)
    (hes : Clause.expandTags cs = .ok es) {clause : List Int} : clause ∈ f.clauses ↔
      ∃ d ∈ Clause.disjunctions (Clause.minimize es),
        d.mapM (encodeLiteral f.symbols) = .ok clause := by
  obtain ⟨es', hes', -, -, hlines⟩ := exists_of_compile hf
  obtain rfl := Except.ok.inj (hes.symm.trans hes')
  unfold clauses
  rw [List.mem_filterMap]
  constructor
  · rintro ⟨line, hline, hclause⟩
    obtain ⟨c, hc, hencode⟩ := (mem_of_mapM_eq_ok hlines).mp hline
    cases c with
    | comment text =>
      obtain rfl := Except.ok.inj hencode
      contradiction
    | disjunction d =>
      obtain ⟨numbers, hnumbers, hencode⟩ := bind_eq_ok.mp hencode
      obtain rfl := Except.ok.inj hencode
      obtain rfl := Option.some.inj hclause
      exact ⟨d, Clause.mem_disjunctions.mpr hc, hnumbers⟩
  · rintro ⟨d, hd, hclause⟩
    refine ⟨.clause clause, (mem_of_mapM_eq_ok hlines).mpr ?_, rfl⟩
    exact ⟨.disjunction d, Clause.mem_disjunctions.mp hd, bind_eq_ok.mpr ⟨clause, hclause, rfl⟩⟩

theorem exists_clause_of_mem {es : List Clause} (hf : compile cs = .ok f)
    (hes : Clause.expandTags cs = .ok es) {d : Disjunction}
    (hd : d ∈ Clause.disjunctions (Clause.minimize es)) :
    ∃ clause ∈ f.clauses, d.mapM (encodeLiteral f.symbols) = .ok clause := by
  obtain ⟨es', hes', -, -, hlines⟩ := exists_of_compile hf
  obtain rfl := Except.ok.inj (hes.symm.trans hes')
  obtain ⟨line, -, hencode⟩ := exists_of_mapM_eq_ok hlines (Clause.mem_disjunctions.mp hd)
  obtain ⟨clause, hclause, -⟩ := bind_eq_ok.mp hencode
  exact ⟨clause, (mem_clauses_iff hf hes).mpr ⟨d, hd, hclause⟩, hclause⟩

/-- **An answer satisfies the list in bits**: the variables that it leaves open may be false. -/
theorem satisfies_lowest_of_expandTags {es : List Clause} (hf : compile cs = .ok f)
    (hes : Clause.expandTags cs = .ok es)
    (hbool : Disjunction.Boolean (Clause.disjunctions es))
    (hconsistent : Assignment.Consistent numbers) (h : f.SatisfiedBy numbers) :
    (Assignment.lowest f.symbols numbers).Satisfies (Clause.disjunctions es) := by
  have ht := numbers_of_compile hf hes
  rw [← Clause.satisfies_minimize hbool]
  intro d hd
  obtain ⟨c, hc, hsub⟩ := Clause.mem_of_mem_minimizeFrom hd
  obtain ⟨clause, hmem, hclause⟩ := exists_clause_of_mem hf hes hd
  obtain ⟨n, hn, hnumbers⟩ := h clause hmem
  obtain ⟨l, hl, hln⟩ := (mem_of_mapM_eq_ok hclause).mp hn
  rw [Disjunction.holds_iff]
  exact ⟨l, hl, holds_lowest ht hconsistent (hbool c hc l (hsub l hl)) hln hnumbers⟩

theorem satisfies_lowest (hcs : Disjunction.Boolean (Clause.disjunctions cs))
    (hf : compile cs = .ok f) (hconsistent : Assignment.Consistent numbers)
    (h : f.SatisfiedBy numbers) :
    (Assignment.lowest f.symbols numbers).Satisfies (Clause.disjunctions cs) :=
  satisfies_lowest_of_expandTags hf (Clause.expandTags_of_boolean hcs) hcs hconsistent h

end Formula

/-! ## Decoding -/

namespace Assignment

variable {t : SymbolTable} {names : List String} {numbers : List Int} {name : String}
  {values values' : Std.TreeMap String Value} {b : Bool}

/-- A name that is not read as that of a bit. -/
def IsWhole (name : String) : Prop :=
  ∀ base bit, Text.splitFirst '#' name.toList = some (base, bit) →
    Text.readNatUpTo? Word.maxNat32 bit = none

theorem isWhole_of_plain (h : Tag.Plain name) : IsWhole name := by
  intro base bit hsplit
  rw [Text.splitFirst_eq_none h] at hsplit
  contradiction

/-- A `$` that stands after all `#` of a name is part of what would be the number of a bit. -/
theorem isWhole_append {start rest : String} (hstart : ['$'] <:+ start.toList)
    (hrest : '#' ∉ rest.toList) : IsWhole (start ++ rest) := by
  intro base bit hsplit
  obtain ⟨s, hs⟩ := hstart
  have heq := Text.eq_append_of_splitFirst hsplit
  rw [String.toList_append, ← hs, List.append_assoc, List.append_eq_append_iff] at heq
  have hdollar : '$' ∈ bit := by
    rcases heq with ⟨a, -, ha⟩ | ⟨c, -, hc⟩
    · have hmem : '#' ∈ ['$'] ++ rest.toList := ha ▸ by simp
      simp [hrest] at hmem
    · cases c with
      | nil => simp at hc
      | cons d c =>
        rw [(List.cons.inj hc).2]
        simp
  by_contra hread
  obtain ⟨n, hn⟩ := Option.ne_none_iff_exists'.mp hread
  exact absurd (Text.isDigit_of_readNatUpTo? hn '$' hdollar) (by decide)

theorem eq_of_decodeNamed (hname : IsWhole name) (h : decodeNamed values name b = .ok values') :
    values' = values.insert name (.truth b) := by
  unfold decodeNamed at h
  split at h
  · exact (Except.ok.inj h).symm
  · next base bit hsplit =>
    rw [hname base bit hsplit] at h
    contradiction

/-- Without the numbers that a later number contradicts. -/
def settled : List Int → List Int
  | [] => []
  | n :: numbers => if -n ∈ numbers then settled numbers else n :: settled numbers

theorem mem_of_mem_settled {n : Int} (h : n ∈ settled numbers) : n ∈ numbers := by
  fun_induction settled numbers with
  | case1 => exact h
  | case2 m numbers _ ih => exact List.mem_cons_of_mem m (ih h)
  | case3 m numbers _ ih =>
    rcases List.mem_cons.mp h with rfl | h
    · exact List.mem_cons_self
    · exact List.mem_cons_of_mem m (ih h)

theorem mem_settled {n : Int} (h : n ∈ numbers) (hneg : -n ∉ numbers) : n ∈ settled numbers := by
  fun_induction settled numbers with
  | case1 => exact h
  | case2 m numbers hm ih =>
    rw [List.mem_cons, not_or] at hneg
    rcases List.mem_cons.mp h with rfl | h
    · exact absurd hm hneg.2
    · exact ih h hneg.2
  | case3 m numbers _ ih =>
    rw [List.mem_cons, not_or] at hneg
    rcases List.mem_cons.mp h with rfl | h
    · exact List.mem_cons_self
    · exact List.mem_cons_of_mem m (ih h hneg.2)

theorem Consistent.neg_not_mem (h : Consistent numbers) {n : Int} (hn : n ∈ numbers)
    (h0 : n ≠ 0) : -n ∉ numbers := by
  intro hneg
  by_cases hpos : 0 < n
  · exact h n hn hpos hneg
  · exact h (-n) hneg (by omega) (by simpa using hn)

theorem settled_of_consistent (h : Consistent numbers) (h0 : 0 ∉ numbers) :
    settled numbers = numbers := by
  induction numbers with
  | nil => rfl
  | cons n numbers ih =>
    rw [List.mem_cons, not_or] at h0
    have hneg := h.neg_not_mem List.mem_cons_self (Ne.symm h0.1)
    have htail : Consistent numbers := fun m hm hpos hmem =>
      h m (List.mem_cons_of_mem n hm) hpos (List.mem_cons_of_mem n hmem)
    rw [settled, if_neg fun hmem => hneg (List.mem_cons_of_mem n hmem), ih htail h0.2]

theorem gives_cons {n : Int} {key : String} (hkey : t.name? n.natAbs = some key) :
    Gives t (n :: numbers) name b ↔
      name = key ∧ b = decide (0 < n) ∨ Gives t numbers name b := by
  simp only [Gives, List.mem_cons, or_and_right, exists_or, exists_eq_left, hkey,
    Option.some.injEq]
  rw [@eq_comm _ name, @eq_comm _ b]

/-- What a first number says is settled if no later number is about its variable. -/
theorem gives_settled_cons (ht : t.Numbers names) {n : Int} {key : String}
    (hkey : t.name? n.natAbs = some key) :
    Gives t (settled (n :: numbers)) name b ↔ Gives t (settled numbers) name b ∨
      name = key ∧ b = decide (0 < n) ∧ ∀ c, ¬ Gives t numbers key c := by
  rw [settled]
  split_ifs with hneg
  · have hgiven : Gives t numbers key (decide (0 < -n)) :=
      ⟨-n, hneg, by rwa [Int.natAbs_neg], rfl⟩
    exact ⟨.inl, fun h => h.resolve_right fun h => h.2.2 _ hgiven⟩
  · rw [gives_cons hkey]
    constructor
    · rintro (⟨rfl, rfl⟩ | h)
      · by_cases hgiven : ∃ c, Gives t numbers name c
        · obtain ⟨c, m, hm, hmname, -⟩ := hgiven
          have hindex := ht.index?_eq_some_iff.mpr hmname
          rw [ht.index?_eq_some_iff.mpr hkey, Option.some.injEq, Nat.cast_inj,
            Int.natAbs_eq_natAbs_iff] at hindex
          obtain rfl : m = n := by
            rcases hindex with rfl | rfl
            · rfl
            · exact absurd (by simpa using hm) hneg
          exact .inl ⟨m, mem_settled hm hneg, hkey, rfl⟩
        · exact .inr ⟨rfl, rfl, not_exists.mp hgiven⟩
      · exact .inl h
    · rintro (h | ⟨rfl, rfl, -⟩)
      · exact .inr h
      · exact .inl ⟨rfl, rfl⟩

/-- **One number** after the other: a variable keeps its value until a number is about it. -/
theorem getElem?_decodeFrom (ht : t.Numbers names) (hwhole : ∀ name ∈ names, IsWhole name)
    (hok : decodeFrom t values numbers = .ok values') (v : Value) :
    values'[name]? = some v ↔ (∃ b, v = .truth b ∧ Gives t (settled numbers) name b) ∨
      (∀ b, ¬ Gives t numbers name b) ∧ values[name]? = some v := by
  induction numbers generalizing values with
  | nil =>
    obtain rfl := Except.ok.inj hok
    simp [settled, Gives]
  | cons n numbers ih =>
    obtain ⟨i, hi, hok⟩ := bind_eq_ok.mp hok
    obtain rfl : i = n.natAbs := Word.eq_of_int32 (Checked.toResult_eq_ok.mp hi)
    cases hkey : t.name? n.natAbs with
    | none =>
      rw [hkey] at hok
      contradiction
    | some key =>
      rw [hkey] at hok
      obtain ⟨values₁, hvalues₁, hok⟩ := bind_eq_ok.mp hok
      obtain ⟨k, hk, -⟩ := (ht.name? _ _).mp hkey
      rw [eq_of_decodeNamed (hwhole key (List.mem_of_getElem? hk)) hvalues₁] at hok
      simp only [ih hok, getElem?_insert, gives_settled_cons ht hkey, gives_cons hkey]
      by_cases hname : name = key
      · subst hname
        have hfirst : ¬ ∀ b, ¬ (b = decide (0 < n) ∨ Gives t numbers name b) :=
          fun h => h _ (.inl rfl)
        simp only [if_true, Option.some.injEq, true_and, hfirst, false_and, or_false]
        by_cases hgiven : ∃ c, Gives t numbers name c
        · have hnone : ¬ ∀ c, ¬ Gives t numbers name c := not_forall_not.mpr hgiven
          simp only [hnone, false_and, and_false, or_false]
        · have hnone := not_exists.mp hgiven
          have hsettled : ∀ c, ¬ Gives t (settled numbers) name c := by
            rintro c ⟨m, hm, h⟩
            exact hnone c ⟨m, mem_of_mem_settled hm, h⟩
          simp only [hnone, hsettled, not_false_eq_true, implies_true, false_or, true_and, and_true,
            and_false, exists_false, exists_eq_right, eq_comm]
      · simp [hname, Ne.symm hname]

/-- **Decoded values** are what the settled numbers say. -/
theorem mem_decode_settled_iff (ht : t.Numbers names) (hwhole : ∀ name ∈ names, IsWhole name)
    {values : Valuation} (h : decode t numbers = .ok values) (v : Value) :
    (name, v) ∈ values ↔ ∃ b, v = .truth b ∧ Gives t (settled numbers) name b := by
  obtain ⟨tree, htree, h⟩ := bind_eq_ok.mp h
  obtain rfl := Except.ok.inj h
  rw [Std.TreeMap.mem_toList_iff_getElem?_eq_some, getElem?_decodeFrom ht hwhole htree]
  simp

theorem exists_name_of_decodeFrom (h : decodeFrom t values numbers = .ok values') {n : Int}
    (hn : n ∈ numbers) : ∃ name, t.name? n.natAbs = some name := by
  induction numbers generalizing values with
  | nil => simp at hn
  | cons m numbers ih =>
    obtain ⟨i, hi, h⟩ := bind_eq_ok.mp h
    obtain rfl : i = m.natAbs := Word.eq_of_int32 (Checked.toResult_eq_ok.mp hi)
    cases hkey : t.name? m.natAbs with
    | none =>
      rw [hkey] at h
      contradiction
    | some key =>
      rw [hkey] at h
      obtain ⟨values₁, -, h⟩ := bind_eq_ok.mp h
      rcases List.mem_cons.mp hn with rfl | hn
      · exact ⟨key, hkey⟩
      · exact ih h hn

theorem ne_zero_of_decode (ht : t.Numbers names) {values : Valuation}
    (h : decode t numbers = .ok values) : 0 ∉ numbers := by
  intro h0
  obtain ⟨tree, htree, -⟩ := bind_eq_ok.mp h
  obtain ⟨name, hname⟩ := exists_name_of_decodeFrom htree h0
  have := (ht.le_of_index? (ht.index?_eq_some_iff.mpr hname)).1
  simp at this

theorem mem_decode_iff (ht : t.Numbers names) (hwhole : ∀ name ∈ names, IsWhole name)
    (hconsistent : Consistent numbers) {values : Valuation} (h : decode t numbers = .ok values)
    (v : Value) : (name, v) ∈ values ↔ ∃ b, v = .truth b ∧ Gives t numbers name b := by
  rw [mem_decode_settled_iff ht hwhole h,
    settled_of_consistent hconsistent (ne_zero_of_decode ht h)]

theorem nodup_decode {values : Valuation} (h : decode t numbers = .ok values) :
    (values.map Prod.fst).Nodup := by
  obtain ⟨tree, -, h⟩ := bind_eq_ok.mp h
  obtain rfl := Except.ok.inj h
  rw [List.Nodup, List.pairwise_map]
  exact tree.distinct_keys_toList.imp fun hne heq => hne (compare_eq_iff_eq.mpr heq)

end Assignment

end CellSat
