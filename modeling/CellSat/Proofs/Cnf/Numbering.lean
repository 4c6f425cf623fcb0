import Mathlib
import CellSat.Cnf.Assignment
import CellSat.Proofs.Meaning
/-!
# Numbered names and what numbered clauses mean

A list of signed numbers is read as the literals that hold. It decides a formula of `n` variables if
it holds one sign of each number from 1 to `n` and nothing else.

* `SymbolTable.Numbers`, `SymbolTable.numbers_ofNames`: the numbers of names, in both directions;
* `Assignment.Total`, `Formula.SatisfiedBy`: lists of signed numbers and the clauses they satisfy;
* `Assignment.ofInterpretation`: the list that says what an interpretation says;
* **`Formula.satisfiedBy_iff`**: numbering the clauses of a list keeps their meaning.
-/

namespace CellSat

/-! ## Names and numbers -/

namespace SymbolTable

variable {t : SymbolTable} {names : List String} {name : String} {i : Int}

theorem index?_insert (key : String) (index : Int) :
    (t.insert key index).index? name = if key = name then some index else t.index? name := by
  simp [index?, insert, Std.TreeMap.getElem?_insert]

theorem name?_insert (key : String) (index : Int) :
    (t.insert key index).name? i = if index = i then some key else t.name? i := by
  simp [name?, insert, Std.TreeMap.getElem?_insert]

/-- A table numbers the names of a list from 1 on, in their order. -/
structure Numbers (t : SymbolTable) (names : List String) : Prop where
  index? : ∀ name i, t.index? name = some i ↔ ∃ n : Nat, names[n]? = some name ∧ i = n + 1
  name? : ∀ i name, t.name? i = some name ↔ ∃ n : Nat, names[n]? = some name ∧ i = n + 1
  size : t.size = names.length

theorem numbers_empty : Numbers {} [] where
  index? name i := by simp [SymbolTable.index?]
  name? i name := by simp [SymbolTable.name?]
  size := rfl

theorem getElem?_concat_eq_some {key : String} {n : Nat} :
    (names ++ [key])[n]? = some name ↔
      names[n]? = some name ∨ n = names.length ∧ key = name := by
  rcases Nat.lt_trichotomy n names.length with h | rfl | h
  · rw [List.getElem?_append_left h]
    exact ⟨Or.inl, fun e => e.resolve_right fun e => by omega⟩
  · simp
  · rw [List.getElem?_eq_none (by simp; omega), List.getElem?_eq_none (by omega)]
    simp
    omega

theorem exists_getElem?_concat {key : String} :
    (∃ n : Nat, (names ++ [key])[n]? = some name ∧ i = n + 1) ↔
      (∃ n : Nat, names[n]? = some name ∧ i = n + 1) ∨ key = name ∧ i = names.length + 1 := by
  simp only [getElem?_concat_eq_some, or_and_right, exists_or, and_assoc, exists_eq_left]

theorem Numbers.insert {key : String} (h : t.Numbers names) (hkey : key ∉ names) :
    (t.insert key (names.length + 1)).Numbers (names ++ [key]) where
  index? name i := by
    rw [exists_getElem?_concat, index?_insert, ← h.index?]
    by_cases hname : key = name
    · have hnone : t.index? name ≠ some i := by
        rw [Ne, h.index?]
        rintro ⟨n, hn, -⟩
        exact hkey (hname ▸ List.mem_of_getElem? hn)
      simp [hname, hnone, eq_comm]
    · simp [hname]
  name? i name := by
    rw [exists_getElem?_concat, name?_insert, ← h.name?]
    by_cases hi : (names.length + 1 : Int) = i
    · have hnone : t.name? i ≠ some name := by
        rw [Ne, h.name?]
        rintro ⟨n, hn, rfl⟩
        have := (List.getElem?_eq_some_iff.mp hn).1
        omega
      simp [hi, hnone]
    · simp [hi, Ne.symm hi]
  size := by
    have hnone : ¬ t.indices.contains key = true := by
      rw [Std.TreeMap.contains_eq_isSome_getElem?, Option.isSome_iff_exists]
      rintro ⟨i, hi⟩
      obtain ⟨n, hn, -⟩ := (h.index? key i).mp hi
      exact hkey (List.mem_of_getElem? hn)
    have hsize : t.indices.size = names.length := h.size
    rw [SymbolTable.size, SymbolTable.insert, Std.TreeMap.size_insert, List.length_append]
    simp [hnone, hsize]

theorem Numbers.numberFrom {more : List String} (h : t.Numbers names)
    (hnodup : (names ++ more).Nodup) :
    (t.numberFrom (names.length + 1) more).Numbers (names ++ more) := by
  induction more generalizing t names with
  | nil => simpa [SymbolTable.numberFrom] using h
  | cons key more ih =>
    have hkey : key ∉ names := fun hmem =>
      List.disjoint_of_nodup_append hnodup hmem List.mem_cons_self
    have := ih (h.insert hkey) (by simpa using hnodup)
    rw [List.append_assoc, List.singleton_append] at this
    rw [SymbolTable.numberFrom]
    simpa using this

/-- The table of a list numbers its names in increasing order. -/
theorem numbers_ofNames (names : List String) :
    (ofNames names).Numbers (sortedSet compare names) := by
  have hnodup : ([] ++ sortedSet compare names).Nodup := nodup_sortedSet names
  exact numbers_empty.numberFrom hnodup

theorem size_ofNames_le (names : List String) : (ofNames names).size ≤ names.length := by
  rw [(numbers_ofNames names).size]
  exact ((nodup_sortedSet names).subperm fun name => mem_sortedSet.mp).length_le

theorem ofNames32_eq_ok :
    ofNames32 names = .ok t ↔ t = ofNames names ∧ (ofNames names).size < 2 ^ 31 := by
  rw [ofNames32, bind_eq_ok]
  constructor
  · rintro ⟨i, hi, h⟩
    rw [Word.int32] at hi
    split_ifs at hi with hsize
    simp only [Word.minInt32, Word.maxInt32] at hsize
    exact ⟨(Except.ok.inj h).symm, by omega⟩
  · rintro ⟨rfl, hsize⟩
    refine ⟨(ofNames names).size, if_pos ?_, rfl⟩
    simp only [Word.minInt32, Word.maxInt32]
    omega

namespace Numbers

theorem index?_eq_some_iff (h : t.Numbers names) :
    t.index? name = some i ↔ t.name? i = some name := by
  rw [h.index?, h.name?]

theorem exists_index? (h : t.Numbers names) (hname : name ∈ names) :
    ∃ i, t.index? name = some i := by
  obtain ⟨n, hn⟩ := List.mem_iff_getElem?.mp hname
  exact ⟨n + 1, (h.index? _ _).mpr ⟨n, hn, rfl⟩⟩

theorem le_of_index? (h : t.Numbers names) (hi : t.index? name = some i) : 1 ≤ i ∧ i ≤ t.size := by
  obtain ⟨n, hn, rfl⟩ := (h.index? _ _).mp hi
  have := (List.getElem?_eq_some_iff.mp hn).1
  rw [h.size]
  omega

theorem exists_name? (h : t.Numbers names) (h1 : 1 ≤ i) (hi : i ≤ t.size) :
    ∃ name ∈ names, t.name? i = some name := by
  rw [h.size] at hi
  have hlt : (i - 1).toNat < names.length := by omega
  refine ⟨names[(i - 1).toNat], List.getElem_mem hlt, (h.name? _ _).mpr ⟨(i - 1).toNat, ?_, ?_⟩⟩
  · exact List.getElem?_eq_getElem hlt
  · omega

end Numbers

end SymbolTable

/-! ## Signed numbers -/

/-- A list holds one sign of each number up to a given one, and nothing else. -/
structure Assignment.Total (count : Nat) (numbers : List Int) : Prop where
  bounded : ∀ n ∈ numbers, 1 ≤ n.natAbs ∧ n.natAbs ≤ count
  decides : ∀ i : Int, 1 ≤ i → i ≤ count → (-i ∈ numbers ↔ i ∉ numbers)

/-- Every clause of a formula has a literal among the given ones. -/
def Formula.SatisfiedBy (f : Formula) (numbers : List Int) : Prop :=
  ∀ clause ∈ f.clauses, ∃ n ∈ clause, n ∈ numbers

/-- The literals of a table that an interpretation makes true. -/
def Assignment.ofInterpretation (symbols : SymbolTable) (I : Interpretation) : List Int :=
  symbols.toList.map fun e => if I.truth e.1 then e.2 else -e.2

/-- An interpretation and a list of signed numbers say the same of each variable of a table. -/
def Assignment.Agrees (symbols : SymbolTable) (numbers : List Int) (I : Interpretation) : Prop :=
  ∀ name i, symbols.index? name = some i → (i ∈ numbers ↔ I.truth name = true)

namespace Assignment

variable {t : SymbolTable} {names : List String} {I : Interpretation}

theorem mem_ofInterpretation {n : Int} : n ∈ ofInterpretation t I ↔
    ∃ name i, t.index? name = some i ∧ n = if I.truth name then i else -i := by
  simp only [ofInterpretation, SymbolTable.toList, List.mem_map, Prod.exists,
    Std.TreeMap.mem_toList_iff_getElem?_eq_some, SymbolTable.index?, eq_comm]

theorem agrees_ofInterpretation (h : t.Numbers names) : Agrees t (ofInterpretation t I) I := by
  intro name i hi
  rw [mem_ofInterpretation]
  constructor
  · rintro ⟨other, j, hj, hij⟩
    have hi1 := (h.le_of_index? hi).1
    have hj1 := (h.le_of_index? hj).1
    by_cases htruth : I.truth other = true
    · rw [if_pos htruth] at hij
      subst hij
      have hname := h.index?_eq_some_iff.mp hi
      rw [h.index?_eq_some_iff.mp hj, Option.some.injEq] at hname
      exact hname ▸ htruth
    · rw [if_neg htruth] at hij
      omega
  · exact fun htruth => ⟨name, i, hi, by rw [if_pos htruth]⟩

theorem total_ofInterpretation (h : t.Numbers names) : Total t.size (ofInterpretation t I) where
  bounded n hn := by
    obtain ⟨name, i, hi, rfl⟩ := mem_ofInterpretation.mp hn
    have := h.le_of_index? hi
    split_ifs <;> omega
  decides i h1 hi := by
    obtain ⟨name, -, hname⟩ := h.exists_name? h1 hi
    have hindex := h.index?_eq_some_iff.mpr hname
    rw [agrees_ofInterpretation h name i hindex, mem_ofInterpretation]
    constructor
    · rintro ⟨other, j, hj, hij⟩ htruth
      have hj1 := (h.le_of_index? hj).1
      by_cases hother : I.truth other = true
      · rw [if_pos hother] at hij
        omega
      · rw [if_neg hother, neg_inj] at hij
        subst hij
        rw [h.index?_eq_some_iff.mp hj, Option.some.injEq] at hname
        exact hother (hname ▸ htruth)
    · exact fun htruth => ⟨name, i, hindex, by rw [if_neg htruth]⟩

end Assignment

/-! ## Numbered clauses -/

theorem Clause.mem_variableNames {cs : List Clause} {name : String} :
    name ∈ Clause.variableNames cs ↔ ∃ d ∈ Clause.disjunctions cs, ∃ l ∈ d, l.name = name := by
  simp only [Clause.variableNames, Clause.namesOf, mem_sortedSet, List.mem_map, List.mem_flatten]
  constructor
  · rintro ⟨l, ⟨d, hd, hl⟩, h⟩
    exact ⟨d, hd, l, hl, h⟩
  · rintro ⟨d, hd, l, hl, h⟩
    exact ⟨l, ⟨d, hd, hl⟩, h⟩

namespace Formula

variable {t : SymbolTable} {names : List String} {l : Literal} {d : Disjunction} {i : Int}

theorem encodeLiteral_eq_ok (hi : t.index? l.name = some i) (h1 : 1 ≤ i)
    (hmax : i ≤ Word.maxInt32) :
    encodeLiteral t l = .ok (if l.positive then i else -i) := by
  have hfits : Word.int32 (-i) = .ok (-i) := by
    rw [Word.int32, if_pos]
    simp only [Word.maxInt32, Word.minInt32] at *
    omega
  unfold encodeLiteral SymbolTable.encode32?
  rw [hi]
  by_cases hpos : l.positive = true
  · simp only [hpos, if_true]
    rfl
  · simp only [hpos, hfits]
    rfl

/-- A number that says what a literal says: it is in a list exactly if the literal holds in the
interpretations that agree with the list. -/
def Says (t : SymbolTable) (l : Literal) (n : Int) : Prop :=
  ∀ numbers I, Assignment.Total t.size numbers → Assignment.Agrees t numbers I →
    (n ∈ numbers ↔ l.holds I = true)

theorem exists_encodeLiteral (h : t.Numbers names) (hsize : t.size < 2 ^ 31) (hl : l.name ∈ names)
    (htag : l.tag = none) : ∃ n, encodeLiteral t l = .ok n ∧ Says t l n := by
  obtain ⟨i, hi⟩ := h.exists_index? hl
  obtain ⟨h1, hle⟩ := h.le_of_index? hi
  have hmax : i ≤ Word.maxInt32 := by
    simp only [Word.maxInt32]
    omega
  refine ⟨_, encodeLiteral_eq_ok hi h1 hmax, fun numbers I htotal hagrees => ?_⟩
  have hiff := hagrees l.name i hi
  simp only [Literal.holds, htag]
  by_cases hpos : l.positive = true
  · simp [hpos, hiff]
  · simp [hpos, htotal.decides i h1 hle, hiff]

theorem exists_encodeLine (h : t.Numbers names) (hsize : t.size < 2 ^ 31)
    (hd : ∀ l ∈ d, l.name ∈ names ∧ l.tag = none) :
    ∃ clause, encodeLine t (.disjunction d) = .ok (.clause clause) ∧
      ∀ numbers I, Assignment.Total t.size numbers → Assignment.Agrees t numbers I →
        ((∃ n ∈ clause, n ∈ numbers) ↔ d.holds I = true) := by
  obtain ⟨clause, hclause, hmeans⟩ :=
    mapM_eq_ok fun l hl => exists_encodeLiteral h hsize (hd l hl).1 (hd l hl).2
  refine ⟨clause, by simp only [encodeLine, hclause]; rfl, fun numbers I htotal hagrees => ?_⟩
  rw [Disjunction.holds_iff]
  clear hclause hd
  induction hmeans with
  | nil => simp
  | cons hmean _ ih => simp [hmean numbers I htotal hagrees, ih]

/-- Numbering the lines of a boolean list succeeds and keeps the meaning. -/
theorem exists_encodeLines (h : t.Numbers names) (hsize : t.size < 2 ^ 31) {cs : List Clause}
    (hcs : ∀ d ∈ Clause.disjunctions cs, ∀ l ∈ d, l.name ∈ names ∧ l.tag = none) :
    ∃ lines, cs.mapM (encodeLine t) = .ok lines ∧
      ∀ numbers I, Assignment.Total t.size numbers → Assignment.Agrees t numbers I →
        ((Formula.mk t lines).SatisfiedBy numbers ↔ I.Satisfies (Clause.disjunctions cs)) := by
  induction cs with
  | nil => exact ⟨[], rfl, by simp [SatisfiedBy, clauses, Interpretation.Satisfies]⟩
  | cons c cs ih =>
    cases c with
    | comment text =>
      obtain ⟨lines, hlines, hmeaning⟩ := ih hcs
      exact ⟨.comment text :: lines, by rw [List.mapM_cons, hlines]; rfl, hmeaning⟩
    | disjunction d =>
      rw [Clause.disjunctions_disjunction, List.forall_mem_cons] at hcs
      obtain ⟨lines, hlines, hmeaning⟩ := ih hcs.2
      obtain ⟨clause, hclause, hmeans⟩ := exists_encodeLine h hsize hcs.1
      refine ⟨.clause clause :: lines, by rw [List.mapM_cons, hclause, hlines]; rfl, ?_⟩
      intro numbers I htotal hagrees
      rw [Clause.disjunctions_disjunction, Interpretation.satisfies_cons,
        ← hmeans numbers I htotal hagrees, ← hmeaning numbers I htotal hagrees]
      exact List.forall_mem_cons

/-- **Numbering keeps the meaning.** -/
theorem satisfiedBy_iff {cs : List Clause} (hcs : Disjunction.Boolean (Clause.disjunctions cs))
    (hsize : (Clause.variableNames cs).length < 2 ^ 31) :
    ∃ lines,
      (Clause.minimize cs).mapM (encodeLine (.ofNames (Clause.variableNames cs))) = .ok lines ∧
      ∀ numbers I, Assignment.Total (SymbolTable.ofNames (Clause.variableNames cs)).size numbers →
        Assignment.Agrees (.ofNames (Clause.variableNames cs)) numbers I →
        ((Formula.mk (.ofNames (Clause.variableNames cs)) lines).SatisfiedBy numbers ↔
          I.Satisfies (Clause.disjunctions cs)) := by
  have hnumbers := SymbolTable.numbers_ofNames (Clause.variableNames cs)
  have hlt := Nat.lt_of_le_of_lt (SymbolTable.size_ofNames_le (Clause.variableNames cs)) hsize
  have hminimal : ∀ d ∈ Clause.disjunctions (Clause.minimize cs), ∀ l ∈ d,
      l.name ∈ sortedSet compare (Clause.variableNames cs) ∧ l.tag = none := by
    intro d hd l hl
    obtain ⟨c, hc, hsub⟩ := Clause.mem_of_mem_minimizeFrom hd
    have hname := Clause.mem_variableNames.mpr ⟨c, hc, l, hsub l hl, rfl⟩
    exact ⟨mem_sortedSet.mpr hname, hcs c hc l (hsub l hl)⟩
  obtain ⟨lines, hlines, hmeaning⟩ := exists_encodeLines hnumbers hlt hminimal
  refine ⟨lines, hlines, fun numbers I htotal hagrees => ?_⟩
  rw [hmeaning numbers I htotal hagrees, Clause.satisfies_minimize hcs]

end Formula

end CellSat
