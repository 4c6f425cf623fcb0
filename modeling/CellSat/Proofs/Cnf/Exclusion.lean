import Mathlib
import CellSat.Proofs.Cnf.Compile
/-!
# Lists that rule out values

A disjunction of negative tagged literals says that its variables do not have the tags together.
A list of such disjunctions keeps all bits of its variables when it is compiled, so the values that
satisfy it are exactly those that are decoded.

* `Disjunction.Excludes`, `Clause.Excluding`: disjunctions that rule out values;
* `Tag.anyOf_excludes`: such a disjunction in bits is one disjunction, with all of the bits;
* `Clause.bitName_mem_variableNames`: the list in bits mentions all bits up to the largest tags;
* `Formula.Decodes`: the values of an interpretation are decoded from a solution;
* **`Formula.compile_exact`**: the decoded values are those that satisfy the list in its ranges.
-/

namespace CellSat

/-- A disjunction says of some variables that they do not have the given values together. -/
def Disjunction.Excludes (v : String → Nat) (d : Disjunction) : Prop :=
  ∀ l ∈ d, l = ⟨l.name, false, some (v l.name)⟩

/-- Each disjunction of a list rules out some values. -/
def Clause.Excluding (cs : List Clause) : Prop :=
  ∀ d ∈ Clause.disjunctions cs, ∃ v, Disjunction.Excludes v d

/-! ## One disjunction in bits -/

namespace Disjunction

variable {I : Interpretation} {c d : Disjunction}

theorem orOf_singleton (hc : c.holds I = false) (hd : d.holds I = false) :
    orOf [c] [d] = [union c d] := by
  have hfalse : isTautology (union c d) = false := by
    by_contra h
    have := holds_of_isTautology (I := I) (Bool.eq_true_of_not_eq_false h)
    rw [holds_union, hc, hd] at this
    exact absurd this (by simp)
  simp [orOf, hfalse, toSet, sortedSet, distinct]

/-- What is false in an interpretation is no tautology, so nothing is lost by joining. -/
theorem foldl_orOf_singleton {ds : List Disjunction} (hc : c.holds I = false)
    (hds : ∀ d ∈ ds, d.holds I = false) :
    ∃ e, (ds.map fun d => [d]).foldl orOf [c] = [e] ∧ ∀ d ∈ c :: ds, ∀ l ∈ d, l ∈ e := by
  induction ds generalizing c with
  | nil => exact ⟨c, rfl, by simp⟩
  | cons d ds ih =>
    rw [List.forall_mem_cons] at hds
    obtain ⟨e, he, hmem⟩ := ih (c := union c d) (by rw [holds_union, hc, hds.1]; rfl) hds.2
    refine ⟨e, by rwa [List.map_cons, List.foldl_cons, orOf_singleton hc hds.1], ?_⟩
    simp only [List.forall_mem_cons, union, Literal.mem_toSet, List.mem_append] at hmem ⊢
    exact ⟨fun l hl => hmem.1 l (Or.inl hl), fun l hl => hmem.1 l (Or.inr hl), hmem.2⟩

end Disjunction

namespace Tag

variable {max : MaxTags} {v : String → Nat} {d : Disjunction} {l : Literal}

theorem oneOf_excludes (hl : Covered max l) (hv : l = ⟨l.name, false, some (v l.name)⟩) :
    oneOf max l = .ok [bitLiterals l (max.getD l.name 0)] := by
  obtain ⟨m, hm, htag⟩ := hl (v l.name) (by rw [hv])
  rw [Std.TreeMap.getD_eq_getD_getElem?, hm, Option.getD_some, hv]
  exact oneOf_tagged hm htag

theorem holds_bitLiterals_excludes (hl : Plain l.name)
    (hv : l = ⟨l.name, false, some (v l.name)⟩) (m : Nat) :
    (bitLiterals l m).holds (Interpretation.inBits ⟨fun _ => false, v⟩) = false := by
  rw [← Bool.not_eq_true, Disjunction.holds_iff]
  rintro ⟨k, hk, hholds⟩
  obtain ⟨i, -, rfl⟩ := List.mem_map.mp hk
  rw [holds_bitLiteral (Interpretation.inBits_truth_bitName _ hl i), hv] at hholds
  simp at hholds

theorem anyOf_excludes (hd : ∀ l ∈ d, Covered max l) (hplain : ∀ l ∈ d, Plain l.name)
    (hv : d.Excludes v) :
    ∃ e, anyOf max d = .ok [e] ∧ ∀ l ∈ d, ∀ k ∈ bitLiterals l (max.getD l.name 0), k ∈ e := by
  have hone : d.mapM (oneOf max) =
      .ok ((d.map fun l => bitLiterals l (max.getD l.name 0)).map fun c => [c]) := by
    obtain ⟨dss, hdss, hall⟩ := mapM_eq_ok
      (R := fun l ds => [bitLiterals l (max.getD l.name 0)] = ds)
      fun l hl => ⟨_, oneOf_excludes (hd l hl) (hv l hl), rfl⟩
    rw [hdss, List.map_map]
    rw [← List.forall₂_map_left_iff (f := fun l => [bitLiterals l (max.getD l.name 0)]),
      List.forall₂_eq_eq_eq] at hall
    rw [← hall]
    rfl
  have hfalse := fun l hl => holds_bitLiterals_excludes (hplain l hl) (hv l hl)
  cases d with
  | nil => exact ⟨[], by rw [anyOf, hone]; rfl, by simp⟩
  | cons l d =>
    rw [List.forall_mem_cons] at hfalse
    have hrest : ∀ c ∈ d.map fun l => bitLiterals l (max.getD l.name 0),
        Disjunction.holds (Interpretation.inBits ⟨fun _ => false, v⟩) c = false :=
      List.forall_mem_map.mpr fun k hk => hfalse.2 k hk _
    obtain ⟨e, he, hmem⟩ :=
      Disjunction.foldl_orOf_singleton (hfalse.1 (max.getD l.name 0)) hrest
    rw [List.forall_mem_cons, List.forall_mem_map] at hmem
    refine ⟨e, ?_, List.forall_mem_cons.mpr hmem⟩
    rw [anyOf, hone]
    cases d with
    | nil =>
      rw [← he]
      simp [pure, Except.pure, bind, Except.bind]
    | cons k d =>
      rw [← he]
      rfl

end Tag

/-! ## All bits are mentioned -/

namespace Clause

variable {cs es : List Clause} {max : MaxTags} {d : Disjunction} {ds : List Disjunction}
  {name : String}

theorem mem_disjunctions_replaceTags (hes : replaceTags max cs = .ok es) (hd : d ∈ disjunctions cs)
    (hds : Tag.anyOf max d = .ok ds) : ∀ e ∈ ds, e ∈ disjunctions es := by
  induction cs generalizing es with
  | nil => simp at hd
  | cons c cs ih =>
    cases c with
    | comment text =>
      rw [replaceTags] at hes
      obtain ⟨fs, hfs, hes⟩ := bind_eq_ok.mp hes
      cases hes
      rw [disjunctions_comment]
      exact ih hfs hd
    | disjunction c =>
      rw [replaceTags] at hes
      obtain ⟨first, hfirst, hes⟩ := bind_eq_ok.mp hes
      obtain ⟨fs, hfs, hes⟩ := bind_eq_ok.mp hes
      cases hes
      intro e he
      rw [disjunctions_append, disjunctions_map, List.mem_append]
      rcases List.mem_cons.mp hd with rfl | hd
      · rw [hfirst] at hds
        cases hds
        exact Or.inl he
      · exact Or.inr (ih hfs hd e he)

theorem bitName_mem_variableNames (hcs : Excluding cs)
    (hplain : ∀ d ∈ disjunctions cs, ∀ l ∈ d, Tag.Plain l.name) (hes : expandTags cs = .ok es)
    (hname : Tagged cs name) {i : Nat} (hi : i < Tag.bitLength (largestTag cs name)) :
    Tag.bitName name i ∈ variableNames es := by
  have hmax : (Tag.maxOfClauses cs)[name]? = some (largestTag cs name) :=
    maxOfClauses_eq_some_iff.mpr ⟨hname, rfl⟩
  have hempty : ¬ (Tag.maxOfClauses cs).isEmpty = true := fun h =>
    isEmpty_maxOfClauses.mp h name hname
  obtain ⟨d, hd, l, hl, rfl, -⟩ := hname
  obtain ⟨v, hv⟩ := hcs d hd
  obtain ⟨e, he, hmem⟩ :=
    Tag.anyOf_excludes (fun l hl => covered_maxOfClauses hd hl) (hplain d hd) hv
  simp only [expandTags, if_neg hempty] at hes
  obtain ⟨fs, hfs, hes⟩ := bind_eq_ok.mp hes
  obtain ⟨bs, -, hes⟩ := bind_eq_ok.mp hes
  cases hes
  rw [mem_variableNames]
  refine ⟨e, ?_, ⟨Tag.bitName l.name i, _, none⟩, hmem l hl _ (List.mem_map.mpr ⟨i, ?_, rfl⟩), rfl⟩
  · rw [disjunctions_append, List.mem_append]
    exact Or.inl (mem_disjunctions_replaceTags hfs hd he e (List.mem_singleton_self e))
  · rw [Std.TreeMap.getD_eq_getD_getElem?, hmax, Option.getD_some]
    exact List.mem_range.mpr hi

end Clause

/-! ## Solutions and the values they stand for -/

/-- The values of an interpretation are decoded from a solution of a formula. A variable that the
formula does not mention may have any value. -/
def Formula.Decodes (f : Formula) (I : Interpretation) : Prop :=
  ∃ numbers values, Assignment.Total f.variableCount numbers ∧ f.SatisfiedBy numbers ∧
    Assignment.decode f.symbols numbers = .ok values ∧ I.Extends values

namespace Assignment

variable {cs : List Clause} {t : SymbolTable} {names : List String} {numbers : List Int}
  {values : Std.TreeMap String Value} {I : Interpretation}

theorem Reads.extends (hcs : Clause.Encodable cs) (ht : t.Numbers names)
    (hall : ∀ name, Clause.Tagged cs name → ∀ i < Tag.bitLength (Clause.largestTag cs name),
      Tag.bitName name i ∈ names)
    (htotal : Total t.size numbers) (hagrees : Agrees t numbers I.inBits) (hI : I.InRange cs)
    (h : Reads cs (Gives t numbers) values) : I.Extends values.toList := by
  have hgives : ∀ name b, Gives t numbers name b → I.inBits.truth name = b := by
    rintro name b ⟨n, hn, hname, hb⟩
    have hindex := ht.index?_eq_some_iff.mpr hname
    rw [(htotal.gives_iff ht hindex b).mp ⟨n, hn, hname, hb⟩, Bool.eq_iff_iff, decide_eq_true_iff]
    exact (hagrees name _ hindex).symm
  refine ⟨fun name b hvalue => ?_, fun name n hvalue => ?_⟩
  · rw [Std.TreeMap.mem_toList_iff_getElem?_eq_some] at hvalue
    obtain ⟨huntagged, hb⟩ := h.truth name b hvalue
    rw [← hgives name b hb, I.inBits_truth (hcs.plain_of_untagged huntagged)]
  · rw [Std.TreeMap.mem_toList_iff_getElem?_eq_some] at hvalue
    obtain ⟨htagged, hbits⟩ := h.number name n hvalue
    have hplain := hcs.plain_of_tagged htagged
    refine Nat.eq_of_testBit_eq fun i => ?_
    rw [Bool.eq_iff_iff, hbits]
    constructor
    · intro hi
      have hlt : i < Tag.bitLength (Clause.largestTag cs name) := by
        by_contra hge
        have := Nat.testBit_lt_two_pow (x := I.number name) (i := i) ?_
        · simp [this] at hi
        · calc I.number name ≤ Clause.largestTag cs name := hI name htagged
            _ < 2 ^ Tag.bitLength (Clause.largestTag cs name) := Tag.lt_two_pow_bitLength _
            _ ≤ 2 ^ i := Nat.pow_le_pow_right (by omega) (by omega)
      obtain ⟨j, hj⟩ := ht.exists_index? (hall name htagged i hlt)
      rw [htotal.gives_iff ht hj, eq_comm, decide_eq_true_iff, hagrees _ j hj,
        I.inBits_truth_bitName hplain, hi]
    · intro hsaid
      rw [← I.inBits_truth_bitName hplain, hgives _ _ hsaid]

end Assignment

namespace Formula

variable {cs : List Clause}

/-- The formula of a list that rules out values numbers all bits up to its largest tags. -/
theorem bitName_mem_of_compile (hplain : ∀ d ∈ Clause.disjunctions cs, ∀ l ∈ d, Tag.Plain l.name)
    (hexcluding : Clause.Excluding cs) {f : Formula} (hf : compile cs = .ok f) {names : List String}
    (ht : f.symbols.Numbers names) {name : String} (hname : Clause.Tagged cs name) {i : Nat}
    (hi : i < Tag.bitLength (Clause.largestTag cs name)) : Tag.bitName name i ∈ names := by
  obtain ⟨es, hes, -⟩ := Clause.expandTags_eq_ok hplain
  have hmem := Clause.bitName_mem_variableNames hexcluding hplain hes hname hi
  have ht' := SymbolTable.numbers_ofNames (Clause.variableNames es)
  rw [← symbols_of_compile hf hes] at ht'
  obtain ⟨j, hj⟩ := ht'.exists_index? (mem_sortedSet.mpr hmem)
  obtain ⟨n, hn, -⟩ := (ht.index? _ _).mp hj
  exact List.mem_of_getElem? hn

/-- **The decoded values of a list that rules out values** are those in range that satisfy it. -/
theorem compile_exact (hcs : Clause.Encodable cs) (hexcluding : Clause.Excluding cs)
    (hcount : ∀ es, Clause.expandTags cs = .ok es → (Clause.variableNames es).length < 2 ^ 31) :
    ∃ f, compile cs = .ok f ∧
      (∀ numbers, Assignment.Total f.variableCount numbers →
        ∃ values, Assignment.decode f.symbols numbers = .ok values) ∧
      ∀ I : Interpretation,
        f.Decodes I ↔ I.InRange cs ∧ I.Satisfies (Clause.disjunctions cs) := by
  obtain ⟨f, names, hf, ht, hsize, hnames, hmeaning⟩ := compile_eq_ok hcs hcount
  have hall : ∀ name, Clause.Tagged cs name → ∀ i < Tag.bitLength (Clause.largestTag cs name),
      Tag.bitName name i ∈ names :=
    fun name hname i hi => bitName_mem_of_compile hcs.plain hexcluding hf ht hname hi
  have hdecode := fun numbers (htotal : Assignment.Total f.symbols.size numbers) =>
    Assignment.decode_reads hcs ht hsize hnames htotal
  refine ⟨f, hf, fun numbers htotal => ?_, fun I => ⟨?_, ?_⟩⟩
  · obtain ⟨values, hvalues, -⟩ := hdecode numbers htotal
    exact ⟨values.toList, hvalues⟩
  · rintro ⟨numbers, _, htotal, hnumbers, hok, hI⟩
    obtain ⟨values, hvalues, hreads⟩ := hdecode numbers htotal
    rw [hvalues] at hok
    cases hok
    have hlt : ∀ name n, values[name]? = some (.number n) →
        n < 2 ^ Tag.bitLength (Clause.largestTag cs name + 1) :=
      fun name n => hreads.number_lt hcs ht hnames
    have hsound : ∀ J : Interpretation, J.Extends values.toList →
        (∀ name, Clause.Tagged cs name →
          J.number name < 2 ^ Tag.bitLength (Clause.largestTag cs name + 1)) →
        J.InRange cs ∧ J.Satisfies (Clause.disjunctions cs) := fun J hJ hJ' =>
      (hmeaning numbers J htotal (hreads.agrees hcs ht hnames htotal hJ) hJ').mp hnumbers
    refine hsound I hI fun name hname => ?_
    obtain ⟨n, hn⟩ :=
      hreads.exists_number_of_inRange hcs hlt (fun J hJ hJ' => (hsound J hJ hJ').1) hname
    rw [hI.number name n (Std.TreeMap.mem_toList_iff_getElem?_eq_some.mpr hn)]
    exact hlt name n hn
  · rintro ⟨hrange, hI⟩
    have htotal := Assignment.total_ofInterpretation (I := I.inBits) ht
    have hagrees := Assignment.agrees_ofInterpretation (I := I.inBits) ht
    obtain ⟨values, hvalues, hreads⟩ := hdecode _ htotal
    refine ⟨_, _, htotal, ?_, hvalues, hreads.extends hcs ht hall htotal hagrees hrange⟩
    rw [hmeaning _ I htotal hagrees]
    · exact ⟨hrange, hI⟩
    · intro name hname
      have := Tag.lt_two_pow_bitLength (Clause.largestTag cs name + 1)
      have := hrange name hname
      omega

end Formula

end CellSat
