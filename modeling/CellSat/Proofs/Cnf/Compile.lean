import Mathlib
import CellSat.Proofs.Cnf.Numbering
import CellSat.Proofs.Tag.Expansion
import CellSat.Proofs.Text
/-!
# Compiling and decoding

A clause list is compiled to a formula about the bits of its variables, and the answer of a solver
is decoded to values of the variables.

* `Clause.Encodable`: the lists whose names leave room for the names of bits;
* `Assignment.Gives`: what a list of signed numbers said about a name;
* `Assignment.Reads`: values that were put together from what a list says;
* `decodeNamed_reads`, `decodeFrom_reads`: one number, and all of them;
* **`Formula.compile_decode`**: what satisfies the clauses satisfies the formula, and what satisfies
  the formula decodes to values that satisfy the clauses.
-/

namespace CellSat

/-- No name holds a `#`, none is used both with and without a tag, and tags are 32-bit numbers. -/
structure Clause.Encodable (cs : List Clause) : Prop where
  plain : ∀ d ∈ disjunctions cs, ∀ l ∈ d, Tag.Plain l.name
  separate : ∀ d ∈ disjunctions cs, ∀ l ∈ d, ∀ e ∈ disjunctions cs, ∀ k ∈ e,
    l.name = k.name → (l.tag = none ↔ k.tag = none)
  tags : ∀ d ∈ disjunctions cs, ∀ l ∈ d, l.tag.getD 0 ≤ Word.maxNat32

namespace Clause.Encodable

variable {cs : List Clause} {name : String} {i : Nat}

instance : Decidable (Encodable cs) :=
  decidable_of_iff
    ((∀ d ∈ disjunctions cs, ∀ l ∈ d, '#' ∉ l.name.toList) ∧
      (∀ d ∈ disjunctions cs, ∀ l ∈ d, ∀ e ∈ disjunctions cs, ∀ k ∈ e,
        l.name = k.name → (l.tag = none ↔ k.tag = none)) ∧
      ∀ d ∈ disjunctions cs, ∀ l ∈ d, l.tag.getD 0 ≤ Word.maxNat32)
    ⟨fun ⟨h₁, h₂, h₃⟩ => ⟨h₁, h₂, h₃⟩, fun ⟨h₁, h₂, h₃⟩ => ⟨h₁, h₂, h₃⟩⟩

theorem not_untagged (h : Encodable cs) (hname : Tagged cs name) : ¬ Untagged cs name := by
  obtain ⟨d, hd, l, hl, rfl, htag⟩ := hname
  rintro ⟨e, he, k, hk, hname, hnone⟩
  exact htag ((h.separate d hd l hl e he k hk hname.symm).mpr hnone)

theorem plain_of_tagged (h : Encodable cs) (hname : Tagged cs name) : Tag.Plain name := by
  obtain ⟨d, hd, l, hl, rfl, -⟩ := hname
  exact h.plain d hd l hl

theorem plain_of_untagged (h : Encodable cs) (hname : Untagged cs name) : Tag.Plain name := by
  obtain ⟨d, hd, l, hl, rfl, -⟩ := hname
  exact h.plain d hd l hl

theorem largestTag_le (h : Encodable cs) (name : String) : largestTag cs name ≤ Word.maxNat32 :=
  largestTag_le_iff.mpr fun d hd l hl _ tag htag => by simpa [htag] using h.tags d hd l hl

theorem bitLength_le (h : Encodable cs) (name : String) :
    Tag.bitLength (largestTag cs name + 1) ≤ 33 := by
  have hmax := h.largestTag_le name
  rw [Tag.bitLength_le_iff]
  simp only [Word.maxNat32] at hmax
  omega

theorem lt_of_variableInBits (h : Encodable cs)
    (hbit : VariableInBits cs (Tag.bitName name i)) :
    i < Tag.bitLength (largestTag cs name + 1) := by
  rcases hbit with huntagged | ⟨base, hbase, j, hj, heq⟩
  · exact absurd rfl (Tag.bitName_ne (h.plain_of_untagged huntagged) i)
  · obtain ⟨rfl, rfl⟩ := Tag.bitName_injective heq
    exact hj

end Clause.Encodable

namespace Assignment

/-! ## One number -/

/-- The values are those that some statements about untagged variables and bits give. -/
structure Reads (cs : List Clause) (said : String → Bool → Prop)
    (values : Std.TreeMap String Value) : Prop where
  truth : ∀ name b, values[name]? = some (.truth b) → Clause.Untagged cs name ∧ said name b
  number : ∀ name n, values[name]? = some (.number n) → Clause.Tagged cs name ∧
    ∀ i, n.testBit i = true ↔ said (Tag.bitName name i) true
  untagged : ∀ name b, said name b → Clause.Untagged cs name →
    ∃ c, values[name]? = some (.truth c)
  tagged : ∀ name i b, said (Tag.bitName name i) b → Clause.Tagged cs name →
    ∃ n, values[name]? = some (.number n)

variable {cs : List Clause} {said : String → Bool → Prop} {values : Std.TreeMap String Value}

theorem getElem?_insert (key name : String) (value : Value) :
    (values.insert key value)[name]? = if key = name then some value else values[name]? := by
  simp [Std.TreeMap.getElem?_insert]

theorem testBit_bitMask {truth : Bool} {bit : Nat} (hbit : bit < 64) (i : Nat) :
    (bitMask truth bit).testBit i = true ↔ truth = true ∧ i = bit := by
  cases truth with
  | false => simp [bitMask]
  | true => simp [bitMask, hbit, Nat.testBit_two_pow, eq_comm]

theorem decodeNamed_untagged {name : String} (h : Tag.Plain name) (b : Bool) :
    decodeNamed values name b = .ok (values.insert name (.truth b)) := by
  rw [decodeNamed, Text.splitFirst_eq_none h]

theorem decodeNamed_bit {name : String} (h : Tag.Plain name) {i : Nat} (hi : i < 33) (b : Bool) :
    decodeNamed values (Tag.bitName name i) b =
      .ok (values.insert name
        (.number ((values[name]?.map Value.toNat).getD 0 ||| bitMask b i))) := by
  have hmax : i ≤ Word.maxNat32 := by
    simp only [Word.maxNat32]
    omega
  rw [decodeNamed, Tag.splitFirst_bitName h]
  simp only [Text.readNatUpTo?_toDigits hmax, String.ofList_toList]

theorem testBit_previous (hcs : Clause.Encodable cs) (h : Reads cs said values) {name : String}
    (hname : Clause.Tagged cs name) (i : Nat) :
    ((values[name]?.map Value.toNat).getD 0).testBit i = true ↔ said (Tag.bitName name i) true := by
  cases hvalue : values[name]? with
  | none =>
    have hnot : ¬ said (Tag.bitName name i) true := fun hsaid => by
      obtain ⟨n, hn⟩ := h.tagged name i true hsaid hname
      simp [hvalue] at hn
    simpa using hnot
  | some value =>
    cases value with
    | truth b => exact absurd (h.truth name b hvalue).1 (hcs.not_untagged hname)
    | number n => exact (h.number name n hvalue).2 i

theorem Reads.insert_truth (hcs : Clause.Encodable cs) (h : Reads cs said values)
    {name : String} (hname : Clause.Untagged cs name) (b : Bool) :
    Reads cs (fun x c => said x c ∨ x = name ∧ c = b) (values.insert name (.truth b)) := by
  have hne : ∀ {x i}, Tag.bitName x i ≠ name := Tag.bitName_ne (hcs.plain_of_untagged hname) _
  refine ⟨fun x c hx => ?_, fun x n hx => ?_, fun x c hx hx' => ?_, fun x i c hx hx' => ?_⟩
  · rw [getElem?_insert] at hx
    split_ifs at hx with heq
    · cases hx
      exact ⟨heq ▸ hname, Or.inr ⟨heq.symm, rfl⟩⟩
    · exact ⟨(h.truth x c hx).1, Or.inl (h.truth x c hx).2⟩
  · rw [getElem?_insert] at hx
    split_ifs at hx with heq
    · cases hx
    · simpa [hne] using h.number x n hx
  · rw [getElem?_insert]
    split_ifs with heq
    · exact ⟨b, rfl⟩
    · exact h.untagged x c (hx.resolve_right fun e => heq e.1.symm) hx'
  · rw [getElem?_insert]
    split_ifs with heq
    · exact absurd (heq ▸ hname) (hcs.not_untagged hx')
    · exact h.tagged x i c (hx.resolve_right fun e => hne e.1) hx'

theorem Reads.insert_bit (hcs : Clause.Encodable cs) (h : Reads cs said values) {name : String}
    (hname : Clause.Tagged cs name) {i : Nat} (hi : i < 64) (b : Bool) :
    Reads cs (fun x c => said x c ∨ x = Tag.bitName name i ∧ c = b)
      (values.insert name (.number ((values[name]?.map Value.toNat).getD 0 ||| bitMask b i))) := by
  refine ⟨fun x c hx => ?_, fun x n hx => ?_, fun x c hx hx' => ?_, fun x j c hx hx' => ?_⟩
  · rw [getElem?_insert] at hx
    split_ifs at hx with heq
    · cases hx
    · exact ⟨(h.truth x c hx).1, Or.inl (h.truth x c hx).2⟩
  · rw [getElem?_insert] at hx
    split_ifs at hx with heq
    · subst heq
      cases hx
      refine ⟨hname, fun j => ?_⟩
      rw [Nat.testBit_or, Bool.or_eq_true, testBit_previous hcs h hname, testBit_bitMask hi]
      have hbit : Tag.bitName name j = Tag.bitName name i ↔ j = i :=
        ⟨fun e => (Tag.bitName_injective e).2, fun e => e ▸ rfl⟩
      simp only [hbit, eq_comm, and_comm]
    · have hx' := h.number x n hx
      refine ⟨hx'.1, fun j => ?_⟩
      have hbit : Tag.bitName x j ≠ Tag.bitName name i := fun e =>
        heq (Tag.bitName_injective e).1.symm
      simp [hbit, hx'.2 j]
  · rw [getElem?_insert]
    split_ifs with heq
    · exact absurd hx' (heq ▸ hcs.not_untagged hname)
    · refine h.untagged x c (hx.resolve_right fun e => ?_) hx'
      exact Tag.bitName_ne (hcs.plain_of_untagged hx') i e.1.symm
  · rw [getElem?_insert]
    split_ifs with heq
    · exact ⟨_, rfl⟩
    · refine h.tagged x j c (hx.resolve_right fun e => heq ?_) hx'
      exact (Tag.bitName_injective e.1).1.symm

/-- **One number.** Decoding it succeeds and adds what it says to the values. -/
theorem decodeNamed_reads (hcs : Clause.Encodable cs) (h : Reads cs said values) {name : String}
    (hname : Clause.VariableInBits cs name) (b : Bool) :
    ∃ values', decodeNamed values name b = .ok values' ∧
      Reads cs (fun x c => said x c ∨ x = name ∧ c = b) values' := by
  rcases hname with huntagged | ⟨base, hbase, i, hi, rfl⟩
  · exact ⟨_, decodeNamed_untagged (hcs.plain_of_untagged huntagged) b,
      h.insert_truth hcs huntagged b⟩
  · have hlt : i < 33 := Nat.lt_of_lt_of_le hi (hcs.bitLength_le base)
    exact ⟨_, decodeNamed_bit (hcs.plain_of_tagged hbase) hlt b,
      h.insert_bit hcs hbase (by omega) b⟩

/-! ## All numbers -/

/-- A list of signed numbers says that a variable is true, or that it is false. -/
def Gives (t : SymbolTable) (numbers : List Int) (name : String) (b : Bool) : Prop :=
  ∃ n ∈ numbers, t.name? n.natAbs = some name ∧ decide (0 < n) = b

theorem gives_concat {t : SymbolTable} {numbers : List Int} {n : Int} {name : String}
    (hname : t.name? n.natAbs = some name) {x : String} {b : Bool} :
    Gives t (numbers ++ [n]) x b ↔ Gives t numbers x b ∨ x = name ∧ b = decide (0 < n) := by
  simp only [Gives, List.mem_append, List.mem_singleton, or_and_right, exists_or, exists_eq_left,
    hname, Option.some.injEq]
  rw [@eq_comm _ x, @eq_comm _ b]

theorem decodeFrom_cons {t : SymbolTable} {n : Int} (hmax : (n.natAbs : Int) ≤ Word.maxInt32)
    {name : String} (hname : t.name? n.natAbs = some name) (numbers : List Int) :
    decodeFrom t values (n :: numbers) =
      decodeNamed values name (0 < n) >>= fun values' => decodeFrom t values' numbers := by
  have hfits : Word.int32 n.natAbs = .ok (n.natAbs : Int) := by
    rw [Word.int32, if_pos]
    simp only [Word.maxInt32, Word.minInt32] at *
    omega
  rw [decodeFrom, hfits]
  simp only [bind, Except.bind, liftM, monadLift, MonadLift.monadLift, Checked.toResult, hname]

theorem decodeFrom_reads (hcs : Clause.Encodable cs) {t : SymbolTable} {before numbers : List Int}
    (h : Reads cs (Gives t before) values)
    (hnumbers : ∀ n ∈ numbers, (n.natAbs : Int) ≤ Word.maxInt32 ∧
      ∃ name, t.name? n.natAbs = some name ∧ Clause.VariableInBits cs name) :
    ∃ values', decodeFrom t values numbers = .ok values' ∧
      Reads cs (Gives t (before ++ numbers)) values' := by
  induction numbers generalizing before values with
  | nil => exact ⟨values, rfl, by simpa using h⟩
  | cons n numbers ih =>
    rw [List.forall_mem_cons] at hnumbers
    obtain ⟨⟨hmax, name, hname, hbits⟩, hrest⟩ := hnumbers
    obtain ⟨values', hvalues', hreads⟩ := decodeNamed_reads hcs h hbits (decide (0 < n))
    have hreads' : Reads cs (Gives t (before ++ [n])) values' := by
      have : Gives t (before ++ [n]) =
          fun x c => Gives t before x c ∨ x = name ∧ c = decide (0 < n) :=
        funext fun x => funext fun c => propext (gives_concat hname)
      rwa [this]
    obtain ⟨values'', hvalues'', hall⟩ := ih hreads' hrest
    refine ⟨values'', ?_, by simpa using hall⟩
    rw [decodeFrom_cons hmax hname, hvalues']
    exact hvalues''

theorem reads_empty {t : SymbolTable} : Reads cs (Gives t []) ∅ where
  truth name b h := by simp at h
  number name n h := by simp at h
  untagged name b h := by simp [Gives] at h
  tagged name i b h := by simp [Gives] at h

theorem Total.gives_iff {t : SymbolTable} {names : List String} {numbers : List Int}
    (ht : t.Numbers names) (h : Total t.size numbers) {name : String} {i : Int}
    (hi : t.index? name = some i) (b : Bool) :
    Gives t numbers name b ↔ b = decide (i ∈ numbers) := by
  have hrange := ht.le_of_index? hi
  have hname := ht.index?_eq_some_iff.mp hi
  have habs : ∀ n : Int, t.name? n.natAbs = some name → (n.natAbs : Int) = i := fun n hn =>
    Option.some.inj ((ht.index?_eq_some_iff.mpr hn).symm.trans hi)
  constructor
  · rintro ⟨n, hn, hnname, rfl⟩
    have := habs n hnname
    rcases Int.natAbs_eq n with hpos | hneg
    · obtain rfl : n = i := by omega
      simp [hn]
      omega
    · obtain rfl : n = -i := by omega
      rw [h.decides i hrange.1 hrange.2] at hn
      simp [hn]
      omega
  · rintro rfl
    by_cases hmem : i ∈ numbers
    · exact ⟨i, hmem, by rwa [Int.natAbs_of_nonneg (by omega)], by simp [hmem]; omega⟩
    · refine ⟨-i, (h.decides i hrange.1 hrange.2).mpr hmem, ?_, by simp [hmem]; omega⟩
      rwa [Int.natAbs_neg, Int.natAbs_of_nonneg (by omega)]

end Assignment

/-! ## Interpretations that extend decoded values -/

/-- An interpretation has the values of a valuation. -/
structure Interpretation.Extends (I : Interpretation) (values : Valuation) : Prop where
  truth : ∀ name b, (name, Value.truth b) ∈ values → I.truth name = b
  number : ∀ name n, (name, Value.number n) ∈ values → I.number name = n

namespace Assignment

/-- The interpretation that has given values, and zero where there are none. -/
def interpretation (values : Std.TreeMap String Value) : Interpretation where
  truth name := values[name]? == some (.truth true)
  number name := (values[name]?.map Value.toNat).getD 0

theorem extends_interpretation (values : Std.TreeMap String Value) :
    (interpretation values).Extends values.toList where
  truth name b h := by
    rw [Std.TreeMap.mem_toList_iff_getElem?_eq_some] at h
    cases b <;> simp [interpretation, h]
  number name n h := by
    rw [Std.TreeMap.mem_toList_iff_getElem?_eq_some] at h
    simp [interpretation, h, Value.toNat]

variable {cs : List Clause} {t : SymbolTable} {names : List String} {numbers : List Int}
  {values : Std.TreeMap String Value} {I : Interpretation}

theorem Reads.agrees (hcs : Clause.Encodable cs) (ht : t.Numbers names)
    (hnames : ∀ name ∈ names, Clause.VariableInBits cs name) (htotal : Total t.size numbers)
    (h : Reads cs (Gives t numbers) values) (hI : I.Extends values.toList) :
    Agrees t numbers I.inBits := by
  intro name i hi
  have hgives := fun b => htotal.gives_iff ht hi b
  have hname : name ∈ names := by
    obtain ⟨n, hn, -⟩ := (ht.index? name i).mp hi
    exact List.mem_of_getElem? hn
  rcases hnames name hname with huntagged | ⟨base, hbase, j, -, rfl⟩
  · obtain ⟨c, hc⟩ := h.untagged name _ ((hgives _).mpr rfl) huntagged
    rw [I.inBits_truth (hcs.plain_of_untagged huntagged),
      hI.truth name c (Std.TreeMap.mem_toList_iff_getElem?_eq_some.mpr hc),
      (hgives c).mp (h.truth name c hc).2]
    simp
  · obtain ⟨n, hn⟩ := h.tagged base j _ ((hgives _).mpr rfl) hbase
    rw [I.inBits_truth_bitName (hcs.plain_of_tagged hbase),
      hI.number base n (Std.TreeMap.mem_toList_iff_getElem?_eq_some.mpr hn),
      (h.number base n hn).2 j, hgives]
    simp

theorem Reads.number_lt (hcs : Clause.Encodable cs) (ht : t.Numbers names)
    (hnames : ∀ name ∈ names, Clause.VariableInBits cs name)
    (h : Reads cs (Gives t numbers) values) {name : String} {n : Nat}
    (hn : values[name]? = some (.number n)) :
    n < 2 ^ Tag.bitLength (Clause.largestTag cs name + 1) := by
  obtain ⟨htagged, hbits⟩ := h.number name n hn
  apply Nat.lt_pow_two_of_testBit
  intro i hi
  by_contra hbit
  obtain ⟨m, -, hm, -⟩ := (hbits i).mp (by simpa using hbit)
  obtain ⟨k, hk, -⟩ := (ht.name? _ _).mp hm
  have := hcs.lt_of_variableInBits (hnames _ (List.mem_of_getElem? hk))
  omega

theorem Reads.interpretation_number_lt (hcs : Clause.Encodable cs)
    (h : Reads cs (Gives t numbers) values)
    (hlt : ∀ name n, values[name]? = some (.number n) →
      n < 2 ^ Tag.bitLength (Clause.largestTag cs name + 1))
    {name : String} (hname : Clause.Tagged cs name) :
    (interpretation values).number name < 2 ^ Tag.bitLength (Clause.largestTag cs name + 1) := by
  cases hvalue : values[name]? with
  | none => simp [interpretation, hvalue]
  | some value =>
    cases value with
    | truth b => exact absurd (h.truth name b hvalue).1 (hcs.not_untagged hname)
    | number n => simpa [interpretation, hvalue, Value.toNat] using hlt name n hvalue

theorem decode_reads (hcs : Clause.Encodable cs) (ht : t.Numbers names) (hsize : t.size < 2 ^ 31)
    (hnames : ∀ name ∈ names, Clause.VariableInBits cs name) (htotal : Total t.size numbers) :
    ∃ values : Std.TreeMap String Value, decode t numbers = .ok values.toList ∧
      Reads cs (Gives t numbers) values := by
  obtain ⟨values, hvalues, hreads⟩ := decodeFrom_reads hcs reads_empty fun n hn => by
    obtain ⟨h1, hn⟩ := htotal.bounded n hn
    have h1' : (1 : Int) ≤ n.natAbs := by omega
    obtain ⟨name, hmem, hname⟩ := ht.exists_name? h1' (by omega)
    exact ⟨by simp only [Word.maxInt32]; omega, name, hname, hnames name hmem⟩
  exact ⟨values, by rw [decode, hvalues]; rfl, hreads⟩

/-- The number of a variable that is not decoded could be moved out of its range. -/
theorem Reads.exists_number_of_inRange (hcs : Clause.Encodable cs)
    (h : Reads cs (Gives t numbers) values)
    (hlt : ∀ name n, values[name]? = some (.number n) →
      n < 2 ^ Tag.bitLength (Clause.largestTag cs name + 1))
    (hrange : ∀ I : Interpretation, I.Extends values.toList →
      (∀ name, Clause.Tagged cs name →
        I.number name < 2 ^ Tag.bitLength (Clause.largestTag cs name + 1)) → I.InRange cs)
    {name : String} (hname : Clause.Tagged cs name) : ∃ n, values[name]? = some (.number n) := by
  by_contra hnone
  have hext := extends_interpretation values
  let moved : Interpretation :=
    { truth := (interpretation values).truth
      number :=
        Function.update (interpretation values).number name (Clause.largestTag cs name + 1) }
  have hmoved : moved.Extends values.toList := by
    refine ⟨hext.truth, fun x n hx => ?_⟩
    have hne : x ≠ name := by
      rintro rfl
      exact hnone ⟨n, Std.TreeMap.mem_toList_iff_getElem?_eq_some.mp hx⟩
    rw [← hext.number x n hx]
    exact Function.update_of_ne hne _ _
  have := hrange moved hmoved fun x hx => by
    by_cases hne : x = name
    · subst hne
      simpa [moved] using Tag.lt_two_pow_bitLength (Clause.largestTag cs x + 1)
    · simpa [moved, hne] using h.interpretation_number_lt hcs hlt hx
  simpa [moved] using this name hname

end Assignment

/-! ## The formula of a list -/

namespace Formula

variable {cs : List Clause} {f : Formula}

theorem exists_of_compile (hf : compile cs = .ok f) :
    ∃ es, Clause.expandTags cs = .ok es ∧ f.symbols = .ofNames (Clause.variableNames es) ∧
      f.variableCount < 2 ^ 31 ∧
      (Clause.minimize es).mapM (encodeLine f.symbols) = .ok f.lines := by
  obtain ⟨es, hes, hf⟩ := bind_eq_ok.mp hf
  obtain ⟨t, ht, hf⟩ := bind_eq_ok.mp hf
  obtain ⟨rfl, hsize⟩ := SymbolTable.ofNames32_eq_ok.mp (Checked.toResult_eq_ok.mp ht)
  obtain ⟨lines, hlines, hf⟩ := bind_eq_ok.mp hf
  obtain rfl := Except.ok.inj hf
  exact ⟨es, hes, rfl, hsize, hlines⟩

theorem symbols_of_compile {es : List Clause} (hf : compile cs = .ok f)
    (hes : Clause.expandTags cs = .ok es) : f.symbols = .ofNames (Clause.variableNames es) := by
  obtain ⟨es', hes', hsymbols, -⟩ := exists_of_compile hf
  rw [hes] at hes'
  rw [hsymbols, Except.ok.inj hes']

theorem numbers_of_compile {es : List Clause} (hf : compile cs = .ok f)
    (hes : Clause.expandTags cs = .ok es) :
    f.symbols.Numbers (sortedSet compare (Clause.variableNames es)) := by
  rw [symbols_of_compile hf hes]
  exact SymbolTable.numbers_ofNames _

theorem exists_numbers_of_compile (hf : compile cs = .ok f) : ∃ names, f.symbols.Numbers names := by
  obtain ⟨es, hes, -⟩ := exists_of_compile hf
  exact ⟨_, numbers_of_compile hf hes⟩

theorem length_variableNames_le {es : List Clause} {m : Nat}
    (hes : Clause.expandTags cs = .ok es)
    (hm : ∀ d ∈ Clause.disjunctions cs, ∀ l ∈ d, ∀ tag, l.tag = some tag → tag ≤ m) :
    (Clause.variableNames es).length ≤
      (Clause.disjunctions cs).flatten.length * (Tag.bitLength (m + 1) + 1) := by
  obtain ⟨es', hes', -, hvariables, -⟩ := Clause.expandTags_writes cs
  obtain rfl := Except.ok.inj (hes.symm.trans hes')
  let names (l : Literal) : List String :=
    l.name :: (List.range (Tag.bitLength (m + 1))).map (Tag.bitName l.name)
  have hsub : Clause.variableNames es ⊆ (Clause.disjunctions cs).flatten.flatMap names := by
    intro name hname
    obtain ⟨e, he, k, hk, rfl⟩ := Clause.mem_variableNames.mp hname
    rcases hvariables e he k hk with ⟨d, hd, l, hl, h, -⟩ | ⟨-, ⟨d, hd, l, hl, rfl, -⟩, i, hi, h⟩
    · rw [← h]
      exact List.mem_flatMap.mpr ⟨l, List.mem_flatten.mpr ⟨d, hd, hl⟩, List.mem_cons_self⟩
    · have hle : Clause.largestTag cs l.name ≤ m :=
        Clause.largestTag_le_iff.mpr fun d hd l hl _ => hm d hd l hl
      rw [h]
      refine List.mem_flatMap.mpr ⟨l, List.mem_flatten.mpr ⟨d, hd, hl⟩, List.mem_cons_of_mem _ ?_⟩
      refine List.mem_map.mpr ⟨i, List.mem_range.mpr ?_, rfl⟩
      exact Nat.lt_of_lt_of_le hi (Tag.bitLength_mono (Nat.succ_le_succ hle))
  have hnames : ∀ l, (names l).length = Tag.bitLength (m + 1) + 1 := fun l => by
    rw [List.length_cons, List.length_map, List.length_range]
  have hlength := ((nodup_sortedSet _).subperm hsub).length_le
  simp only [List.length_flatMap, hnames, List.map_const', List.sum_replicate_nat] at hlength
  exact hlength

theorem compile_of_expandTags {es : List Clause} (hes : Clause.expandTags cs = .ok es)
    (hbool : Disjunction.Boolean (Clause.disjunctions es))
    (hsize : (Clause.variableNames es).length < 2 ^ 31) :
    ∃ f, compile cs = .ok f ∧ f.symbols = .ofNames (Clause.variableNames es) ∧
      ∀ numbers (J : Interpretation), Assignment.Total f.variableCount numbers →
        Assignment.Agrees f.symbols numbers J →
        (f.SatisfiedBy numbers ↔ J.Satisfies (Clause.disjunctions es)) := by
  obtain ⟨lines, hlines, hsat⟩ := satisfiedBy_iff hbool hsize
  have hsymbols : SymbolTable.ofNames32 (Clause.variableNames es) =
      .ok (.ofNames (Clause.variableNames es)) :=
    SymbolTable.ofNames32_eq_ok.mpr ⟨rfl, Nat.lt_of_le_of_lt (SymbolTable.size_ofNames_le _) hsize⟩
  refine ⟨⟨.ofNames (Clause.variableNames es), lines⟩, ?_, rfl, hsat⟩
  simp only [compile, hes, hsymbols, bind, Except.bind, liftM, monadLift, MonadLift.monadLift,
    Checked.toResult]
  rw [hlines]
  rfl

/-- The formula of a list, for interpretations of its bits. -/
theorem compile_writes
    (hcount : ∀ es, Clause.expandTags cs = .ok es → (Clause.variableNames es).length < 2 ^ 31) :
    ∃ f, compile cs = .ok f ∧ ∀ I J : Interpretation, J.Writes I cs → I.FitsBits cs →
      (f.SatisfiedBy (Assignment.ofInterpretation f.symbols J) ↔
        I.InRange cs ∧ I.Satisfies (Clause.disjunctions cs)) := by
  obtain ⟨es, hes, hbool, -, hbits⟩ := Clause.expandTags_writes cs
  obtain ⟨f, hf, -, hsat⟩ := compile_of_expandTags hes hbool (hcount es hes)
  have ht := numbers_of_compile hf hes
  refine ⟨f, hf, fun I J hJ hI => ?_⟩
  rw [hsat _ J (Assignment.total_ofInterpretation ht) (Assignment.agrees_ofInterpretation ht),
    hbits I J hJ hI]

theorem compile_eq_ok (hcs : Clause.Encodable cs)
    (hcount : ∀ es, Clause.expandTags cs = .ok es → (Clause.variableNames es).length < 2 ^ 31) :
    ∃ f names, compile cs = .ok f ∧ f.symbols.Numbers names ∧ f.variableCount < 2 ^ 31 ∧
      (∀ name ∈ names, Clause.VariableInBits cs name) ∧
      ∀ numbers (I : Interpretation), Assignment.Total f.variableCount numbers →
        Assignment.Agrees f.symbols numbers I.inBits →
        (∀ name, Clause.Tagged cs name →
          I.number name < 2 ^ Tag.bitLength (Clause.largestTag cs name + 1)) →
        (f.SatisfiedBy numbers ↔ I.InRange cs ∧ I.Satisfies (Clause.disjunctions cs)) := by
  obtain ⟨es, hes, hbool, hvariables, hbits⟩ := Clause.expandTags_eq_ok hcs.plain
  have hsize := hcount es hes
  obtain ⟨f, hf, hsymbols, hsat⟩ := compile_of_expandTags hes hbool hsize
  refine ⟨f, sortedSet compare (Clause.variableNames es), hf, ?_, ?_, fun name hname => ?_, ?_⟩
  · rw [hsymbols]
    exact SymbolTable.numbers_ofNames _
  · rw [variableCount, hsymbols]
    exact Nat.lt_of_le_of_lt (SymbolTable.size_ofNames_le _) hsize
  · obtain ⟨e, he, k, hk, rfl⟩ := Clause.mem_variableNames.mp (mem_sortedSet.mp hname)
    exact hvariables e he k hk
  · intro numbers I htotal hagrees hlt
    rw [hsat numbers I.inBits htotal hagrees, hbits I hlt]

/-- **Compiling keeps the meaning and decoding inverts it**, for fewer than `2 ^ 31` variables in
bits. -/
theorem compile_decode (hcs : Clause.Encodable cs)
    (hcount : ∀ es, Clause.expandTags cs = .ok es → (Clause.variableNames es).length < 2 ^ 31) :
    ∃ f, compile cs = .ok f ∧
      (∀ I : Interpretation, I.InRange cs → I.Satisfies (Clause.disjunctions cs) →
        f.SatisfiedBy (Assignment.ofInterpretation f.symbols I.inBits)) ∧
      ∀ numbers, Assignment.Total f.variableCount numbers → f.SatisfiedBy numbers →
        ∃ values, Assignment.decode f.symbols numbers = .ok values ∧
          (∀ name n, (name, Value.number n) ∈ values →
            Clause.Tagged cs name ∧ n ≤ Clause.largestTag cs name) ∧
          ∀ I : Interpretation, I.Extends values → I.Satisfies (Clause.disjunctions cs) := by
  obtain ⟨f, names, hf, ht, hsize, hnames, hmeaning⟩ := compile_eq_ok hcs hcount
  refine ⟨f, hf, fun I hrange hI => ?_, fun numbers htotal hnumbers => ?_⟩
  · rw [hmeaning _ I (Assignment.total_ofInterpretation ht) (Assignment.agrees_ofInterpretation ht)]
    · exact ⟨hrange, hI⟩
    · intro name hname
      have := Tag.lt_two_pow_bitLength (Clause.largestTag cs name + 1)
      have := hrange name hname
      omega
  · obtain ⟨values, hvalues, hreads⟩ := Assignment.decode_reads hcs ht hsize hnames htotal
    have hlt : ∀ name n, values[name]? = some (.number n) →
        n < 2 ^ Tag.bitLength (Clause.largestTag cs name + 1) :=
      fun name n => hreads.number_lt hcs ht hnames
    have hsound : ∀ I : Interpretation, I.Extends values.toList →
        (∀ name, Clause.Tagged cs name →
          I.number name < 2 ^ Tag.bitLength (Clause.largestTag cs name + 1)) →
        I.InRange cs ∧ I.Satisfies (Clause.disjunctions cs) := fun I hI hI' =>
      (hmeaning numbers I htotal (hreads.agrees hcs ht hnames htotal hI) hI').mp hnumbers
    refine ⟨values.toList, hvalues, fun name n hn => ?_, fun I hI => (hsound I hI ?_).2⟩
    · have htagged := (hreads.number name n (Std.TreeMap.mem_toList_iff_getElem?_eq_some.mp hn)).1
      have hext := Assignment.extends_interpretation values
      have hrange := (hsound _ hext fun x => hreads.interpretation_number_lt hcs hlt).1
      exact ⟨htagged, hext.number name n hn ▸ hrange name htagged⟩
    · intro name hname
      obtain ⟨n, hn⟩ :=
        hreads.exists_number_of_inRange hcs hlt (fun I hI hI' => (hsound I hI hI').1) hname
      rw [hI.number name n (Std.TreeMap.mem_toList_iff_getElem?_eq_some.mpr hn)]
      exact hlt name n hn

/-- A list over the boolean variable `b` and the variable `a` with the values 0, 1 and 2. -/
def taggedPair : List Clause :=
  [.disjunction [{ name := "a", tag := some 2 }, { name := "b", positive := false }],
    .disjunction [{ name := "a", positive := false, tag := some 1 }]]

theorem compile_decode_taggedPair :
    Clause.Encodable taggedPair ∧
      ∃ f, compile taggedPair = .ok f ∧
        ∀ numbers, Assignment.Total f.variableCount numbers → f.SatisfiedBy numbers →
          ∃ values, Assignment.decode f.symbols numbers = .ok values ∧
            ∀ n, ("a", Value.number n) ∈ values → n ≤ 2 := by
  have hcs : Clause.Encodable taggedPair := by decide +kernel
  have hthree : (Clause.expandTags taggedPair).toOption.map
      (fun es => (Clause.variableNames es).length) = some 3 := by cbv
  obtain ⟨f, hf, -, hdecode⟩ := compile_decode hcs fun es hes => by
    rw [hes] at hthree
    have : (Clause.variableNames es).length = 3 := Option.some.inj hthree
    omega
  refine ⟨hcs, f, hf, fun numbers htotal hnumbers => ?_⟩
  obtain ⟨values, hvalues, hrange, -⟩ := hdecode numbers htotal hnumbers
  exact ⟨values, hvalues, fun n hn => (hrange "a" n hn).2⟩

end Formula

end CellSat
