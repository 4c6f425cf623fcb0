import Mathlib
import CellSat.Proofs.Tag.Bits
import CellSat.Proofs.Text
/-!
# Replacing tags by bits

An interpretation is written out in bits by giving the bit `a#k` the binary digit `k` of the number
of `a`. If no name of a variable holds the character `#`, which sets off the bit, each
interpretation can be written out.

* `Tag.tagsOf`, `Clause.largestTag`, `Clause.getElem?_maxOfClauses`: the largest tags of a list;
* `Interpretation.inBits`: an interpretation written out in bits;
* `Interpretation.Writes`: bits that are those of an interpretation;
* `Tag.Expands`: what a list of clauses about bits has to do with the literals that it replaces;
* `Tag.oneOf_expands`, `Tag.anyOf_expands`: a literal and a disjunction in bits;
* **`Clause.expandTags_writes`**: a list in bits means the list together with the ranges of its
  variables, whatever their names;
* `Clause.expandTags_eq_ok`: the same for names without the character that sets off a bit.
-/

namespace CellSat

/-! ## The largest tags -/

namespace Tag

/-- The tags of a variable among literals. -/
def tagsOf (name : String) (ls : List Literal) : List Nat :=
  ls.filterMap fun l => if l.name = name then l.tag else none

theorem mem_tagsOf {name : String} {ls : List Literal} {tag : Nat} :
    tag ∈ tagsOf name ls ↔ ∃ l ∈ ls, l.name = name ∧ l.tag = some tag := by
  simp [tagsOf, List.mem_filterMap]

theorem getElem?_foldl_record (name : String) (ls : List Literal) (max : MaxTags) :
    (ls.foldl record max)[name]? = if tagsOf name ls = [] then max[name]?
      else some ((tagsOf name ls).foldl Nat.max (max.getD name 0)) := by
  induction ls generalizing max with
  | nil => rfl
  | cons l ls ih =>
    rw [List.foldl_cons, ih]
    cases htag : l.tag with
    | none => simp [record, htag, tagsOf]
    | some tag =>
      by_cases hname : l.name = name
      · subst hname
        simp only [record, htag, tagsOf, List.filterMap_cons, if_true, List.foldl_cons,
          Std.TreeMap.getD_insert_self, Std.TreeMap.getElem?_insert_self, reduceCtorEq, if_false]
        split_ifs with h
        · rw [h, List.foldl_nil]
        · rfl
      · simp [record, htag, tagsOf, hname, Std.TreeMap.getElem?_insert, Std.TreeMap.getD_insert]

end Tag

/-- The largest tag of a variable in a list, 0 if it has none. -/
def Clause.largestTag (cs : List Clause) (name : String) : Nat :=
  (Tag.tagsOf name (Clause.disjunctions cs).flatten).foldl Nat.max 0

/-- A variable is used with a tag. -/
def Clause.Tagged (cs : List Clause) (name : String) : Prop :=
  ∃ d ∈ Clause.disjunctions cs, ∃ l ∈ d, l.name = name ∧ l.tag ≠ none

/-- A variable is used without a tag. -/
def Clause.Untagged (cs : List Clause) (name : String) : Prop :=
  ∃ d ∈ Clause.disjunctions cs, ∃ l ∈ d, l.name = name ∧ l.tag = none

namespace Clause

variable {cs : List Clause} {name : String}

theorem tagsOf_eq_nil_iff :
    Tag.tagsOf name (disjunctions cs).flatten = [] ↔ ¬ Tagged cs name := by
  simp only [List.eq_nil_iff_forall_not_mem, Tag.mem_tagsOf, List.mem_flatten]
  constructor
  · rintro h ⟨d, hd, l, hl, hname, htag⟩
    obtain ⟨tag, htag⟩ := Option.ne_none_iff_exists'.mp htag
    exact h tag ⟨l, ⟨d, hd, hl⟩, hname, htag⟩
  · rintro h tag ⟨l, ⟨d, hd, hl⟩, hname, htag⟩
    exact h ⟨d, hd, l, hl, hname, by simp [htag]⟩

theorem largestTag_le_iff {n : Nat} : largestTag cs name ≤ n ↔
    ∀ d ∈ disjunctions cs, ∀ l ∈ d, l.name = name → ∀ tag, l.tag = some tag → tag ≤ n := by
  simp only [largestTag, foldl_max_le_iff, Nat.zero_le, true_and, Tag.mem_tagsOf, List.mem_flatten]
  constructor
  · intro h d hd l hl hname tag htag
    exact h tag ⟨l, ⟨d, hd, hl⟩, hname, htag⟩
  · rintro h tag ⟨l, ⟨d, hd, hl⟩, hname, htag⟩
    exact h d hd l hl hname tag htag

open Classical in
theorem getElem?_maxOfClauses : (Tag.maxOfClauses cs)[name]? =
    if Tagged cs name then some (largestTag cs name) else none := by
  rw [Tag.maxOfClauses, Tag.maxOfTuples, Tag.maxOfLiterals, Tag.getElem?_foldl_record]
  simp only [tagsOf_eq_nil_iff, ite_not]
  rfl

theorem maxOfClauses_eq_some_iff {m : Nat} :
    (Tag.maxOfClauses cs)[name]? = some m ↔ Tagged cs name ∧ largestTag cs name = m := by
  rw [getElem?_maxOfClauses]
  split_ifs with h <;> simp [h]

end Clause

/-! ## Interpretations in bits -/

/-- The interpretation written out in bits. -/
def Interpretation.inBits (I : Interpretation) : Interpretation where
  truth name :=
    match Text.splitFirst '#' name.toList with
    | none => I.truth name
    | some (base, bit) => (I.number (String.ofList base)).testBit (Text.digitsValue bit)
  number := I.number

/-- A name without the character that sets off a bit. -/
def Tag.Plain (name : String) : Prop := '#' ∉ name.toList

theorem Tag.toList_bitName (name : String) (i : Nat) :
    (bitName name i).toList = name.toList ++ '#' :: Nat.toDigits 10 i := by
  simp [bitName]

theorem Tag.splitFirst_bitName {name : String} (h : Plain name) (i : Nat) :
    Text.splitFirst '#' (bitName name i).toList = some (name.toList, Nat.toDigits 10 i) := by
  rw [toList_bitName, Text.splitFirst_append h]

/-- The last `#` of the name of a bit sets off its number, since numerals have digits only. -/
theorem Tag.bitName_injective {x y : String} {i j : Nat} (h : bitName x i = bitName y j) :
    x = y ∧ i = j := by
  have hdigits : ∀ k, '#' ∉ (Nat.toDigits 10 k).reverse := by
    intro k hk
    exact absurd (Text.isDigit_of_mem_toDigits (List.mem_reverse.mp hk)) (by decide)
  have hsplit : ∀ z k, Text.splitFirst '#' (bitName z k).toList.reverse =
      some ((Nat.toDigits 10 k).reverse, z.toList.reverse) := by
    intro z k
    rw [toList_bitName, List.reverse_append, List.reverse_cons, List.append_assoc,
      List.singleton_append, Text.splitFirst_append (hdigits k)]
  have hpair := hsplit x i
  rw [h, hsplit y j, Option.some.injEq, Prod.mk.injEq, List.reverse_inj, List.reverse_inj] at hpair
  refine ⟨(String.toList_inj.mp hpair.2).symm, ?_⟩
  rw [← Text.digitsValue_toDigits i, ← hpair.1, Text.digitsValue_toDigits]

theorem Tag.bitName_ne {x y : String} (hy : Plain y) (i : Nat) : bitName x i ≠ y := by
  rintro rfl
  exact hy (by simp [toList_bitName])

namespace Interpretation

variable (I : Interpretation)

theorem inBits_truth {name : String} (h : Tag.Plain name) : I.inBits.truth name = I.truth name := by
  simp only [inBits, Text.splitFirst_eq_none h]

theorem inBits_truth_bitName {name : String} (h : Tag.Plain name) (i : Nat) :
    I.inBits.truth (Tag.bitName name i) = (I.number name).testBit i := by
  simp only [inBits, Tag.splitFirst_bitName h, String.ofList_toList, Text.digitsValue_toDigits]

end Interpretation

/-! ## Literals and disjunctions in bits -/

namespace Tag

/-- The table of largest tags covers a literal. -/
def Covered (max : MaxTags) (l : Literal) : Prop :=
  ∀ tag, l.tag = some tag → ∃ m, max[l.name]? = some m ∧ tag ≤ m

/-- An interpretation of bits says of a literal what another says, whose number is within the
largest tag. -/
structure Spells (max : MaxTags) (I J : Interpretation) (l : Literal) : Prop where
  truth : l.tag = none → J.truth l.name = I.truth l.name
  bits : l.tag ≠ none → ∀ m, max[l.name]? = some m → I.number l.name ≤ m ∧
    ∀ i < bitLength m, J.truth (bitName l.name i) = (I.number l.name).testBit i

/-- The variable of a literal about bits: an untagged variable of the given literals, or a bit of a
tagged one. -/
def BitOf (max : MaxTags) (d : Disjunction) (name : String) : Prop :=
  ∃ l ∈ d, l.tag = none ∧ name = l.name ∨
    l.tag ≠ none ∧ ∃ m, max[l.name]? = some m ∧ ∃ i < bitLength m, name = bitName l.name i

theorem BitOf.mono {max : MaxTags} {c d : Disjunction} {name : String} (h : BitOf max c name)
    (hcd : ∀ l ∈ c, l ∈ d) : BitOf max d name := by
  obtain ⟨l, hl, h⟩ := h
  exact ⟨l, hcd l hl, h⟩

/-- Clauses about bits that stand for a disjunction: they mention bits of its variables only, and
they hold for the bits of an interpretation within the largest tags exactly if it does. -/
structure Expands (max : MaxTags) (d : Disjunction) (ds : List Disjunction) : Prop where
  untagged : Disjunction.Boolean ds
  names : ∀ e ∈ ds, ∀ k ∈ e, BitOf max d k.name
  meaning : ∀ I J : Interpretation, (∀ l ∈ d, Spells max I J l) →
    (J.Satisfies ds ↔ d.holds I = true)

theorem forall_testBit_iff {n tag m : Nat} (hn : n ≤ m) (htag : tag ≤ m) :
    (∀ i < bitLength m, n.testBit i = tag.testBit i) ↔ n = tag := by
  constructor
  · have hm := lt_two_pow_bitLength m
    exact eq_of_testBit_eq_of_lt (Nat.lt_of_le_of_lt hn hm) (Nat.lt_of_le_of_lt htag hm)
  · rintro rfl _ _
    rfl

theorem holds_bitLiteral {J : Interpretation} {name : String} {n i : Nat}
    (h : J.truth (bitName name i) = n.testBit i) (tag : Nat) (positive : Bool) :
    Literal.holds J { name := bitName name i, positive := tag.testBit i == positive } =
      ((n.testBit i == tag.testBit i) == positive) := by
  simp only [Literal.holds, h]
  cases n.testBit i <;> cases tag.testBit i <;> cases positive <;> rfl

theorem untagged_bitLiterals {l k : Literal} {m : Nat} (hk : k ∈ bitLiterals l m) :
    k.tag = none ∧ ∃ i < bitLength m, k.name = bitName l.name i := by
  obtain ⟨i, hi, rfl⟩ := List.mem_map.mp hk
  exact ⟨rfl, i, List.mem_range.mp hi, rfl⟩

theorem oneOf_tagged {max : MaxTags} {name : String} {positive : Bool} {tag m : Nat}
    (hm : max[name]? = some m) (htag : tag ≤ m) :
    oneOf max ⟨name, positive, some tag⟩ =
      .ok (if positive then (bitLiterals ⟨name, positive, some tag⟩ m).map fun b => [b]
        else [bitLiterals ⟨name, positive, some tag⟩ m]) := by
  simp only [oneOf, hm, if_neg (Nat.not_lt.mpr htag)]

theorem mem_of_mem_each_or_all {p : Prop} [Decidable p] {bits d : Disjunction} {k : Literal}
    (hd : d ∈ if p then bits.map fun b => [b] else [bits]) (hk : k ∈ d) : k ∈ bits := by
  split_ifs at hd
  · obtain ⟨b, hb, rfl⟩ := List.mem_map.mp hd
    rwa [List.mem_singleton.mp hk]
  · rwa [← List.mem_singleton.mp hd]

theorem holds_bitLiterals {I J : Interpretation} {name : String} {tag m : Nat} (htag : tag ≤ m)
    (hI : I.number name ≤ m)
    (hJ : ∀ i < bitLength m, J.truth (bitName name i) = (I.number name).testBit i)
    (positive : Bool) :
    J.Satisfies (if positive then (bitLiterals ⟨name, positive, some tag⟩ m).map fun b => [b]
      else [bitLiterals ⟨name, positive, some tag⟩ m]) ↔
      Literal.holds I ⟨name, positive, some tag⟩ = true := by
  have hbits := forall_testBit_iff hI htag
  cases positive with
  | true =>
    have hsingle : ∀ l : Literal, Disjunction.holds J [l] = l.holds J := by simp [Disjunction.holds]
    simp only [if_true, Interpretation.Satisfies, List.forall_mem_map, bitLiterals, hsingle,
      List.mem_range, Option.getD_some]
    rw [show Literal.holds I ⟨name, true, some tag⟩ = (I.number name == tag) from beq_true _,
      beq_iff_eq, ← hbits]
    refine forall₂_congr fun i hi => ?_
    rw [holds_bitLiteral (hJ i hi), beq_true, beq_iff_eq]
  | false =>
    rw [if_neg Bool.false_ne_true, Interpretation.satisfies_cons,
      and_iff_left Interpretation.satisfies_nil, Disjunction.holds_iff,
      show Literal.holds I ⟨name, false, some tag⟩ = !(I.number name == tag) from beq_false _,
      Bool.not_eq_true', beq_eq_false_iff_ne, ne_eq, ← hbits]
    simp only [bitLiterals, List.mem_map, exists_exists_and_eq_and, List.mem_range,
      Option.getD_some, not_forall, exists_prop]
    refine exists_congr fun i => and_congr_right fun hi => ?_
    rw [holds_bitLiteral (hJ i hi), beq_false, Bool.not_eq_true', beq_eq_false_iff_ne]

/-- **A literal in bits.** -/
theorem oneOf_expands {max : MaxTags} {l : Literal} (hl : Covered max l) :
    ∃ ds, oneOf max l = .ok ds ∧ Expands max [l] ds := by
  obtain ⟨name, positive, _ | tag⟩ := l
  · refine ⟨_, rfl, ?_, ?_, fun I J hJ => ?_⟩
    · simp [Disjunction.Boolean]
    · simp [BitOf]
    · have htruth : J.truth name = I.truth name := (hJ _ (List.mem_singleton_self _)).truth rfl
      rw [Interpretation.satisfies_cons, and_iff_left Interpretation.satisfies_nil]
      simp [Disjunction.holds, Literal.holds, htruth]
  · obtain ⟨m, hm, htag⟩ := hl tag rfl
    refine ⟨_, oneOf_tagged hm htag, ?_, ?_, fun I J hJ => ?_⟩
    · intro e he k hk
      exact (untagged_bitLiterals (mem_of_mem_each_or_all he hk)).1
    · intro e he k hk
      obtain ⟨-, i, hi, hname⟩ := untagged_bitLiterals (mem_of_mem_each_or_all he hk)
      exact ⟨_, List.mem_singleton_self _, Or.inr ⟨by simp, m, hm, i, hi, hname⟩⟩
    · obtain ⟨hle, hbits⟩ := (hJ _ (List.mem_singleton_self _)).bits (by simp) m hm
      rw [holds_bitLiterals htag hle hbits]
      simp [Disjunction.holds]

theorem exists_satisfies_iff {max : MaxTags} {d : Disjunction} {dss : List (List Disjunction)}
    (h : List.Forall₂ (fun l ds => Expands max [l] ds) d dss) {I J : Interpretation}
    (hJ : ∀ l ∈ d, Spells max I J l) : (∃ ds ∈ dss, J.Satisfies ds) ↔ d.holds I = true := by
  induction h with
  | nil => simp [Disjunction.holds]
  | cons hl _ ih =>
    rw [List.forall_mem_cons] at hJ
    have hfirst := hl.meaning I J (List.forall_mem_singleton.mpr hJ.1)
    have hrest := ih hJ.2
    simp only [Disjunction.holds, List.any_cons, List.any_nil, Bool.or_false] at hfirst hrest ⊢
    rw [List.exists_mem_cons_iff, hfirst, hrest, Bool.or_eq_true]

theorem exists_expands_of_mem {max : MaxTags} {d : Disjunction} {dss : List (List Disjunction)}
    (h : List.Forall₂ (fun l ds => Expands max [l] ds) d dss) {ds : List Disjunction}
    (hds : ds ∈ dss) : ∃ l ∈ d, Expands max [l] ds := by
  induction h with
  | nil => simp at hds
  | cons hl _ ih =>
    rcases List.mem_cons.mp hds with rfl | hds
    · exact ⟨_, List.mem_cons_self, hl⟩
    · obtain ⟨l, hl, h⟩ := ih hds
      exact ⟨l, List.mem_cons_of_mem _ hl, h⟩

theorem Expands.of_forall₂ {max : MaxTags} {d : Disjunction} {dss : List (List Disjunction)}
    (h : List.Forall₂ (fun l ds => Expands max [l] ds) d dss) {ds : List Disjunction}
    (hmem : ∀ e ∈ ds, ∀ k ∈ e, ∃ cs ∈ dss, ∃ c ∈ cs, k ∈ c)
    (hsat : ∀ I : Interpretation, I.Satisfies ds ↔ ∃ cs ∈ dss, I.Satisfies cs) :
    Expands max d ds := by
  refine ⟨fun e he k hk => ?_, fun e he k hk => ?_, fun I J hJ => ?_⟩
  · obtain ⟨cs, hcs, c, hc, hkc⟩ := hmem e he k hk
    obtain ⟨l, -, hl⟩ := exists_expands_of_mem h hcs
    exact hl.untagged c hc k hkc
  · obtain ⟨cs, hcs, c, hc, hkc⟩ := hmem e he k hk
    obtain ⟨l, hld, hl⟩ := exists_expands_of_mem h hcs
    exact (hl.names c hc k hkc).mono fun m hm => by rwa [List.mem_singleton.mp hm]
  · rw [hsat, exists_satisfies_iff h hJ]

/-- **A disjunction in bits.** -/
theorem anyOf_expands {max : MaxTags} {d : Disjunction} (hd : ∀ l ∈ d, Covered max l) :
    ∃ ds, anyOf max d = .ok ds ∧ Expands max d ds := by
  obtain ⟨dss, hdss, h⟩ := mapM_eq_ok fun l hl => oneOf_expands (hd l hl)
  match dss, h with
  | [], h =>
    refine ⟨[[]], by rw [anyOf, hdss]; rfl, Expands.of_forall₂ h (by simp) fun I => ?_⟩
    simp [Interpretation.Satisfies, Disjunction.holds]
  | [only], h =>
    refine ⟨_, by rw [anyOf, hdss]; rfl, Expands.of_forall₂ h (fun e he k hk => ?_) fun I => ?_⟩
    · exact ⟨only, by simp, e, List.mem_mergeSort.mp he, hk⟩
    · rw [Interpretation.satisfies_congr_mem fun _ => List.mem_mergeSort]
      simp
  | first :: second :: rest, h =>
    refine ⟨_, by rw [anyOf, hdss]; rfl, Expands.of_forall₂ h (fun e he k hk => ?_) fun I => ?_⟩
    · have he' : e ∈ (second :: rest).foldl Disjunction.orOf first := he
      exact Interpretation.mem_foldl_orOf he' hk
    · rw [Interpretation.satisfies_foldl_orOf, Interpretation.satisfies_orOf]
      simp [or_assoc]

/-! ## Bounds -/

/-- **The bounds of variables in bits.** -/
theorem bounds_eq_ok (entries : List (String × Nat)) :
    ∃ ds, bounds entries = .ok ds ∧ Disjunction.Boolean ds ∧
      (∀ d ∈ ds, ∀ k ∈ d, ∃ e ∈ entries, ∃ i < bitLength (e.2 + 1), k.name = bitName e.1 i) ∧
      ∀ J : Interpretation, J.Satisfies ds ↔
        ∀ e ∈ entries, spelled (readBits J e.1 (bitLength (e.2 + 1))) ≤ e.2 := by
  induction entries with
  | nil =>
    exact ⟨[], rfl, by simp [Disjunction.Boolean], by simp, by simp [Interpretation.Satisfies]⟩
  | cons e entries ih =>
    obtain ⟨name, m⟩ := e
    obtain ⟨ds, hds, hbool, hnames, hsat⟩ := ih
    have hbelow : below name (m + 1 : Nat) =
        .ok (forbidFrom name (bitsOf (m + 1)).length (bitsOf (m + 1))) := by
      rw [below, if_neg (by omega)]
      simp
    refine ⟨_ ++ ds, by rw [bounds, ← Nat.cast_succ, hbelow, hds]; rfl, ?_, ?_, fun J => ?_⟩
    · intro d hd k hk
      rcases List.mem_append.mp hd with hd | hd
      · exact (mem_forbidFrom hd hk).1
      · exact hbool d hd k hk
    · intro d hd k hk
      rcases List.mem_append.mp hd with hd | hd
      · obtain ⟨-, i, hi, hk⟩ := mem_forbidFrom hd hk
        exact ⟨(name, m), List.mem_cons_self, i, by rwa [length_bitsOf] at hi, hk⟩
      · obtain ⟨e, he, h⟩ := hnames d hd k hk
        exact ⟨e, List.mem_cons_of_mem _ he, h⟩
    · rw [Interpretation.satisfies_append, satisfies_forbidFrom (by rw [spelled_bitsOf]; omega),
        spelled_bitsOf, length_bitsOf, Nat.lt_succ_iff, hsat, List.forall_mem_cons]

end Tag

/-! ## Clause lists -/

/-- The numbers of the tagged variables of a list are at most their largest tags. -/
def Interpretation.InRange (I : Interpretation) (cs : List Clause) : Prop :=
  ∀ name, Clause.Tagged cs name → I.number name ≤ Clause.largestTag cs name

/-- An interpretation of bits says of a name what another says: its truth, if it is used without a
tag, and the bits of its number, if it is used with a tag. -/
structure Interpretation.WritesAt (J I : Interpretation) (cs : List Clause) (name : String) :
    Prop where
  truth : Clause.Untagged cs name → J.truth name = I.truth name
  bits : Clause.Tagged cs name → ∀ i < Tag.bitLength (Clause.largestTag cs name + 1),
    J.truth (Tag.bitName name i) = (I.number name).testBit i

/-- An interpretation of bits says of all names what another says. -/
def Interpretation.Writes (J I : Interpretation) (cs : List Clause) : Prop :=
  ∀ name, J.WritesAt I cs name

/-- The numbers of the tagged variables of a list fit in their bits. -/
def Interpretation.FitsBits (I : Interpretation) (cs : List Clause) : Prop :=
  ∀ name, Clause.Tagged cs name →
    I.number name < 2 ^ Tag.bitLength (Clause.largestTag cs name + 1)

namespace Clause

theorem replaceTags_eq_ok {max : MaxTags} {cs : List Clause}
    (hcs : ∀ d ∈ disjunctions cs, ∀ l ∈ d, Tag.Covered max l) :
    ∃ es, replaceTags max cs = .ok es ∧ Disjunction.Boolean (disjunctions es) ∧
      (∀ e ∈ disjunctions es, ∀ k ∈ e, ∃ d ∈ disjunctions cs, Tag.BitOf max d k.name) ∧
      ∀ I J : Interpretation, (∀ d ∈ disjunctions cs, ∀ l ∈ d, Tag.Spells max I J l) →
        (J.Satisfies (disjunctions es) ↔ I.Satisfies (disjunctions cs)) := by
  induction cs with
  | nil =>
    exact ⟨[], rfl, by simp [Disjunction.Boolean], by simp, by simp [Interpretation.Satisfies]⟩
  | cons c cs ih =>
    cases c with
    | comment text =>
      obtain ⟨es, hes, h⟩ := ih hcs
      exact ⟨.comment text :: es, by rw [replaceTags, hes]; rfl, h⟩
    | disjunction d =>
      rw [disjunctions_disjunction, List.forall_mem_cons] at hcs
      obtain ⟨es, hes, hbool, hnames, hsat⟩ := ih hcs.2
      obtain ⟨ds, hds, hd⟩ := Tag.anyOf_expands hcs.1
      refine ⟨ds.map .disjunction ++ es, by rw [replaceTags, hds, hes]; rfl, ?_, ?_,
        fun I J hJ => ?_⟩
      all_goals rw [disjunctions_append, disjunctions_map]
      · exact fun e he => (List.mem_append.mp he).elim (hd.untagged e) (hbool e)
      · intro e he k hk
        rcases List.mem_append.mp he with he | he
        · exact ⟨d, List.mem_cons_self, hd.names e he k hk⟩
        · obtain ⟨c, hc, h⟩ := hnames e he k hk
          exact ⟨c, List.mem_cons_of_mem d hc, h⟩
      · rw [disjunctions_disjunction, List.forall_mem_cons] at hJ
        rw [Interpretation.satisfies_append, hd.meaning I J hJ.1, hsat I J hJ.2,
          disjunctions_disjunction, Interpretation.satisfies_cons]

variable {cs : List Clause}

theorem covered_maxOfClauses {d : Disjunction} (hd : d ∈ disjunctions cs) {l : Literal}
    (hl : l ∈ d) : Tag.Covered (Tag.maxOfClauses cs) l := by
  refine fun tag htag => ⟨largestTag cs l.name, ?_, ?_⟩
  · exact maxOfClauses_eq_some_iff.mpr ⟨⟨d, hd, l, hl, rfl, by simp [htag]⟩, rfl⟩
  · exact largestTag_le_iff.mp (Nat.le_refl _) d hd l hl rfl tag htag

theorem spells_of_writes {I J : Interpretation} (hJ : J.Writes I cs) (hI : I.InRange cs)
    {d : Disjunction} (hd : d ∈ disjunctions cs) {l : Literal} (hl : l ∈ d) :
    Tag.Spells (Tag.maxOfClauses cs) I J l where
  truth htag := (hJ l.name).truth ⟨d, hd, l, hl, rfl, htag⟩
  bits htag m hm := by
    obtain ⟨htagged, rfl⟩ := maxOfClauses_eq_some_iff.mp hm
    refine ⟨hI l.name htagged, fun i hi => (hJ l.name).bits htagged i ?_⟩
    exact Nat.lt_of_lt_of_le hi (Tag.bitLength_mono (Nat.le_succ _))

theorem spelled_readBits_of_writes {I J : Interpretation} (hJ : J.Writes I cs) (hI : I.FitsBits cs)
    {name : String} (hname : Tagged cs name) :
    Tag.spelled (Tag.readBits J name (Tag.bitLength (largestTag cs name + 1))) =
      I.number name := by
  have hread : Tag.readBits J name (Tag.bitLength (largestTag cs name + 1)) =
      (List.range (Tag.bitLength (largestTag cs name + 1))).map (I.number name).testBit :=
    List.map_congr_left fun i hi => (hJ name).bits hname i (List.mem_range.mp hi)
  rw [hread, Tag.spelled_map_testBit, Nat.mod_eq_of_lt (hI name hname)]

theorem isEmpty_maxOfClauses : (Tag.maxOfClauses cs).isEmpty = true ↔ ∀ name, ¬ Tagged cs name := by
  rw [Std.TreeMap.isEmpty_iff_forall_not_mem]
  refine forall_congr' fun name => not_congr ?_
  rw [Std.TreeMap.mem_iff_isSome_getElem?, getElem?_maxOfClauses]
  split_ifs with h <;> simp [h]

/-- The variables of a list in bits: the untagged variables, and bits of the tagged ones. -/
def VariableInBits (cs : List Clause) (name : String) : Prop :=
  Untagged cs name ∨ ∃ base, Tagged cs base ∧
    ∃ i < Tag.bitLength (largestTag cs base + 1), name = Tag.bitName base i

theorem variableInBits_of_bitOf {d : Disjunction} (hd : d ∈ disjunctions cs) {name : String}
    (h : Tag.BitOf (Tag.maxOfClauses cs) d name) : VariableInBits cs name := by
  obtain ⟨l, hl, ⟨htag, rfl⟩ | ⟨htag, m, hm, i, hi, rfl⟩⟩ := h
  · exact Or.inl ⟨d, hd, l, hl, rfl, htag⟩
  · obtain ⟨htagged, rfl⟩ := maxOfClauses_eq_some_iff.mp hm
    exact Or.inr ⟨l.name, htagged, i,
      Nat.lt_of_lt_of_le hi (Tag.bitLength_mono (Nat.le_succ _)), rfl⟩

theorem bounds_maxOfClauses (cs : List Clause) :
    ∃ bs, Tag.bounds (Tag.maxOfClauses cs).toList = .ok bs ∧ Disjunction.Boolean bs ∧
      (∀ e ∈ bs, ∀ k ∈ e, VariableInBits cs k.name) ∧
      ∀ I J : Interpretation, J.Writes I cs → I.FitsBits cs → (J.Satisfies bs ↔ I.InRange cs) := by
  have hentries : ∀ name m, (name, m) ∈ (Tag.maxOfClauses cs).toList ↔
      Tagged cs name ∧ largestTag cs name = m := fun name m => by
    rw [Std.TreeMap.mem_toList_iff_getElem?_eq_some, maxOfClauses_eq_some_iff]
  obtain ⟨bs, hbs, hbool, hnames, hsat⟩ := Tag.bounds_eq_ok (Tag.maxOfClauses cs).toList
  refine ⟨bs, hbs, hbool, ?_, fun I J hJ hI => (hsat J).trans ?_⟩
  · intro e he k hk
    obtain ⟨⟨base, m⟩, hm, i, hi, hk⟩ := hnames e he k hk
    obtain ⟨htagged, rfl⟩ := (hentries base m).mp hm
    exact Or.inr ⟨base, htagged, i, hi, hk⟩
  · constructor
    · intro h name hname
      rw [← spelled_readBits_of_writes hJ hI hname]
      exact h (name, largestTag cs name) ((hentries _ _).mpr ⟨hname, rfl⟩)
    · rintro h ⟨name, m⟩ hm
      obtain ⟨hname, rfl⟩ := (hentries name m).mp hm
      rw [spelled_readBits_of_writes hJ hI hname]
      exact h name hname

/-- **A list in bits** means the list together with the ranges of the tagged variables. -/
theorem expandTags_writes (cs : List Clause) :
    ∃ es, expandTags cs = .ok es ∧ Disjunction.Boolean (disjunctions es) ∧
      (∀ e ∈ disjunctions es, ∀ k ∈ e, VariableInBits cs k.name) ∧
      ∀ I J : Interpretation, J.Writes I cs → I.FitsBits cs →
        (J.Satisfies (disjunctions es) ↔ I.InRange cs ∧ I.Satisfies (disjunctions cs)) := by
  by_cases hempty : (Tag.maxOfClauses cs).isEmpty = true
  · -- Without tags the list stays as it is.
    have htagged := isEmpty_maxOfClauses.mp hempty
    have hbool : Disjunction.Boolean (disjunctions cs) := fun d hd l hl => by
      by_contra h
      exact htagged l.name ⟨d, hd, l, hl, rfl, h⟩
    refine ⟨cs, by simp only [expandTags, hempty, if_true]; rfl, hbool, ?_, fun I J hJ _ => ?_⟩
    · exact fun d hd l hl => Or.inl ⟨d, hd, l, hl, rfl, hbool d hd l hl⟩
    · have hrange : I.InRange cs := fun name h => absurd h (htagged name)
      rw [and_iff_right hrange]
      refine Interpretation.Satisfies.congr fun d hd l hl => ?_
      have htag := hbool d hd l hl
      simp only [Literal.holds, htag, (hJ l.name).truth ⟨d, hd, l, hl, rfl, htag⟩]
  · obtain ⟨es, hes, hbool, hnames, hsat⟩ :=
      @replaceTags_eq_ok (Tag.maxOfClauses cs) cs fun d hd l hl => covered_maxOfClauses hd hl
    obtain ⟨bs, hbs, hbool', hnames', hrange⟩ := bounds_maxOfClauses cs
    refine ⟨es ++ .comment "Setting upper bound on tags." :: bs.map .disjunction,
      by simp only [expandTags, if_neg hempty, hes, hbs]; rfl, ?_, ?_, fun I J hJ hI => ?_⟩
    all_goals rw [disjunctions_append, disjunctions_comment, disjunctions_map]
    · exact fun e he => (List.mem_append.mp he).elim (hbool e) (hbool' e)
    · intro e he k hk
      rcases List.mem_append.mp he with he | he
      · obtain ⟨d, hd, h⟩ := hnames e he k hk
        exact variableInBits_of_bitOf hd h
      · exact hnames' e he k hk
    · rw [Interpretation.satisfies_append, hrange I J hJ hI, and_comm]
      exact and_congr_right fun h => hsat I J fun d hd l hl => spells_of_writes hJ h hd hl

theorem writes_inBits (hplain : ∀ d ∈ disjunctions cs, ∀ l ∈ d, Tag.Plain l.name)
    (I : Interpretation) : I.inBits.Writes I cs := by
  refine fun name => ⟨?_, ?_⟩
  · rintro ⟨d, hd, l, hl, rfl, -⟩
    exact I.inBits_truth (hplain d hd l hl)
  · rintro ⟨d, hd, l, hl, rfl, -⟩ i _
    exact I.inBits_truth_bitName (hplain d hd l hl) i

theorem expandTags_eq_ok (hplain : ∀ d ∈ disjunctions cs, ∀ l ∈ d, Tag.Plain l.name) :
    ∃ es, expandTags cs = .ok es ∧ Disjunction.Boolean (disjunctions es) ∧
      (∀ e ∈ disjunctions es, ∀ k ∈ e, VariableInBits cs k.name) ∧
      ∀ I : Interpretation,
        (∀ name, Tagged cs name → I.number name < 2 ^ Tag.bitLength (largestTag cs name + 1)) →
        (I.inBits.Satisfies (disjunctions es) ↔ I.InRange cs ∧ I.Satisfies (disjunctions cs)) := by
  obtain ⟨es, hes, hbool, hnames, hsat⟩ := expandTags_writes cs
  exact ⟨es, hes, hbool, hnames, fun I => hsat I I.inBits (writes_inBits hplain I)⟩

end Clause

end CellSat
