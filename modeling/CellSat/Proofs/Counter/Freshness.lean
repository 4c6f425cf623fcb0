import Mathlib
import CellSat.Proofs.Cnf.Numbering
import CellSat.Proofs.Counter.Exact
/-!
# The temporaries of bounds

The clauses of a bound speak about what it counts and about temporaries, which are numbered on from
those that were issued before. No variable of a cell or of a helper has the name of a temporary. So
clauses with different temporaries can be satisfied together if each can be satisfied by itself.

* `Temporary.Named`, `Temporary.Varies`: names of temporaries, and what differs in them only;
* **`Temporary.exists_varies_iff`**: clauses with different temporaries;
* `Comparator.forall_count`, **`Bound.forall_clauses64`**: the literals of a bound.
-/

namespace CellSat

/-! ## Other values of temporaries -/

namespace Temporary

variable {I J : Interpretation}

/-- The names of temporaries. -/
def Named (name : String) : Prop := ∃ k, (literal k).name = name

/-- The second interpretation differs from the first one in values of temporaries at most. -/
structure Varies (I J : Interpretation) : Prop where
  number : J.number = I.number
  truth : ∀ name, ¬ Named name → J.truth name = I.truth name

theorem name_injective {k m : Nat} (h : (literal k).name = (literal m).name) : k = m :=
  literal_injective (congrArg (fun name => ({ name } : Literal)) h)

theorem not_mem_name {c : Char} (hc : c ∉ ['\x7b', 'x', '\x7d'])
    (hdigit : Text.digitValue? c = none) (k : Nat) : c ∉ (literal k).name.toList := by
  have hdigits := Text.digitValue?_ne_none (Text.readBaseFrom?_padStart_hex 3 k)
  simp only [List.mem_cons, List.not_mem_nil, or_false, not_or] at hc
  simp only [literal, String.toList_append, List.mem_append, not_or]
  exact ⟨⟨by simp [hc], fun h => hdigits c h hdigit⟩, by simp [hc]⟩

theorem not_named_append_name (start : String) (n : Node) : ¬ Named (start ++ n.name) := by
  rintro ⟨k, hk⟩
  refine not_mem_name (c := '_') (by decide) (by decide) k ?_
  rw [hk]
  simp [Node.name]

theorem not_named_zeroName : ¬ Named Literal.zeroName := fun ⟨k, hk⟩ => name_ne_zeroName k hk

theorem not_named_of_isOrdinary {l : Literal} (h : l.IsOrdinary) : ¬ Named l.name := by
  rintro ⟨k, hk⟩
  have hname := isName_literal k
  rw [hk, h.1] at hname
  contradiction

theorem Varies.refl (I : Interpretation) : Varies I I := ⟨rfl, fun _ _ => rfl⟩

theorem Varies.satisfies_iff (h : Varies I J) {ds : List Disjunction}
    (hds : ∀ d ∈ ds, ∀ l ∈ d, ¬ Named l.name) : J.Satisfies ds ↔ I.Satisfies ds :=
  Interpretation.Satisfies.congr fun d hd l hl =>
    Literal.holds_congr (h.truth l.name (hds d hd l hl)) (by rw [h.number])

/-- Clauses in which no temporary of other clauses occurs. -/
def Apart (cs cs' : List Clause) : Prop :=
  ∀ name, Named name → name ∈ Clause.variableNames cs → name ∉ Clause.variableNames cs'

/-- One interpretation on the variables of some clauses, another one elsewhere. -/
def splice (cs : List Clause) (J K : Interpretation) : Interpretation where
  truth name := if name ∈ Clause.variableNames cs then J.truth name else K.truth name
  number := K.number

variable {K : Interpretation} {cs : List Clause}

theorem varies_splice (hJ : Varies I J) (hK : Varies I K) : Varies I (splice cs J K) where
  number := hK.number
  truth name hname := by
    show (if name ∈ Clause.variableNames cs then J.truth name else K.truth name) = _
    rw [hJ.truth name hname, hK.truth name hname, ite_self]

theorem satisfies_splice_left (hJ : Varies I J) (hK : Varies I K) :
    (splice cs J K).Satisfies (Clause.disjunctions cs) ↔ J.Satisfies (Clause.disjunctions cs) := by
  refine Interpretation.Satisfies.congr fun d hd l hl => Literal.holds_congr ?_ ?_
  · exact if_pos (Clause.mem_variableNames.mpr ⟨d, hd, l, hl, rfl⟩)
  · show K.number l.name = J.number l.name
    rw [hJ.number, hK.number]

theorem satisfies_splice_right {cs' : List Clause} (hapart : Apart cs cs') (hJ : Varies I J)
    (hK : Varies I K) :
    (splice cs J K).Satisfies (Clause.disjunctions cs') ↔
      K.Satisfies (Clause.disjunctions cs') := by
  refine Interpretation.Satisfies.congr fun d hd l hl => Literal.holds_congr ?_ rfl
  have hmem : l.name ∈ Clause.variableNames cs' := Clause.mem_variableNames.mpr ⟨d, hd, l, hl, rfl⟩
  by_cases hname : Named l.name
  · exact if_neg fun h => hapart l.name hname h hmem
  · rw [(varies_splice hJ hK).truth l.name hname, hK.truth l.name hname]

/-- **Independence** of clauses with different temporaries. -/
theorem exists_varies_iff {css : List (List Clause)} (hapart : css.Pairwise Apart) :
    (∃ J, Varies I J ∧ ∀ cs ∈ css, J.Satisfies (Clause.disjunctions cs)) ↔
      ∀ cs ∈ css, ∃ J, Varies I J ∧ J.Satisfies (Clause.disjunctions cs) := by
  constructor
  · rintro ⟨J, hJ, hall⟩ cs hcs
    exact ⟨J, hJ, hall cs hcs⟩
  · intro h
    induction css with
    | nil => exact ⟨I, .refl I, by simp⟩
    | cons cs css ih =>
      obtain ⟨hcs, hcss⟩ := List.pairwise_cons.mp hapart
      obtain ⟨⟨J, hJ, hhead⟩, htail⟩ := List.forall_mem_cons.mp h
      obtain ⟨K, hK, htail⟩ := ih hcss htail
      refine ⟨splice cs J K, varies_splice hJ hK, List.forall_mem_cons.mpr ⟨?_, ?_⟩⟩
      · exact (satisfies_splice_left hJ hK).mpr hhead
      · intro cs' hcs'
        exact (satisfies_splice_right (hcs cs' hcs') hJ hK).mpr (htail cs' hcs')

end Temporary

/-! ## The literals of a bound -/

theorem Adder.forall_clauses {P : Literal → Prop} (hnegate : ∀ l, P l → P l.negate)
    {adders : List Adder}
    (hadders : ∀ a ∈ adders, P a.sum ∧ P a.carry ∧ P a.first ∧ P a.second ∧
      (P a.third ∨ a.third = .zero)) : ∀ d ∈ clauses adders, ∀ l ∈ d, P l := by
  intro d hd
  obtain ⟨hd, hends⟩ := List.mem_filter.mp hd
  obtain ⟨a, ha, hd⟩ := List.mem_flatMap.mp hd
  obtain ⟨hsum, hcarry, hfirst, hsecond, hthird⟩ := hadders a ha
  have hfirst' := hnegate _ hfirst
  have hsecond' := hnegate _ hsecond
  rcases hthird with hthird | hzero
  · have hthird' := hnegate _ hthird
    simp only [allClauses, List.mem_cons, List.not_mem_nil, or_false] at hd
    rcases hd with rfl | rfl | rfl | rfl | rfl | rfl | rfl <;> simp [*]
  · simp only [allClauses, List.mem_cons, List.not_mem_nil, or_false] at hd
    rcases hd with rfl | rfl | rfl | rfl | rfl | rfl | rfl <;>
      simp [endsInZero, hzero, Literal.negate, Literal.zero] at hends <;> simp [*]

namespace Count

variable {P : Literal → Prop} {issued : Nat} {literals : List Literal} {limit : Int}

theorem forall_fixOutputs (hnegate : ∀ l, P l → P l.negate) {outputs : List Literal}
    (houtputs : ∀ l ∈ outputs, P l) (digit : Nat) :
    ∀ d ∈ fixOutputs limit digit outputs, ∀ l ∈ d, P l := by
  induction outputs generalizing digit with
  | nil => simp [fixOutputs]
  | cons o outputs ih =>
    obtain ⟨ho, houtputs⟩ := List.forall_mem_cons.mp houtputs
    refine List.forall_mem_cons.mpr ⟨?_, ih houtputs (digit + 1)⟩
    rw [List.forall_mem_singleton]
    cases !limitBit limit digit with
    | false => simpa [Literal.flipIf] using ho
    | true =>
      have hflip : o.flipIf true = o.negate := by simp [Literal.flipIf, Literal.negate]
      exact hflip ▸ hnegate o ho

theorem forall_atMost (hnegate : ∀ l, P l → P l.negate) (hliterals : ∀ l ∈ literals, P l)
    (htemporary : ∀ k, issued < k → k ≤ issued + (atMost issued literals limit).temporaries →
      P (Temporary.literal k)) :
    ∀ d ∈ (atMost issued literals limit).clauses, ∀ l ∈ d, P l := by
  by_cases hne : literals = []
  · rw [hne, clauses_atMost_nil]
    split_ifs <;> simp
  · have hadds := Network.build_adds issued hne
    have hwires : ∀ p ∈ Network.wiresAt 0 literals, P p.2 := fun p hp =>
      hliterals p.2 (Network.mem_wiresAt.mp hp).2
    have houtputs : ∀ l ∈ (Network.build issued literals).2, P l := by
      intro l hl
      obtain ⟨i, hi⟩ := List.getElem?_of_mem hl
      rcases hadds.mem_or (Network.mem_placed.mpr ⟨i, hi, rfl⟩) with hmem | ⟨k, hk, hk', rfl⟩
      · exact hwires _ hmem
      · exact htemporary k hk hk'
    intro d hd
    rcases List.mem_append.mp hd with hd | hd
    · refine Adder.forall_clauses hnegate (fun a ha => ?_) d hd
      obtain ⟨hfirst, hsecond, hthird, ⟨k, hk, hk', hsum⟩, m, hm, hm', hcarry⟩ :=
        hadds.forall_adders hwires htemporary ha
      exact ⟨hsum ▸ htemporary k hk hk', hcarry ▸ htemporary m hm hm', hfirst, hsecond, hthird⟩
    · simp only [atMost, ofNetwork] at hd
      split_ifs at hd with hout hlimit
      · obtain rfl : d = [] := by simpa using hd
        simp
      · simp at hd
      · exact forall_fixOutputs hnegate houtputs 0 d hd

end Count

theorem Comparator.exists_atMost32 {comparator : Comparator} {issued : Nat}
    {literals : List Literal} {limit : Int} {c : Count}
    (h : comparator.count issued literals limit = .ok c) :
    ∃ literals' limit', (literals' = literals ∨ literals' = literals.map Literal.negate) ∧
      Count.atMost32 issued literals' limit' = .ok c := by
  cases comparator with
  | atMost => exact ⟨literals, limit, .inl rfl, h⟩
  | atLeast =>
    obtain ⟨others, -, h⟩ := bind_eq_ok.mp h
    exact ⟨_, others, .inr rfl, h⟩

theorem Comparator.forall_count {comparator : Comparator} {issued : Nat} {literals : List Literal}
    {limit : Int} {c : Count} {P : Literal → Prop} (hnegate : ∀ l, P l → P l.negate)
    (h : comparator.count issued literals limit = .ok c) (hliterals : ∀ l ∈ literals, P l)
    (htemporary : ∀ k, issued < k → k ≤ issued + c.temporaries → P (Temporary.literal k)) :
    ∀ d ∈ c.clauses, ∀ l ∈ d, P l := by
  obtain ⟨literals', limit', hliterals', hc⟩ := exists_atMost32 h
  obtain rfl := Count.eq_of_atMost32 hc
  refine Count.forall_atMost hnegate ?_ htemporary
  rcases hliterals' with rfl | rfl
  · exact hliterals
  · intro l hl
    obtain ⟨l', hl', rfl⟩ := List.mem_map.mp hl
    exact hnegate l' (hliterals l' hl')

namespace Bound

variable {b : Bound} {lattice : Lattice} {grid : List Node} {issued issued' : Nat}
  {cs : List Clause}

theorem mem_literals {l : Literal} (h : l ∈ b.literals lattice grid) :
    ∃ n ∈ lattice.layer grid b.generation, ∃ start, l = { name := start ++ n.name } ∧
      (b.helper = none → start = "") ∧ (b.helper ≠ none → ['$'] <:+ start.toList) := by
  obtain ⟨n, hn, rfl⟩ := List.mem_map.mp h
  refine ⟨n, hn, _, rfl, ?_⟩
  cases b.helper with
  | none => simp
  | some name => simp

/-- **The literals of a bound** are about what it counts and what it issues. -/
theorem forall_clauses64 (h : b.clauses64 lattice grid issued = .ok (cs, issued')) :
    issued ≤ issued' ∧ ∀ d ∈ Clause.disjunctions cs, ∀ l ∈ d, l.tag = none ∧
      ((∃ l' ∈ b.literals lattice grid, l'.name = l.name) ∨
        ∃ k, issued < k ∧ k ≤ issued' ∧ (Temporary.literal k).name = l.name) := by
  obtain ⟨c, hc, h⟩ := bind_eq_ok.mp h
  obtain ⟨rfl, rfl⟩ := Prod.mk.inj (Except.ok.inj h)
  refine ⟨Nat.le_add_right _ _, ?_⟩
  rw [heading, Clause.disjunctions_comment, Clause.disjunctions_map]
  refine Comparator.forall_count (fun l hl => hl) hc (fun l hl => ?_) fun k hk hk' => ?_
  · obtain ⟨n, -, start, rfl, -⟩ := mem_literals hl
    exact ⟨rfl, .inl ⟨_, hl, rfl⟩⟩
  · exact ⟨rfl, .inr ⟨k, hk, hk', rfl⟩⟩

theorem le_of_clauses64 (h : b.clauses64 lattice grid issued = .ok (cs, issued'))
    (hissued : issued ≤ Word.maxNat32) : issued' ≤ Word.maxNat32 := by
  obtain ⟨c, hc, h⟩ := bind_eq_ok.mp h
  obtain ⟨-, rfl⟩ := Prod.mk.inj (Except.ok.inj h)
  obtain ⟨literals, limit, -, hc⟩ := Comparator.exists_atMost32 hc
  exact Count.le_of_atMost32 hc hissued

end Bound

end CellSat
