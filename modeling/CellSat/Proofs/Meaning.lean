import Mathlib
import CellSat.Clause.Algebra
import CellSat.Cnf.Formula
import CellSat.Proofs.Checked
/-!
# The meaning of clauses

An interpretation gives a truth value to each boolean variable and a number to each many-valued
one. A literal with a tag compares the number of its variable with the tag.

* `mem_sortedSet`, `nodup_sortedSet`, `sortedSet_eq_of_lt`: sorting into a set keeps the members and
  repeats none;
* `Interpretation`, `Literal.holds`, `Disjunction.holds`, `Interpretation.Satisfies`;
* `Interpretation.along`: what an interpretation says after names are changed;
* `satisfies_orOf`: the algebraic "or" of two conjunctions means their disjunction;
* `satisfies_minimize`: minimizing a list without tags keeps its meaning;
* `Satisfies.congr`: the meaning depends on the mentioned variables only.
-/

namespace CellSat

/-! ## Sorted sets -/

section SortedSet

variable {α : Type} [DecidableEq α]

theorem mem_distinct {a : α} {l : List α} : a ∈ distinct l ↔ a ∈ l := by
  fun_induction distinct l with
  | case1 => rfl
  | case2 b => rfl
  | case3 b l ih => rw [ih]; simp
  | case4 b c l _ ih => simp only [List.mem_cons, ih]

theorem nodup_distinct {r : α → α → Prop} (hr : ∀ a b, r a b → r b a → a = b) {l : List α}
    (hl : l.Pairwise r) : (distinct l).Nodup := by
  fun_induction distinct l with
  | case1 => exact List.nodup_nil
  | case2 b => exact List.nodup_singleton b
  | case3 b l ih => exact ih hl.of_cons
  | case4 b c l hbc ih =>
    refine List.nodup_cons.mpr ⟨fun hb => ?_, ih hl.of_cons⟩
    rw [mem_distinct] at hb
    have hbc' : r b c := List.rel_of_pairwise_cons hl List.mem_cons_self
    rcases List.mem_cons.mp hb with h | h
    · exact hbc h
    · exact hbc (hr b c hbc' (List.rel_of_pairwise_cons hl.of_cons h))

theorem distinct_sublist (l : List α) : (distinct l).Sublist l := by
  fun_induction distinct l with
  | case1 => exact .slnil
  | case2 b => exact .refl _
  | case3 b l ih => exact ih.cons b
  | case4 b c l _ ih => exact ih.cons_cons b

variable {cmp : α → α → Ordering}

@[simp] theorem mem_sortedSet {a : α} {l : List α} : a ∈ sortedSet cmp l ↔ a ∈ l := by
  rw [sortedSet, mem_distinct, List.mem_mergeSort]

omit [DecidableEq α] in
theorem pairwise_mergeSort_isLE [Std.TransCmp cmp] (l : List α) :
    (l.mergeSort fun a b => (cmp a b).isLE).Pairwise fun a b => (cmp a b).isLE = true := by
  refine List.pairwise_mergeSort (fun a b c => Std.TransCmp.isLE_trans) (fun a b => ?_) l
  rw [@Std.OrientedCmp.eq_swap _ cmp _ b a]
  cases cmp a b <;> rfl

theorem nodup_sortedSet [Std.TransCmp cmp] [Std.LawfulEqCmp cmp] (l : List α) :
    (sortedSet cmp l).Nodup := by
  refine nodup_distinct (fun a b hab hba => ?_) (pairwise_mergeSort_isLE l)
  exact Std.LawfulEqCmp.eq_of_compare (Std.OrientedCmp.isLE_antisymm hab hba)

theorem sortedSet_eq_of_lt [Std.TransCmp cmp] [Std.LawfulEqCmp cmp] {l m : List α}
    (hm : m.Pairwise fun a b => cmp a b = .lt) (hmem : ∀ a, a ∈ l ↔ a ∈ m) :
    sortedSet cmp l = m := by
  have hsorted := (@pairwise_mergeSort_isLE _ cmp _ l).sublist (distinct_sublist _)
  have hnodup : m.Nodup := hm.imp fun {a b} hlt heq => by
    rw [heq, @Std.ReflCmp.compare_self _ cmp] at hlt
    contradiction
  refine List.Perm.eq_of_pairwise (fun a b _ _ hab hba => ?_) hsorted
    (hm.imp fun hlt => by rw [hlt]; rfl) ?_
  · exact Std.LawfulEqCmp.eq_of_compare (Std.OrientedCmp.isLE_antisymm hab hba)
  · refine (List.perm_ext_iff_of_nodup (nodup_sortedSet l) hnodup).mpr fun a => ?_
    rw [mem_sortedSet, hmem]

omit [DecidableEq α] in
theorem mergeSort_eq_of_perm [Std.TransCmp cmp] [Std.LawfulEqCmp cmp] {l m : List α}
    (hlm : l.Perm m) (hm : m.Pairwise fun a b => (cmp a b).isLE = true) :
    l.mergeSort (fun a b => (cmp a b).isLE) = m := by
  refine List.Perm.eq_of_pairwise (fun a b _ _ hab hba => ?_) (pairwise_mergeSort_isLE l) hm
    ((List.mergeSort_perm l _).trans hlm)
  exact Std.LawfulEqCmp.eq_of_compare (Std.OrientedCmp.isLE_antisymm hab hba)

end SortedSet

theorem foldl_max_le_iff {l : List Nat} {b c : Nat} :
    l.foldl Nat.max b ≤ c ↔ b ≤ c ∧ ∀ a ∈ l, a ≤ c := by
  induction l generalizing b with
  | nil => simp
  | cons a l ih => rw [List.foldl_cons, ih, Nat.max_le, and_assoc, List.forall_mem_cons]

instance : Std.TransCmp Literal.compare :=
  inferInstanceAs (Std.TransCmp (compareLex (compareOn Literal.name)
    (compareLex (compareOn Literal.positive)
      (compareLex (compareOn fun l => l.tag.getD 0) (compareOn fun l => l.tag.isSome)))))

instance : Std.LawfulEqCmp Literal.compare where
  eq_of_compare {a b} h := by
    simp only [Literal.compare, Ordering.then_eq_eq, Std.LawfulEqOrd.compare_eq_iff_eq] at h
    obtain ⟨hname, hpositive, htag, hsome⟩ := h
    rcases a with ⟨_, _, _ | _⟩ <;> rcases b with ⟨_, _, _ | _⟩ <;> simp_all

@[simp] theorem Literal.mem_toSet {l : Literal} {d : Disjunction} : l ∈ Literal.toSet d ↔ l ∈ d :=
  mem_sortedSet

@[simp] theorem Disjunction.mem_toSet {d : Disjunction} {ds : List Disjunction} :
    d ∈ Disjunction.toSet ds ↔ d ∈ ds :=
  mem_sortedSet

/-! ## Interpretations -/

/-- The values of variables: a truth value of each name as a boolean variable, and a number of each
name as a many-valued one. -/
structure Interpretation where
  truth : String → Bool
  number : String → Nat

/-- Whether a literal is true: a tag asks for that number. -/
def Literal.holds (I : Interpretation) (l : Literal) : Bool :=
  match l.tag with
  | none => I.truth l.name == l.positive
  | some tag => (I.number l.name == tag) == l.positive

/-- Whether one of the literals is true. -/
def Disjunction.holds (I : Interpretation) (d : Disjunction) : Bool := d.any (Literal.holds I)

/-- All of the disjunctions are true. -/
def Interpretation.Satisfies (I : Interpretation) (ds : List Disjunction) : Prop :=
  ∀ d ∈ ds, Disjunction.holds I d = true

variable {I : Interpretation}

@[simp] theorem Literal.holds_negate (l : Literal) : l.negate.holds I = !l.holds I := by
  rcases l with ⟨name, positive, _ | tag⟩ <;> cases positive <;> simp [Literal.holds, negate]

theorem Literal.holds_congr {J : Interpretation} {l : Literal}
    (ht : I.truth l.name = J.truth l.name) (hn : I.number l.name = J.number l.name) :
    l.holds I = l.holds J := by
  simp only [Literal.holds, ht, hn]

theorem Disjunction.holds_iff {d : Disjunction} : d.holds I = true ↔ ∃ l ∈ d, l.holds I = true := by
  simp [Disjunction.holds]

theorem Disjunction.holds_congr {c d : Disjunction} (h : ∀ l, l ∈ c ↔ l ∈ d) :
    c.holds I = d.holds I := by
  rw [Bool.eq_iff_iff, holds_iff, holds_iff]
  simp only [h]

@[simp] theorem Disjunction.holds_toSet (d : Disjunction) :
    Disjunction.holds I (Literal.toSet d) = d.holds I :=
  Disjunction.holds_congr fun _ => Literal.mem_toSet

@[simp] theorem Disjunction.holds_union (c d : Disjunction) :
    (Disjunction.union c d).holds I = (c.holds I || d.holds I) := by
  rw [union, holds_toSet]
  exact List.any_append

theorem Disjunction.holds_of_isTautology {d : Disjunction} (h : d.isTautology = true) :
    d.holds I = true := by
  obtain ⟨l, hl, hn⟩ := List.any_eq_true.mp h
  rw [List.contains_iff_mem] at hn
  rw [holds_iff]
  by_cases hh : l.holds I = true
  · exact ⟨l, hl, hh⟩
  · exact ⟨l.negate, hn, by simpa using hh⟩

/-- The interpretation of names by the names that they are changed to. -/
def Interpretation.along (I : Interpretation) (f : String → String) : Interpretation :=
  ⟨fun name => I.truth (f name), fun name => I.number (f name)⟩

theorem Disjunction.holds_rename (f : String → String) (d : Disjunction) :
    Disjunction.holds I (d.map fun l => l.rename (f l.name)) = d.holds (I.along f) := by
  rw [Disjunction.holds, List.any_map]
  rfl

theorem Disjunction.holds_of_perm {c d : Disjunction} (h : c.Perm d) : c.holds I = d.holds I :=
  Disjunction.holds_congr fun _ => h.mem_iff

namespace Interpretation

theorem satisfies_nil : I.Satisfies [] := by simp [Satisfies]

theorem satisfies_cons {d : Disjunction} {ds : List Disjunction} :
    I.Satisfies (d :: ds) ↔ d.holds I = true ∧ I.Satisfies ds := by
  simp [Satisfies]

theorem satisfies_append {cs ds : List Disjunction} :
    I.Satisfies (cs ++ ds) ↔ I.Satisfies cs ∧ I.Satisfies ds := by
  simp only [Satisfies, List.forall_mem_append]

theorem satisfies_congr_mem {cs ds : List Disjunction} (h : ∀ d, d ∈ cs ↔ d ∈ ds) :
    I.Satisfies cs ↔ I.Satisfies ds := by
  simp only [Satisfies, h]

theorem Satisfies.congr {J : Interpretation} {ds : List Disjunction}
    (h : ∀ d ∈ ds, ∀ l ∈ d, l.holds I = l.holds J) : I.Satisfies ds ↔ J.Satisfies ds := by
  refine forall_congr' fun d => forall_congr' fun hd => ?_
  rw [Disjunction.holds_iff, Disjunction.holds_iff]
  exact exists_congr fun l => and_congr_right fun hl => by rw [h d hd l hl]

/-! ## The "or" of conjunctions -/

theorem holds_of_satisfies_orOf {cs ds : List Disjunction}
    (h : I.Satisfies (Disjunction.orOf cs ds))
    {c d : Disjunction} (hc : c ∈ cs) (hd : d ∈ ds) : (c.holds I || d.holds I) = true := by
  rw [← Disjunction.holds_union]
  by_cases ht : (Disjunction.union c d).isTautology = true
  · exact Disjunction.holds_of_isTautology ht
  · refine h _ (Disjunction.mem_toSet.mpr (List.mem_filter.mpr ⟨?_, by simpa using ht⟩))
    exact List.mem_flatMap.mpr ⟨c, hc, List.mem_map_of_mem hd⟩

/-- **The "or" of two conjunctions.** -/
theorem satisfies_orOf {cs ds : List Disjunction} :
    I.Satisfies (Disjunction.orOf cs ds) ↔ I.Satisfies cs ∨ I.Satisfies ds := by
  constructor
  · intro h
    by_contra hn
    rw [not_or] at hn
    simp only [Satisfies, not_forall] at hn
    obtain ⟨⟨c, hc, hcf⟩, d, hd, hdf⟩ := hn
    have := holds_of_satisfies_orOf h hc hd
    simp_all
  · intro h u hu
    rw [Disjunction.orOf, Disjunction.mem_toSet, List.mem_filter, List.mem_flatMap] at hu
    obtain ⟨⟨c, hc, hu⟩, -⟩ := hu
    obtain ⟨d, hd, rfl⟩ := List.mem_map.mp hu
    rw [Disjunction.holds_union, Bool.or_eq_true]
    exact h.imp (fun h => h c hc) (fun h => h d hd)

theorem mem_orOf {cs ds : List Disjunction} {u : Disjunction} {l : Literal}
    (hu : u ∈ Disjunction.orOf cs ds) (hl : l ∈ u) : ∃ d ∈ cs ++ ds, l ∈ d := by
  rw [Disjunction.orOf, Disjunction.mem_toSet, List.mem_filter, List.mem_flatMap] at hu
  obtain ⟨⟨c, hc, hu⟩, -⟩ := hu
  obtain ⟨d, hd, rfl⟩ := List.mem_map.mp hu
  rw [Disjunction.union, Literal.mem_toSet, List.mem_append] at hl
  rcases hl with hl | hl
  · exact ⟨c, List.mem_append_left _ hc, hl⟩
  · exact ⟨d, List.mem_append_right _ hd, hl⟩

theorem mem_foldl_orOf {rest : List (List Disjunction)} {first : List Disjunction}
    {u : Disjunction} {l : Literal} (hu : u ∈ rest.foldl Disjunction.orOf first) (hl : l ∈ u) :
    ∃ ds ∈ first :: rest, ∃ d ∈ ds, l ∈ d := by
  induction rest generalizing first with
  | nil => exact ⟨first, List.mem_cons_self, u, hu, hl⟩
  | cons ds rest ih =>
    obtain ⟨es, hes, e, he, hle⟩ := ih hu
    rcases List.mem_cons.mp hes with rfl | hes
    · obtain ⟨d, hd, hld⟩ := mem_orOf he hle
      rcases List.mem_append.mp hd with hd | hd
      · exact ⟨first, by simp, d, hd, hld⟩
      · exact ⟨ds, by simp, d, hd, hld⟩
    · exact ⟨es, by simp [hes], e, he, hle⟩

theorem satisfies_foldl_orOf (rest : List (List Disjunction)) (first : List Disjunction) :
    I.Satisfies (rest.foldl Disjunction.orOf first) ↔
      I.Satisfies first ∨ ∃ ds ∈ rest, I.Satisfies ds := by
  induction rest generalizing first with
  | nil => simp
  | cons ds rest ih => rw [List.foldl_cons, ih, satisfies_orOf]; simp [or_assoc]

end Interpretation

/-! ## Minimizing -/

/-- A list that mentions no tag. -/
def Disjunction.Boolean (ds : List Disjunction) : Prop := ∀ d ∈ ds, ∀ l ∈ d, l.tag = none

theorem Disjunction.holds_of_isAlwaysTrue {d : Disjunction} (hd : ∀ l ∈ d, l.tag = none)
    (h : d.isAlwaysTrue = true) : d.holds I = true := by
  simp only [isAlwaysTrue, List.any_eq_true, Bool.and_eq_true, Bool.not_eq_true', beq_iff_eq] at h
  obtain ⟨l, hl, hneg, m, hm, hpos, hname⟩ := h
  rw [holds_iff]
  cases ht : I.truth l.name
  · exact ⟨l, hl, by simp [Literal.holds, hd l hl, ht, hneg]⟩
  · exact ⟨m, hm, by simp [Literal.holds, hd m hm, hname, ht, hpos]⟩

namespace Clause

@[simp] theorem disjunctions_nil : disjunctions [] = [] := rfl

@[simp] theorem disjunctions_comment (text : String) (cs : List Clause) :
    disjunctions (.comment text :: cs) = disjunctions cs := rfl

@[simp] theorem disjunctions_disjunction (d : Disjunction) (cs : List Clause) :
    disjunctions (.disjunction d :: cs) = d :: disjunctions cs := rfl

@[simp] theorem disjunctions_append (cs ds : List Clause) :
    disjunctions (cs ++ ds) = disjunctions cs ++ disjunctions ds :=
  List.filterMap_append

@[simp] theorem disjunctions_map (ds : List Disjunction) :
    disjunctions (ds.map .disjunction) = ds := by
  induction ds with
  | nil => rfl
  | cons d ds ih => rw [List.map_cons, disjunctions_disjunction, ih]

/-- What was seen before is true already, so leaving it out does no harm. -/
theorem satisfies_minimizeFrom (cs : List Clause) (seen : Std.HashSet Disjunction)
    (hcs : Disjunction.Boolean (disjunctions cs))
    (hseen : ∀ d, seen.contains d = true → Disjunction.holds I d = true) :
    I.Satisfies (disjunctions (minimizeFrom seen cs)) ↔ I.Satisfies (disjunctions cs) := by
  fun_induction minimizeFrom seen cs with
  | case1 => rfl
  | case2 seen text cs ih => exact ih hcs hseen
  | case3 seen d cs set hskip ih =>
    have hd : Disjunction.holds I set = true := by
      rcases Bool.or_eq_true _ _ ▸ hskip with h | h
      · exact hseen set h
      · exact Disjunction.holds_of_isAlwaysTrue
          (fun l hl => hcs d (by simp) l (Literal.mem_toSet.mp hl)) h
    rw [ih (fun e he => hcs e (by simp [he])) hseen, disjunctions_disjunction,
      Interpretation.satisfies_cons, ← Disjunction.holds_toSet, and_iff_right hd]
  | case4 seen d cs set hskip ih =>
    rw [disjunctions_disjunction, disjunctions_disjunction, Interpretation.satisfies_cons,
      Interpretation.satisfies_cons, ← Disjunction.holds_toSet d]
    refine and_congr_right fun hd => ih (fun e he => hcs e (by simp [he])) fun e he => ?_
    rw [Std.HashSet.contains_insert, Bool.or_eq_true, beq_iff_eq] at he
    rcases he with rfl | he
    · exact hd
    · exact hseen e he

/-- **Minimizing** a list without tags keeps its meaning. -/
theorem satisfies_minimize {cs : List Clause} (hcs : Disjunction.Boolean (disjunctions cs)) :
    I.Satisfies (disjunctions (minimize cs)) ↔ I.Satisfies (disjunctions cs) :=
  satisfies_minimizeFrom cs ∅ hcs (by simp)

theorem mem_of_mem_minimizeFrom {cs : List Clause} {seen : Std.HashSet Disjunction}
    {d : Disjunction}
    (hd : d ∈ disjunctions (minimizeFrom seen cs)) :
    ∃ e ∈ disjunctions cs, ∀ l ∈ d, l ∈ e := by
  fun_induction minimizeFrom seen cs with
  | case1 => simp at hd
  | case2 seen text cs ih => exact ih hd
  | case3 seen e cs set _ ih =>
    obtain ⟨f, hf, h⟩ := ih hd
    exact ⟨f, by simp [hf], h⟩
  | case4 seen e cs set _ ih =>
    rw [disjunctions_disjunction, List.mem_cons] at hd
    rcases hd with rfl | hd
    · exact ⟨e, by simp, fun l => Literal.mem_toSet.mp⟩
    · obtain ⟨f, hf, h⟩ := ih hd
      exact ⟨f, by simp [hf], h⟩

/-- Minimizing keeps each disjunction that may fail, unless it was seen before. -/
theorem toSet_mem_minimizeFrom {cs : List Clause} {seen : Std.HashSet Disjunction}
    {d : Disjunction} (hd : d ∈ disjunctions cs)
    (hfails : Disjunction.isAlwaysTrue (Literal.toSet d) = false)
    (hseen : seen.contains (Literal.toSet d) = false) :
    Literal.toSet d ∈ disjunctions (minimizeFrom seen cs) := by
  fun_induction minimizeFrom seen cs with
  | case1 => simp at hd
  | case2 seen text cs ih => exact ih hd hseen
  | case3 seen e cs set hskip ih =>
    rw [disjunctions_disjunction, List.mem_cons] at hd
    rcases hd with rfl | hd
    · simp [set, hfails, hseen] at hskip
    · exact ih hd hseen
  | case4 seen e cs set hskip ih =>
    rw [disjunctions_disjunction, List.mem_cons] at hd ⊢
    by_cases heq : Literal.toSet d = set
    · exact .inl heq
    · refine .inr (ih (hd.resolve_left fun h => heq (h ▸ rfl)) ?_)
      simpa [hseen] using Ne.symm heq

end Clause

end CellSat
