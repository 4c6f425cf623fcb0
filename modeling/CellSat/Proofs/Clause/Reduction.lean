import Mathlib
import CellSat.Proofs.Clause.Flatten
import CellSat.Proofs.Cnf.Content
/-!
# Lists that cannot be reduced

Minimizing reduces the disjunctions of a list to sets of literals. It goes through the list once,
and drops sets that it has kept before and sets that always hold. Nothing is left to do for a second
run.

* `Disjunction.isAlwaysTrue_eq_isTautology`, `Disjunction.isTautology_iff_forall_holds`: without
  tags, a disjunction always holds exactly if it has a literal together with its negation;
* `Disjunction.map_toFinset_kept`: the sets that are kept;
* `Clause.Reduced`, `Clause.reduced_minimize`, `Clause.Reduced.minimize_eq`: lists that minimizing
  gives, and that it leaves as they are;
* **`Clause.minimize_reduces`**: what minimizing does to a list without tags.
-/

namespace CellSat

/-! ## First occurrences -/

section FirstOccurrences

variable {α β : Type} [BEq α] [LawfulBEq α] [BEq β] [LawfulBEq β]

omit [LawfulBEq α] in
/-- Once an element is kept, it is skipped in the rest of the list. -/
theorem eraseDups_induction {P : List α → Prop} (nil : P [])
    (cons : ∀ a l, P (l.filter fun b => !b == a) → P (a :: l)) (l : List α) : P l := by
  induction hlength : l.length using Nat.strong_induction_on generalizing l with
  | h n ih =>
    cases l with
    | nil => exact nil
    | cons a l =>
      refine cons a l (ih _ ?_ _ rfl)
      rw [← hlength, List.length_cons]
      exact Nat.lt_succ_of_le (List.length_filter_le _ _)

theorem nodup_eraseDups (l : List α) : l.eraseDups.Nodup := by
  induction l using eraseDups_induction with
  | nil => exact List.nodup_nil
  | cons a l ih =>
    rw [List.eraseDups_cons, List.nodup_cons]
    exact ⟨by simp, ih⟩

theorem map_eraseDups {f : α → β} {l : List α} (hf : ∀ a ∈ l, ∀ b ∈ l, f a = f b → a = b) :
    l.eraseDups.map f = (l.map f).eraseDups := by
  induction l using eraseDups_induction with
  | nil => rfl
  | cons a l ih =>
    have hmem : ∀ b ∈ l.filter (fun b => !b == a), b ∈ a :: l := fun b hb =>
      List.mem_cons_of_mem a (List.mem_of_mem_filter hb)
    have hfilter : l.filter (fun b => !b == a) = l.filter ((fun c => !c == f a) ∘ f) := by
      refine List.filter_congr fun b hb => ?_
      have hab : b = a ↔ f b = f a :=
        ⟨congrArg f, hf b (List.mem_cons_of_mem a hb) a List.mem_cons_self⟩
      simp [hab]
    rw [List.eraseDups_cons, List.map_cons, List.map_cons, List.eraseDups_cons,
      ih fun b hb c hc => hf b (hmem b hb) c (hmem c hc), hfilter, List.filter_map]

end FirstOccurrences

namespace Disjunction

variable {d : Disjunction} {ds : List Disjunction}

/-! ## Disjunctions that always hold -/

/-- Without tags, it makes no difference whether names or literals are compared. -/
theorem isAlwaysTrue_eq_isTautology (hd : ∀ l ∈ d, l.tag = none) :
    d.isAlwaysTrue = d.isTautology := by
  rw [Bool.eq_iff_iff]
  simp only [isAlwaysTrue, isTautology, List.any_eq_true, Bool.and_eq_true, Bool.not_eq_true',
    beq_iff_eq, List.contains_iff_mem]
  constructor
  · rintro ⟨⟨name, _, _⟩, hl, rfl, ⟨_, _, _⟩, hm, rfl, rfl⟩
    obtain rfl := hd _ hl
    obtain rfl := hd _ hm
    exact ⟨_, hl, hm⟩
  · rintro ⟨⟨name, positive, tag⟩, hl, hnegate⟩
    cases positive with
    | false => exact ⟨_, hl, rfl, _, hnegate, rfl, rfl⟩
    | true => exact ⟨_, hnegate, rfl, _, hl, rfl, rfl⟩

theorem isTautology_iff_forall_holds (hd : ∀ l ∈ d, l.tag = none) :
    d.isTautology = true ↔ ∀ I : Interpretation, d.holds I = true := by
  refine ⟨fun h I => holds_of_isTautology h, fun h => ?_⟩
  -- A variable is true where its negation occurs, so only a positive literal can hold.
  let I : Interpretation := ⟨fun name => d.contains ⟨name, false, none⟩, fun _ => 0⟩
  obtain ⟨⟨name, positive, tag⟩, hl, hholds⟩ := holds_iff.mp (h I)
  obtain rfl : tag = none := hd _ hl
  have htruth : d.contains ⟨name, false, none⟩ = positive := by
    simpa [Literal.holds, I] using hholds
  cases positive with
  | false => exact absurd (htruth.symm.trans (List.contains_iff_mem.mpr hl)) Bool.false_ne_true
  | true => exact List.any_eq_true.mpr ⟨_, hl, htruth⟩

/-! ## Sets that are kept -/

/-- **The sets that are kept**, each at its first occurrence. -/
theorem map_toFinset_kept (hds : Boolean ds) : (kept ds).map List.toFinset =
    ((ds.filter fun d => !d.isTautology).map List.toFinset).eraseDups := by
  have hinjective : ∀ c ∈ (ds.map Literal.toSet).filter (fun d => !isAlwaysTrue d),
      ∀ d ∈ (ds.map Literal.toSet).filter (fun d => !isAlwaysTrue d),
        c.toFinset = d.toFinset → c = d := by
    intro c hc d hd
    obtain ⟨c, -, rfl⟩ := List.mem_map.mp (List.mem_of_mem_filter hc)
    obtain ⟨d, -, rfl⟩ := List.mem_map.mp (List.mem_of_mem_filter hd)
    exact (Literal.ascending_toSet c).eq_of_toFinset (Literal.ascending_toSet d)
  have hfilter : ds.filter ((fun d => !isAlwaysTrue d) ∘ Literal.toSet) =
      ds.filter fun d => !d.isTautology := by
    refine List.filter_congr fun d hd => ?_
    have hset : isAlwaysTrue (Literal.toSet d) = isTautology (Literal.toSet d) :=
      isAlwaysTrue_eq_isTautology fun l hl => hds d hd l (Literal.mem_toSet.mp hl)
    have htautology : isTautology (Literal.toSet d) = d.isTautology := by
      rw [Bool.eq_iff_iff, isTautology_iff, isTautology_iff, Literal.toFinset_toSet]
    rw [Function.comp_apply, hset, htautology]
  rw [kept, map_eraseDups hinjective, List.filter_map, hfilter, List.map_map]
  congr 2
  funext d
  exact Literal.toFinset_toSet d

end Disjunction

namespace Clause

variable {cs : List Clause}

/-- A list that cannot be reduced: its disjunctions are sets, they may fail, and they differ. -/
structure Reduced (cs : List Clause) : Prop where
  ascending : ∀ d ∈ disjunctions cs, Literal.Ascending d
  mayFail : ∀ d ∈ disjunctions cs, d.isAlwaysTrue = false
  nodup : (disjunctions cs).Nodup

theorem reduced_minimize (cs : List Clause) : Reduced (minimize cs) where
  ascending d hd := by
    rw [disjunctions_minimize, Disjunction.mem_kept] at hd
    obtain ⟨⟨e, -, rfl⟩, -⟩ := hd
    exact Literal.ascending_toSet e
  mayFail d hd := by
    rw [disjunctions_minimize, Disjunction.mem_kept] at hd
    exact hd.2
  nodup := by
    rw [disjunctions_minimize, Disjunction.kept]
    exact nodup_eraseDups _

theorem minimizeFrom_eq_self {seen : Std.HashSet Disjunction} (hcs : Reduced cs)
    (hseen : ∀ d ∈ disjunctions cs, seen.contains d = false) : minimizeFrom seen cs = cs := by
  induction cs generalizing seen with
  | nil => rfl
  | cons c cs ih =>
    cases c with
    | comment text => rw [minimizeFrom, ih ⟨hcs.ascending, hcs.mayFail, hcs.nodup⟩ hseen]
    | disjunction d =>
      obtain ⟨hascending, hmayFail, hnodup⟩ := hcs
      rw [disjunctions_disjunction, List.forall_mem_cons] at hascending hmayFail hseen
      rw [disjunctions_disjunction, List.nodup_cons] at hnodup
      have hset : Literal.toSet d = d :=
        (Literal.ascending_toSet d).eq_of_toFinset hascending.1 (Literal.toFinset_toSet d)
      have hkeep : (seen.contains d || d.isAlwaysTrue) = false := by
        rw [hseen.1, hmayFail.1]
        rfl
      rw [minimizeFrom, hset, hkeep, if_neg Bool.false_ne_true,
        ih ⟨hascending.2, hmayFail.2, hnodup.2⟩]
      intro e he
      have hne : d ≠ e := fun heq => hnodup.1 (heq ▸ he)
      simpa [hne] using hseen.2 e he

theorem Reduced.minimize_eq (h : Reduced cs) : minimize cs = cs :=
  minimizeFrom_eq_self h fun d _ => by simp

/-- **What minimizing does** to a list without tags. -/
theorem minimize_reduces (hcs : Disjunction.Boolean (disjunctions cs)) :
    (∀ I : Interpretation,
        I.Satisfies (disjunctions (minimize cs)) ↔ I.Satisfies (disjunctions cs)) ∧
      comments (minimize cs) = comments cs ∧
      (∀ d ∈ disjunctions (minimize cs), Literal.Ascending d) ∧
      (disjunctions (minimize cs)).map List.toFinset =
        (((disjunctions cs).filter fun d => !d.isTautology).map List.toFinset).eraseDups ∧
      (∀ d ∈ disjunctions cs, d.isTautology = true ↔ ∀ I : Interpretation, d.holds I = true) ∧
      minimize (minimize cs) = minimize cs := by
  refine ⟨fun I => satisfies_minimize hcs, comments_minimizeFrom ∅ cs,
    (reduced_minimize cs).ascending, ?_, fun d hd => ?_, (reduced_minimize cs).minimize_eq⟩
  · rw [disjunctions_minimize, Disjunction.map_toFinset_kept hcs]
  · exact Disjunction.isTautology_iff_forall_holds (hcs d hd)

/-- Repeated in another order, always true, and empty, with comments between them. -/
theorem minimize_reduces_interleaved :
    let a : Literal := ⟨"a", true, none⟩
    let b : Literal := ⟨"b", false, none⟩
    let cs : List Clause := [.comment "x", .disjunction [b, a, b], .disjunction [a, a.negate, b],
      .comment "", .disjunction [a, b], .disjunction []]
    Disjunction.Boolean (disjunctions cs) ∧ comments (minimize cs) = ["x", ""] ∧
      (disjunctions (minimize cs)).map List.toFinset = [{a, b}, ∅] ∧
      minimize (minimize cs) = minimize cs := by
  intro a b cs
  have hcs : Disjunction.Boolean (disjunctions cs) := by
    simp [Disjunction.Boolean, cs, a, b, Literal.negate]
  obtain ⟨-, hcomments, -, hsets, -, hagain⟩ := minimize_reduces hcs
  exact ⟨hcs, hcomments.trans (by decide), hsets.trans (by decide), hagain⟩

end Clause

end CellSat
