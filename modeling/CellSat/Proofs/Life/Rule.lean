import Mathlib
import CellSat.Problem.Encoder
import CellSat.Proofs.Symmetry.Totalistic
/-!
# The rule of Life

The five clauses of the template under all permutations of the neighbours say that a cell lives in
the next generation exactly if three of its neighbours live, or two and the cell itself.

* `Life.successor`: the rule;
* `Life.lines`, `Life.exists_template`: the clauses of the template;
* `Life.satisfies_lines_iff`: the template under all permutations means the rule;
* **`Life.exists_expanded`**: the expanded template means the rule.
-/

namespace CellSat.Life

open Equiv

/-- The state of a cell in the next generation, by its state and the number of neighbours alive. -/
def successor (alive : Bool) (neighbors : Nat) : Bool := neighbors == 3 || alive && neighbors == 2

/-! ## The template -/

/-- The clauses of the template. -/
def lines : List Disjunction :=
  let pos (name : String) : Literal := { name }
  let neg (name : String) : Literal := { name, positive := false }
  [[neg "G", pos "N", pos "NE", pos "E", pos "SE", pos "S", pos "SW", pos "W"],
    [neg "G", neg "N", neg "NE", neg "E", neg "SE"],
    [pos "G", neg "N", neg "NE", neg "E", pos "SE", pos "S", pos "SW", pos "W", pos "NW"],
    [neg "G", pos "O", neg "N", neg "NE", pos "E", pos "SE", pos "S", pos "SW", pos "W", pos "NW"],
    [pos "G", neg "O", neg "N", neg "NE", pos "E", pos "SE", pos "S", pos "SW", pos "W", pos "NW"]]

theorem exists_template :
    ∃ template, lifeTemplate = .ok template ∧ Clause.disjunctions template = lines := by
  have h : lifeTemplate.toOption.map Clause.disjunctions = some lines := by
    -- The characters of a joined text take the kernel long, those of its parts do not.
    unfold lifeTemplate Clause.parseText lifeTemplateText
    repeat rewrite [String.toList_append]
    decide +kernel
  cases htemplate : lifeTemplate with
  | error failure =>
    rw [htemplate] at h
    exact absurd h (by simp [Except.toOption])
  | ok template =>
    rw [htemplate] at h
    exact ⟨template, rfl, Option.some.inj h⟩

/-- What the clauses say, by the states of the cell in the next generation, of the cell, and of its
neighbours. -/
def demand (g o : Bool) (x : Fin 8 → Bool) : Bool :=
  (!g || x 0 || x 1 || x 2 || x 3 || x 4 || x 5 || x 6) &&
  (!g || !x 0 || !x 1 || !x 2 || !x 3) &&
  (g || !x 0 || !x 1 || !x 2 || x 3 || x 4 || x 5 || x 6 || x 7) &&
  (!g || o || !x 0 || !x 1 || x 2 || x 3 || x 4 || x 5 || x 6 || x 7) &&
  (g || !o || !x 0 || !x 1 || x 2 || x 3 || x 4 || x 5 || x 6 || x 7)

theorem satisfies_lines_iff_demand (I : Interpretation) :
    I.Satisfies lines ↔ demand (I.truth Symbol.next) (I.truth Symbol.center)
      (fun i => I.truth (Symbol.compass i)) = true := by
  simp [lines, demand, Interpretation.Satisfies, Disjunction.holds, Literal.holds, Symbol.next,
    Symbol.center, Symbol.compass, or_assoc, and_assoc]

/-! ## Counting neighbours -/

/-- The number of neighbours alive. -/
def count (x : Fin 8 → Bool) : Nat := (List.ofFn x).count true

theorem count_comp (x : Fin 8 → Bool) (σ : Perm (Fin 8)) : count (fun i => x (σ i)) = count x :=
  (Equiv.Perm.ofFn_comp_perm σ x).count_eq true

theorem eq_cons (x : Fin 8 → Bool) : x = ![x 0, x 1, x 2, x 3, x 4, x 5, x 6, x 7] := by
  ext i
  fin_cases i <;> rfl

/-- The rule meets the demand of the clauses, whichever neighbours are alive. -/
theorem demand_successor (o : Bool) (x : Fin 8 → Bool) :
    demand (successor o (count x)) o x = true := by
  have h : ∀ o x₀ x₁ x₂ x₃ x₄ x₅ x₆ x₇ : Bool,
      demand (successor o (count ![x₀, x₁, x₂, x₃, x₄, x₅, x₆, x₇])) o
        ![x₀, x₁, x₂, x₃, x₄, x₅, x₆, x₇] = true := by
    decide +kernel
  rw [eq_cons x]
  exact h o _ _ _ _ _ _ _ _

/-- The neighbours alive come first, then in reverse: together this leaves what the rule says. -/
theorem eq_successor_of_demand {g o : Bool} {x : Fin 8 → Bool} (hx : Antitone x)
    (h : demand g o x = true) (hrev : demand g o (fun i => x i.rev) = true) :
    g = successor o (count x) := by
  have key : ∀ g o x₀ x₁ x₂ x₃ x₄ x₅ x₆ x₇ : Bool, x₁ ≤ x₀ → x₂ ≤ x₁ → x₃ ≤ x₂ → x₄ ≤ x₃ →
      x₅ ≤ x₄ → x₆ ≤ x₅ → x₇ ≤ x₆ → demand g o ![x₀, x₁, x₂, x₃, x₄, x₅, x₆, x₇] = true →
      demand g o ![x₇, x₆, x₅, x₄, x₃, x₂, x₁, x₀] = true →
      g = successor o (count ![x₀, x₁, x₂, x₃, x₄, x₅, x₆, x₇]) := by
    decide +kernel
  have hle : ∀ i : Fin 7, x i.succ ≤ x i.castSucc := fun i => hx i.castSucc_lt_succ.le
  rw [eq_cons x]
  exact key g o _ _ _ _ _ _ _ _ (hle 0) (hle 1) (hle 2) (hle 3) (hle 4) (hle 5) (hle 6) h hrev

theorem exists_antitone (x : Fin 8 → Bool) : ∃ σ : Perm (Fin 8), Antitone fun i => x (σ i) :=
  ⟨Tuple.sort (OrderDual.toDual ∘ x), Tuple.monotone_sort (OrderDual.toDual ∘ x)⟩

theorem satisfies_lines_iff (I : Interpretation) :
    (∀ σ, (I.along (Symbol.moved σ)).Satisfies lines) ↔ I.truth Symbol.next =
      successor (I.truth Symbol.center) (count fun i => I.truth (Symbol.compass i)) := by
  have hnext : ∀ σ, Symbol.moved σ Symbol.next = Symbol.next :=
    fun σ => Symbol.moved_of_not_mem σ (by decide)
  have hcenter : ∀ σ, Symbol.moved σ Symbol.center = Symbol.center :=
    fun σ => Symbol.moved_of_not_mem σ (by decide)
  simp only [satisfies_lines_iff_demand, Interpretation.along, hnext, hcenter, Symbol.moved_compass]
  constructor
  · intro h
    obtain ⟨σ, hσ⟩ := exists_antitone fun i => I.truth (Symbol.compass i)
    have hrev := h (σ * Fin.revPerm)
    simp only [Perm.mul_apply, Fin.revPerm_apply] at hrev
    rw [← count_comp (fun i => I.truth (Symbol.compass i)) σ]
    exact eq_successor_of_demand hσ (h σ) hrev
  · intro h σ
    rw [h, ← count_comp (fun i => I.truth (Symbol.compass i)) σ]
    exact demand_successor _ _

theorem boolean_lines : Disjunction.Boolean lines := by
  unfold Disjunction.Boolean
  decide +kernel

/-- **The rule of Life** can be read and expanded, and says what becomes of a cell. -/
theorem exists_expanded : ∃ template expanded, lifeTemplate = .ok template ∧
    Clause.expandSymmetry Basis.totalistic.generators template = .ok expanded ∧
    Disjunction.Boolean (Clause.disjunctions expanded) ∧
    ∀ I : Interpretation, I.Satisfies (Clause.disjunctions expanded) ↔ I.truth Symbol.next =
      successor (I.truth Symbol.center) (count fun i => I.truth (Symbol.compass i)) := by
  obtain ⟨template, htemplate, hlines⟩ := exists_template
  obtain ⟨expanded, hexpanded, hmoved, hmeaning⟩ := Clause.expandSymmetry_totalistic template
  rw [hlines] at hmoved hmeaning
  refine ⟨template, expanded, htemplate, hexpanded, fun c hc l hl => ?_, fun I => ?_⟩
  · obtain ⟨d, hd, σ, rfl⟩ := hmoved c hc
    obtain ⟨m, hm, rfl⟩ := List.mem_map.mp hl
    exact boolean_lines d hd m hm
  · exact (hmeaning I).trans (satisfies_lines_iff I)

end CellSat.Life
