import Mathlib
import CellSat.Proofs.Symmetry.Order
/-!
# Totalistic symmetry

The totalistic basis generates all permutations of the eight neighbours. So a rule under this
symmetry can only count its neighbours.

* `Symbol.compass`, `Symbol.moved`: permutations of the neighbours as maps of symbols;
* `Orbit.closure_totalistic`: a quarter turn and two exchanges generate all permutations;
* `Orbit.image_totalistic_iff`: the images of a clause are its permutations;
* **`Clause.expandSymmetry_totalistic`**: what an expanded clause list means.
-/

namespace CellSat

open Equiv

/-! ## Permutations of the neighbours -/

namespace Symbol

/-- The eight neighbours in space, clockwise from the north. -/
def compass : Fin 8 → String := ![ "N", "NE", "E", "SE", "S", "SW", "W", "NW"]

theorem compass_injective : Function.Injective compass := by decide

/-- The symbol that a permutation of the neighbours moves a symbol to. -/
noncomputable def moved (σ : Perm (Fin 8)) : String → String :=
  Function.extend compass (fun i => compass (σ i)) id

@[simp] theorem moved_compass (σ : Perm (Fin 8)) (i : Fin 8) :
    moved σ (compass i) = compass (σ i) :=
  compass_injective.extend_apply _ _ i

theorem moved_of_not_mem (σ : Perm (Fin 8)) {name : String} (h : ¬ ∃ i, compass i = name) :
    moved σ name = name :=
  Function.extend_apply' _ _ name h

@[simp] theorem moved_one (name : String) : moved 1 name = name := by
  by_cases h : ∃ i, compass i = name
  · obtain ⟨i, rfl⟩ := h
    rw [moved_compass, Perm.one_apply]
  · exact moved_of_not_mem 1 h

theorem moved_mul (σ τ : Perm (Fin 8)) (name : String) :
    moved (σ * τ) name = moved σ (moved τ name) := by
  by_cases h : ∃ i, compass i = name
  · obtain ⟨i, rfl⟩ := h
    rw [moved_compass, moved_compass, moved_compass, Perm.mul_apply]
  · rw [moved_of_not_mem τ h, moved_of_not_mem σ h, moved_of_not_mem _ h]

end Symbol

/-- The names of neighbours permuted. -/
noncomputable def Disjunction.moved (σ : Perm (Fin 8)) (d : Disjunction) : Disjunction :=
  d.map fun l => l.rename (Symbol.moved σ l.name)

theorem Disjunction.moved_one (d : Disjunction) : d.moved 1 = d := by
  have hrename : ∀ l : Literal, l.rename (Symbol.moved 1 l.name) = l := by simp [Literal.rename]
  simp only [Disjunction.moved, hrename, List.map_id']

/-! ## The generators -/

namespace Permutation

/-- A map of symbols permutes the neighbours and fixes all other symbols. -/
def Acts (p : Permutation) (σ : Perm (Fin 8)) : Prop := ∀ name, p.apply name = Symbol.moved σ name

theorem acts_of_forall {p : Permutation} {σ : Perm (Fin 8)}
    (hkeys : ∀ e ∈ p.entries, ∃ i, Symbol.compass i = e.1)
    (happly : ∀ i, p.apply (Symbol.compass i) = Symbol.compass (σ i)) : p.Acts σ := by
  intro name
  by_cases h : ∃ i, Symbol.compass i = name
  · obtain ⟨i, rfl⟩ := h
    rw [happly, Symbol.moved_compass]
  · have hlookup : p.entries.lookup name = none := by
      refine List.lookup_eq_none_iff.mpr fun e he => ?_
      obtain ⟨i, hi⟩ := hkeys e he
      exact bne_iff_ne.mpr fun heq => h ⟨i, hi.trans heq.symm⟩
    rw [Symbol.moved_of_not_mem σ h, apply, hlookup, Option.getD_none]

theorem acts_quarterTurn : quarterTurn.inverse.Acts (finRotate 8 ^ 2)⁻¹ :=
  acts_of_forall (by decide) (by decide)

theorem acts_swapCorners : swapCorners.inverse.Acts (swap 1 3) :=
  acts_of_forall (by decide) (by decide)

theorem acts_swapCornerSide : swapCornerSide.inverse.Acts (swap 7 0) :=
  acts_of_forall (by decide) (by decide)

theorem Acts.onDisjunction_moved {p : Permutation} {σ : Perm (Fin 8)} (hp : p.Acts σ)
    (τ : Perm (Fin 8)) (d : Disjunction) : p.onDisjunction (d.moved τ) = d.moved (σ * τ) := by
  rw [onDisjunction, Disjunction.moved, Disjunction.moved, List.map_map]
  refine List.map_congr_left fun l _ => ?_
  simp only [Function.comp, Literal.rename, hp _, Symbol.moved_mul]

end Permutation

namespace Orbit

open Permutation

/-- The permutations of the neighbours by which the inverse generators of the totalistic basis
act. -/
def totalistic : Set (Perm (Fin 8)) :=
  {σ | ∃ p ∈ Basis.totalistic.generators.map Permutation.inverse, p.Acts σ}

theorem exists_acts {p : Permutation}
    (hp : p ∈ Basis.totalistic.generators.map Permutation.inverse) : ∃ σ, p.Acts σ := by
  simp only [Basis.generators, List.map_cons, List.map_nil, List.mem_cons, List.not_mem_nil,
    or_false] at hp
  rcases hp with rfl | rfl | rfl
  · exact ⟨_, acts_quarterTurn⟩
  · exact ⟨_, acts_swapCorners⟩
  · exact ⟨_, acts_swapCornerSide⟩

/-- A quarter turn and an exchange make a cycle through all neighbours, and exchanging two
neighbours on this cycle generates the rest. -/
theorem closure_totalistic : Submonoid.closure totalistic = ⊤ := by
  let cycle : Perm (Fin 8) := [1, 3, 5, 7, 2, 4, 6, 0].formPerm
  have hcycle : cycle.IsCycle := List.isCycle_formPerm (by decide) (by decide)
  have hsupport : cycle.support = Finset.univ := by decide
  have hnext : cycle 1 = 3 := by decide
  have hproduct : cycle = (finRotate 8 ^ 2) * swap 7 0 := by decide
  have hturn : (finRotate 8 ^ 2)⁻¹ ∈ Subgroup.closure totalistic :=
    Subgroup.subset_closure ⟨_, by simp [Basis.generators], acts_quarterTurn⟩
  have hcorners : swap 1 3 ∈ Subgroup.closure totalistic :=
    Subgroup.subset_closure ⟨_, by simp [Basis.generators], acts_swapCorners⟩
  have hcornerSide : swap 7 0 ∈ Subgroup.closure totalistic :=
    Subgroup.subset_closure ⟨_, by simp [Basis.generators], acts_swapCornerSide⟩
  have hle : ⊤ ≤ Subgroup.closure totalistic := by
    rw [← Perm.closure_cycle_adjacent_swap hcycle hsupport 1, Subgroup.closure_le,
      Set.insert_subset_iff, Set.singleton_subset_iff, hnext, hproduct]
    exact ⟨mul_mem (inv_mem_iff.mp hturn) hcornerSide, hcorners⟩
  rw [← Subgroup.closure_toSubmonoid_of_finite, top_le_iff.mp hle]
  rfl

theorem image_totalistic_iff {c d : Disjunction} :
    Image (Basis.totalistic.generators.map Permutation.inverse) d c ↔ ∃ σ, c = d.moved σ := by
  constructor
  · intro h
    induction h with
    | refl => exact ⟨1, d.moved_one.symm⟩
    | tail _ hstep ih =>
      obtain ⟨τ, rfl⟩ := ih
      obtain ⟨p, hp, rfl⟩ := hstep
      obtain ⟨σ, hσ⟩ := exists_acts hp
      exact ⟨σ * τ, hσ.onDisjunction_moved τ d⟩
  · rintro ⟨σ, rfl⟩
    have hσ : σ ∈ Submonoid.closure totalistic := closure_totalistic ▸ Submonoid.mem_top σ
    induction hσ using Submonoid.closure_induction_left with
    | one => exact d.moved_one.symm ▸ .refl
    | mul_left τ hτ σ _ ih =>
      obtain ⟨p, hp, hacts⟩ := hτ
      exact ih.tail ⟨p, hp, hacts.onDisjunction_moved σ d⟩

theorem few_totalistic (d : Disjunction) :
    Few (Basis.totalistic.generators.map Permutation.inverse) d :=
  few_of_domain (Basis.isCyclic_of_mem_generators _) (Basis.factorial_domain_lt _) d

end Orbit

/-- **Totalistic expansion** means the list under every permutation of the neighbours. -/
theorem Clause.expandSymmetry_totalistic (cs : List Clause) :
    ∃ cs', expandSymmetry Basis.totalistic.generators cs = .ok cs' ∧
      (∀ c ∈ disjunctions cs', ∃ d ∈ disjunctions cs, ∃ σ, c = d.moved σ) ∧
      ∀ I : Interpretation, I.Satisfies (disjunctions cs') ↔
        ∀ σ, (I.along (Symbol.moved σ)).Satisfies (disjunctions cs) := by
  obtain ⟨cs', hok, hsound, hcomplete⟩ :=
    expandSymmetry_eq_ok fun d (_ : d ∈ disjunctions cs) => Orbit.few_totalistic d
  have hmoved : ∀ c ∈ disjunctions cs', ∃ d ∈ disjunctions cs, ∃ σ, c = d.moved σ := by
    intro c hc
    obtain ⟨d, hd, himage⟩ := hsound c hc
    exact ⟨d, hd, Orbit.image_totalistic_iff.mp himage⟩
  refine ⟨cs', hok, hmoved, fun I => ⟨fun h σ d hd => ?_, fun h c hc => ?_⟩⟩
  · obtain ⟨e, he, hperm⟩ := hcomplete d hd (d.moved σ) (Orbit.image_totalistic_iff.mpr ⟨σ, rfl⟩)
    rw [← Disjunction.holds_rename, ← Disjunction.moved, Disjunction.holds_of_perm hperm]
    exact h e he
  · obtain ⟨d, hd, σ, rfl⟩ := hmoved c hc
    rw [Disjunction.moved, Disjunction.holds_rename]
    exact h σ d hd

end CellSat
