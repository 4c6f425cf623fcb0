import Mathlib
import CellSat.Proofs.Symmetry.Group
/-!
# The number of images

The group of a basis permutes the symbols that the basis mentions, and fixes all others. So a
disjunction has at most as many images as there are permutations of these symbols, however long it
is and whatever it is about. The named bases mention eight symbols at most.

* `Permutation.domain`: the symbols that a basis mentions;
* `Permutation.exists_ofSubtype`: the group of a basis permutes them;
* `Orbit.length_le_factorial`, `Orbit.few_of_domain`: the number of images;
* `Basis.isCyclic_of_mem_generators`, `Basis.card_domain_le`: the named bases;
* **`Basis.images_within_limit`**: a named basis never leads to too many images.
-/

namespace CellSat

open Equiv

/-! ## The symbols of a basis -/

namespace Permutation

variable {basis : List Permutation} {p : Permutation} {g : Perm String} {a : String}

/-- The symbols that a basis mentions. -/
def domain (basis : List Permutation) : Finset String :=
  (basis.flatMap fun p => p.entries.map Prod.fst).toFinset

theorem apply_of_not_mem_domain (hp : p ∈ basis) (ha : a ∉ domain basis) : p.apply a = a := by
  have hlookup : p.entries.lookup a = none := by
    rw [List.lookup_eq_none_iff]
    intro e he
    refine bne_iff_ne.mpr fun heq => ha (List.mem_toFinset.mpr (List.mem_flatMap.mpr ⟨p, hp, ?_⟩))
    exact heq ▸ List.mem_map_of_mem he
  rw [apply, hlookup, Option.getD_none]

theorem exists_ofSubtype (hg : g ∈ generated basis) :
    ∃ σ : Perm {a // a ∈ domain basis}, Perm.ofSubtype σ = g := by
  have hle : generated basis ≤ (Perm.ofSubtype (p := fun a => a ∈ domain basis)).range := by
    rw [generated, Subgroup.closure_le]
    rintro h ⟨p, hp, happly⟩
    have hfix : ∀ a, a ∉ domain basis → h a = a := fun a ha => by
      rw [← happly, apply_of_not_mem_domain hp ha]
    have hmem : ∀ a, h a ∈ domain basis ↔ a ∈ domain basis := by
      intro a
      by_cases ha : a ∈ domain basis
      · refine iff_of_true (by_contra fun hnot => ?_) ha
        exact hnot ((h.injective (hfix (h a) hnot)).symm ▸ ha)
      · rw [hfix a ha]
    exact ⟨h.subtypePerm hmem, Perm.ofSubtype_subtypePerm hmem fun a ha => by_contra (ha ∘ hfix a)⟩
  exact hle hg

end Permutation

/-! ## Few images -/

namespace Orbit

open Permutation

variable {basis : List Permutation} {d : Disjunction} {l : List Disjunction}

/-- Different images are made by different permutations of the symbols of the basis. -/
theorem length_le_factorial (hbasis : ∀ p ∈ basis, p.IsCyclic) (hnodup : (l.map signature).Nodup)
    (himage : ∀ c ∈ l, Image (basis.map Permutation.inverse) d c) :
    l.length ≤ (domain basis).card.factorial := by
  have hsub : (l.map signature).toFinset ⊆
      (Finset.univ : Finset (Perm {a // a ∈ domain basis})).image
        fun σ => signature (d.permute (Perm.ofSubtype σ)) := by
    intro key hkey
    obtain ⟨c, hc, rfl⟩ := List.mem_map.mp (List.mem_toFinset.mp hkey)
    obtain ⟨g, hg, rfl⟩ := exists_permute_of_image hbasis (himage c hc)
    obtain ⟨σ, rfl⟩ := exists_ofSubtype hg
    exact Finset.mem_image_of_mem _ (Finset.mem_univ σ)
  calc l.length = (l.map signature).toFinset.card := by
        rw [List.toFinset_card_of_nodup hnodup, List.length_map]
    _ ≤ Fintype.card (Perm {a // a ∈ domain basis}) :=
        (Finset.card_le_card hsub).trans Finset.card_image_le
    _ = (domain basis).card.factorial := by rw [Fintype.card_perm, Fintype.card_coe]

theorem few_of_domain (hbasis : ∀ p ∈ basis, p.IsCyclic)
    (hcard : (domain basis).card.factorial < limit) (d : Disjunction) :
    Few (basis.map Permutation.inverse) d := fun _ hnodup himage =>
  (length_le_factorial hbasis hnodup himage).trans_lt hcard

theorem exists_images (hbasis : ∀ p ∈ basis, p.IsCyclic)
    (hcard : (domain basis).card.factorial < limit) (d : Disjunction) :
    ∃ ds, images basis d = .ok ds ∧ ds.length ≤ (domain basis).card.factorial ∧
      ∀ m, m ∈ ds.map Multiset.ofList ↔ m ∈ orbit basis d := by
  rcases images_cases basis d with ⟨_, hmany⟩ | ⟨ds, hok, hnodup, _, hsound, hcomplete⟩
  · exact absurd hmany (few_of_domain hbasis hcard d).not_many
  · exact ⟨ds, hok, length_le_factorial hbasis hnodup hsound,
      mem_map_iff_mem_orbit hbasis hsound hcomplete⟩

end Orbit

namespace Clause

/-- The lines that take the place of a line whose disjunction is replaced by others. -/
def replaceBy (images : Disjunction → List Disjunction) : Clause → List Clause
  | .comment text => [.comment text]
  | .disjunction d => (images d).map .disjunction

theorem expandSymmetry_of_images {basis : List Permutation}
    {images : Disjunction → List Disjunction} (h : ∀ d, Orbit.images basis d = .ok (images d))
    (cs : List Clause) : expandSymmetry basis cs = .ok (cs.flatMap (replaceBy images)) := by
  induction cs with
  | nil => rfl
  | cons line cs ih =>
    cases line with
    | comment text =>
      rw [expandSymmetry, ih]
      rfl
    | disjunction d =>
      rw [expandSymmetry, h, ih]
      rfl

end Clause

/-! ## The named bases -/

namespace Basis

open Permutation

theorem isCyclic_of_mem_generators (b : Basis) : ∀ p ∈ b.generators, p.IsCyclic := by
  have hturn : quarterTurn.IsCyclic := ⟨_, by decide, rfl⟩
  have hsixth : sixthTurn.IsCyclic := ⟨_, by decide, rfl⟩
  have hhalf : halfTurn.IsCyclic := ⟨_, by decide, rfl⟩
  have hcorners : swapCorners.IsCyclic := ⟨_, by decide, rfl⟩
  have hsides : swapSides.IsCyclic := ⟨_, by decide, rfl⟩
  have hcornerSide : swapCornerSide.IsCyclic := ⟨_, by decide, rfl⟩
  have hflip : flipDiagonal.IsCyclic := ⟨_, by decide, rfl⟩
  have hbelow : turnBelow.IsCyclic := ⟨_, by decide, rfl⟩
  have habove : turnAbove.IsCyclic := ⟨_, by decide, rfl⟩
  cases b <;> simp [generators, *]

theorem card_domain_le (b : Basis) : (domain b.generators).card ≤ 8 := by
  cases b <;> decide

theorem factorial_domain_lt (b : Basis) : (domain b.generators).card.factorial < Orbit.limit :=
  (Nat.factorial_le b.card_domain_le).trans_lt (by decide)

/-- **Named bases have few images**, so every clause list can be expanded. -/
theorem images_within_limit (b : Basis) : ∃ images : Disjunction → List Disjunction,
    (∀ d, Orbit.images b.generators d = .ok (images d) ∧
      (images d).length ≤ Nat.factorial 8 ∧
      ∀ m, m ∈ (images d).map Multiset.ofList ↔ m ∈ Orbit.orbit b.generators d) ∧
    ∀ cs, Clause.expandSymmetry b.generators cs = .ok (cs.flatMap (Clause.replaceBy images)) := by
  choose images hok hlength horbit using
    Orbit.exists_images b.isCyclic_of_mem_generators b.factorial_domain_lt
  refine ⟨images, fun d => ⟨hok d, ?_, horbit d⟩, Clause.expandSymmetry_of_images hok⟩
  exact (hlength d).trans (Nat.factorial_le b.card_domain_le)

end Basis

end CellSat
