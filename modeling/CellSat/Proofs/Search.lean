import Mathlib
/-!
# Searches

A search keeps the elements it has found and a list of those it has still to visit. Visiting an
element adds what can be reached from it by one step, unless the same has been found already.

* `Explored`: what holds at any time of a search;
* `Explored.start`, `Explored.visit`: the start, and the step of a search;
* **`Explored.complete`**: a search with nothing left to visit has found all that can be reached.
-/

namespace CellSat

variable {α : Type} {step same : α → α → Prop} {root : α}

/-- A search from a root that has found a set of elements and has still to visit some of them. -/
structure Explored (step same : α → α → Prop) (root : α) (found : Set α) (pending : List α) :
    Prop where
  root_mem : root ∈ found
  reachable : ∀ x ∈ found, Relation.ReflTransGen step root x
  pending_subset : ∀ x ∈ pending, x ∈ found
  visited : ∀ x ∈ found, x ∈ pending ∨ ∀ y, step x y → ∃ z ∈ found, same y z

namespace Explored

theorem start : Explored step same root {root} [root] where
  root_mem := rfl
  reachable := by rintro x rfl; exact .refl
  pending_subset := by simp
  visited := by simp

theorem visit {found found' : Set α} {x : α} {pending pending' new : List α}
    (h : Explored step same root found (x :: pending))
    (hfound : ∀ y, y ∈ found' ↔ y ∈ found ∨ y ∈ new)
    (hpending : ∀ y, y ∈ pending' ↔ y ∈ pending ∨ y ∈ new) (hnew : ∀ y ∈ new, step x y)
    (hclosed : ∀ y, step x y → ∃ z ∈ found', same y z) :
    Explored step same root found' pending' where
  root_mem := (hfound root).mpr (.inl h.root_mem)
  reachable := by
    intro y hy
    rcases (hfound y).mp hy with hy | hy
    · exact h.reachable y hy
    · exact (h.reachable x (h.pending_subset x List.mem_cons_self)).tail (hnew y hy)
  pending_subset := by
    intro y hy
    rcases (hpending y).mp hy with hy | hy
    · exact (hfound y).mpr (.inl (h.pending_subset y (List.mem_cons_of_mem x hy)))
    · exact (hfound y).mpr (.inr hy)
  visited := by
    intro y hy
    rcases (hfound y).mp hy with hy | hy
    · rcases h.visited y hy with hp | hp
      · rcases List.mem_cons.mp hp with rfl | hp
        · exact .inr hclosed
        · exact .inl ((hpending y).mpr (.inl hp))
      · refine .inr fun w hw => ?_
        obtain ⟨z, hz, hwz⟩ := hp w hw
        exact ⟨z, (hfound z).mpr (.inl hz), hwz⟩
    · exact .inl ((hpending y).mpr (.inr hy))

/-- **A finished search is complete**, up to what counts as the same. -/
theorem complete {found : Set α} (h : Explored step same root found []) (hrefl : same root root)
    (htrans : ∀ x y z, same x y → same y z → same x z)
    (hstep : ∀ x y z, same x y → step x z → ∃ w, step y w ∧ same z w) {x : α}
    (hx : Relation.ReflTransGen step root x) : ∃ z ∈ found, same x z := by
  induction hx with
  | refl => exact ⟨root, h.root_mem, hrefl⟩
  | tail _ hxy ih =>
    obtain ⟨z, hz, hsame⟩ := ih
    obtain ⟨w, hzw, hyw⟩ := hstep _ _ _ hsame hxy
    obtain ⟨v, hv, hwv⟩ := (h.visited z hz).resolve_left List.not_mem_nil w hzw
    exact ⟨v, hv, htrans _ _ _ hyw hwv⟩

end Explored

end CellSat
