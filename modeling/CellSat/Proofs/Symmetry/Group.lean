import Mathlib
import CellSat.Proofs.Entries
import CellSat.Proofs.Symmetry.Orbit
/-!
# Orbits under a group

Maps that are built from disjoint cycles are permutations of all symbols, and generate a group. The
search for images applies the inverses of the generators only. It still finds the whole orbit: what
it has found is finite, and what keeps a finite set keeps it in both directions.

* `Permutation.apply_ofCycles`, `Permutation.apply_inverse`: maps made of cycles, and inverses;
* `Permutation.generated`: the group that a basis generates;
* `Orbit.orbit`: the images of a disjunction under the group, as multisets of literals;
* `Orbit.keeps_generated`: what is kept by the inverse generators is kept by the group;
* **`Orbit.images_eq_orbit`**: a search that succeeds returns the orbit.
-/

namespace CellSat

open Equiv

/-! ## Permuting the names of literals -/

/-- The literal about the variable that a permutation puts in the place of its own. -/
def Literal.permute (g : Perm String) (l : Literal) : Literal := l.rename (g l.name)

@[simp] theorem Literal.permute_one (l : Literal) : l.permute 1 = l := rfl

theorem Literal.permute_mul (g h : Perm String) (l : Literal) :
    l.permute (g * h) = (l.permute h).permute g := rfl

theorem Literal.permute_injective (g : Perm String) : Function.Injective (permute g) := by
  apply Function.LeftInverse.injective (g := permute g⁻¹)
  intro l
  rw [← permute_mul, inv_mul_cancel, permute_one]

/-- A permutation applied to a disjunction, position by position. -/
def Disjunction.permute (g : Perm String) (d : Disjunction) : Disjunction :=
  d.map (Literal.permute g)

theorem Disjunction.permute_one (d : Disjunction) : d.permute 1 = d := by
  rw [permute, show Literal.permute 1 = id from funext Literal.permute_one, List.map_id]

theorem Disjunction.permute_mul (g h : Perm String) (d : Disjunction) :
    d.permute (g * h) = (d.permute h).permute g := by
  rw [permute, permute, permute, List.map_map]
  rfl

/-! ## Maps made of cycles -/

namespace Permutation

variable {cycles : List (List String)} {p : Permutation} {g : Perm String} {symbols : List String}

/-- The permutation of all symbols that moves each symbol of a cycle to the next one. -/
def cyclic (cycles : List (List String)) : Perm String := (cycles.map List.formPerm).prod

/-- A map is built from disjoint cycles of different symbols. -/
def IsCyclic (p : Permutation) : Prop := ∃ cycles, cycles.flatten.Nodup ∧ p = ofCycles cycles

theorem cyclic_cons (cycle : List String) (cycles : List (List String)) (a : String) :
    cyclic (cycle :: cycles) a = cycle.formPerm (cyclic cycles a) := by
  rw [cyclic, List.map_cons, List.prod_cons, Perm.mul_apply]
  rfl

theorem cyclic_of_not_mem {a : String} (ha : a ∉ cycles.flatten) : cyclic cycles a = a := by
  induction cycles with
  | nil => rfl
  | cons cycle cycles ih =>
    rw [List.flatten_cons, List.mem_append, not_or] at ha
    rw [cyclic_cons, ih ha.2, List.formPerm_apply_of_notMem ha.1]

theorem cyclic_mem {a : String} (ha : a ∈ cycles.flatten) : cyclic cycles a ∈ cycles.flatten := by
  by_contra hnot
  have hfixed : cyclic cycles a = a := (cyclic cycles).injective (cyclic_of_not_mem hnot)
  rw [hfixed] at hnot
  exact hnot ha

theorem cycleEntries_eq {cycle : List String} (h : cycle.Nodup) :
    cycleEntries cycle = cycle.map fun a => (a, cycle.formPerm a) := by
  have hrotate : cycle.map cycle.formPerm = cycle.rotate 1 := by
    apply List.ext_getElem
    · rw [List.length_map, List.length_rotate]
    · intro i _ _
      rw [List.getElem_map, List.formPerm_apply_getElem cycle h, List.getElem_rotate]
  cases cycle with
  | nil => rfl
  | cons first rest =>
    rw [List.rotate_cons_succ, List.rotate_zero] at hrotate
    rw [cycleEntries, ← hrotate, List.map_prod_left_eq_zip]

theorem flatMap_cycleEntries (h : cycles.flatten.Nodup) :
    cycles.flatMap cycleEntries = cycles.flatten.map fun a => (a, cyclic cycles a) := by
  induction cycles with
  | nil => rfl
  | cons cycle cycles ih =>
    rw [List.flatten_cons, List.nodup_append'] at h
    obtain ⟨hcycle, hcycles, hdisjoint⟩ := h
    rw [List.flatMap_cons, cycleEntries_eq hcycle, ih hcycles, List.flatten_cons, List.map_append]
    congr 1
    · apply List.map_congr_left
      intro a ha
      rw [cyclic_cons, cyclic_of_not_mem (hdisjoint ha)]
    · apply List.map_congr_left
      intro a ha
      rw [cyclic_cons, List.formPerm_apply_of_notMem fun h => hdisjoint h (cyclic_mem ha)]

/-- A map whose entries are those of a permutation, and that leaves out fixed symbols only. -/
theorem apply_eq_of_perm (hentries : p.entries.Perm (symbols.map fun a => (a, g a)))
    (hsymbols : symbols.Nodup) (hfix : ∀ a ∉ symbols, g a = a) : p.apply = g := by
  have hkeys : (p.entries.map Prod.fst).Nodup := by
    rw [(hentries.map Prod.fst).nodup_iff, List.map_map]
    exact (List.map_id symbols).symm ▸ hsymbols
  funext a
  rw [apply]
  by_cases ha : a ∈ symbols
  · have hmem : (a, g a) ∈ p.entries := hentries.mem_iff.mpr (List.mem_map.mpr ⟨a, ha, rfl⟩)
    rw [(Entries.lookup_eq_some_iff hkeys).mpr hmem, Option.getD_some]
  · have hnone : p.entries.lookup a = none := by
      rw [List.lookup_eq_none_iff]
      intro e he
      obtain ⟨b, hb, rfl⟩ := List.mem_map.mp (hentries.mem_iff.mp he)
      exact bne_iff_ne.mpr fun heq => ha (heq ▸ hb)
    rw [hnone, Option.getD_none, hfix a ha]

theorem entries_ofCycles_perm (h : cycles.flatten.Nodup) :
    (ofCycles cycles).entries.Perm (cycles.flatten.map fun a => (a, cyclic cycles a)) := by
  rw [ofCycles, flatMap_cycleEntries h]
  apply Entries.ofList_perm
  rw [List.map_map]
  exact (List.map_id _).symm ▸ h

theorem apply_ofCycles (h : cycles.flatten.Nodup) : (ofCycles cycles).apply = cyclic cycles :=
  apply_eq_of_perm (entries_ofCycles_perm h) h fun _ => cyclic_of_not_mem

theorem apply_inverse (hentries : p.entries.Perm (symbols.map fun a => (a, g a)))
    (hsymbols : symbols.Nodup) (hfix : ∀ a ∉ symbols, g a = a) : p.inverse.apply = ⇑g⁻¹ := by
  have himage : (symbols.map g).Nodup := hsymbols.map g.injective
  have hreversed : (p.entries.map fun e => (e.2, e.1)).Perm
      ((symbols.map g).map fun b => (b, g⁻¹ b)) := by
    refine (hentries.map _).trans (List.Perm.of_eq ?_)
    rw [List.map_map, List.map_map]
    apply List.map_congr_left
    intro a _
    show (g a, a) = (g a, g.symm (g a))
    rw [Equiv.symm_apply_apply]
  refine apply_eq_of_perm ((Entries.ofList_perm ?_).trans hreversed) himage ?_
  · rw [(hreversed.map Prod.fst).nodup_iff, List.map_map]
    exact (List.map_id _).symm ▸ himage
  · intro b hb
    -- A symbol that is no image of the listed ones is not listed, so it is fixed.
    have hnot : g.symm b ∉ symbols := by
      intro h
      exact hb (List.mem_map.mpr ⟨_, h, g.apply_symm_apply b⟩)
    have heq := hfix _ hnot
    rw [g.apply_symm_apply] at heq
    exact heq.symm

theorem IsCyclic.exists_perm (h : p.IsCyclic) :
    ∃ g : Perm String, p.apply = g ∧ p.inverse.apply = ⇑g⁻¹ := by
  obtain ⟨cycles, hnodup, rfl⟩ := h
  exact ⟨cyclic cycles, apply_ofCycles hnodup,
    apply_inverse (entries_ofCycles_perm hnodup) hnodup fun _ => cyclic_of_not_mem⟩

/-- The group of permutations of all symbols that a basis generates. -/
def generated (basis : List Permutation) : Subgroup (Perm String) :=
  Subgroup.closure {g | ∃ p ∈ basis, p.apply = g}

end Permutation

/-! ## Orbits -/

namespace Orbit

open Permutation

variable {basis : List Permutation} {c d : Disjunction} {ds : List Disjunction}

/-- The images of a disjunction under the group that a basis generates, as multisets. -/
def orbit (basis : List Permutation) (d : Disjunction) : Set (Multiset Literal) :=
  {m | ∃ g ∈ generated basis, m = d.permute g}

theorem orbit_subset (h : (c : Multiset Literal) ∈ orbit basis d) :
    orbit basis c ⊆ orbit basis d := by
  rintro _ ⟨g, hg, rfl⟩
  obtain ⟨h, hh, heq⟩ := h
  refine ⟨g * h, mul_mem hg hh, ?_⟩
  rw [Disjunction.permute_mul, Multiset.coe_eq_coe]
  exact (Multiset.coe_eq_coe.mp heq).map _

theorem mem_orbit_comm (h : (c : Multiset Literal) ∈ orbit basis d) :
    (d : Multiset Literal) ∈ orbit basis c := by
  obtain ⟨g, hg, heq⟩ := h
  refine ⟨g⁻¹, inv_mem hg, ?_⟩
  have hperm := (Multiset.coe_eq_coe.mp heq).map (Literal.permute g⁻¹)
  rw [← Disjunction.permute, ← Disjunction.permute, ← Disjunction.permute_mul, inv_mul_cancel,
    Disjunction.permute_one] at hperm
  exact Multiset.coe_eq_coe.mpr hperm.symm

theorem orbit_eq (h : (c : Multiset Literal) ∈ orbit basis d) : orbit basis c = orbit basis d :=
  Set.Subset.antisymm (orbit_subset h) (orbit_subset (mem_orbit_comm h))

theorem exists_permute_of_image (hbasis : ∀ p ∈ basis, p.IsCyclic)
    (h : Image (basis.map Permutation.inverse) d c) :
    ∃ g ∈ generated basis, c = d.permute g := by
  induction h with
  | refl => exact ⟨1, one_mem _, d.permute_one.symm⟩
  | tail _ hstep ih =>
    obtain ⟨h, hh, rfl⟩ := ih
    obtain ⟨_, hmem, rfl⟩ := hstep
    obtain ⟨p, hp, rfl⟩ := List.mem_map.mp hmem
    obtain ⟨g, happly, hinverse⟩ := (hbasis p hp).exists_perm
    have hg : g ∈ generated basis := Subgroup.subset_closure ⟨p, hp, happly⟩
    refine ⟨g⁻¹ * h, mul_mem (inv_mem hg) hh, ?_⟩
    rw [Disjunction.permute_mul, onDisjunction, hinverse]
    rfl

/-- A permutation maps the members of a set of multisets to members. -/
def Keeps (ms : Finset (Multiset Literal)) (g : Perm String) : Prop :=
  ∀ m ∈ ms, m.map (Literal.permute g) ∈ ms

theorem Keeps.inv {ms : Finset (Multiset Literal)} {g : Perm String} (h : Keeps ms g) :
    Keeps ms g⁻¹ := by
  have hinjective : Function.Injective (Multiset.map (Literal.permute g)) :=
    Multiset.map_injective (Literal.permute_injective g)
  -- An injective map of a finite set to itself reaches every member.
  have hsurj : Set.SurjOn (Multiset.map (Literal.permute g)) ms ms :=
    Finset.surjOn_of_injOn_of_card_le _ h hinjective.injOn (Nat.le_refl _)
  intro m hm
  obtain ⟨n, hn, rfl⟩ := hsurj hm
  have hback : (n.map (Literal.permute g)).map (Literal.permute g⁻¹) = n := by
    rw [Multiset.map_map]
    simp only [Function.comp_def, ← Literal.permute_mul, inv_mul_cancel, Literal.permute_one]
    exact Multiset.map_id' n
  exact hback.symm ▸ hn

theorem keeps_generated {ms : Finset (Multiset Literal)} (hbasis : ∀ p ∈ basis, p.IsCyclic)
    (hms : ∀ m ∈ ms, ∀ p ∈ basis.map Permutation.inverse,
      m.map (fun l => l.rename (p.apply l.name)) ∈ ms)
    {g : Perm String} (hg : g ∈ generated basis) : Keeps ms g := by
  induction hg using Subgroup.closure_induction with
  | mem g hg =>
    obtain ⟨p, hp, happly⟩ := hg
    obtain ⟨h, happly', hinverse⟩ := (hbasis p hp).exists_perm
    have hgh : g = h := DFunLike.coe_injective (happly.symm.trans happly')
    have hkeeps : Keeps ms h⁻¹ := by
      intro m hm
      have hmem := hms m hm p.inverse (List.mem_map_of_mem hp)
      rw [hinverse] at hmem
      exact hmem
    rw [hgh, ← inv_inv h]
    exact hkeeps.inv
  | one =>
    intro m hm
    rw [show Literal.permute 1 = id from funext Literal.permute_one, Multiset.map_id]
    exact hm
  | mul g h _ _ hg hh =>
    intro m hm
    have hmem := hg _ (hh m hm)
    rw [Multiset.map_map] at hmem
    exact hmem
  | inv g _ hg => exact hg.inv

/-- What a search finds is the orbit: it is kept by the inverse generators, so by the group. -/
theorem mem_map_iff_mem_orbit (hbasis : ∀ p ∈ basis, p.IsCyclic)
    (hsound : ∀ c ∈ ds, Image (basis.map Permutation.inverse) d c)
    (hcomplete : ∀ c, Image (basis.map Permutation.inverse) d c → ∃ e ∈ ds, c.Perm e)
    (m : Multiset Literal) : m ∈ ds.map Multiset.ofList ↔ m ∈ orbit basis d := by
  have hmem : ∀ c, Image (basis.map Permutation.inverse) d c →
      (c : Multiset Literal) ∈ (ds.map Multiset.ofList).toFinset := by
    intro c hc
    obtain ⟨e, he, hperm⟩ := hcomplete c hc
    rw [List.mem_toFinset, Multiset.coe_eq_coe.mpr hperm]
    exact List.mem_map_of_mem he
  constructor
  · intro hm
    obtain ⟨c, hc, rfl⟩ := List.mem_map.mp hm
    obtain ⟨g, hg, rfl⟩ := exists_permute_of_image hbasis (hsound c hc)
    exact ⟨g, hg, rfl⟩
  · rintro ⟨g, hg, rfl⟩
    have hkeeps : Keeps (ds.map Multiset.ofList).toFinset g := by
      refine keeps_generated hbasis ?_ hg
      intro m hm p hp
      obtain ⟨c, hc, rfl⟩ := List.mem_map.mp (List.mem_toFinset.mp hm)
      exact hmem _ ((hsound c hc).tail ⟨p, hp, rfl⟩)
    exact List.mem_toFinset.mp (hkeeps d (hmem d .refl))

theorem nodup_map_ofList_iff : (ds.map Multiset.ofList).Nodup ↔ (ds.map signature).Nodup := by
  have hne : ∀ c e : Disjunction, (c : Multiset Literal) ≠ e ↔ signature c ≠ signature e := by
    intro c e
    rw [ne_eq, ne_eq, Multiset.coe_eq_coe, signature_eq_iff]
  rw [List.Nodup, List.Nodup, List.pairwise_map, List.pairwise_map]
  exact ⟨fun h => h.imp fun h => (hne _ _).mp h, fun h => h.imp fun h => (hne _ _).mpr h⟩

/-- **Images are orbits** of the generated group, each member once. -/
theorem images_eq_orbit (hbasis : ∀ p ∈ basis, p.IsCyclic) (hok : images basis d = .ok ds) :
    (∀ c ∈ ds, ∃ g ∈ generated basis, c = d.permute g) ∧
    (∀ m, m ∈ ds.map Multiset.ofList ↔ m ∈ orbit basis d) ∧
    (ds.map Multiset.ofList).Nodup ∧
    ∀ c : Disjunction, (c : Multiset Literal) ∈ orbit basis d →
      ∃ es, images basis c = .ok es ∧
        ∀ m, m ∈ es.map Multiset.ofList ↔ m ∈ ds.map Multiset.ofList := by
  rcases images_cases basis d with ⟨herror, _⟩ | ⟨ds', hok', hnodup, hlimit, hsound, hcomplete⟩
  · exact absurd (herror.symm.trans hok) nofun
  obtain rfl : ds' = ds := Except.ok.inj (hok'.symm.trans hok)
  have horbit := mem_map_iff_mem_orbit hbasis hsound hcomplete
  refine ⟨fun c hc => exists_permute_of_image hbasis (hsound c hc), horbit,
    nodup_map_ofList_iff.mpr hnodup, ?_⟩
  intro c hc
  rcases images_cases basis c with ⟨_, l, hl, himage, hmany⟩ | ⟨es, hes, _, _, hsound', hcomplete'⟩
  · -- The orbit has no more members than were returned, so there are not too many images.
    exfalso
    have hsubset : l.map Multiset.ofList ⊆ ds'.map Multiset.ofList := by
      intro m hm
      obtain ⟨e, he, rfl⟩ := List.mem_map.mp hm
      obtain ⟨g, hg, rfl⟩ := exists_permute_of_image hbasis (himage e he)
      rw [horbit, ← orbit_eq hc]
      exact ⟨g, hg, rfl⟩
    have hlength := ((nodup_map_ofList_iff.mpr hl).subperm hsubset).length_le
    rw [List.length_map, List.length_map] at hlength
    omega
  · refine ⟨es, hes, ?_⟩
    intro m
    rw [mem_map_iff_mem_orbit hbasis hsound' hcomplete' m, horbit, orbit_eq hc]

/-- A quarter turn of two opposite sides: the group has four elements, the orbit two. -/
theorem images_eq_orbit_oppositeSides :
    (∀ p ∈ [quarterTurn], p.IsCyclic) ∧
    images [quarterTurn] [⟨"N", true, none⟩, ⟨"O", false, some 2⟩, ⟨"S", true, none⟩] =
      .ok [[⟨"N", true, none⟩, ⟨"O", false, some 2⟩, ⟨"S", true, none⟩],
        [⟨"W", true, none⟩, ⟨"O", false, some 2⟩, ⟨"E", true, none⟩]] ∧
    ∀ m, m ∈ [[⟨"N", true, none⟩, ⟨"O", false, some 2⟩, ⟨"S", true, none⟩],
        [⟨"W", true, none⟩, ⟨"O", false, some 2⟩, ⟨"E", true, none⟩]].map Multiset.ofList ↔
      m ∈ orbit [quarterTurn] [⟨"N", true, none⟩, ⟨"O", false, some 2⟩, ⟨"S", true, none⟩] := by
  have hbasis : ∀ p ∈ [quarterTurn], p.IsCyclic := by
    intro p hp
    rw [List.mem_singleton.mp hp]
    exact ⟨_, by decide, rfl⟩
  have hok : images [quarterTurn] [⟨"N", true, none⟩, ⟨"O", false, some 2⟩, ⟨"S", true, none⟩] =
      .ok [[⟨"N", true, none⟩, ⟨"O", false, some 2⟩, ⟨"S", true, none⟩],
        [⟨"W", true, none⟩, ⟨"O", false, some 2⟩, ⟨"E", true, none⟩]] := by
    cbv
  exact ⟨hbasis, hok, (images_eq_orbit hbasis hok).2.1⟩

end Orbit

end CellSat
