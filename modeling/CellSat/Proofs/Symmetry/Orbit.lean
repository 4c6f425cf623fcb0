import Mathlib
import CellSat.Proofs.Meaning
import CellSat.Proofs.Search
import CellSat.Symmetry.Orbit
/-!
# Images of clauses

* `Orbit.Image`: what a disjunction can become by applying maps one after the other;
* `Orbit.Few`, `Orbit.Many`: there is room for all images below the limit, or there is not;
* **`Orbit.images_cases`**: the search finds each image once, up to the order of its literals, or
  there are too many;
* `Orbit.images_eq_ok`: it succeeds if there are few images;
* `Clause.expandSymmetry_eq_ok`: the same for a clause list.
-/

namespace CellSat

namespace Orbit

variable {maps ps : List Permutation} {start c d : Disjunction}

/-- One of the maps makes the second disjunction out of the first. -/
def Maps (maps : List Permutation) (c d : Disjunction) : Prop := ∃ p ∈ maps, p.onDisjunction c = d

/-- Some maps, one after the other, make the second disjunction out of the first. -/
def Image (maps : List Permutation) : Disjunction → Disjunction → Prop :=
  Relation.ReflTransGen (Maps maps)

/-- Images with different signatures are fewer than the limit. -/
def Few (maps : List Permutation) (start : Disjunction) : Prop :=
  ∀ l : List Disjunction, (l.map signature).Nodup → (∀ c ∈ l, Image maps start c) →
    l.length < limit

/-- There are more images with different signatures than the limit. -/
def Many (maps : List Permutation) (start : Disjunction) : Prop :=
  ∃ l : List Disjunction, (l.map signature).Nodup ∧ (∀ c ∈ l, Image maps start c) ∧
    limit < l.length

theorem Few.not_many (h : Few maps start) : ¬ Many maps start := by
  rintro ⟨l, hnodup, himage, hlength⟩
  exact Nat.lt_asymm hlength (h l hnodup himage)

theorem signature_eq_iff : signature c = signature d ↔ c.Perm d := by
  have hd := List.mergeSort_perm d fun a b => (Literal.compare a b).isLE
  constructor
  · intro h
    have hc := List.mergeSort_perm c fun a b => (Literal.compare a b).isLE
    exact hc.symm.trans ((List.Perm.of_eq h).trans hd)
  · intro h
    exact mergeSort_eq_of_perm (h.trans hd.symm) (pairwise_mergeSort_isLE d)

/-- A search knows the signatures of what it has found, and how many there are. -/
structure Search.Consistent (s : Search) : Prop where
  mem_signatures : ∀ key, key ∈ s.signatures ↔ ∃ c ∈ s.found, signature c = key
  count_eq : s.count = s.found.length
  nodup : (s.found.map signature).Nodup

theorem Search.consistent_start (d : Disjunction) : (Search.start d).Consistent where
  mem_signatures key := by
    rw [start, Std.HashSet.mem_insert, beq_iff_eq,
      or_iff_left Std.HashSet.not_mem_emptyWithCapacity]
    simp
  count_eq := rfl
  nodup := List.nodup_singleton _

theorem Search.Consistent.insert {s : Search} (hs : s.Consistent)
    (hnew : ¬ s.signatures.contains (signature c) = true) :
    Search.Consistent ⟨c :: s.found, s.signatures.insert (signature c), s.count + 1⟩ where
  mem_signatures key := by
    rw [Std.HashSet.mem_insert, beq_iff_eq, hs.mem_signatures]
    simp
  count_eq := by rw [hs.count_eq, List.length_cons]
  nodup := by
    refine List.nodup_cons.mpr ⟨fun h => hnew ?_, hs.nodup⟩
    obtain ⟨e, he, heq⟩ := List.mem_map.mp h
    exact (hs.mem_signatures _).mpr ⟨e, he, heq⟩

/-- If there is no room for an image, it makes too many together with those that were found. -/
theorem Search.extend_cases {s : Search} (hs : s.Consistent) (hroom : s.found.length ≤ limit)
    (hps : ∀ p ∈ ps, p ∈ maps) (hd : Image maps start d)
    (hfound : ∀ c ∈ s.found, Image maps start c) (stack : List Disjunction) :
    (s.extend d ps stack = .error (.tooManyImages limit) ∧ Many maps start) ∨
      ∃ (s' : Search) (new : List Disjunction), s.extend d ps stack = .ok (s', new ++ stack) ∧
        s'.Consistent ∧ s'.found.length ≤ limit ∧ s'.found = new ++ s.found ∧
        (∀ c ∈ new, Maps maps d c) ∧ ∀ p ∈ ps, ∃ c ∈ s'.found, (p.onDisjunction d).Perm c := by
  induction ps generalizing s stack with
  | nil => exact .inr ⟨s, [], rfl, hs, hroom, rfl, by simp, by simp⟩
  | cons p ps ih =>
    have hp : Maps maps d (p.onDisjunction d) := ⟨p, hps p List.mem_cons_self, rfl⟩
    have hps' : ∀ q ∈ ps, q ∈ maps := fun q hq => hps q (List.mem_cons_of_mem p hq)
    have hfound' : ∀ c ∈ p.onDisjunction d :: s.found, Image maps start c :=
      List.forall_mem_cons.mpr ⟨hd.tail hp, hfound⟩
    rw [Search.extend]
    by_cases hseen : s.signatures.contains (signature (p.onDisjunction d)) = true
    · rw [if_pos hseen]
      refine (ih hs hroom hps' hfound stack).imp_right ?_
      rintro ⟨s', new, hok, hs', hroom', hnew, hmaps, hall⟩
      refine ⟨s', new, hok, hs', hroom', hnew, hmaps, List.forall_mem_cons.mpr ⟨?_, hall⟩⟩
      obtain ⟨e, he, heq⟩ := (hs.mem_signatures _).mp hseen
      exact ⟨e, by simp [hnew, he], signature_eq_iff.mp heq.symm⟩
    · rw [if_neg hseen]
      by_cases hfull : limit ≤ s.count
      · refine .inl ⟨if_pos hfull, p.onDisjunction d :: s.found, (hs.insert hseen).nodup,
          hfound', ?_⟩
        rw [hs.count_eq] at hfull
        exact Nat.lt_succ_of_le hfull
      · rw [if_neg hfull]
        rw [hs.count_eq, not_le] at hfull
        refine (ih (hs.insert hseen) hfull hps' hfound' (p.onDisjunction d :: stack)).imp_right ?_
        rintro ⟨s', new, hok, hs', hroom', hnew, hmaps, hall⟩
        refine ⟨s', new ++ [p.onDisjunction d], ?_, hs', hroom', by simp [hnew], ?_, ?_⟩
        · rw [hok, List.append_assoc, List.singleton_append]
        · simpa [or_imp, forall_and] using ⟨hmaps, hp⟩
        · exact List.forall_mem_cons.mpr ⟨⟨_, by simp [hnew], .refl _⟩, hall⟩

/-- Every step works off an image that was not worked off before, so the limit is enough fuel. -/
theorem Search.run_cases {fuel : Nat} {s : Search} {stack : List Disjunction} (hs : s.Consistent)
    (hroom : s.found.length ≤ limit)
    (hexplored : Explored (Maps maps) List.Perm start (fun c => c ∈ s.found) stack)
    (hfuel : fuel + s.found.length = limit + stack.length) :
    (s.run maps fuel stack = .error (.tooManyImages limit) ∧ Many maps start) ∨
      ∃ s', s.run maps fuel stack = .ok s' ∧ s'.Consistent ∧ s'.found.length ≤ limit ∧
        Explored (Maps maps) List.Perm start (fun c => c ∈ s'.found) [] := by
  induction fuel generalizing s stack with
  | zero =>
    -- No more than the limit has been found, so nothing is left on the stack.
    have hstack : stack = [] := List.eq_nil_of_length_eq_zero (by omega)
    exact .inr ⟨s, rfl, hs, hroom, hstack ▸ hexplored⟩
  | succ fuel ih =>
    cases stack with
    | nil => exact .inr ⟨s, rfl, hs, hroom, hexplored⟩
    | cons d stack =>
      have hd : Image maps start d :=
        hexplored.reachable d (hexplored.pending_subset d List.mem_cons_self)
      rcases Search.extend_cases hs hroom (fun _ hp => hp) hd hexplored.reachable stack with
        ⟨herror, hmany⟩ | ⟨s', new, hok, hs', hroom', hnew, hmaps, hall⟩
      · left
        rw [Search.run, herror]
        exact ⟨rfl, hmany⟩
      · have hvisit :
            Explored (Maps maps) List.Perm start (fun c => c ∈ s'.found) (new ++ stack) := by
          refine hexplored.visit (fun c => ?_) (fun c => ?_) hmaps ?_
          · change c ∈ s'.found ↔ c ∈ s.found ∨ c ∈ new
            rw [hnew, List.mem_append, or_comm]
          · rw [List.mem_append, or_comm]
          · rintro _ ⟨p, hp, rfl⟩
            exact hall p hp
        have hlength : s'.found.length = new.length + s.found.length := by
          rw [hnew, List.length_append]
        rw [Search.run, hok]
        refine ih hs' hroom' hvisit ?_
        rw [List.length_append]
        rw [List.length_cons] at hfuel
        omega

/-- **The images of a disjunction** are all found, each once, or there are more than the limit. -/
theorem images_cases (basis : List Permutation) (d : Disjunction) :
    (images basis d = .error (.tooManyImages limit) ∧
      Many (basis.map Permutation.inverse) d) ∨
    ∃ ds, images basis d = .ok ds ∧ (ds.map signature).Nodup ∧ ds.length ≤ limit ∧
      (∀ c ∈ ds, Image (basis.map Permutation.inverse) d c) ∧
      ∀ c, Image (basis.map Permutation.inverse) d c → ∃ e ∈ ds, c.Perm e := by
  have hstart : Explored (Maps (basis.map Permutation.inverse)) List.Perm d
      (fun c => c ∈ (Search.start d).found) [d] := by
    have hset : (fun c => c ∈ (Search.start d).found) = ({d} : Set Disjunction) := by
      ext c
      exact List.mem_singleton
    exact hset ▸ Explored.start
  rw [images]
  rcases Search.run_cases (Search.consistent_start d) (show 1 ≤ limit by decide) hstart rfl with
    ⟨herror, hmany⟩ | ⟨s, hrun, hs, hroom, hdone⟩
  · left
    rw [herror]
    exact ⟨rfl, hmany⟩
  · right
    rw [hrun]
    have hsorted := List.mergeSort_perm s.found fun a b => (Disjunction.compare a b).isLE
    refine ⟨_, rfl, ?_, ?_, fun c hc => ?_, fun c hc => ?_⟩
    · exact (hsorted.map signature).nodup_iff.mpr hs.nodup
    · rw [hsorted.length_eq]
      exact hroom
    · exact hdone.reachable c (hsorted.mem_iff.mp hc)
    · obtain ⟨e, he, hperm⟩ := hdone.complete (.refl d) (fun _ _ _ => .trans)
        (by rintro c e _ hce ⟨p, hp, rfl⟩; exact ⟨_, ⟨p, hp, rfl⟩, hce.map _⟩) hc
      exact ⟨e, hsorted.mem_iff.mpr he, hperm⟩

theorem images_eq_ok {basis : List Permutation} (hfew : Few (basis.map Permutation.inverse) d) :
    ∃ ds, images basis d = .ok ds ∧
      (∀ c ∈ ds, Image (basis.map Permutation.inverse) d c) ∧
      ∀ c, Image (basis.map Permutation.inverse) d c → ∃ e ∈ ds, c.Perm e := by
  rcases images_cases basis d with ⟨_, hmany⟩ | ⟨ds, hok, _, _, himage, hall⟩
  · exact absurd hmany hfew.not_many
  · exact ⟨ds, hok, himage, hall⟩

end Orbit

open Orbit

theorem Clause.expandSymmetry_eq_ok {basis : List Permutation} {cs : List Clause}
    (hfew : ∀ d ∈ disjunctions cs, Few (basis.map Permutation.inverse) d) :
    ∃ cs', expandSymmetry basis cs = .ok cs' ∧
      (∀ c ∈ disjunctions cs', ∃ d ∈ disjunctions cs,
        Image (basis.map Permutation.inverse) d c) ∧
      ∀ d ∈ disjunctions cs, ∀ c, Image (basis.map Permutation.inverse) d c →
        ∃ e ∈ disjunctions cs', c.Perm e := by
  induction cs with
  | nil => exact ⟨[], rfl, by simp, by simp⟩
  | cons line cs ih =>
    cases line with
    | comment text =>
      obtain ⟨cs', hok, hsound, hcomplete⟩ := ih hfew
      refine ⟨.comment text :: cs', ?_, hsound, hcomplete⟩
      rw [expandSymmetry, hok]
      rfl
    | disjunction d =>
      rw [disjunctions_disjunction, List.forall_mem_cons] at hfew
      obtain ⟨ds, hds, himages, hall⟩ := images_eq_ok hfew.1
      obtain ⟨cs', hok, hsound, hcomplete⟩ := ih hfew.2
      refine ⟨ds.map .disjunction ++ cs', ?_, fun c hc => ?_, ?_⟩
      · rw [expandSymmetry, hds, hok]
        rfl
      · rw [disjunctions_append, disjunctions_map, List.mem_append] at hc
        rcases hc with hc | hc
        · exact ⟨d, by simp, himages c hc⟩
        · obtain ⟨e, he, himage⟩ := hsound c hc
          exact ⟨e, by simp [he], himage⟩
      · rw [disjunctions_disjunction, List.forall_mem_cons]
        refine ⟨fun c hc => ?_, fun e he c hc => ?_⟩
        · obtain ⟨e, he, hperm⟩ := hall c hc
          exact ⟨e, by simp [he], hperm⟩
        · obtain ⟨f, hf, hperm⟩ := hcomplete e he c hc
          exact ⟨f, by simp [hf], hperm⟩

end CellSat
