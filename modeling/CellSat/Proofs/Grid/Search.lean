import Mathlib
import CellSat.Grid.Build
import CellSat.Proofs.Plane.Fold
import CellSat.Proofs.Search
/-!
# The nodes of a grid

* `Lattice.neighbors`: the neighbours of a node, exact;
* `Lattice.Belongs`, `Lattice.Adjoins`: when a neighbour belongs to the grid;
* `Lattice.eq_of_neighbors64` and the like: machine words give the exact neighbours where they give
  a result;
* `Lattice.Explores`: the search, which ends when its queue is empty, and
  `Lattice.explores_reachable64`: it does end;
* **`Lattice.Explores.mem_sorted`**: the search from a root finds what can be reached from it.
-/

namespace CellSat.Lattice

variable {lattice : Lattice} {m n : Node}

/-! ## Exact neighbours -/

theorem eq_of_node64 {p : Cell} {t : Int} (h : lattice.node64 p t = .ok n) :
    n = lattice.node p t := by
  obtain ⟨folded, hfolded, h⟩ := bind_eq_ok.mp h
  rw [← Except.ok.inj h, Folding.eq_of_fold64 hfolded]
  rfl

theorem eq_of_adjust64 {c : Clock} {p : Cell} {t : Int} {r : Cell × Int}
    (h : c.adjust64 p t = .ok r) : r = c.adjust p t := by
  rw [Clock.adjust64] at h
  rw [Clock.adjust]
  split_ifs at h ⊢
  · obtain ⟨q, hq, h⟩ := bind_eq_ok.mp h
    rw [← Except.ok.inj h, Word.eq_of_within hq]
  · exact (Except.ok.inj h).symm

theorem eq_of_neighbor64? {symbol : String} {o : Option Node}
    (h : lattice.neighbor64? symbol n = .ok o) : o = lattice.neighbor? symbol n := by
  rw [neighbor64?] at h
  rw [neighbor?]
  split_ifs at h ⊢
  · obtain ⟨t, ht, h⟩ := bind_eq_ok.mp h
    obtain ⟨⟨p, u⟩, hp, h⟩ := bind_eq_ok.mp h
    obtain ⟨m, hm, h⟩ := bind_eq_ok.mp h
    rw [← Except.ok.inj h, eq_of_node64 hm, ← Word.eq_of_int64 ht, ← eq_of_adjust64 hp]
  · cases hd : Cell.displacement? symbol with
    | none =>
      rw [hd] at h
      exact (Except.ok.inj h).symm
    | some d =>
      rw [hd] at h
      obtain ⟨q, hq, h⟩ := bind_eq_ok.mp h
      obtain ⟨m, hm, h⟩ := bind_eq_ok.mp h
      rw [← Except.ok.inj h, eq_of_node64 hm, Word.eq_of_within hq]
      rfl

/-- The eight neighbours in space and the one in time. -/
def neighbors (lattice : Lattice) (n : Node) : List Node :=
  Symbol.neighbors.filterMap (lattice.neighbor? · n)

theorem neighborsBy64_eq_ok {symbols : List String} {l : List Node}
    (h : lattice.neighborsBy64 n symbols = .ok l) :
    l = symbols.filterMap (lattice.neighbor? · n) ∧
      ∀ symbol ∈ symbols, lattice.neighbor64? symbol n = .ok (lattice.neighbor? symbol n) := by
  induction symbols generalizing l with
  | nil => exact ⟨(Except.ok.inj h).symm, by simp⟩
  | cons symbol symbols ih =>
    obtain ⟨o, ho, h⟩ := bind_eq_ok.mp h
    obtain ⟨rest, hrest, h⟩ := bind_eq_ok.mp h
    obtain ⟨hl, hsymbols⟩ := ih hrest
    have ho' := eq_of_neighbor64? ho
    refine ⟨?_, List.forall_mem_cons.mpr ⟨ho' ▸ ho, hsymbols⟩⟩
    rw [← Except.ok.inj h, ho', hl]
    cases hs : lattice.neighbor? symbol n <;> simp [hs]

theorem eq_of_neighbors64 {l : List Node} (h : lattice.neighbors64 n = .ok l) :
    l = lattice.neighbors n :=
  (neighborsBy64_eq_ok h).1

/-! ## What belongs to a grid -/

/-- A node belongs to a grid if it is not turned and it lies inside or next to the inside. -/
def Belongs (lattice : Lattice) (n : Node) : Prop :=
  n.orientation = 0 ∧
    (lattice.isOutside n = true → ∃ m ∈ lattice.neighbors n, lattice.isOutside m = false)

/-- A neighbour that belongs to the grid. -/
def Adjoins (lattice : Lattice) (n m : Node) : Prop :=
  m ∈ lattice.neighbors n ∧ lattice.Belongs m

theorem belongs64_iff {b : Bool} (h : lattice.belongs64 n = .ok b) :
    b = true ↔ lattice.Belongs n := by
  rw [belongs64] at h
  rw [Belongs]
  split_ifs at h with horientation houtside
  · rw [← Except.ok.inj h]
    simp [horientation]
  · rw [isBoundary64, if_pos houtside] at h
    obtain ⟨l, hl, h⟩ := bind_eq_ok.mp h
    rw [← Except.ok.inj h, eq_of_neighbors64 hl]
    rw [not_not] at horientation
    simp [horientation, houtside]
  · rw [not_not] at horientation
    rw [← Except.ok.inj h]
    simp [horientation, houtside]

/-! ## The search -/

theorem enqueue64_eq_ok {ns queue queue' : List Node} {seen seen' : Std.HashSet Node}
    (h : lattice.enqueue64 ns seen queue = .ok (seen', queue')) :
    ∃ new : List Node, queue' = new ++ queue ∧ (∀ m, m ∈ seen' ↔ m ∈ seen ∨ m ∈ new) ∧
      seen'.size = seen.size + new.length ∧ (∀ m ∈ new, m ∈ ns ∧ lattice.Belongs m) ∧
      ∀ m ∈ ns, m ∈ seen' ∨ lattice.belongs64 m = .ok false := by
  fun_induction enqueue64 lattice ns seen queue with
  | case1 seen queue =>
    obtain ⟨rfl, rfl⟩ := Prod.mk.inj (Except.ok.inj h)
    exact ⟨[], by simp⟩
  | case2 n ns seen queue hcontains ih =>
    obtain ⟨new, hqueue, hmem, hsize, hnew, hns⟩ := ih h
    refine ⟨new, hqueue, hmem, hsize, fun m hm => ?_, List.forall_mem_cons.mpr ⟨?_, hns⟩⟩
    · exact ⟨List.mem_cons_of_mem n (hnew m hm).1, (hnew m hm).2⟩
    · exact .inl ((hmem n).mpr (.inl hcontains))
  | case3 n ns seen queue hcontains ih₁ ih₂ =>
    obtain ⟨b, hb, h⟩ := bind_eq_ok.mp h
    cases b with
    | false =>
      obtain ⟨new, hqueue, hmem, hsize, hnew, hns⟩ := ih₂ h
      refine ⟨new, hqueue, hmem, hsize, fun m hm => ?_, List.forall_mem_cons.mpr ⟨.inr hb, hns⟩⟩
      exact ⟨List.mem_cons_of_mem n (hnew m hm).1, (hnew m hm).2⟩
    | true =>
      obtain ⟨new, hqueue, hmem, hsize, hnew, hns⟩ := ih₁ h
      have hn : n ∉ seen := by simpa using hcontains
      refine ⟨new ++ [n], by simp [hqueue], fun m => ?_, ?_, fun m hm => ?_,
        List.forall_mem_cons.mpr ⟨?_, hns⟩⟩
      · rw [hmem, Std.HashSet.mem_insert, List.mem_append, List.mem_singleton, beq_iff_eq]
        tauto
      · rw [hsize, Std.HashSet.size_insert, if_neg hn, List.length_append, List.length_singleton]
        omega
      · rcases List.mem_append.mp hm with hm | hm
        · exact ⟨List.mem_cons_of_mem n (hnew m hm).1, (hnew m hm).2⟩
        · rw [List.mem_singleton.mp hm]
          exact ⟨List.mem_cons_self, (belongs64_iff hb).mp rfl⟩
      · exact .inl ((hmem n).mpr (.inl (by simp)))

theorem enqueue64_eq (lattice : Lattice) (ns : List Node) (seen : Std.HashSet Node)
    (queue : List Node) : lattice.enqueue64 ns seen queue =
      (lattice.enqueue64 ns seen []).map fun r => (r.1, r.2 ++ queue) := by
  induction ns generalizing seen queue with
  | nil => rfl
  | cons n ns ih =>
    rw [enqueue64, enqueue64]
    split_ifs with hcontains
    · exact ih seen queue
    · cases lattice.belongs64 n with
      | error fault => rfl
      | ok b =>
        cases b with
        | false => exact ih seen queue
        | true =>
          show lattice.enqueue64 ns (seen.insert n) (n :: queue) =
            (lattice.enqueue64 ns (seen.insert n) [n]).map _
          rw [ih (seen.insert n) (n :: queue), ih (seen.insert n) [n]]
          cases lattice.enqueue64 ns (seen.insert n) [] <;> simp [Except.map]

/-- Visit a node: what is seen then, and the nodes that are new, the last one first. -/
def visit64 (lattice : Lattice) (n : Node) (seen : Std.HashSet Node) :
    Checked (Std.HashSet Node × List Node) := do
  lattice.enqueue64 (← lattice.neighbors64 n) seen []

variable {root : Node} {seen seen' : Std.HashSet Node} {queue new : List Node}

theorem visit64_eq_ok (h : lattice.visit64 n seen = .ok (seen', new)) :
    lattice.neighbors64 n = .ok (lattice.neighbors n) ∧
      (∀ m, m ∈ seen' ↔ m ∈ seen ∨ m ∈ new) ∧ seen'.size = seen.size + new.length ∧
      (∀ m ∈ new, lattice.Adjoins n m) ∧
      ∀ m ∈ lattice.neighbors n, m ∈ seen' ∨ lattice.belongs64 m = .ok false := by
  obtain ⟨l, hl, h⟩ := bind_eq_ok.mp h
  obtain rfl := eq_of_neighbors64 hl
  obtain ⟨new', hqueue, hspec⟩ := enqueue64_eq_ok h
  rw [List.append_nil] at hqueue
  subst hqueue
  exact ⟨hl, hspec⟩

/-- The search from a queue on, without a bound on its steps. It ends when the queue is empty or a
visit has a fault. -/
inductive Explores (lattice : Lattice) :
    List Node → Std.HashSet Node → Checked (Std.HashSet Node) → Prop
  | done (seen : Std.HashSet Node) : Explores lattice [] seen (.ok seen)
  | fault {n : Node} {queue : List Node} {seen : Std.HashSet Node} {fault : Fault}
      (h : lattice.visit64 n seen = .error fault) :
      Explores lattice (n :: queue) seen (.error fault)
  | visit {n : Node} {queue new : List Node} {seen seen' : Std.HashSet Node}
      {outcome : Checked (Std.HashSet Node)} (h : lattice.visit64 n seen = .ok (seen', new))
      (hrest : Explores lattice (queue ++ new.reverse) seen' outcome) :
      Explores lattice (n :: queue) seen outcome

/-- Machine words give the neighbours of a node, and tell that those that cannot be reached do not
belong to the grid. -/
def Surveyed (lattice : Lattice) (root n : Node) : Prop :=
  (∃ l, lattice.neighbors64 n = .ok l) ∧
    ∀ m ∈ lattice.neighbors n,
      Relation.ReflTransGen lattice.Adjoins root m ∨ lattice.belongs64 m = .ok false

/-- A search of the grid: what was visited is surveyed. -/
structure Searched (lattice : Lattice) (root : Node) (seen : Std.HashSet Node)
    (pending : List Node) : Prop where
  explored : Explored lattice.Adjoins Eq root (fun n => n ∈ seen) pending
  surveyed : ∀ n ∈ seen, n ∈ pending ∨ lattice.Surveyed root n

/-- **One visit** of a search. -/
theorem Searched.visit (h : lattice.Searched root seen (n :: queue))
    (hn : lattice.visit64 n seen = .ok (seen', new)) :
    lattice.Searched root seen' (queue ++ new.reverse) ∧ seen'.size = seen.size + new.length := by
  obtain ⟨hl, hmem, hsize, hnew, hclosed⟩ := visit64_eq_ok hn
  have hpending : ∀ m, m ∈ queue ++ new.reverse ↔ m ∈ queue ∨ m ∈ new := by
    intro m
    rw [List.mem_append, List.mem_reverse]
  have hexplored :
      Explored lattice.Adjoins Eq root (fun n => n ∈ seen') (queue ++ new.reverse) := by
    refine h.explored.visit hmem hpending hnew ?_
    intro m hm
    refine ⟨m, (hclosed m hm.1).resolve_right fun hfalse => ?_, rfl⟩
    exact absurd ((belongs64_iff hfalse).mpr hm.2) (by simp)
  refine ⟨⟨hexplored, fun m hm => ?_⟩, hsize⟩
  rcases (hmem m).mp hm with hm | hm
  · rcases h.surveyed m hm with hm | hm
    · rcases List.mem_cons.mp hm with rfl | hm
      · exact .inr ⟨⟨_, hl⟩, fun k hk => (hclosed k hk).imp_left (hexplored.reachable k)⟩
      · exact .inl ((hpending m).mpr (.inl hm))
    · exact .inr hm
  · exact .inl ((hpending m).mpr (.inr hm))

/-- **A search that has ended** has nothing left to visit. -/
theorem Explores.searched (h : lattice.Explores queue seen (.ok seen'))
    (hseen : lattice.Searched root seen queue) : lattice.Searched root seen' [] := by
  generalize houtcome : Except.ok seen' = outcome at h
  induction h with
  | done seen => exact Except.ok.inj houtcome ▸ hseen
  | fault h => contradiction
  | visit h hrest ih => exact ih (hseen.visit h).1 houtcome

theorem size_le_card {S : Finset Node} {seen : Std.HashSet Node} (h : ∀ n ∈ seen, n ∈ S) :
    seen.size ≤ S.card := by
  have hnodup : seen.toList.Nodup := Std.HashSet.distinct_toList.imp fun h => by simpa using h
  rw [← Std.HashSet.length_toList, ← List.toFinset_card_of_nodup hnodup]
  refine Finset.card_le_card fun n hn => h n ?_
  simpa using hn

/-- When the frontier is empty, what was found meanwhile is the next one. -/
theorem reachable64_nil {fuel : Nat} {later frontier : List Node} {m : Node}
    (h : later.reverse = m :: frontier) : lattice.reachable64 (fuel + 1) [] later seen =
      lattice.reachable64 (fuel + 1) (m :: frontier) [] seen := by
  cases later with
  | nil => simp at h
  | cons n later => rw [reachable64, h, reachable64]

theorem reachable64_cons (lattice : Lattice) (fuel : Nat) (m : Node) (frontier later : List Node)
    (seen : Std.HashSet Node) : lattice.reachable64 (fuel + 1) (m :: frontier) later seen =
      lattice.visit64 m seen >>= fun r => lattice.reachable64 fuel frontier (r.2 ++ later) r.1 := by
  rw [reachable64, visit64, bind_assoc]
  congr 1
  funext ns
  rw [enqueue64_eq lattice ns seen later]
  cases lattice.enqueue64 ns seen [] <;> rfl

/-- **The search ends.** Every step visits a node that was not visited before, so there is fuel for
each node and one step more. -/
theorem explores_reachable64 {S : Finset Node}
    (hS : ∀ n, Relation.ReflTransGen lattice.Adjoins root n → n ∈ S) {fuel limit : Nat}
    (hlimit : S.card < limit) {frontier later : List Node}
    (hseen : lattice.Searched root seen (frontier ++ later.reverse))
    (hfuel : fuel + seen.size = limit + frontier.length + later.length) :
    lattice.Explores (frontier ++ later.reverse) seen
      (lattice.reachable64 fuel frontier later seen) := by
  induction fuel generalizing frontier later seen with
  | zero =>
    have hsize := size_le_card fun n hn => hS n (hseen.explored.reachable n hn)
    omega
  | succ fuel ih =>
    -- The node to visit heads the frontier, or else what was found since the frontier was made.
    have hvisit : ∀ {m : Node} {frontier later : List Node},
        lattice.Searched root seen (m :: (frontier ++ later.reverse)) →
        fuel + 1 + seen.size = limit + (m :: frontier).length + later.length →
        lattice.Explores (m :: (frontier ++ later.reverse)) seen
          (lattice.reachable64 (fuel + 1) (m :: frontier) later seen) := by
      intro m frontier later hseen hfuel
      rw [reachable64_cons]
      cases hm : lattice.visit64 m seen with
      | error fault => exact .fault hm
      | ok r =>
        obtain ⟨hvisited, hsize⟩ := hseen.visit hm
        have hqueue : frontier ++ later.reverse ++ r.2.reverse =
            frontier ++ (r.2 ++ later).reverse := by simp
        refine .visit hm ?_
        rw [hqueue] at hvisited ⊢
        refine ih hvisited ?_
        simp only [List.length_cons, List.length_append] at hfuel ⊢
        omega
    cases frontier with
    | cons m frontier => exact hvisit hseen hfuel
    | nil =>
      cases hlater : later.reverse with
      | nil =>
        obtain rfl := List.reverse_eq_nil_iff.mp hlater
        exact .done seen
      | cons m frontier =>
        have hlength := congrArg List.length hlater
        rw [List.length_reverse] at hlength
        rw [List.nil_append, hlater] at hseen
        rw [reachable64_nil hlater, List.nil_append]
        have hnext := @hvisit m frontier [] (by simpa using hseen) (by simpa [hlength] using hfuel)
        simpa using hnext

/-- The nodes that are seen at the beginning of a search. -/
def seed (root : Node) : Std.HashSet Node := Std.HashSet.emptyWithCapacity.insert root

theorem mem_seed : n ∈ seed root ↔ n = root := by
  rw [seed, Std.HashSet.mem_insert, beq_iff_eq, eq_comm,
    or_iff_left Std.HashSet.not_mem_emptyWithCapacity]

theorem searched_seed (lattice : Lattice) (root : Node) :
    lattice.Searched root (seed root) [root] := by
  refine ⟨?_, fun n hn => .inl (List.mem_singleton.mpr (mem_seed.mp hn))⟩
  have hseed : (fun n => n ∈ seed root) = fun n => n = root := funext fun n => propext mem_seed
  rw [hseed]
  exact Explored.start

/-- The list of what was seen, in order of the places. -/
def sorted (seen : Std.HashSet Node) : List Node :=
  seen.toList.mergeSort fun m n => (m.compare n).isLE

theorem grid64_eq_map (lattice : Lattice) (root : Node) : lattice.grid64 root =
    (lattice.reachable64 (lattice.nodeLimit root) [root] [] (seed root)).map sorted := by
  rw [grid64, ← seed]
  cases lattice.reachable64 (lattice.nodeLimit root) [root] [] (seed root) <;> rfl

theorem explores_of_card_lt {S : Finset Node}
    (hS : ∀ n, Relation.ReflTransGen lattice.Adjoins root n → n ∈ S)
    (hlimit : S.card < lattice.nodeLimit root) : lattice.Explores [root] (seed root)
      (lattice.reachable64 (lattice.nodeLimit root) [root] [] (seed root)) := by
  have hsize : (seed root).size = 1 := by
    rw [seed, Std.HashSet.size_insert, if_neg Std.HashSet.not_mem_emptyWithCapacity,
      Std.HashSet.size_emptyWithCapacity]
  have hfuel : lattice.nodeLimit root + (seed root).size =
      lattice.nodeLimit root + [root].length + ([] : List Node).length := by
    rw [hsize]
    rfl
  exact explores_reachable64 hS hlimit (searched_seed lattice root) hfuel

/-- **The search from a root** finds the nodes that can be reached from it, and surveys them. -/
theorem Explores.mem_sorted (h : lattice.Explores [root] (seed root) (.ok seen)) :
    (∀ n, n ∈ sorted seen ↔ Relation.ReflTransGen lattice.Adjoins root n) ∧
      ∀ n ∈ sorted seen, lattice.Surveyed root n := by
  have hdone := h.searched (searched_seed lattice root)
  have hmem : ∀ n, n ∈ sorted seen ↔ n ∈ seen := fun n => by
    rw [sorted, List.mem_mergeSort, Std.HashSet.mem_toList]
  refine ⟨fun n => ?_, fun n hn => ?_⟩
  · rw [hmem]
    constructor
    · exact hdone.explored.reachable n
    · intro hn
      obtain ⟨m, hm, rfl⟩ := hdone.explored.complete rfl (fun _ _ _ => Eq.trans)
        (fun x y z hxy hz => ⟨z, hxy ▸ hz, rfl⟩) hn
      exact hm
  · exact (hdone.surveyed n ((hmem n).mp hn)).resolve_left List.not_mem_nil

end CellSat.Lattice
