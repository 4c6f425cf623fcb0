import Mathlib
import CellSat.Proofs.Grid.Room
import CellSat.Proofs.Template.Instances
import CellSat.Proofs.Template.Outside
/-!
# What an inflated template says of an assignment

A template without tags says of each node what its clauses say of the cells around it, where the
cells outside are dead. Its inflation has the false wire in place of these cells, leaves out what
is true because of the wire, and pins the wire wherever it is used. So an assignment satisfies the
inflation exactly if it obeys the template at all nodes, and the wire, if it is used, is false.

* `Lattice.exists_inflateGrid64_iff`: when a template can be inflated;
* `Template.satisfies_inflateGrid64`: the instances of a template and the pin;
* `Lattice.exists_zeroName_of_isOutside`: a cell outside brings in the false wire;
* **`Lattice.satisfies_iff_obeys_dead`**: the meaning of an inflated template.
-/

namespace CellSat

open Template

/-! ## Instances and the pin -/

namespace Template

variable {lattice : Lattice} {grid : List Node} {template cs : List Clause} {turn : Turn}
  {consequent : Option String}

theorem satisfies_inflateGrid64
    (hrenames : ∀ d ∈ Clause.disjunctions template, ∀ l ∈ d, turn = .fixed ∨ l.tag = none)
    (h : inflateGrid64 lattice grid template consequent turn = .ok cs) :
    ∃ ss, grid.mapM (lattice.substitution64 (helpers template)) = .ok ss ∧
      ∀ I : Interpretation, I.Satisfies (Clause.disjunctions cs) ↔
        (UsesZero template ss turn → I.truth Literal.zeroName = false) ∧
          ∀ s ∈ ss, (I.along s.naming).Satisfies (Clause.disjunctions template) := by
  obtain ⟨ss, hss, hmem⟩ := mem_inflateGrid64 h
  refine ⟨ss, hss, fun I => ?_⟩
  have hinstances : (∀ d, Instance template ss turn d → d.holds I = true) ↔
      ∀ s ∈ ss, (I.along s.naming).Satisfies (Clause.disjunctions template) := by
    constructor
    · intro hall s hs d hd
      exact (satisfies_instances (hrenames d hd)).mp (fun e he => hall e ⟨d, hd, he⟩) s hs
    · rintro hall e ⟨d, hd, he⟩
      exact (satisfies_instances (hrenames d hd)).mpr (fun s hs => hall s hs d hd) e he
  rw [← hinstances, ← holds_pin, Interpretation.Satisfies]
  simp only [hmem]
  constructor
  · intro hall
    exact ⟨fun hzero => hall _ (.inr ⟨rfl, hzero⟩), fun d hd => hall d (.inl hd)⟩
  · rintro ⟨hzero, hall⟩ d (hd | ⟨rfl, huses⟩)
    · exact hall d hd
    · exact hzero huses

end Template

namespace Lattice

variable {lattice : Lattice} {grid : List Node} {template : List Clause} {n : Node}
  {s : Substitution} {l : Literal}

/-! ## Templates that can be inflated -/

theorem exists_substitution64_iff (helpers : List String) :
    (∃ s, lattice.substitution64 helpers n = .ok s) ↔ ∃ ms, lattice.neighbors64 n = .ok ms := by
  constructor
  · rintro ⟨s, hs⟩
    obtain ⟨targets, htargets, -⟩ := bind_eq_ok.mp hs
    exact exists_neighborsBy64 (neighbor64?_of_neighborTargets64 htargets)
  · rintro ⟨ms, hms⟩
    obtain ⟨s, hs, -⟩ := exists_lookup hms helpers
    exact ⟨s, hs⟩

theorem exists_inflateGrid64_iff (lattice : Lattice) (grid : List Node) (template : List Clause)
    (consequent : Option String) (turn : Turn) :
    (∃ cs, inflateGrid64 lattice grid template consequent turn = .ok cs) ↔
      ∀ n ∈ grid, ∃ ms, lattice.neighbors64 n = .ok ms := by
  simp only [← exists_substitution64_iff (helpers template)]
  constructor
  · rintro ⟨cs, hcs⟩ n hn
    obtain ⟨ss, hss, -⟩ := bind_eq_ok.mp hcs
    obtain ⟨s, -, hs⟩ := exists_of_mapM_eq_ok hss hn
    exact ⟨s, hs⟩
  · intro h
    obtain ⟨ss, hss, -⟩ := @mapM_eq_ok _ _ _ (lattice.substitution64 (helpers template))
      (fun _ _ => True) grid fun n hn => (h n hn).imp fun s hs => ⟨hs, trivial⟩
    exact ⟨_, by rw [inflateGrid64, hss]; rfl⟩

/-! ## Reading a template at a node -/

theorem reads_untagged (hl : l.tag = none) {outside : Option Nat → Bool} (h : outside none = false)
    (K : Interpretation) :
    lattice.reads outside K n l = lattice.reads (fun _ => false) K n l := by
  simp only [reads, hl, h]

theorem exists_zeroName_of_isOutside (hs : lattice.substitution64 (helpers template) n = .ok s)
    {symbol : String} {m : Node} (hm : lattice.named? n symbol = some m)
    (hout : lattice.isOutside m = true) : ∃ e ∈ s, e.2.name = Literal.zeroName :=
  ⟨(symbol, lattice.target m), Entries.mem_of_lookup (lookup_of_named? hs hm), by
    rw [target, if_pos hout]⟩

/-- At a node with a cell outside the false wire is false. -/
theorem satisfies_along_iff (hboolean : Disjunction.Boolean (Clause.disjunctions template))
    (hs : lattice.substitution64 (helpers template) n = .ok s) {I : Interpretation}
    (hzero : (∃ e ∈ s, e.2.name = Literal.zeroName) → I.truth Literal.zeroName = false) :
    (I.along s.naming).Satisfies (Clause.disjunctions template) ↔
      ∀ d ∈ Clause.disjunctions template,
        ∃ l ∈ d, lattice.reads (fun _ => false) I n l = true := by
  refine forall₂_congr fun d hd => ?_
  rw [Disjunction.holds_iff]
  refine exists_congr fun l => and_congr_right fun hl => ?_
  rw [holds_along_naming (lookup_substitution64 hs) hd hl fun m hm hout =>
    hzero (exists_zeroName_of_isOutside hs hm hout), reads_untagged (hboolean d hd l hl)]
  rfl

/-- **The meaning of an inflated template.** Cells outside are dead, and the false wire is pinned
where it is used. -/
theorem satisfies_iff_obeys_dead (hboolean : Disjunction.Boolean (Clause.disjunctions template))
    (lattice : Lattice) (grid : List Node) (consequent : Option String) (turn : Turn) :
    ((∃ cs, inflateGrid64 lattice grid template consequent turn = .ok cs) ↔
      ∀ n ∈ grid, ∃ ms, lattice.neighbors64 n = .ok ms) ∧
    ∀ cs, inflateGrid64 lattice grid template consequent turn = .ok cs →
      ∃ ss, grid.mapM (lattice.substitution64 (helpers template)) = .ok ss ∧
        ∀ I : Interpretation, I.Satisfies (Clause.disjunctions cs) ↔
          (UsesZero template ss turn → I.truth Literal.zeroName = false) ∧
            lattice.Obeys grid template (fun _ => false) I := by
  refine ⟨exists_inflateGrid64_iff lattice grid template consequent turn, fun cs hcs => ?_⟩
  obtain ⟨ss, hss, hsat⟩ := satisfies_inflateGrid64 (fun d hd l hl => .inr (hboolean d hd l hl)) hcs
  refine ⟨ss, hss, fun I => (hsat I).trans (and_congr_right fun hzero => ?_)⟩
  have hnode : ∀ n s, s ∈ ss → lattice.substitution64 (helpers template) n = .ok s →
      ((I.along s.naming).Satisfies (Clause.disjunctions template) ↔
        ∀ d ∈ Clause.disjunctions template,
          ∃ l ∈ d, lattice.reads (fun _ => false) I n l = true) := fun n s hmem hs =>
    satisfies_along_iff hboolean hs fun hwire => hzero (.inr ⟨s, hmem, hwire⟩)
  constructor
  · intro hall n hn
    obtain ⟨s, hmem, hs⟩ := exists_of_mapM_eq_ok hss hn
    exact (hnode n s hmem hs).mp (hall s hmem)
  · intro hobeys s hmem
    obtain ⟨n, hn, hs⟩ := (mem_of_mapM_eq_ok hss).mp hmem
    exact (hnode n s hmem hs).mpr (hobeys n hn)

/-! ## A template on a plane of one cell -/

/-- A live cell has a live cell to its north. -/
def northTemplate : List Clause := [.disjunction [⟨"N", true, none⟩, ⟨"O", false, none⟩]]

theorem obeys_northTemplate {I : Interpretation} :
    oneCell.Obeys oneCellGrid northTemplate (fun _ => false) I ↔ I.truth "c_0_0_0" = false := by
  have horigin : Node.origin.name = "c_0_0_0" := by cbv
  constructor
  · intro h
    obtain ⟨l, hl, hreads⟩ := h Node.origin (by decide) [⟨"N", true, none⟩, ⟨"O", false, none⟩]
      (by decide)
    rcases List.mem_pair.mp hl with rfl | rfl
    · have hdead : oneCell.reads (fun _ => false) I Node.origin ⟨"N", true, none⟩ = false := by rfl
      rw [hdead] at hreads
      contradiction
    · replace hreads : (I.truth Node.origin.name == false) = true := hreads
      rwa [horigin, beq_iff_eq] at hreads
  · intro hcell n hn d hd
    rw [List.mem_singleton.mp hd]
    refine ⟨⟨"O", false, none⟩, by decide, ?_⟩
    show (if oneCell.isOutside n then _ else I.truth n.name == false) = true
    split_ifs with hout
    · rfl
    · have hinside : ∀ m ∈ oneCellGrid, oneCell.isOutside m = false → m = Node.origin := by decide
      rw [hinside n hn (Bool.eq_false_of_not_eq_true hout), horigin, hcell]
      rfl

/-- **A cell to the south of dead cells.** Most instances at the border are left out, but the wire
is pinned because of their substitutions. -/
theorem satisfies_iff_obeys_dead_oneCell :
    ∃ cs, inflateGrid64 oneCell oneCellGrid northTemplate none .fixed = .ok cs ∧
      ∀ I : Interpretation, I.Satisfies (Clause.disjunctions cs) ↔
        I.truth Literal.zeroName = false ∧ I.truth "c_0_0_0" = false := by
  have hboolean : Disjunction.Boolean (Clause.disjunctions northTemplate) := by
    unfold Disjunction.Boolean
    decide
  obtain ⟨hexists, hmeaning⟩ := satisfies_iff_obeys_dead hboolean oneCell oneCellGrid none .fixed
  obtain ⟨cs, hcs⟩ := hexists.mpr (mem_grid_iff_reaches steady_oneCell.toProper grid64_oneCell).2
  obtain ⟨ss, hss, hiff⟩ := hmeaning cs hcs
  refine ⟨cs, hcs, fun I => ?_⟩
  have huses : UsesZero northTemplate ss .fixed := by
    obtain ⟨s, hmem, hs⟩ :=
      exists_of_mapM_eq_ok hss (show ⟨⟨-1, 0⟩, 0, 0⟩ ∈ oneCellGrid by decide)
    have hcenter : oneCell.named? ⟨⟨-1, 0⟩, 0, 0⟩ Symbol.center = some ⟨⟨-1, 0⟩, 0, 0⟩ := if_pos rfl
    exact .inr ⟨s, hmem, exists_zeroName_of_isOutside hs hcenter (by decide)⟩
  rw [hiff I, obeys_northTemplate, forall_prop_of_true huses]

end Lattice

end CellSat
