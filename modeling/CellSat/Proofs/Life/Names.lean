import Mathlib
import CellSat.Proofs.Life.Plane
import CellSat.Proofs.Problem.Population
import CellSat.Proofs.Template.Instances
import CellSat.Proofs.Template.Outside
/-!
# The variables of the rule of Life

On the grid of a lattice, the rule of Life is about all cells inside. If there are cells outside, it
is about the false wire as well. A cell inside a closed lattice occurs as the center of its own
neighbourhood, and a cell inside an open one as the successor of itself a generation earlier.

* `Lattice.inside`, `Lattice.nodup_map_name`: the cells inside have different names;
* `Template.inside_or_zero_of_mem`: the variables of templates about neighbourhoods;
* `Life.name_mem_of_closed`, `Life.name_mem_of_open`: the rule of Life is about all cells inside;
* **`Life.mem_variableNames`**, `Encoder.exists_addRule_life`: its variables.
-/

namespace CellSat

/-! ## Cells inside -/

namespace Lattice

variable {lattice : Lattice} {grid : List Node} {m n : Node}

/-- The nodes of a grid that are inside. -/
def inside (lattice : Lattice) (grid : List Node) : List Node :=
  grid.filter fun n => !lattice.isOutside n

theorem mem_inside : n ∈ lattice.inside grid ↔ n ∈ grid ∧ lattice.isOutside n = false := by
  simp [inside]

theorem isOpen_of_isOutside (h : lattice.isOutside n = true) : lattice.folding.IsOpen :=
  (flat_of_isOutside h).1

theorem inside_of_closed (h : ¬ lattice.folding.IsOpen) : lattice.inside grid = grid := by
  rw [inside, List.filter_eq_self]
  intro n _
  simpa using fun hout => h (isOpen_of_isOutside hout)

section Names

variable (hl : lattice.Proper) (hgrid : lattice.grid64 Node.origin = .ok grid)

include hl hgrid

theorem orientation_of_mem_grid (hn : n ∈ grid) : n.orientation = 0 :=
  (placed_of_reaches hl (((mem_grid_iff_reaches hl hgrid).1 n).mp hn)).belongs.1

theorem eq_of_name_eq (hm : m ∈ lattice.inside grid) (hn : n ∈ lattice.inside grid)
    (h : m.name = n.name) : m = n := by
  obtain ⟨hm, hmin⟩ := mem_inside.mp hm
  obtain ⟨hn, hnin⟩ := mem_inside.mp hn
  have hplaced := placed?_of_mem_grid hl hgrid hm hmin true
  rw [h, placed?_of_mem_grid hl hgrid hn hnin true] at hplaced
  have hposition := (place_eq_iff hl hgrid hm hmin hn hnin true true).mp
    (congrArg PlacedValue.place (Option.some.inj hplaced).symm)
  have hm0 := orientation_of_mem_grid hl hgrid hm
  have hn0 := orientation_of_mem_grid hl hgrid hn
  obtain ⟨⟨i, j⟩, t, o⟩ := m
  obtain ⟨⟨i', j'⟩, t', o'⟩ := n
  simp_all [Node.position]

/-- **Cells inside have different names.** -/
theorem nodup_map_name : ((lattice.inside grid).map Node.name).Nodup :=
  List.Nodup.map_on (fun _ hm _ hn h => eq_of_name_eq hl hgrid hm hn h)
    ((nodup_of_grid64 hgrid).filter _)

end Names

theorem exists_next (hl : lattice.Steady) (hopen : lattice.folding.IsOpen)
    (hgrid : lattice.grid64 Node.origin = .ok grid) (hn : n ∈ grid) :
    ∃ m ∈ grid, (lattice.next m).cell = n.cell ∧ (lattice.next m).generation = n.generation := by
  have hplaced := (mem_grid_iff_placed hl hgrid n).mp hn
  obtain ⟨-, h₀, h₁, hextent⟩ := (placed_iff hl).mp hplaced
  have hmem : ∀ t, 0 ≤ t → t < lattice.clock.period → ⟨n.cell, t, 0⟩ ∈ grid := fun t ht ht' =>
    (mem_grid_iff_placed hl hgrid _).mpr ((placed_iff hl).mpr ⟨rfl, ht, ht', hextent⟩)
  have hcell : ∀ t, (lattice.next ⟨n.cell, t, 0⟩).cell = n.cell := fun t =>
    next_cell_of_isOpen hl hopen hplaced.isRepresentative
  have hperiod := hl.period_pos
  by_cases hzero : n.generation = 0
  · refine ⟨_, hmem (lattice.clock.period - 1) (by omega) (by omega), hcell _, ?_⟩
    rw [next_eq, if_pos (by simp), hzero]
    rfl
  · refine ⟨_, hmem (n.generation - 1) (by omega) (by omega), hcell _, ?_⟩
    rw [next_eq, if_neg (by simp only; omega)]
    simp [node]

theorem exists_variableAt (n : Node) {name : String}
    (h : name ∈ Symbol.center :: Symbol.neighbors) :
    ∃ m, lattice.named? n name = some m ∧ lattice.variableAt n name = (lattice.target m).name := by
  have hend : ∀ symbol ∈ Symbol.center :: Symbol.neighbors,
      ¬ symbol.endsWith Template.helperEnd = true := by
    decide +kernel
  obtain ⟨m, hm⟩ := exists_named? lattice n h
  refine ⟨m, hm, ?_⟩
  rw [variableAt, if_neg (hend name h), hm]
  rfl

theorem mem_substitution64 {helpers : List String} {s : Substitution}
    (h : lattice.substitution64 helpers n = .ok s) {e : String × Target} (he : e ∈ s) :
    (∃ m, e.2 = lattice.target m) ∨ ∃ helper, e.2.name = helper ++ n.name := by
  obtain ⟨l, hl, h⟩ := bind_eq_ok.mp h
  rw [neighborTargets64_eq_ok (neighbor64?_of_neighborTargets64 hl)] at hl
  obtain rfl := Except.ok.inj hl
  obtain rfl := Except.ok.inj h
  rcases List.mem_append.mp (Entries.mem_of_mem_ofList he) with he | he
  · obtain ⟨symbol, -, he⟩ := List.mem_filterMap.mp he
    obtain ⟨target, htarget, rfl⟩ := Option.map_eq_some_iff.mp he
    obtain ⟨m, -, rfl⟩ := Option.map_eq_some_iff.mp htarget
    exact .inl ⟨m, rfl⟩
  · rcases List.mem_cons.mp he with rfl | he
    · exact .inl ⟨n, rfl⟩
    · obtain ⟨helper, -, rfl⟩ := List.mem_map.mp he
      exact .inr ⟨helper, rfl⟩

end Lattice

/-! ## Templates about neighbourhoods -/

namespace Template

variable {lattice : Lattice} {grid : List Node} {template cs : List Clause} {turn : Turn}
  {consequent : Option String} {ss : List Substitution} {c d : Disjunction} {l : Literal}
  {n : Node} {s : Substitution}

theorem isOpen_of_target (h : (lattice.target n).name = Literal.zeroName) :
    lattice.folding.IsOpen := by
  rw [Lattice.target] at h
  split_ifs at h with hout
  · exact Lattice.isOpen_of_isOutside hout
  · exact absurd h (Lattice.name_ne_zeroName n)

theorem positive_apply (s : Substitution) (turn : Turn) (l : Literal) :
    (s.apply turn l).positive = l.positive := by
  rw [Substitution.apply]
  cases s.lookup l.name <;> rfl

/-- Templates about the nodes of a neighbourhood only. -/
def IsPure (template : List Clause) : Prop :=
  ∀ d ∈ Clause.disjunctions template, ∀ l ∈ d, l.name ∈ Symbol.center :: Symbol.neighbors

/-- An instance of a clause at a node has the variables that the names stand for there. -/
theorem name_apply_eq (htemplate : IsPure template) (hc : c ∈ Clause.disjunctions template)
    (hs : lattice.substitution64 (helpers template) n = .ok s) (hl : l ∈ c) :
    ∃ m, lattice.named? n l.name = some m ∧
      (s.apply turn l).name = (lattice.target m).name := by
  obtain ⟨m, hm, hvariable⟩ := @Lattice.exists_variableAt lattice n _ (htemplate c hc l hl)
  refine ⟨m, hm, ?_⟩
  rw [Substitution.name_apply, Lattice.naming_substitution64 hs hc hl, hvariable]

theorem exists_of_instance (htemplate : IsPure template)
    (hss : grid.mapM (lattice.substitution64 (helpers template)) = .ok ss)
    (hd : Instance template ss turn d) (hl : l ∈ d) :
    ∃ n ∈ grid, ∃ symbol m, lattice.named? n symbol = some m ∧
      l.name = (lattice.target m).name := by
  obtain ⟨c, hc, hd⟩ := hd
  obtain ⟨s, hs, hd⟩ := List.mem_filterMap.mp hd
  obtain ⟨n, hn, hs⟩ := (mem_of_mapM_eq_ok hss).mp hs
  rw [eq_of_instantiate? hd] at hl
  obtain ⟨k, hk, rfl⟩ := List.mem_map.mp hl
  obtain ⟨m, hm, hname⟩ := name_apply_eq htemplate hc hs hk
  exact ⟨n, hn, k.name, m, hm, hname⟩

theorem isOpen_of_usesZero (htemplate : IsPure template)
    (hss : grid.mapM (lattice.substitution64 (helpers template)) = .ok ss)
    (h : UsesZero template ss turn) : lattice.folding.IsOpen := by
  rcases h with ⟨d, hd, l, hl, hzero⟩ | ⟨s, hs, e, he, hzero⟩
  · obtain ⟨n, -, symbol, m, -, hname⟩ := exists_of_instance htemplate hss hd hl
    exact isOpen_of_target (hname.symm.trans hzero)
  · obtain ⟨n, -, hs⟩ := (mem_of_mapM_eq_ok hss).mp hs
    rcases Lattice.mem_substitution64 hs he with ⟨m, hm⟩ | ⟨helper, hhelper⟩
    · exact isOpen_of_target (hm ▸ hzero)
    · exact absurd (hhelper.symm.trans hzero) (Lattice.append_name_ne_zeroName helper n)

section Grid

variable (hl : lattice.Proper) (hgrid : lattice.grid64 Node.origin = .ok grid)
  (htemplate : IsPure template)
  (hcs : inflateGrid64 lattice grid template consequent turn = .ok cs)

include hl hgrid htemplate hcs

/-- The variables of a template about neighbourhoods are the cells inside and the false wire. -/
theorem inside_or_zero_of_mem {name : String} (h : name ∈ Clause.variableNames cs) :
    name ∈ (lattice.inside grid).map Node.name ∨
      lattice.folding.IsOpen ∧ name = Literal.zeroName := by
  obtain ⟨ss, hss, hmem⟩ := mem_inflateGrid64 hcs
  obtain ⟨d, hd, l, hld, rfl⟩ := Clause.mem_variableNames.mp h
  rcases (hmem d).mp hd with hd | ⟨rfl, hzero⟩
  · obtain ⟨n, hn, symbol, m, hm, hname⟩ := exists_of_instance htemplate hss hd hld
    rw [hname]
    by_cases hout : lattice.isOutside m = true
    · exact .inr ⟨Lattice.isOpen_of_isOutside hout, if_pos hout⟩
    · have hin : lattice.isOutside m = false := by simpa using hout
      obtain ⟨k, hk, hkin, hkname⟩ := Lattice.exists_mem_grid hl hgrid hn hm hin
      refine .inl (List.mem_map.mpr ⟨k, Lattice.mem_inside.mpr ⟨hk, hkin⟩, hkname.trans ?_⟩)
      exact (if_neg hout).symm
  · rw [List.mem_singleton.mp hld]
    exact .inr ⟨isOpen_of_usesZero htemplate hss hzero, rfl⟩

omit htemplate in
theorem zeroName_mem_of_open (hopen : lattice.folding.IsOpen) :
    Literal.zeroName ∈ Clause.variableNames cs := by
  have hpin : pin ∈ cs := Lattice.pin_mem_of_open hl hgrid hopen hcs
  exact Clause.mem_variableNames.mpr ⟨[Literal.zero.negate], Clause.mem_disjunctions.mpr hpin,
    Literal.zero.negate, List.mem_singleton_self _, rfl⟩

omit hl hgrid in
theorem name_mem_of_named? {n m : Node} (hn : n ∈ grid) (hc : c ∈ Clause.disjunctions template)
    (hl : l ∈ c) (hm : lattice.named? n l.name = some m) (hin : lattice.isOutside m = false)
    (hneg : ∀ k ∈ c, k.positive = false → ∀ m, lattice.named? n k.name = some m →
      lattice.isOutside m = false) : m.name ∈ Clause.variableNames cs := by
  obtain ⟨ss, hss, hmem⟩ := mem_inflateGrid64 hcs
  obtain ⟨s, hs, hsub⟩ := exists_of_mapM_eq_ok hss hn
  have hzero : Literal.zero.negate ∉ c.map (s.apply turn) := by
    intro hzero
    obtain ⟨k, hk, heq⟩ := List.mem_map.mp hzero
    obtain ⟨m, hm, hname⟩ := name_apply_eq htemplate hc hsub hk
    have hpositive : k.positive = false := by rw [← positive_apply s turn k, heq]; rfl
    have hkname : m.name = Literal.zeroName := by
      rw [heq, Lattice.target, if_neg (by simp [hneg k hk hpositive m hm])] at hname
      exact hname.symm
    exact Lattice.name_ne_zeroName m hkname
  have hd : Instance template ss turn (c.map (s.apply turn)) :=
    ⟨c, hc, List.mem_filterMap.mpr ⟨s, hs, instantiate?_eq_some (.inr hzero)⟩⟩
  obtain ⟨m', hm', hname⟩ := name_apply_eq htemplate hc hsub hl
  obtain rfl := Option.some.inj (hm.symm.trans hm')
  rw [Lattice.target, if_neg (by simp [hin])] at hname
  exact Clause.mem_variableNames.mpr
    ⟨_, (hmem _).mpr (.inl hd), _, List.mem_map_of_mem hl, hname⟩

end Grid

end Template

/-! ## Life -/

namespace Life

open Template

variable {lattice : Lattice} {grid : List Node} {expanded cs : List Clause} {turn : Turn}
  {consequent : Option String} {n : Node}

/-- A template that has the lines of the rule of Life, up to the order of their literals. -/
def Covers (expanded : List Clause) : Prop :=
  ∀ d ∈ lines, ∃ c ∈ Clause.disjunctions expanded, d.Perm c

theorem exists_covers : ∃ template expanded, lifeTemplate = .ok template ∧
    Clause.expandSymmetry Basis.totalistic.generators template = .ok expanded ∧
    Disjunction.Boolean (Clause.disjunctions expanded) ∧ IsPure expanded ∧ Covers expanded := by
  obtain ⟨template, htemplate, hlines⟩ := exists_template
  obtain ⟨expanded, hexpanded, -, hcomplete⟩ :=
    @Clause.expandSymmetry_eq_ok Basis.totalistic.generators template
      fun d _ => Orbit.few_totalistic d
  have hpure : ∀ d ∈ lines, ∀ l ∈ d, l.tag = none ∧
      l.name ∈ Symbol.center :: Symbol.neighbors := by decide
  have hliterals := @Clause.forall_expandSymmetry .totalistic
    (fun l => l.tag = none ∧ l.name ∈ Symbol.center :: Symbol.neighbors)
    (fun l hl symbol hsymbol => ⟨hl.1, hsymbol⟩) template expanded hexpanded (hlines ▸ hpure)
  refine ⟨template, expanded, htemplate, hexpanded, fun d hd l hl => (hliterals d hd l hl).1,
    fun d hd l hl => (hliterals d hd l hl).2, fun d hd => ?_⟩
  exact hcomplete d (hlines ▸ hd) d .refl

section Grid

variable (hgrid : lattice.grid64 Node.origin = .ok grid) (hpure : IsPure expanded)
  (hcovers : Covers expanded)
  (hcs : inflateGrid64 lattice grid expanded consequent turn = .ok cs)

include hpure hcovers hcs

/-- In a closed lattice, a cell occurs in the clauses about its death. -/
theorem name_mem_of_closed (hclosed : ¬ lattice.folding.IsOpen) (hn : n ∈ grid) :
    n.name ∈ Clause.variableNames cs := by
  have hin : ∀ m, lattice.isOutside m = false := fun m => by
    simpa using fun hout => hclosed (Lattice.isOpen_of_isOutside hout)
  have hline : ∃ d ∈ lines, { name := Symbol.center } ∈ d := by decide
  obtain ⟨d, hd, hl⟩ := hline
  obtain ⟨c, hc, hperm⟩ := hcovers d hd
  exact name_mem_of_named? hpure hcs hn hc (hperm.mem_iff.mp hl) (if_pos rfl) (hin n)
    fun k _ _ m _ => hin m

include hgrid

/-- In the clause about loneliness nothing else is negative. -/
theorem name_mem_of_open (hl : lattice.Steady) (hopen : lattice.folding.IsOpen) (hn : n ∈ grid)
    (hin : lattice.isOutside n = false) : n.name ∈ Clause.variableNames cs := by
  obtain ⟨m, hm, hcell, hgeneration⟩ := Lattice.exists_next hl hopen hgrid hn
  have hnext : lattice.named? m Symbol.next = some (lattice.next m) := rfl
  have hname : (lattice.next m).name = n.name := by
    rw [Node.name, Node.name, hcell, hgeneration]
  have hnextIn : lattice.isOutside (lattice.next m) = false := by
    rw [Lattice.isOutside, hcell]
    exact hin
  have hline : ∃ d ∈ lines, ⟨Symbol.next, false, none⟩ ∈ d ∧
      ∀ k ∈ d, k.positive = false → k.name = Symbol.next := by decide
  obtain ⟨d, hd, hl, hneg⟩ := hline
  obtain ⟨c, hc, hperm⟩ := hcovers d hd
  rw [← hname]
  refine name_mem_of_named? hpure hcs hm hc (hperm.mem_iff.mp hl) hnext hnextIn ?_
  intro k hk hpositive m' hm'
  rw [hneg k (hperm.mem_iff.mpr hk) hpositive, hnext] at hm'
  exact Option.some.inj hm' ▸ hnextIn

/-- **The variables of the rule of Life**: the cells inside, and the false wire if it is needed. -/
theorem mem_variableNames (hl : lattice.Steady) {name : String} :
    name ∈ Clause.variableNames cs ↔ name ∈ (lattice.inside grid).map Node.name ∨
      lattice.folding.IsOpen ∧ name = Literal.zeroName := by
  refine ⟨inside_or_zero_of_mem hl.toProper hgrid hpure hcs, ?_⟩
  rintro (hname | ⟨hopen, rfl⟩)
  · obtain ⟨n, hn, rfl⟩ := List.mem_map.mp hname
    obtain ⟨hn, hin⟩ := Lattice.mem_inside.mp hn
    by_cases hopen : lattice.folding.IsOpen
    · exact name_mem_of_open hgrid hpure hcovers hcs hl hopen hn hin
    · exact name_mem_of_closed hpure hcovers hcs hopen hn
  · exact zeroName_mem_of_open hl.toProper hgrid hcs hopen

end Grid

end Life

theorem Encoder.exists_addRule_life {lattice : Lattice} (hl : lattice.Steady) {e : Encoder}
    (he : Encoder.ofLattice lattice = .ok e) (consequent : Option String) (turn : Turn) :
    ∃ template e', lifeTemplate = .ok template ∧
      e.addRule template .totalistic consequent turn = .ok e' ∧
      e'.lattice = lattice ∧ e'.grid = e.grid ∧ e'.issued = 0 ∧
      lattice.grid64 Node.origin = .ok e.grid ∧
      Disjunction.Boolean (Clause.disjunctions e'.clauses) ∧
      ∀ name, name ∈ Clause.variableNames e'.clauses ↔
        name ∈ (lattice.inside e.grid).map Node.name ∨
          lattice.folding.IsOpen ∧ name = Literal.zeroName := by
  obtain ⟨grid, hgrid, he⟩ := bind_eq_ok.mp he
  obtain rfl : { lattice, grid } = e := Except.ok.inj he
  obtain ⟨template, expanded, htemplate, hexpanded, hboolean, hpure, hcovers⟩ := Life.exists_covers
  have hsubstitution : ∀ n ∈ grid,
      ∃ s, lattice.substitution64 (Template.helpers expanded) n = .ok s := by
    intro n hn
    obtain ⟨l, hl⟩ := (Lattice.mem_grid_iff_reaches hl.toProper hgrid).2 n hn
    exact (Lattice.exists_lookup hl _).imp fun s hs => hs.1
  obtain ⟨cs, hcs, -⟩ := Template.inflateGrid64_eq_ok hboolean hsubstitution
    (some (consequent.getD Symbol.next)) turn
  have hrule := @addRule_eq_ok { lattice, grid } _ _ _ _ _ _ hexpanded hcs
  refine ⟨template, _, htemplate, hrule, rfl, rfl, rfl, hgrid, ?_, fun name => ?_⟩
  · refine Template.forall_inflateGrid64 rfl hcs fun n _ s _ d hd l hl => ?_
    exact Substitution.tag_apply s turn (hboolean d hd l hl)
  · exact Life.mem_variableNames hgrid hpure hcovers hcs hl

end CellSat
