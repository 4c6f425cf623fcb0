import Mathlib
import CellSat.Problem.Basic
import CellSat.Proofs.Cnf.Answer
import CellSat.Proofs.Cnf.Exclusion
import CellSat.Proofs.Counter.Freshness
import CellSat.Proofs.Grid.Extent
import CellSat.Proofs.Pattern.Census
import CellSat.Proofs.Template.Names
/-!
# The populations that are reported

A bound of the settings is about the variables of the cells on the grid. A solution counts the
values whose names give places. Both count the same cells, whichever variables the answer of the
solver leaves open.

* `Encoder.Variable`: the variables of an encoder, and `GridProblem.variable_of_encode`;
* `Solution.livingCount_eq_layer`: the cells that a solution counts are those of the grid;
* `Bound.admits_of_satisfies`: what satisfies the clauses of a bound is within it;
* **`GridProblem.admits_of_isValid`**: an answer that passes the check is within the bounds of the
  settings.
-/

namespace CellSat

/-! ## The variables of an encoder -/

namespace Lattice

variable {lattice : Lattice} {grid : List Node} {m n : Node}

theorem le_maxInt64_of_neighbors64 {l : List Node} (h : lattice.neighbors64 n = .ok l) :
    n.cell.row ≤ Word.maxInt64 ∧ n.cell.column ≤ Word.maxInt64 ∧
      n.generation ≤ Word.maxInt64 := by
  have hneighbor := (neighborsBy64_eq_ok h).2
  obtain ⟨t, ht, -⟩ := bind_eq_ok.mp (hneighbor Symbol.next (by decide))
  obtain ⟨p, hp, -⟩ := bind_eq_ok.mp (hneighbor "SE" (by decide))
  obtain ⟨hrow, hcolumn⟩ : n.cell.row + 1 ≤ Word.maxInt64 ∧ n.cell.column + 1 ≤ Word.maxInt64 := by
    have hbounds := Word.bounds_of_within hp
    simp only [List.forall_mem_cons] at hbounds
    exact ⟨hbounds.1.2, hbounds.2.1.2⟩
  have hgeneration := (Word.bounds_of_int64 ht).2
  refine ⟨?_, ?_, ?_⟩ <;> omega

theorem mem_layer {t : Int} : n ∈ lattice.layer grid t ↔
    n ∈ grid ∧ n.generation = t ∧ lattice.isOutside n = false := by
  simp [layer]

theorem length_le_layer (hl : lattice.Proper) (hgrid : lattice.grid64 Node.origin = .ok grid)
    {ps : List Cell} (hps : ps.Nodup) (hinner : ∀ p ∈ ps, lattice.Inner p) {t : Int} (ht : 0 ≤ t)
    (ht' : t < lattice.clock.period) : ps.length ≤ (lattice.layer grid t).length := by
  have hsub : ps.map (Node.mk · t 0) ⊆ lattice.layer grid t := by
    intro n hn
    obtain ⟨p, hp, rfl⟩ := List.mem_map.mp hn
    have hreach := reaches_of_inner hl (hinner p hp) ht ht'
    exact mem_layer.mpr ⟨((mem_grid_iff_reaches hl hgrid).1 _).mpr hreach, rfl, (hinner p hp).2⟩
  have hnodup : (ps.map (Node.mk · t 0)).Nodup := hps.map fun p q h => (Node.mk.inj h).1
  simpa using (hnodup.subperm hsub).length_le

theorem exists_mem_grid (hl : lattice.Proper) (hgrid : lattice.grid64 Node.origin = .ok grid)
    (hn : n ∈ grid) {symbol : String} (hm : lattice.named? n symbol = some m)
    (hin : lattice.isOutside m = false) :
    ∃ k ∈ grid, lattice.isOutside k = false ∧ k.name = m.name := by
  have hmem := (mem_grid_iff_reaches hl hgrid).1
  unfold named? at hm
  by_cases hcenter : symbol = Symbol.center
  · rw [if_pos hcenter] at hm
    obtain rfl := Option.some.inj hm
    exact ⟨n, hn, hin, rfl⟩
  · rw [if_neg hcenter] at hm
    have hplaced := placed_of_reaches hl ((hmem n).mp hn)
    have hneighbor : m ∈ lattice.neighbors n :=
      List.mem_filterMap.mpr ⟨symbol, mem_neighbors_of_neighbor? hm, hm⟩
    obtain ⟨q, u, rfl, h₀, h₁⟩ :=
      exists_node_of_mem_neighbors hl hplaced.generation_nonneg hplaced.generation_lt hneighbor
    have hreach := reaches_of_inner hl ⟨Folding.isRepresentative_fold hl.sized q, hin⟩ h₀ h₁
    exact ⟨_, (hmem _).mpr hreach, hin, rfl⟩

end Lattice

namespace Encoder

/-- The variables of an encoder: the false wire, cells of its grid, helpers and temporaries. -/
inductive Variable (lattice : Lattice) (grid : List Node) : String → Prop where
  | zero : Variable lattice grid Literal.zeroName
  | cell {n : Node} (hn : n ∈ grid) (hin : lattice.isOutside n = false) :
    Variable lattice grid n.name
  | helper {start : String} (hstart : ['$'] <:+ start.toList) (n : Node) :
    Variable lattice grid (start ++ n.name)
  | temporary (k : Nat) : Variable lattice grid (Temporary.literal k).name

end Encoder

theorem Lattice.variable_of_variableAt {lattice : Lattice} {grid : List Node} (hl : lattice.Proper)
    (hgrid : lattice.grid64 Node.origin = .ok grid) {n : Node} (hn : n ∈ grid) {name : String}
    (hname : name ∈ Symbol.center :: Symbol.neighbors ∨
      name.endsWith Template.helperEnd = true) :
    Encoder.Variable lattice grid (lattice.variableAt n name) := by
  rcases lattice.variableAt_cases n hname with hzero | ⟨m, hm, hin, heq⟩ | ⟨hend, heq⟩
  · exact hzero ▸ .zero
  · obtain ⟨k, hk, hkin, hkname⟩ := exists_mem_grid hl hgrid hn hm hin
    rw [heq, ← hkname]
    exact .cell hk hkin
  · exact heq ▸ .helper hend n

namespace Encoder

theorem exists_of_addBounds {e e' : Encoder} {bs : List Bound} (h : e.addBounds bs = .ok e') :
    ∃ parts : List (List Clause), e'.clauses = e.clauses ++ parts.flatten ∧
      e'.lattice = e.lattice ∧ e'.grid = e.grid ∧
      (∀ cs ∈ parts, ∃ (b : Bound) (issued issued' : Nat),
        b.clauses64 e.lattice e.grid issued = .ok (cs, issued')) ∧
      ∀ b ∈ bs, ∃ cs ∈ parts, ∃ issued issued',
        b.clauses64 e.lattice e.grid issued = .ok (cs, issued') := by
  induction bs generalizing e with
  | nil =>
    obtain rfl := Except.ok.inj h
    exact ⟨[], by simp, rfl, rfl, by simp, by simp⟩
  | cons b bs ih =>
    obtain ⟨e₁, he₁, h⟩ := bind_eq_ok.mp h
    obtain ⟨⟨cs, issued⟩, hcs, he₁⟩ := bind_eq_ok.mp he₁
    obtain rfl := Except.ok.inj he₁
    obtain ⟨parts, hclauses, hlattice, hgrid, hparts, hbounds⟩ := ih h
    refine ⟨cs :: parts, by simp [hclauses], hlattice, hgrid, ?_, ?_⟩
    · exact List.forall_mem_cons.mpr ⟨⟨b, _, _, hcs⟩, hparts⟩
    · refine List.forall_mem_cons.mpr ⟨⟨cs, List.mem_cons_self, _, _, hcs⟩, ?_⟩
      intro b' hb'
      obtain ⟨cs', hcs', hb'⟩ := hbounds b' hb'
      exact ⟨cs', List.mem_cons_of_mem _ hcs', hb'⟩

end Encoder

theorem Bound.variable_of_clauses64 {b : Bound} {lattice : Lattice} {grid : List Node}
    {issued issued' : Nat} {cs : List Clause}
    (h : b.clauses64 lattice grid issued = .ok (cs, issued')) :
    ∀ d ∈ Clause.disjunctions cs, ∀ l ∈ d,
      l.tag = none ∧ Encoder.Variable lattice grid l.name := by
  intro d hd l hl
  obtain ⟨htag, hname⟩ := (forall_clauses64 h).2 d hd l hl
  refine ⟨htag, ?_⟩
  rcases hname with ⟨l', hl', heq⟩ | ⟨k, -, -, heq⟩
  · obtain ⟨n, hn, start, rfl, hnone, hsome⟩ := mem_literals hl'
    rw [← heq]
    by_cases hhelper : b.helper = none
    · obtain ⟨hgrid, -, hin⟩ := Lattice.mem_layer.mp hn
      rw [hnone hhelper, String.empty_append]
      exact .cell hgrid hin
    · exact .helper (hsome hhelper) n
  · exact heq ▸ .temporary k

namespace GridProblem

variable {s : Settings} {template : List Clause} {e : Encoder} {grid : List Node}

theorem proper_of_defect? (h : s.defect? = none) : s.grid.lattice.Proper := by
  unfold Settings.defect? at h
  split_ifs at h with hperiod hsize
  rw [not_or, not_le, not_le] at hsize
  exact ⟨⟨hsize.1, hsize.2⟩, not_le.mp hperiod⟩

/-- **The variables of a problem** with a template about the neighbourhood and helpers. -/
theorem variable_of_encode (hs : s.defect? = none) (hlocal : Template.IsLocal template)
    (hboolean : Disjunction.Boolean (Clause.disjunctions template))
    (h : encode s template = .ok e) :
    ∃ grid, s.grid.lattice.grid64 Node.origin = .ok grid ∧
      (∀ d ∈ Clause.disjunctions e.clauses, ∀ l ∈ d,
        l.tag = none ∧ Encoder.Variable s.grid.lattice grid l.name) ∧
      ∀ b ∈ s.population, ∃ (cs : List Clause) (issued issued' : Nat),
        b.clauses64 s.grid.lattice grid issued = .ok (cs, issued') ∧
          ∀ d ∈ Clause.disjunctions cs, d ∈ Clause.disjunctions e.clauses := by
  obtain ⟨e₀, he₀, h⟩ := bind_eq_ok.mp h
  obtain ⟨grid, hgrid, he₀⟩ := bind_eq_ok.mp (Checked.toResult_eq_ok.mp he₀)
  obtain rfl := Except.ok.inj he₀
  obtain ⟨e₁, he₁, h⟩ := bind_eq_ok.mp h
  obtain ⟨cs, he₁, hcs⟩ := Encoder.exists_of_addRule hlocal he₁
  obtain ⟨parts, hclauses, -, -, hparts, hbounds⟩ :=
    Encoder.exists_of_addBounds (Checked.toResult_eq_ok.mp h)
  rw [he₁] at hclauses hparts hbounds
  have hmem : ∀ d, d ∈ Clause.disjunctions e.clauses ↔
      d ∈ Clause.disjunctions cs ∨ ∃ part ∈ parts, d ∈ Clause.disjunctions part := by
    intro d
    rw [hclauses]
    simp [Clause.mem_disjunctions]
  refine ⟨grid, hgrid, ?_, ?_⟩
  · intro d hd l hl
    rcases (hmem d).mp hd with hd | ⟨part, hpart, hd⟩
    · obtain ⟨hname, htag⟩ := hcs d hd l hl
      refine ⟨htag hboolean, ?_⟩
      rcases hname with hzero | ⟨n, hn, name, hname, hl⟩
      · exact hzero ▸ .zero
      · rw [hl]
        exact Lattice.variable_of_variableAt (proper_of_defect? hs) hgrid hn
          (hname.imp_right And.right)
    · obtain ⟨b, issued, issued', hb⟩ := hparts part hpart
      exact Bound.variable_of_clauses64 hb d hd l hl
  · intro b hb
    obtain ⟨part, hpart, issued, issued', hb⟩ := hbounds b hb
    exact ⟨part, issued, issued', hb, fun d hd => (hmem d).mpr (.inr ⟨part, hpart, hd⟩)⟩

end GridProblem

/-! ## The cells of a solution -/

/-- A truth value in the place of a cell without negative coordinates. -/
def Node.placed (n : Node) (b : Bool) : PlacedValue :=
  ⟨n.cell.row.toNat, n.cell.column.toNat, n.generation.toNat, .truth b⟩

theorem Node.hash_not_mem_name (n : Node) : '#' ∉ n.name.toList := by
  have hnumber : ∀ x : Int, '#' ∉ (toString x).toList := fun x h =>
    absurd (Text.mem_toString_int h) (by decide)
  simp only [name, String.toList_append, List.mem_append, not_or]
  exact ⟨⟨⟨⟨⟨by decide, hnumber _⟩, by decide⟩, hnumber _⟩, by decide⟩, hnumber _⟩

namespace Encoder.Variable

variable {lattice : Lattice} {grid : List Node} {name : String}

theorem isWhole (h : Variable lattice grid name) : Assignment.IsWhole name := by
  cases h with
  | zero => exact Assignment.isWhole_of_plain (show '#' ∉ Literal.zeroName.toList by decide)
  | @cell n hn hin => exact Assignment.isWhole_of_plain n.hash_not_mem_name
  | helper hstart n => exact Assignment.isWhole_append hstart n.hash_not_mem_name
  | temporary k =>
    exact Assignment.isWhole_of_plain (Temporary.not_mem_name (by decide) (by decide) k)

theorem exists_of_placed? (h : Variable lattice grid name) {v : Value} {p : PlacedValue}
    (hp : ValueGrid.placed? "c" (name, v) = some p) :
    ∃ n ∈ grid, lattice.isOutside n = false ∧ name = n.name := by
  have hchars := ValueGrid.mem_of_placed? hp
  cases h with
  | zero => exact absurd (hchars '\x7b' (by decide)) (by decide)
  | cell hn hin => exact ⟨_, hn, hin, rfl⟩
  | helper hstart n =>
    refine absurd (hchars '$' ?_) (by decide)
    rw [String.toList_append]
    exact List.mem_append_left _ (hstart.mem (List.mem_singleton_self _))
  | temporary k => exact absurd (hchars '\x7b' (by simp [Temporary.literal])) (by decide)

end Encoder.Variable

namespace Lattice

variable {lattice : Lattice} {grid : List Node} {m n : Node}

theorem nonneg_of_mem_grid (hl : lattice.Proper) (hgrid : lattice.grid64 Node.origin = .ok grid)
    (hn : n ∈ grid) (hin : lattice.isOutside n = false) :
    0 ≤ n.cell.row ∧ 0 ≤ n.cell.column ∧ 0 ≤ n.generation := by
  have hplaced := placed_of_reaches hl (((mem_grid_iff_reaches hl hgrid).1 n).mp hn)
  have hinner : lattice.Inner n.cell := ⟨hplaced.isRepresentative, hin⟩
  rcases inner_iff hl with ⟨k, hk, hface⟩ | ⟨b, d, hiff⟩
  · rcases (hface n.cell).mp hinner with ⟨hrow, -, hcolumn, -⟩ | heq | heq
    · exact ⟨hrow, hcolumn.le, hplaced.generation_nonneg⟩
    · rw [heq]
      exact ⟨le_rfl, le_rfl, hplaced.generation_nonneg⟩
    · rw [heq]
      exact ⟨hk.le, hk.le, hplaced.generation_nonneg⟩
  · obtain ⟨hrow, -, hcolumn, -⟩ := (hiff n.cell).mp hinner
    exact ⟨hrow, hcolumn, hplaced.generation_nonneg⟩

theorem placed?_of_mem_grid (hl : lattice.Proper) (hgrid : lattice.grid64 Node.origin = .ok grid)
    (hn : n ∈ grid) (hin : lattice.isOutside n = false) (b : Bool) :
    ValueGrid.placed? "c" (n.name, .truth b) = some (n.placed b) := by
  obtain ⟨hrow, hcolumn, hgeneration⟩ := nonneg_of_mem_grid hl hgrid hn hin
  obtain ⟨l, hneighbors⟩ := (mem_grid_iff_reaches hl hgrid).2 n hn
  obtain ⟨hrow', hcolumn', hgeneration'⟩ := le_maxInt64_of_neighbors64 hneighbors
  exact Node.placed?_name hrow hcolumn hgeneration hrow' hcolumn' hgeneration' (.truth b)

theorem place_eq_iff (hl : lattice.Proper) (hgrid : lattice.grid64 Node.origin = .ok grid)
    (hm : m ∈ grid) (hmin : lattice.isOutside m = false) (hn : n ∈ grid)
    (hnin : lattice.isOutside n = false) (b c : Bool) :
    (m.placed b).place = (n.placed c).place ↔ m.position = n.position := by
  have := nonneg_of_mem_grid hl hgrid hm hmin
  have := nonneg_of_mem_grid hl hgrid hn hnin
  simp only [PlacedValue.place, Node.placed, Node.position, Prod.mk.injEq]
  omega

theorem nodup_map_place (hl : lattice.Proper) (hgrid : lattice.grid64 Node.origin = .ok grid)
    (generation : Int) :
    ((lattice.layer grid generation).map fun n => (n.placed true).place).Nodup := by
  have hsorted := sorted_of_grid64 hgrid fun n hn =>
    (placed_of_reaches hl (((mem_grid_iff_reaches hl hgrid).1 n).mp hn)).belongs.1
  rw [List.pairwise_map] at hsorted
  rw [List.Nodup, List.pairwise_map]
  refine (hsorted.filter _).imp_of_mem ?_
  intro m n hm hn hlex hplace
  obtain ⟨hm, -, hmin⟩ := mem_layer.mp hm
  obtain ⟨hn, -, hnin⟩ := mem_layer.mp hn
  rw [place_eq_iff hl hgrid hm hmin hn hnin] at hplace
  simp [hplace, Prod.lex_def] at hlex

end Lattice

theorem Node.name_eq_of_position {m n : Node} (h : m.position = n.position) : m.name = n.name := by
  obtain ⟨hrow, hcolumn, hgeneration⟩ : m.cell.row = n.cell.row ∧
      m.cell.column = n.cell.column ∧ m.generation = n.generation := by
    simpa [position] using h
  rw [name, name, hrow, hcolumn, hgeneration]

/-! ## Counting the cells of an answer -/

section Census

open ValueGrid

variable {lattice : Lattice} {grid : List Node} {t : SymbolTable} {names : List String}
  {numbers : List Int} {values : Valuation} (hl : lattice.Proper)
  (hgrid : lattice.grid64 Node.origin = .ok grid) (ht : t.Numbers names)
  (hnames : ∀ name ∈ names, Encoder.Variable lattice grid name)
  (hconsistent : Assignment.Consistent numbers)
  (hvalues : Assignment.decode t numbers = .ok values)

include ht hnames hconsistent hvalues

theorem mem_values_iff {name : String} {v : Value} :
    (name, v) ∈ values ↔ ∃ b, v = .truth b ∧ Assignment.Gives t numbers name b :=
  Assignment.mem_decode_iff ht (fun name hname => (hnames name hname).isWhole) hconsistent hvalues v

include hl hgrid

theorem exists_cell_of_placed? {x : String × Value} {p : PlacedValue} (hx : x ∈ values)
    (hp : placed? "c" x = some p) :
    ∃ n ∈ grid, lattice.isOutside n = false ∧ x.1 = n.name ∧
      ∃ b, Assignment.Gives t numbers n.name b ∧ p = n.placed b := by
  obtain ⟨b, hv, number, hnumber, hname, hb⟩ :=
    (mem_values_iff ht hnames hconsistent hvalues).mp hx
  obtain ⟨i, hi, -⟩ := (ht.name? _ _).mp hname
  obtain ⟨n, hn, hin, hx⟩ := (hnames x.1 (List.mem_of_getElem? hi)).exists_of_placed? hp
  have hplaced := Lattice.placed?_of_mem_grid hl hgrid hn hin b
  rw [← hx, ← hv, hp] at hplaced
  exact ⟨n, hn, hin, hx, b, ⟨number, hnumber, hx ▸ hname, hb⟩, Option.some.inj hplaced⟩

/-- **The values in their places** are those that the answer gives to cells. -/
theorem mem_placed_iff {p : PlacedValue} : p ∈ values.filterMap (placed? "c") ↔
    ∃ n ∈ grid, lattice.isOutside n = false ∧
      ∃ b, Assignment.Gives t numbers n.name b ∧ p = n.placed b := by
  rw [List.mem_filterMap]
  constructor
  · rintro ⟨x, hx, hp⟩
    obtain ⟨n, hn, hin, -, hgives⟩ :=
      exists_cell_of_placed? hl hgrid ht hnames hconsistent hvalues hx hp
    exact ⟨n, hn, hin, hgives⟩
  · rintro ⟨n, hn, hin, b, hgives, rfl⟩
    exact ⟨_, (mem_values_iff ht hnames hconsistent hvalues).mpr ⟨b, rfl, hgives⟩,
      Lattice.placed?_of_mem_grid hl hgrid hn hin b⟩

theorem pairwise_place :
    (values.filterMap (placed? "c")).Pairwise fun p q => p.place ≠ q.place := by
  have hnodup := Assignment.nodup_decode hvalues
  rw [List.Nodup, List.pairwise_map] at hnodup
  rw [List.pairwise_filterMap]
  refine hnodup.imp_of_mem ?_
  intro x y hx hy hne p hp q hq heq
  obtain ⟨m, hm, hmin, hxm, b, -, rfl⟩ :=
    exists_cell_of_placed? hl hgrid ht hnames hconsistent hvalues hx hp
  obtain ⟨n, hn, hnin, hyn, c, -, rfl⟩ :=
    exists_cell_of_placed? hl hgrid ht hnames hconsistent hvalues hy hq
  have hposition := (Lattice.place_eq_iff hl hgrid hm hmin hn hnin b c).mp heq
  exact hne (by rw [hxm, hyn, Node.name_eq_of_position hposition])

theorem perm_living {generation : Int} (hgeneration : 0 ≤ generation) :
    (((values.filterMap (placed? "c")).filter (·.livesIn generation.toNat)).map
        PlacedValue.place).Perm
      (((lattice.layer grid generation).filter
        fun n => (Assignment.lowest t numbers).truth n.name).map
          fun n => (n.placed true).place) := by
  have hplaces := pairwise_place hl hgrid ht hnames hconsistent hvalues
  rw [List.perm_ext_iff_of_nodup]
  · intro place
    simp only [List.mem_map, List.mem_filter, Lattice.mem_layer, PlacedValue.livesIn_iff,
      mem_placed_iff hl hgrid ht hnames hconsistent hvalues,
      Assignment.truth_lowest_iff_gives ht]
    constructor
    · rintro ⟨_, ⟨⟨n, hn, hin, b, hgives, rfl⟩, hlives, hset⟩, rfl⟩
      obtain rfl : b = true := hset
      have hnonneg := (Lattice.nonneg_of_mem_grid hl hgrid hn hin).2.2
      have hlives : n.generation.toNat = generation.toNat := hlives
      exact ⟨n, ⟨⟨hn, by omega, hin⟩, hgives⟩, rfl⟩
    · rintro ⟨n, ⟨⟨hn, rfl, hin⟩, hgives⟩, rfl⟩
      exact ⟨_, ⟨⟨n, hn, hin, true, hgives, rfl⟩, rfl, rfl⟩, rfl⟩
  · exact List.pairwise_map.mpr (hplaces.filter _)
  · exact (Lattice.nodup_map_place hl hgrid generation).sublist (List.filter_sublist.map _)

/-- **Solutions count the cells of the grid** whose variables are positive in the answer. -/
theorem Solution.livingCount_eq_layer {index variableCount clauseCount time : Nat}
    {folding : String} {s : Solution}
    (hs : Solution.ofValues index values folding variableCount clauseCount time = .ok s)
    {generation : Int} (hgeneration : 0 ≤ generation) :
    s.livingCount generation.toNat = (lattice.layer grid generation).countP
      fun n => (Assignment.lowest t numbers).truth n.name := by
  have hperm := perm_living hl hgrid ht hnames hconsistent hvalues hgeneration
  rw [livingCount_eq (pairwise_place hl hgrid ht hnames hconsistent hvalues) hs,
    List.countP_eq_length_filter, List.countP_eq_length_filter]
  simpa using hperm.length_eq

end Census

/-! ## What is counted -/

/-- A number is within a bound. -/
def Bound.Admits (b : Bound) (count : Nat) : Prop :=
  match b.comparator with
  | .atMost => (count : Int) ≤ b.size
  | .atLeast => b.size ≤ count

theorem Node.isOrdinary_toLiteral (n : Node) : n.toLiteral.IsOrdinary := by
  have hstart : ∃ rest, n.name.toList = 'c' :: rest := ⟨_, by
    simp only [name, String.toList_append]
    rfl⟩
  obtain ⟨rest, hrest⟩ := hstart
  constructor
  · simp [Temporary.isName, toLiteral, hrest, List.isPrefixOf]
  · intro h
    have hlist := congrArg String.toList h
    rw [toLiteral, hrest] at hlist
    exact absurd (List.cons.inj hlist).1 (by decide)

namespace Bound

variable {b : Bound} (lattice : Lattice) (grid : List Node)

theorem literals_eq (hhelper : b.helper = none) :
    b.literals lattice grid = (lattice.layer grid b.generation).map Node.toLiteral := by
  simp [literals, hhelper, Node.toLiteral]

theorem isOrdinary_literals (hhelper : b.helper = none) :
    ∀ l ∈ b.literals lattice grid, l.IsOrdinary := by
  rw [literals_eq lattice grid hhelper]
  exact List.forall_mem_map.mpr fun n _ => n.isOrdinary_toLiteral

theorem countP_literals (hhelper : b.helper = none) (J : Interpretation) :
    (b.literals lattice grid).countP (Literal.holds J) =
      (lattice.layer grid b.generation).countP fun n => J.truth n.name := by
  rw [literals_eq lattice grid hhelper, List.countP_map]
  congr 1
  funext n
  simp [Literal.holds, Node.toLiteral]

variable {lattice grid}

/-- **A bound on cells means what it says** for what satisfies its clauses. -/
theorem admits_of_satisfies {issued issued' : Nat} {cs : List Clause} {J : Interpretation}
    (hhelper : b.helper = none) (h : b.clauses64 lattice grid issued = .ok (cs, issued'))
    (hcells : 2 ≤ (lattice.layer grid b.generation).length) (h0 : 0 ≤ b.size)
    (hsize : b.size ≤ (lattice.layer grid b.generation).length) (hmax : b.size ≤ Word.maxInt64)
    (hsat : J.Satisfies (Clause.disjunctions cs)) :
    b.Admits ((lattice.layer grid b.generation).countP fun n => J.truth n.name) := by
  obtain ⟨c, hc, h⟩ := bind_eq_ok.mp h
  obtain ⟨rfl, -⟩ := Prod.mk.inj (Except.ok.inj h)
  have hordinary := isOrdinary_literals lattice grid hhelper
  have hlength : (b.literals lattice grid).length = (lattice.layer grid b.generation).length := by
    rw [literals_eq lattice grid hhelper, List.length_map]
  rw [heading, Clause.disjunctions_comment, Clause.disjunctions_map] at hsat
  rw [← countP_literals lattice grid hhelper]
  unfold Admits
  cases hcomparator : b.comparator with
  | atMost =>
    rw [hcomparator] at hc
    obtain rfl := Count.eq_of_atMost32 hc
    exact Count.countP_le_of_satisfies (hlength ▸ hcells) hordinary h0 hmax hsat
  | atLeast =>
    rw [hcomparator] at hc
    obtain ⟨others, hothers, hc⟩ := bind_eq_ok.mp hc
    obtain rfl := Count.eq_of_atMost32 hc
    have hbounds := (Word.bounds_of_int64 hothers).2
    rw [Word.eq_of_int64 hothers] at hsat
    have hle := Count.countP_le_of_satisfies (by simpa [hlength] using hcells)
      (Count.isOrdinary_negate hordinary) (by omega) hbounds hsat
    rw [Count.countP_negate] at hle
    have := (b.literals lattice grid).countP_le_length (p := Literal.holds J)
    show b.size ≤ _
    omega

end Bound

namespace GridProblem

variable {s : Settings} {template : List Clause} {e : Encoder} {f : Formula} {grid : List Node}
  {model : List Int}

/-- **A solution obeys a bound** on the cells of a generation, whichever answer it comes from. -/
theorem admits_of_isValid (hs : s.defect? = none) (hlocal : Template.IsLocal template)
    (hboolean : Disjunction.Boolean (Clause.disjunctions template))
    (he : encode s template = .ok e) (hf : e.compile = .ok f)
    (hconsistent : Assignment.Consistent model) (hvalid : (f.validate model).isValid = true)
    {values : Valuation} (hvalues : Assignment.decode f.symbols model = .ok values)
    {index variableCount clauseCount time : Nat} {folding : String} {t : Solution}
    (ht : Solution.ofValues index values folding variableCount clauseCount time = .ok t)
    {b : Bound} (hb : b ∈ s.population) (hhelper : b.helper = none)
    (hgrid : s.grid.lattice.grid64 Node.origin = .ok grid)
    (hcells : 2 ≤ (s.grid.lattice.layer grid b.generation).length) (h0 : 0 ≤ b.size)
    (hsize : b.size ≤ (s.grid.lattice.layer grid b.generation).length)
    (hmax : b.size ≤ Word.maxInt64) : b.Admits (t.livingCount b.generation.toNat) := by
  have hl := proper_of_defect? hs
  obtain ⟨grid', hgrid', hvariables, hbounds⟩ := variable_of_encode hs hlocal hboolean he
  obtain rfl : grid' = grid := Except.ok.inj (hgrid'.symm.trans hgrid)
  have hclauses : Disjunction.Boolean (Clause.disjunctions e.clauses) := fun d hd l hl =>
    (hvariables d hd l hl).1
  have hnumbers := Formula.numbers_of_compile hf (Clause.expandTags_of_boolean hclauses)
  have hnames : ∀ name ∈ sortedSet compare (Clause.variableNames e.clauses),
      Encoder.Variable s.grid.lattice grid' name := by
    intro name hname
    obtain ⟨d, hd, l, hl, rfl⟩ := Clause.mem_variableNames.mp (mem_sortedSet.mp hname)
    exact (hvariables d hd l hl).2
  have hgeneration : 0 ≤ b.generation := by
    obtain ⟨n, hn⟩ := List.exists_mem_of_length_pos (Nat.lt_of_lt_of_le Nat.two_pos hcells)
    obtain ⟨hn, hgeneration, hin⟩ := Lattice.mem_layer.mp hn
    rw [← hgeneration]
    exact (Lattice.nonneg_of_mem_grid hl hgrid hn hin).2.2
  have hsat := Formula.satisfies_lowest hclauses hf hconsistent
    (Formula.isValid_validate_iff.mp hvalid)
  obtain ⟨cs, issued, issued', hcs, hsub⟩ := hbounds b hb
  rw [Solution.livingCount_eq_layer hl hgrid hnumbers hnames hconsistent hvalues ht hgeneration]
  exact Bound.admits_of_satisfies hhelper hcs hcells h0 hsize hmax fun d hd => hsat d (hsub d hd)

theorem exists_of_decode {p : GridProblem} {found : Found} {solutions : List Solution}
    (h : p.decode found = .ok solutions) {t : Solution} (ht : t ∈ solutions) :
    ∃ i model values, found.models[i]? = some model ∧ t.index = i + 1 ∧
      (found.formula.validate model).isValid = true ∧
      Assignment.decode found.formula.symbols model = .ok values ∧
      Solution.ofValues (i + 1) values p.settings.grid.folding.render found.formula.variableCount
        found.formula.clauseCount found.time = .ok t := by
  obtain ⟨decoded, hdecoded, h⟩ := bind_eq_ok.mp h
  obtain rfl := Except.ok.inj h
  obtain ⟨_, hx, rfl⟩ := List.mem_filterMap.mp ht
  obtain ⟨⟨model, i⟩, hmodel, hdecode⟩ := (mem_of_mapM_eq_ok hdecoded).mp hx
  have hi : found.models[i]? = some model := List.mem_zipIdx_iff_getElem?.mp hmodel
  unfold decodeModel at hdecode
  by_cases hvalid : (found.formula.validate model).isValid = true
  · simp only [if_pos hvalid] at hdecode
    cases hvalues : Assignment.decode found.formula.symbols model with
    | error failure => simp [hvalues] at hdecode
    | ok values =>
      cases hsolution : Solution.ofValues (i + 1) values p.settings.grid.folding.render
          found.formula.variableCount found.formula.clauseCount found.time with
      | error fault => simp [hvalues, hsolution] at hdecode
      | ok t' =>
        simp only [hvalues, hsolution] at hdecode
        obtain rfl : t' = t := Option.some.inj (Except.ok.inj hdecode)
        refine ⟨i, model, values, hi, ?_, hvalid, hvalues, hsolution⟩
        obtain ⟨grid, -, hsolution⟩ := bind_eq_ok.mp hsolution
        obtain ⟨livingCells, -, hsolution⟩ := bind_eq_ok.mp hsolution
        rw [← Except.ok.inj hsolution]
  · simp [hvalid] at hdecode

end GridProblem

end CellSat
