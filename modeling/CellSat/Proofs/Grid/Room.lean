import Mathlib
import CellSat.Proofs.Grid.Reach
import CellSat.Proofs.Plane.Fit
/-!
# Grids in machine words

The search for the grid needs the neighbours of all nodes in their places, and to decide which of
these belong to the grid. It succeeds if machine words give them. On a lattice whose sizes, shifts
and period are at most 2³⁰ it leaves the range of machine words nowhere.

* `Lattice.Fits`: the lattices where machine words give what the search needs;
* `Lattice.exists_grid64_of_fits`: such a lattice has a grid;
* `Lattice.Small`, `Lattice.Small.fits`: small lattices are of this kind;
* **`Lattice.exists_grid64`**: a small lattice has a grid.
-/

namespace CellSat

namespace Lattice

/-! ## The search -/

/-- Machine words give the neighbours of the nodes in their places, and of the unturned nodes outside
that are next to these. -/
structure Fits (lattice : Lattice) : Prop where
  neighbors : ∀ n, lattice.Placed n → ∃ l, lattice.neighbors64 n = .ok l
  outside : ∀ n, lattice.Placed n → ∀ m ∈ lattice.neighbors n, m.orientation = 0 →
    lattice.isOutside m = true → ∃ l, lattice.neighbors64 m = .ok l

variable {lattice : Lattice} {m n : Node} {p : Cell}

theorem Fits.exists_belongs64 (hf : lattice.Fits) (hn : lattice.Placed n)
    (hm : m ∈ lattice.neighbors n) : ∃ b, lattice.belongs64 m = .ok b := by
  rw [belongs64]
  split_ifs with horientation hout
  · exact ⟨_, rfl⟩
  · obtain ⟨l, hneighbors⟩ := hf.outside n hn m hm (not_not.mp horientation) hout
    rw [isBoundary64, if_pos hout, hneighbors]
    exact ⟨_, rfl⟩
  · exact ⟨_, rfl⟩

theorem exists_enqueue64 {ns : List Node} (h : ∀ m ∈ ns, ∃ b, lattice.belongs64 m = .ok b)
    (seen : Std.HashSet Node) (queue : List Node) :
    ∃ r, lattice.enqueue64 ns seen queue = .ok r := by
  fun_induction enqueue64 lattice ns seen queue with
  | case1 seen queue => exact ⟨_, rfl⟩
  | case2 n ns seen queue hcontains ih => exact ih fun m hm => h m (List.mem_cons_of_mem n hm)
  | case3 n ns seen queue hcontains ih₁ ih₂ =>
    obtain ⟨b, hb⟩ := h n List.mem_cons_self
    simp only [hb, bind, Except.bind]
    cases b with
    | false => exact ih₂ fun m hm => h m (List.mem_cons_of_mem n hm)
    | true => exact ih₁ fun m hm => h m (List.mem_cons_of_mem n hm)

theorem Fits.exists_visit64 (hf : lattice.Fits) (hn : lattice.Placed n) (seen : Std.HashSet Node) :
    ∃ r, lattice.visit64 n seen = .ok r := by
  obtain ⟨l, hneighbors⟩ := hf.neighbors n hn
  rw [visit64, hneighbors]
  obtain rfl := eq_of_neighbors64 hneighbors
  exact exists_enqueue64 (fun m hm => hf.exists_belongs64 hn hm) seen []

theorem Explores.exists_ok {queue : List Node} {seen : Std.HashSet Node}
    {outcome : Checked (Std.HashSet Node)} (h : lattice.Explores queue seen outcome)
    (hl : lattice.Proper) (hf : lattice.Fits) (hqueue : ∀ m ∈ queue, lattice.Placed m) :
    ∃ seen', outcome = .ok seen' := by
  induction h with
  | done seen => exact ⟨seen, rfl⟩
  | fault h =>
    obtain ⟨r, hvisit⟩ := hf.exists_visit64 (hqueue _ List.mem_cons_self) _
    rw [h] at hvisit
    contradiction
  | visit h hrest ih =>
    obtain ⟨hn, hqueue⟩ := List.forall_mem_cons.mp hqueue
    obtain ⟨-, -, -, hnew, -⟩ := visit64_eq_ok h
    refine ih fun m hm => ?_
    rcases List.mem_append.mp hm with hm | hm
    · exact hqueue m hm
    · exact hn.adjoins hl (hnew m (List.mem_reverse.mp hm))

theorem exists_grid64_of_fits (hl : lattice.Proper) (hf : lattice.Fits) :
    ∃ grid, lattice.grid64 Node.origin = .ok grid := by
  obtain ⟨outcome, hexplores, hgrid⟩ := explores_grid64 hl
  obtain ⟨seen, rfl⟩ := hexplores.exists_ok hl hf (by simpa using placed_origin hl)
  exact ⟨sorted seen, hgrid⟩

/-! ## Small lattices -/

/-- A lattice whose sizes, shifts and period are not too large. -/
structure Small (lattice : Lattice) : Prop where
  folding : lattice.folding.Small
  period_le : lattice.clock.period ≤ 2 ^ 30
  rowShift_le : |lattice.clock.rowShift| ≤ 2 ^ 30
  columnShift_le : |lattice.clock.columnShift| ≤ 2 ^ 30

theorem Small.shift_within (hs : lattice.Small) :
    (⟨lattice.clock.rowShift, lattice.clock.columnShift⟩ : Cell).Within (2 ^ 30) := by
  obtain ⟨hrow, hrow'⟩ := abs_le.mp hs.rowShift_le
  exact ⟨hrow, hrow', abs_le.mp hs.columnShift_le⟩

theorem displacement_within {symbol : String} {d : Cell} (h : Cell.displacement? symbol = some d) :
    d.Within 1 := by
  unfold Cell.displacement? at h
  split at h <;> cases h <;> simp [Cell.Within]

theorem exists_neighborsBy64 {symbols : List String}
    (h : ∀ symbol ∈ symbols, lattice.neighbor64? symbol n = .ok (lattice.neighbor? symbol n)) :
    ∃ l, lattice.neighborsBy64 n symbols = .ok l := by
  induction symbols with
  | nil => exact ⟨[], rfl⟩
  | cons symbol symbols ih =>
    obtain ⟨hsymbol, hsymbols⟩ := List.forall_mem_cons.mp h
    obtain ⟨l, hl⟩ := ih hsymbols
    refine ⟨(lattice.neighbor? symbol n).toList ++ l, ?_⟩
    rw [neighborsBy64, hsymbol, hl]
    rfl

theorem node64_of_fold64 (hfold : lattice.folding.fold64 p = .ok (lattice.folding.fold p))
    (t : Int) : lattice.node64 p t = .ok (lattice.node p t) := by
  rw [node64, hfold]
  rfl

theorem neighbor64?_of_fold64 (hs : lattice.Small) (h₀ : 0 ≤ n.generation)
    (h₁ : n.generation < lattice.clock.period)
    (hcells : ∀ v : Cell, v.Within (2 ^ 30) → (n.cell.shift v).Fits ∧
      lattice.folding.fold64 (n.cell.shift v) = .ok (lattice.folding.fold (n.cell.shift v)))
    (symbol : String) : lattice.neighbor64? symbol n = .ok (lattice.neighbor? symbol n) := by
  have hperiod := hs.period_le
  rw [neighbor64?, neighbor?]
  split_ifs
  · have hadd : Word.add n.generation 1 = .ok (n.generation + 1) :=
      Word.int64_eq_ok (by omega) (by omega)
    rw [Clock.adjust]
    split_ifs with hend
    · obtain ⟨hfits, hfold⟩ := hcells _ hs.shift_within
      simp only [hadd, bind, Except.bind, Clock.adjust64, if_pos hend, Cell.shift64_of_fits hfits,
        pure, Except.pure, node64_of_fold64 hfold]
    · obtain ⟨-, hfold⟩ := hcells ⟨0, 0⟩ (by simp [Cell.Within])
      rw [Cell.shift_zero] at hfold
      simp only [hadd, bind, Except.bind, Clock.adjust64, if_neg hend, pure, Except.pure,
        node64_of_fold64 hfold]
  · cases hd : Cell.displacement? symbol with
    | none => rfl
    | some d =>
      obtain ⟨hfits, hfold⟩ := hcells d ((displacement_within hd).mono (by norm_num))
      simp only [Cell.shift64_of_fits hfits, bind, Except.bind, node64_of_fold64 hfold]
      rfl

variable (hl : lattice.Proper) (hs : lattice.Small)

include hl hs

theorem neighbor64?_eq_ok (hn : n.cell.Within (3 * 2 ^ 30)) (h₀ : 0 ≤ n.generation)
    (h₁ : n.generation < lattice.clock.period) (symbol : String) :
    lattice.neighbor64? symbol n = .ok (lattice.neighbor? symbol n) := by
  refine neighbor64?_of_fold64 hs h₀ h₁ (fun v hv => ?_) symbol
  have hshift := (hn.shift hv).mono (show 3 * 2 ^ 30 + 2 ^ 30 ≤ 2 ^ 32 by norm_num)
  exact ⟨hshift.fits (by norm_num), Folding.fold64_eq_ok hl.sized hs.folding hshift⟩

theorem neighbors64_eq_ok (hn : n.cell.Within (3 * 2 ^ 30)) (h₀ : 0 ≤ n.generation)
    (h₁ : n.generation < lattice.clock.period) :
    lattice.neighbors64 n = .ok (lattice.neighbors n) := by
  obtain ⟨l, hneighbors⟩ := @exists_neighborsBy64 lattice n Symbol.neighbors
    fun symbol _ => neighbor64?_eq_ok hl hs hn h₀ h₁ symbol
  rw [neighbors64, hneighbors, ← eq_of_neighbors64 hneighbors]

theorem within_of_mem_neighbors {b : Int} (hb : 2 ^ 30 ≤ b) (hn : n.cell.Within b)
    (hm : m ∈ lattice.neighbors n) : m.cell.Within (b + 2 ^ 30) := by
  have hfold : ∀ p : Cell, p.Within (b + 2 ^ 30) →
      (lattice.folding.fold p).cell.Within (b + 2 ^ 30) :=
    fun p hp => Folding.fold_within hl.sized hs.folding (by omega) hp
  rcases mem_neighbors.mp hm with ⟨d, hd, rfl⟩ | rfl
  · exact hfold _ ((hn.shift (Cell.around_within d hd)).mono (by omega))
  · rw [next_eq]
    split_ifs
    · exact hfold _ (hn.shift hs.shift_within)
    · exact hfold _ (hn.mono (by omega))

/-! ## Nodes near the origin -/

theorem Inner.within (hp : lattice.Inner p) : p.Within (2 ^ 30) := by
  obtain ⟨hrep, hout⟩ := hp
  obtain ⟨⟨hrows, hcolumns, -⟩, -⟩ := hs
  obtain ⟨f, c⟩ := lattice
  cases f with
  | torus m n s =>
    simp only [Folding.rows, Folding.columns, Folding.IsRepresentative, Cell.Within] at *
    omega
  | bounded m n =>
    simp only [Folding.rows, Folding.columns, Folding.isOutside, Bool.or_eq_false_iff,
      decide_eq_false_iff_not, Cell.Within] at *
    omega
  | strip m n =>
    simp only [Folding.rows, Folding.columns, Folding.IsRepresentative, Folding.isOutside,
      Bool.or_eq_false_iff, decide_eq_false_iff_not, Cell.Within] at *
    omega
  | tessellated t =>
    have hbounds := Tessellation.bounds_of_isRepresentative hl.sized.tessellation hrep
    simp only [Folding.rows, Folding.columns, Cell.Within] at *
    omega

theorem Placed.within (hn : lattice.Placed n) : n.cell.Within (2 ^ 31) := by
  rcases hn.near_or hl with ⟨-, p, d, hp, hd, hcell⟩ | ⟨-, p, hp, hcell⟩
  · rw [hcell]
    exact Folding.fold_within hl.sized hs.folding (by norm_num)
      (((hp.within hl hs).shift hd).mono (by norm_num))
  · rw [hcell]
    refine Folding.fold_within hl.sized hs.folding (by norm_num) ?_
    have hstride : lattice.clock.stride.Within (2 ^ 30) := hs.shift_within
    have hwithin := hp.within hl hs
    simp only [Cell.Within, Cell.shiftBack] at *
    omega

/-- The neighbours of a node of the grid are not far away either. -/
theorem Small.fits : lattice.Fits where
  neighbors n hn :=
    ⟨_, neighbors64_eq_ok hl hs ((hn.within hl hs).mono (by norm_num)) hn.generation_nonneg
      hn.generation_lt⟩
  outside n hn m hm _ _ := by
    have hwithin := (within_of_mem_neighbors hl hs (by norm_num) (hn.within hl hs) hm).mono
      (show 2 ^ 31 + 2 ^ 30 ≤ 3 * 2 ^ 30 by norm_num)
    obtain ⟨q, u, rfl, h₀, h₁⟩ :=
      exists_node_of_mem_neighbors hl hn.generation_nonneg hn.generation_lt hm
    exact ⟨_, neighbors64_eq_ok hl hs hwithin h₀ h₁⟩

/-- **A small lattice has a grid.** -/
theorem exists_grid64 : ∃ grid, lattice.grid64 Node.origin = .ok grid :=
  exists_grid64_of_fits hl (Small.fits hl hs)

end Lattice

end CellSat
