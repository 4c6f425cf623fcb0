import Mathlib
import CellSat.Proofs.Pattern.Census
/-!
# Grids of values as exact pictures

The grid of a valuation is as large as the largest coordinates ask for, and its cells lie in one
row, generation after generation. If the names of cells are written plainly, so that no two of them
give one place, the grid shows the value of every cell and nothing else. All that can go wrong is
that the cells are too many to be stored.

* `ValueGrid.indexOf_lt`, `ValueGrid.Sized.index64_eq_ok`: places on a grid are places in the row;
* `ValueGrid.Sized`, `ValueGrid.Sized.place`: values are put into places on the grid;
* `ValueGrid.cellCount`, `ValueGrid.ofValuation_cases`: there is a grid unless its cells are too
  many;
* `Node.nameAt`, `ValueGrid.Plain`: the names of cells;
* `ValueGrid.Plain.mem_iff`, `ValueGrid.Plain.pairwise_place`: entries and places;
* **`ValueGrid.ofValuation_pictures`**: the grid of a valuation is an exact picture of it.
-/

namespace CellSat

namespace ValueGrid

open Word

variable {g g' : ValueGrid} {ps : List PlacedValue} {row column generation : Nat}
  {name : String} {values : Valuation} {v : Value}

/-! ## Places on a grid -/

theorem mul_add_lt {a b m n : Nat} (ha : a < m) (hb : b < n) : a * n + b < m * n :=
  calc a * n + b < a * n + n := Nat.add_lt_add_left hb _
    _ = (a + 1) * n := (Nat.succ_mul a n).symm
    _ ≤ m * n := Nat.mul_le_mul_right n ha

theorem indexOf_lt {generations height width : Nat} (hgeneration : generation < generations)
    (hrow : row < height) (hcolumn : column < width) :
    indexOf height width generation row column < generations * height * width :=
  mul_add_lt (mul_add_lt hgeneration hrow) hcolumn

/-- A grid has all of its cells, and their number fits. -/
structure Sized (g : ValueGrid) : Prop where
  size_eq : g.cells.size = g.generations * g.height * g.width
  fits : g.cells.size ≤ Word.maxNat64

theorem Sized.index64_eq_ok (h : g.Sized) (hgeneration : generation < g.generations)
    (hrow : row < g.height) (hcolumn : column < g.width) :
    g.index64 generation row column =
        .ok (indexOf g.height g.width generation row column) ∧
      indexOf g.height g.width generation row column < g.cells.size := by
  have hlt := indexOf_lt hgeneration hrow hcolumn
  rw [← h.size_eq] at hlt
  have hfits := h.fits
  have hcells : (generation * g.height + row) * g.width ≤ Word.maxNat64 := by
    rw [indexOf] at hlt
    omega
  have hrows : generation * g.height + row ≤ Word.maxNat64 :=
    (Nat.le_mul_of_pos_right _ (by omega)).trans hcells
  refine ⟨?_, hlt⟩
  exact bind_eq_ok.mpr ⟨_, nat64_eq_ok (by omega), bind_eq_ok.mpr ⟨_, nat64_eq_ok hrows,
    bind_eq_ok.mpr ⟨_, nat64_eq_ok hcells, nat64_eq_ok (by rw [indexOf] at hlt; omega)⟩⟩⟩

theorem Sized.set (h : g.Sized) {i : Nat} (hi : i < g.cells.size) (x : Option Value) :
    Sized { g with cells := g.cells.set i x } :=
  ⟨(Array.size_set hi).trans h.size_eq, (Array.size_set hi).trans_le h.fits⟩

theorem Sized.place (h : g.Sized) (hps : ∀ p ∈ ps, g.Has p) :
    ∃ g', g.place ps = .ok g' ∧ g'.Sized := by
  induction ps generalizing g with
  | nil => exact ⟨g, rfl, h⟩
  | cons p ps ih =>
    obtain ⟨hp, hps⟩ := List.forall_mem_cons.mp hps
    obtain ⟨hindex, hlt⟩ := h.index64_eq_ok hp.2.2 hp.1 hp.2.1
    obtain ⟨g', hplace, hg'⟩ := ih (h.set hlt (some p.value)) hps
    exact ⟨g', bind_eq_ok.mpr ⟨_, hindex, (dif_pos hlt).trans hplace⟩, hg'⟩

theorem Sized.get_eq_ok (h : g.Sized) (generation row column : Nat) :
    g.get generation row column = .ok (g.shown generation row column) := by
  unfold shown get
  split_ifs with hhas
  · obtain ⟨hindex, hlt⟩ := h.index64_eq_ok hhas.1 hhas.2.1 hhas.2.2
    refine bind_eq_ok.mpr ⟨_, hindex, ?_⟩
    rw [Array.getElem?_eq_getElem hlt]
    rfl
  · rfl

theorem Sized.exists_livingCount (h : g.Sized) (generation : Nat) :
    ∃ n, g.livingCount generation = .ok n :=
  ⟨_, bind_eq_ok.mpr ⟨_, mapM_eq_ok_map fun row _ => mapM_eq_ok_map fun column _ =>
    h.get_eq_ok generation row column, rfl⟩⟩

/-! ## The size of a grid -/

/-- One more than the largest of some numbers, or zero if there are none. -/
def needed (ns : List Nat) : Nat := ns.toFinset.sup Nat.succ

theorem lt_needed {ns : List Nat} {n : Nat} (h : n ∈ ns) : n < needed ns :=
  Finset.le_sup (f := Nat.succ) (List.mem_toFinset.mpr h)

theorem needed_pos {ns : List Nat} (h : ns ≠ []) : 0 < needed ns := by
  obtain ⟨n, hn⟩ := List.exists_mem_of_ne_nil ns h
  exact Nat.zero_lt_of_lt (lt_needed hn)

theorem extent_eq {ns : List Nat} (h : ns ≠ []) : extent ns = Word.nat64 (needed ns) := by
  have hpos := needed_pos h
  have hle : ns.foldl Nat.max 0 ≤ needed ns - 1 :=
    foldl_max_le_iff.mpr ⟨Nat.zero_le _, fun n hn => Nat.le_sub_one_of_lt (lt_needed hn)⟩
  have hge : needed ns ≤ ns.foldl Nat.max 0 + 1 := Finset.sup_le fun n hn =>
    Nat.succ_le_succ ((foldl_max_le_iff.mp le_rfl).2 n (List.mem_toFinset.mp hn))
  rw [extent]
  congr 1
  omega

/-- The number of cells of the grid of a valuation. -/
def cellCount (name : String) (values : Valuation) : Nat :=
  let ps := values.filterMap (placed? name)
  needed (ps.map (·.generation)) * needed (ps.map (·.row)) * needed (ps.map (·.column))

theorem empty64_eq_ok {generations height width : Nat} (hwidth : 0 < width)
    (h : generations * height * width ≤ capacity) : empty64 generations height width =
      .ok ⟨generations, height, width, Array.replicate (generations * height * width) none⟩ := by
  have hsize : generations * height * width ≤ Word.maxNat64 := h.trans (by decide)
  have hrows : generations * height ≤ Word.maxNat64 :=
    (Nat.le_mul_of_pos_right _ hwidth).trans hsize
  exact bind_eq_ok.mpr ⟨_, nat64_eq_ok hrows, bind_eq_ok.mpr ⟨_, nat64_eq_ok hsize,
    if_neg (Nat.not_lt.mpr h)⟩⟩

theorem empty64_eq_error {generations height width : Nat}
    (h : capacity < generations * height * width) :
    empty64 generations height width = .error .overflow :=
  nat64_bind_eq_error (nat64_bind_eq_error (if_pos h))

/-- A grid of given dimensions with values in their places. -/
def filled64 (height width generations : Nat) (ps : List PlacedValue) : Checked ValueGrid := do
  let height ← Word.nat64 height
  let width ← Word.nat64 width
  let generations ← Word.nat64 generations
  let grid ← empty64 generations height width
  grid.place ps

theorem filled64_eq_ok {height width generations : Nat} (hheight : 0 < height) (hwidth : 0 < width)
    (hgenerations : 0 < generations) (h : generations * height * width ≤ capacity)
    (hps : ∀ p ∈ ps, p.row < height ∧ p.column < width ∧ p.generation < generations) :
    ∃ g, filled64 height width generations ps = .ok g ∧ g.Sized := by
  have hsize : generations * height * width ≤ Word.maxNat64 := h.trans (by decide)
  have hrows : generations * height ≤ generations * height * width :=
    Nat.le_mul_of_pos_right _ hwidth
  have hheight' : height ≤ generations * height := Nat.le_mul_of_pos_left _ hgenerations
  have hgenerations' : generations ≤ generations * height := Nat.le_mul_of_pos_right _ hheight
  have hwidth' : width ≤ generations * height * width :=
    Nat.le_mul_of_pos_left _ (Nat.mul_pos hgenerations hheight)
  have hempty : Sized ⟨generations, height, width,
      Array.replicate (generations * height * width) none⟩ :=
    ⟨Array.size_replicate, Array.size_replicate.trans_le hsize⟩
  obtain ⟨g, hplace, hg⟩ := hempty.place hps
  exact ⟨g, bind_eq_ok.mpr ⟨height, nat64_eq_ok (by omega), bind_eq_ok.mpr ⟨width,
    nat64_eq_ok (by omega), bind_eq_ok.mpr ⟨generations, nat64_eq_ok (by omega),
      bind_eq_ok.mpr ⟨_, empty64_eq_ok hwidth h, hplace⟩⟩⟩⟩, hg⟩

theorem filled64_eq_error {height width generations : Nat}
    (h : capacity < generations * height * width) (ps : List PlacedValue) :
    filled64 height width generations ps = .error .overflow := by
  refine nat64_bind_eq_error (nat64_bind_eq_error (nat64_bind_eq_error ?_))
  exact bind_eq_error.mpr (.inl (empty64_eq_error h))

theorem ofValuation_eq_filled64 (h : values.filterMap (placed? name) ≠ []) :
    ofValuation name values =
      let ps := values.filterMap (placed? name)
      filled64 (needed (ps.map (·.row))) (needed (ps.map (·.column)))
        (needed (ps.map (·.generation))) ps := by
  have hmap : ∀ f : PlacedValue → Nat, (values.filterMap (placed? name)).map f ≠ [] := fun f => by
    simpa using h
  rw [ofValuation, if_neg (by simpa using h), extent_eq (hmap _), extent_eq (hmap _),
    extent_eq (hmap _)]
  rfl

/-- **There is a grid** unless it has too many cells. -/
theorem ofValuation_cases (name : String) (values : Valuation) :
    (cellCount name values ≤ capacity ∧ ∃ g, ofValuation name values = .ok g ∧ g.Sized) ∨
      capacity < cellCount name values ∧ ofValuation name values = .error .overflow := by
  unfold cellCount
  by_cases hempty : values.filterMap (placed? name) = []
  · refine .inl ⟨by simp [hempty, needed], ⟨0, 0, 0, #[]⟩, ?_, ⟨rfl, Nat.zero_le _⟩⟩
    rw [ofValuation, hempty]
    rfl
  · rw [ofValuation_eq_filled64 hempty]
    have hpos : ∀ f : PlacedValue → Nat, 0 < needed ((values.filterMap (placed? name)).map f) :=
      fun f => needed_pos (by simpa using hempty)
    refine (le_or_gt _ capacity).imp (fun h => ⟨h, ?_⟩) fun h => ⟨h, filled64_eq_error h _⟩
    exact filled64_eq_ok (hpos _) (hpos _) (hpos _) h fun p hp =>
      ⟨lt_needed (List.mem_map_of_mem hp), lt_needed (List.mem_map_of_mem hp),
        lt_needed (List.mem_map_of_mem hp)⟩

end ValueGrid

/-! ## Names of cells -/

/-- The name of the cell in a row and a column at a generation. -/
def Node.nameAt (row column generation : Nat) : String :=
  Node.name { cell := ⟨row, column⟩, generation }

/-- The coordinates fit in 64 bits. -/
structure PlacedValue.Fits (p : PlacedValue) : Prop where
  row : p.row ≤ Word.maxNat64
  column : p.column ≤ Word.maxNat64
  generation : p.generation ≤ Word.maxNat64

/-- The entry of a valuation that gives the value to the cell. -/
def PlacedValue.entry (p : PlacedValue) : String × Value :=
  (Node.nameAt p.row p.column p.generation, p.value)

theorem PlacedValue.Fits.placed?_entry {p : PlacedValue} (h : p.Fits) :
    ValueGrid.placed? "c" p.entry = some p :=
  Node.placed?_name_eq_some_iff.mpr ⟨⟨⟨rfl, h.row⟩, ⟨rfl, h.column⟩, ⟨rfl, h.generation⟩⟩, rfl⟩

/-- The name of a node that gives a place is that of the cell in this place. -/
theorem Node.eq_entry_of_placed? {n : Node} {v : Value} {p : PlacedValue}
    (h : ValueGrid.placed? "c" (n.name, v) = some p) : (n.name, v) = p.entry ∧ p.Fits := by
  obtain ⟨⟨⟨hrow, hrow'⟩, ⟨hcolumn, hcolumn'⟩, hgeneration, hgeneration'⟩, hvalue⟩ :=
    Node.placed?_name_eq_some_iff.mp h
  refine ⟨?_, hrow', hcolumn', hgeneration'⟩
  rw [PlacedValue.entry, Node.nameAt, Node.name, Node.name, hrow, hcolumn, hgeneration, hvalue]

namespace ValueGrid

/-- Names that give places of cells are written like those of nodes. -/
def Plain (values : Valuation) : Prop :=
  ∀ e ∈ values, ∀ p, placed? "c" e = some p → ∃ n : Node, e.1 = n.name

theorem Plain.placed?_eq_some_iff (h : Plain values) {e : String × Value} (he : e ∈ values)
    {p : PlacedValue} : placed? "c" e = some p ↔ e = p.entry ∧ p.Fits := by
  constructor
  · intro hp
    obtain ⟨n, hn⟩ := h e he p hp
    obtain ⟨name, v⟩ := e
    obtain rfl : name = n.name := hn
    exact Node.eq_entry_of_placed? hp
  · rintro ⟨rfl, hfits⟩
    exact hfits.placed?_entry

theorem Plain.mem_iff (h : Plain values) {p : PlacedValue} (hp : p.Fits) :
    p ∈ values.filterMap (placed? "c") ↔ p.entry ∈ values := by
  rw [List.mem_filterMap]
  constructor
  · rintro ⟨e, he, heq⟩
    obtain ⟨rfl, -⟩ := (h.placed?_eq_some_iff he).mp heq
    exact he
  · exact fun he => ⟨p.entry, he, hp.placed?_entry⟩

theorem Plain.pairwise_place (h : Plain values) (hnames : (values.map Prod.fst).Nodup) :
    (values.filterMap (placed? "c")).Pairwise fun p q => p.place ≠ q.place := by
  rw [List.pairwise_filterMap]
  refine (List.pairwise_map.mp hnames).imp_of_mem ?_
  intro e e' he he' hne p hp q hq hplace
  obtain ⟨rfl, -⟩ := (h.placed?_eq_some_iff he).mp hp
  obtain ⟨rfl, -⟩ := (h.placed?_eq_some_iff he').mp hq
  obtain ⟨hrow, hcolumn, hgeneration⟩ :
      p.row = q.row ∧ p.column = q.column ∧ p.generation = q.generation := by
    simpa [PlacedValue.place] using hplace
  exact hne (by rw [PlacedValue.entry, PlacedValue.entry, hrow, hcolumn, hgeneration])

/-- The name is that of a cell at a generation. -/
def CellOf (generation : Nat) (name : String) : Prop :=
  ∃ row column, row ≤ Word.maxNat64 ∧ column ≤ Word.maxNat64 ∧ generation ≤ Word.maxNat64 ∧
    name = Node.nameAt row column generation

theorem cellOf_iff (v : Value) : CellOf generation name ↔
    ∃ p : PlacedValue, p.Fits ∧ p.generation = generation ∧ (name, v) = p.entry := by
  constructor
  · rintro ⟨row, column, hrow, hcolumn, hgeneration, rfl⟩
    exact ⟨⟨row, column, generation, v⟩, ⟨hrow, hcolumn, hgeneration⟩, rfl, rfl⟩
  · rintro ⟨p, hp, rfl, heq⟩
    exact ⟨p.row, p.column, hp.row, hp.column, hp.generation, congrArg Prod.fst heq⟩

-- There are too many rows and columns to try them all, so the name is read.
instance : Decidable (CellOf generation name) :=
  decidable_of_iff (∃ p ∈ placed? "c" (name, .truth false),
      p.generation = generation ∧ (name, .truth false) = p.entry) <| by
    rw [cellOf_iff (.truth false)]
    constructor
    · rintro ⟨p, hp, hgeneration, heq⟩
      rw [heq] at hp
      exact ⟨p, (Node.eq_entry_of_placed? hp).2, hgeneration, heq⟩
    · rintro ⟨p, hp, hgeneration, heq⟩
      exact ⟨p, heq ▸ hp.placed?_entry, hgeneration, heq⟩

/-- The living cells of a generation are the entries of its cells that are set. -/
theorem Plain.countP_livesIn (h : Plain values) (generation : Nat) :
    (values.filterMap (placed? "c")).countP (·.livesIn generation) =
      values.countP fun e => CellOf generation e.1 ∧ e.2.isSet = true := by
  rw [List.countP_filterMap]
  refine List.countP_congr fun e he => ?_
  rw [decide_eq_true_eq, cellOf_iff e.2]
  constructor
  · intro hlives
    cases hp : placed? "c" e with
    | none => simp [hp] at hlives
    | some p =>
      obtain ⟨rfl, hfits⟩ := (h.placed?_eq_some_iff he).mp hp
      rw [hp, Option.map_some, Option.getD_some, PlacedValue.livesIn_iff] at hlives
      exact ⟨⟨p, hfits, hlives.1, rfl⟩, hlives.2⟩
  · rintro ⟨⟨p, hfits, hgeneration, heq⟩, hset⟩
    obtain rfl : e = p.entry := heq
    rw [hfits.placed?_entry, Option.map_some, Option.getD_some, PlacedValue.livesIn_iff]
    exact ⟨hgeneration, hset⟩

/-! ## Exact pictures -/

/-- A grid is an exact picture of a valuation. -/
structure Pictures (g : ValueGrid) (values : Valuation) : Prop where
  /-- Every place on the grid is in bounds. -/
  index : ∀ generation < g.generations, ∀ row < g.height, ∀ column < g.width,
    ∃ i, g.index64 generation row column = .ok i ∧ i < g.cells.size
  /-- A cell shows the value of the entry with its name, and nothing without one. -/
  get : ∀ generation ≤ Word.maxNat64, ∀ row ≤ Word.maxNat64, ∀ column ≤ Word.maxNat64,
    ∃ known, g.get generation row column = .ok known ∧
      ∀ v, known = some v ↔ (Node.nameAt row column generation, v) ∈ values
  /-- The count of a generation is that of the entries of its cells that are set. -/
  livingCount : ∀ generation, g.livingCount generation =
    .ok (values.countP fun e => CellOf generation e.1 ∧ e.2.isSet = true)

theorem Sized.pictures (h : g.Sized) (hplain : Plain values)
    (hnames : (values.map Prod.fst).Nodup) (hg : ofValuation "c" values = .ok g) :
    g.Pictures values := by
  have hplaces := hplain.pairwise_place hnames
  have hshows := shows_of_ofValuation hplaces hg
  refine ⟨fun t ht i hi j hj => ⟨_, h.index64_eq_ok ht hi hj⟩, fun t ht i hi j hj => ?_,
    fun t => ?_⟩
  · refine ⟨_, h.get_eq_ok t i j, fun v => hshows.shown_eq_some_iff.trans ?_⟩
    exact hplain.mem_iff ⟨hi, hj, ht⟩
  · obtain ⟨n, hn⟩ := h.exists_livingCount t
    rw [hn, hshows.livingCount_eq hplaces hn, hplain.countP_livesIn]

/-- **The grid of a valuation** is an exact picture of it, unless its cells are too many. -/
theorem ofValuation_pictures (hnames : (values.map Prod.fst).Nodup) (hplain : Plain values) :
    (cellCount "c" values ≤ capacity → ∃ g, ofValuation "c" values = .ok g ∧ g.Pictures values) ∧
      (capacity < cellCount "c" values → ofValuation "c" values = .error .overflow) := by
  rcases ofValuation_cases "c" values with ⟨hcount, g, hg, hsized⟩ | ⟨hcount, herror⟩
  · exact ⟨fun _ => ⟨g, hg, hsized.pictures hplain hnames hg⟩,
      fun hlarge => absurd hcount (Nat.not_le.mpr hlarge)⟩
  · exact ⟨fun hsmall => absurd hsmall (Nat.not_le.mpr hcount), fun _ => herror⟩

/-- A generation with a gap, a name with a negative number and one of another shape. -/
theorem ofValuation_pictures_sparse :
    let values : Valuation := [("c_0_2_0", .truth true), ("c_-1_0_0", .truth true),
      ("c_3_0_2", .number 5), ("c_3_1_2", .number 0), ("x", .truth true)]
    (values.map Prod.fst).Nodup ∧ Plain values ∧ cellCount "c" values ≤ capacity ∧
      ∃ g, ofValuation "c" values = .ok g ∧ g.Pictures values ∧ g.livingCount 2 = .ok 1 := by
  intro values
  have hnames : (values.map Prod.fst).Nodup := by decide
  have hplain : Plain values := by
    simp only [Plain, values, List.forall_mem_cons]
    refine ⟨fun _ _ => ⟨⟨⟨0, 2⟩, 0, 0⟩, by decide⟩, fun _ _ => ⟨⟨⟨-1, 0⟩, 0, 0⟩, by decide⟩,
      fun _ _ => ⟨⟨⟨3, 0⟩, 2, 0⟩, by decide⟩, fun _ _ => ⟨⟨⟨3, 1⟩, 2, 0⟩, by decide⟩, ?_, by simp⟩
    intro p hp
    exact absurd hp (by rw [show placed? "c" ("x", .truth true) = none by decide]; simp)
  have hcount : cellCount "c" values ≤ capacity := by decide
  obtain ⟨g, hg, hpictures⟩ := (ofValuation_pictures hnames hplain).1 hcount
  exact ⟨hnames, hplain, hcount, g, hg, hpictures, (hpictures.livingCount 2).trans (by decide)⟩

/-- Dimensions that fit in 64 bits are not enough: so many cells cannot be stored. -/
theorem ofValuation_overflows_within_words :
    let values : Valuation := [("c_0_0_1152921504606846975", .truth true)]
    (values.map Prod.fst).Nodup ∧ Plain values ∧ cellCount "c" values ≤ Word.maxNat64 ∧
      ofValuation "c" values = .error .overflow := by
  intro values
  have hcount : cellCount "c" values = 2 ^ 60 := by decide
  refine ⟨by decide, ?_, by rw [hcount]; decide, ?_⟩
  · simp only [Plain, values, List.forall_mem_cons]
    exact ⟨fun _ _ => ⟨⟨⟨0, 0⟩, 1152921504606846975, 0⟩, by decide⟩, by simp⟩
  · refine ((ofValuation_cases "c" values).resolve_left fun h => ?_).2
    exact absurd h.1 (by rw [hcount]; decide)

end ValueGrid

end CellSat
