import Mathlib
import CellSat.Grid.Node
import CellSat.Problem.Solution
import CellSat.Proofs.Checked
import CellSat.Proofs.Meaning
import CellSat.Proofs.Text
/-!
# How many cells a grid of values shows alive

The values of a solution are put into a grid, each in the place that its name gives, and counted
there generation by generation. If no two names give one place, nothing is lost on the way.

* `ValueGrid.Shows`: the values that a grid shows;
* `ValueGrid.Shows.place`, `ValueGrid.shows_of_ofValuation`: putting values into their places;
* `ValueGrid.Shows.perm_living`, `ValueGrid.Shows.livingCount_eq`: counting;
* **`Solution.livingCount_eq`**: the count of a solution is that of its values;
* `Node.placed?_name_eq_some_iff`, `ValueGrid.mem_of_placed?`: the places that names give.
-/

namespace CellSat

/-- Row, column and generation. -/
def PlacedValue.place (p : PlacedValue) : Nat × Nat × Nat := (p.row, p.column, p.generation)

/-- The value is that of a living cell of a generation. -/
def PlacedValue.livesIn (generation : Nat) (p : PlacedValue) : Bool :=
  p.generation == generation && p.value.isSet

@[simp]
theorem PlacedValue.livesIn_iff {generation : Nat} {p : PlacedValue} :
    p.livesIn generation = true ↔ p.generation = generation ∧ p.value.isSet = true := by
  simp [livesIn]

theorem PlacedValue.eq_iff_of_place {p q : PlacedValue} (h : p.place = q.place) :
    p = q ↔ p.value = q.value := by
  obtain ⟨row, column, generation, value⟩ := p
  obtain ⟨row', column', generation', value'⟩ := q
  obtain ⟨rfl, rfl, rfl⟩ : row = row' ∧ column = column' ∧ generation = generation' := by
    simpa [place] using h
  simp

namespace ValueGrid

variable {g g' : ValueGrid} {before ps : List PlacedValue} {row column generation : Nat}
  {name : String} {values : Valuation} {v : Value}

/-! ## Places -/

theorem mul_add_inj {a a' b b' n : Nat} (hb : b < n) (hb' : b' < n) :
    a * n + b = a' * n + b' ↔ a = a' ∧ b = b' := by
  constructor
  · intro h
    have hmod := congrArg (· % n) h
    simp only [Nat.mul_add_mod', Nat.mod_eq_of_lt hb, Nat.mod_eq_of_lt hb'] at hmod
    subst hmod
    exact ⟨Nat.eq_of_mul_eq_mul_right (by omega) (Nat.add_right_cancel h), rfl⟩
  · rintro ⟨rfl, rfl⟩
    rfl

/-- The place of a cell in the list of all cells. -/
def indexOf (height width generation row column : Nat) : Nat :=
  (generation * height + row) * width + column

theorem indexOf_inj {height width row' column' generation' : Nat} (hrow : row < height)
    (hrow' : row' < height) (hcolumn : column < width) (hcolumn' : column' < width) :
    indexOf height width generation row column = indexOf height width generation' row' column' ↔
      generation = generation' ∧ row = row' ∧ column = column' := by
  rw [indexOf, indexOf, mul_add_inj hcolumn hcolumn', mul_add_inj hrow hrow', and_assoc]

theorem eq_of_index64 {i : Nat} (h : g.index64 generation row column = .ok i) :
    i = indexOf g.height g.width generation row column := by
  obtain ⟨skipped, hskipped, h⟩ := bind_eq_ok.mp h
  obtain ⟨rows, hrows, h⟩ := bind_eq_ok.mp h
  obtain ⟨cells, hcells, h⟩ := bind_eq_ok.mp h
  rw [indexOf, Word.eq_of_nat64 h, Word.eq_of_nat64 hcells, Word.eq_of_nat64 hrows,
    Word.eq_of_nat64 hskipped]

/-! ## Putting values into their places -/

/-- The place of a value is on a grid. -/
def Has (g : ValueGrid) (p : PlacedValue) : Prop :=
  p.row < g.height ∧ p.column < g.width ∧ p.generation < g.generations

/-- A grid shows values, and no others. -/
structure Shows (g : ValueGrid) (ps : List PlacedValue) : Prop where
  has : ∀ p ∈ ps, g.Has p
  cells : ∀ p, g.Has p →
    (g.cells[indexOf g.height g.width p.generation p.row p.column]? = some (some p.value) ↔ p ∈ ps)

/-- **One value** is put into a place that was free. -/
theorem Shows.set (h : g.Shows before) {p : PlacedValue} (hp : g.Has p)
    (hfree : ∀ q ∈ before, q.place ≠ p.place) {i : Nat}
    (hi : i = indexOf g.height g.width p.generation p.row p.column) (hlt : i < g.cells.size) :
    Shows { g with cells := g.cells.set i (some p.value) } (before ++ [p]) where
  has q hq := by
    rcases List.mem_append.mp hq with hq | hq
    · exact h.has q hq
    · exact List.mem_singleton.mp hq ▸ hp
  cells q hq := by
    show (g.cells.set i (some p.value))[indexOf g.height g.width _ _ _]? = _ ↔ _
    rw [Array.getElem?_set, List.mem_append, List.mem_singleton, hi]
    by_cases hplace : q.place = p.place
    · obtain ⟨hrow, hcolumn, hgeneration⟩ :
          q.row = p.row ∧ q.column = p.column ∧ q.generation = p.generation := by
        simpa [PlacedValue.place] using hplace
      have hold : q ∉ before := fun hmem => hfree q hmem hplace
      rw [hrow, hcolumn, hgeneration, if_pos rfl, PlacedValue.eq_iff_of_place hplace]
      simp [hold, eq_comm]
    · have hindex : indexOf g.height g.width p.generation p.row p.column ≠
          indexOf g.height g.width q.generation q.row q.column := by
        rw [Ne, indexOf_inj hp.1 hq.1 hp.2.1 hq.2.1]
        rintro ⟨hgeneration, hrow, hcolumn⟩
        exact hplace (by rw [PlacedValue.place, PlacedValue.place, hgeneration, hrow, hcolumn])
      have hne : q ≠ p := fun heq => hplace (heq ▸ rfl)
      rw [if_neg hindex, h.cells q hq, or_iff_left hne]

/-- **All values** are put into places that differ. -/
theorem Shows.place (h : g.Shows before) (hhas : ∀ p ∈ ps, g.Has p)
    (hplaces : (before ++ ps).Pairwise fun p q => p.place ≠ q.place)
    (hok : g.place ps = .ok g') : g'.Shows (before ++ ps) := by
  induction ps generalizing g before with
  | nil =>
    obtain rfl := Except.ok.inj hok
    simpa using h
  | cons p ps ih =>
    obtain ⟨hp, hps⟩ := List.forall_mem_cons.mp hhas
    have happend : before ++ p :: ps = before ++ [p] ++ ps := by simp
    rw [happend] at hplaces ⊢
    obtain ⟨i, hi, hok⟩ := bind_eq_ok.mp hok
    split at hok
    · next hlt =>
      have hfree : ∀ q ∈ before, q.place ≠ p.place := fun q hq =>
        (List.pairwise_append.mp (List.pairwise_append.mp hplaces).1).2.2 q hq p
          (List.mem_singleton_self p)
      exact ih (h.set hp hfree (eq_of_index64 hi) hlt) hps hplaces hok
    · contradiction

theorem lt_of_extent {ns : List Nat} {e : Nat} (h : extent ns = .ok e) : ∀ n ∈ ns, n < e := by
  intro n hn
  have hle := (foldl_max_le_iff.mp (le_refl (ns.foldl Nat.max 0))).2 n hn
  rw [Word.eq_of_nat64 h]
  exact Nat.lt_succ_of_le hle

/-- **The grid of a valuation** shows the values whose names give places. -/
theorem shows_of_ofValuation
    (hplaces : (values.filterMap (placed? name)).Pairwise fun p q => p.place ≠ q.place)
    (h : ofValuation name values = .ok g) : g.Shows (values.filterMap (placed? name)) := by
  unfold ofValuation at h
  by_cases hempty : (values.filterMap (placed? name)).isEmpty = true
  · rw [if_pos hempty] at h
    obtain rfl := Except.ok.inj h
    rw [List.isEmpty_iff.mp hempty]
    exact ⟨by simp, fun p hp => absurd hp.1 (Nat.not_lt_zero _)⟩
  · rw [if_neg hempty] at h
    obtain ⟨height, hheight, h⟩ := bind_eq_ok.mp h
    obtain ⟨width, hwidth, h⟩ := bind_eq_ok.mp h
    obtain ⟨generations, hgenerations, h⟩ := bind_eq_ok.mp h
    obtain ⟨grid, hgrid, h⟩ := bind_eq_ok.mp h
    obtain ⟨rows, -, hgrid⟩ := bind_eq_ok.mp hgrid
    obtain ⟨size, -, hgrid⟩ := bind_eq_ok.mp hgrid
    split_ifs at hgrid
    obtain rfl := Except.ok.inj hgrid
    have hshows : Shows ⟨generations, height, width, Array.replicate size none⟩ [] := by
      refine ⟨by simp, fun p _ => ?_⟩
      simp [Array.getElem?_replicate]
    refine hshows.place (fun p hp => ⟨?_, ?_, ?_⟩) hplaces h
    · exact lt_of_extent hheight _ (List.mem_map_of_mem hp)
    · exact lt_of_extent hwidth _ (List.mem_map_of_mem hp)
    · exact lt_of_extent hgenerations _ (List.mem_map_of_mem hp)

/-! ## Counting -/

/-- The value that a grid shows in a place, if it is known. -/
def shown (g : ValueGrid) (generation row column : Nat) : Option Value :=
  if generation < g.generations ∧ row < g.height ∧ column < g.width then
    g.cells[indexOf g.height g.width generation row column]?.join
  else none

theorem eq_of_get {known : Option Value} (h : g.get generation row column = .ok known) :
    known = g.shown generation row column := by
  unfold get at h
  unfold shown
  split_ifs at h ⊢ with hhas
  · obtain ⟨i, hi, h⟩ := bind_eq_ok.mp h
    rw [← eq_of_index64 hi]
    cases hcell : g.cells[i]? with
    | none =>
      rw [hcell] at h
      contradiction
    | some cell =>
      rw [hcell] at h
      exact (Except.ok.inj h).symm
  · exact (Except.ok.inj h).symm

theorem Shows.shown_eq_some_iff (h : g.Shows ps) :
    g.shown generation row column = some v ↔ ⟨row, column, generation, v⟩ ∈ ps := by
  unfold shown
  split_ifs with hhas
  · rw [Option.join_eq_some_iff]
    exact h.cells ⟨row, column, generation, v⟩ ⟨hhas.2.1, hhas.2.2, hhas.1⟩
  · have hnot : ¬ (⟨row, column, generation, v⟩ : PlacedValue) ∈ ps := fun hmem =>
      hhas ⟨(h.has _ hmem).2.2, (h.has _ hmem).1, (h.has _ hmem).2.1⟩
    simp [hnot]

theorem Shows.isLiving_iff (h : g.Shows ps) :
    isLiving (g.shown generation row column) = true ↔
      ∃ v, ⟨row, column, generation, v⟩ ∈ ps ∧ v.isSet = true := by
  simp only [← h.shown_eq_some_iff]
  cases g.shown generation row column <;> simp [isLiving]

theorem flatten_layer {rows : List (List (Option Value))} (h : g.layer generation = .ok rows) :
    rows.flatten = (List.range g.height ×ˢ List.range g.width).map
      fun place => g.shown generation place.1 place.2 := by
  have hrows : rows = (List.range g.height).map fun row =>
      (List.range g.width).map fun column => g.shown generation row column := by
    refine eq_map_of_mapM_eq_ok (fun row _ cells hcells => ?_) h
    refine eq_map_of_mapM_eq_ok (fun column _ cell hcell => ?_) hcells
    exact eq_of_get hcell
  rw [hrows, ← List.flatMap_def]
  show _ = (List.product _ _).map _
  simp [List.product, List.map_flatMap, Function.comp_def]

/-- The living places of a generation are those of the values that live in it. -/
theorem Shows.perm_living (h : g.Shows ps)
    (hplaces : ps.Pairwise fun p q => p.place ≠ q.place) (generation : Nat) :
    ((List.range g.height ×ˢ List.range g.width).filter
        fun place => isLiving (g.shown generation place.1 place.2)).Perm
      ((ps.filter (·.livesIn generation)).map fun p => (p.row, p.column)) := by
  rw [List.perm_ext_iff_of_nodup]
  · rintro ⟨row, column⟩
    simp only [List.mem_filter, List.mem_map, h.isLiving_iff, PlacedValue.livesIn_iff]
    constructor
    · rintro ⟨-, v, hv, hset⟩
      exact ⟨_, ⟨hv, rfl, hset⟩, rfl⟩
    · rintro ⟨p, ⟨hp, rfl, hset⟩, heq⟩
      obtain ⟨rfl, rfl⟩ := Prod.mk.inj heq
      obtain ⟨hrow, hcolumn, -⟩ := h.has p hp
      exact ⟨List.mem_product.mpr ⟨List.mem_range.mpr hrow, List.mem_range.mpr hcolumn⟩,
        p.value, hp, hset⟩
  · exact (List.nodup_range.product List.nodup_range).filter _
  · rw [List.Nodup, List.pairwise_map]
    refine (hplaces.filter _).imp_of_mem ?_
    intro p q hp hq hne heq
    have hgeneration : p.generation = q.generation := by
      rw [List.mem_filter, PlacedValue.livesIn_iff] at hp hq
      exact hp.2.1.trans hq.2.1.symm
    obtain ⟨hrow, hcolumn⟩ := Prod.mk.inj heq
    exact hne (by rw [PlacedValue.place, PlacedValue.place, hrow, hcolumn, hgeneration])

/-- **The count of a generation** is that of the values that a grid shows. -/
theorem Shows.livingCount_eq (h : g.Shows ps)
    (hplaces : ps.Pairwise fun p q => p.place ≠ q.place) {n : Nat}
    (hn : g.livingCount generation = .ok n) : n = ps.countP (·.livesIn generation) := by
  obtain ⟨rows, hrows, hn⟩ := bind_eq_ok.mp hn
  obtain rfl := Except.ok.inj hn
  rw [flatten_layer hrows, List.countP_map, List.countP_eq_length_filter,
    List.countP_eq_length_filter]
  exact (h.perm_living hplaces generation).length_eq.trans (List.length_map _)

end ValueGrid

/-- **The count of a solution** is that of its values. -/
theorem Solution.livingCount_eq {index variableCount clauseCount time : Nat} {values : Valuation}
    {folding : String} {s : Solution}
    (hplaces : (values.filterMap (ValueGrid.placed? "c")).Pairwise fun p q => p.place ≠ q.place)
    (h : Solution.ofValues index values folding variableCount clauseCount time = .ok s)
    (generation : Nat) :
    s.livingCount generation =
      (values.filterMap (ValueGrid.placed? "c")).countP (·.livesIn generation) := by
  obtain ⟨grid, hgrid, h⟩ := bind_eq_ok.mp h
  obtain ⟨livingCells, hliving, h⟩ := bind_eq_ok.mp h
  obtain rfl := Except.ok.inj h
  have hshows := ValueGrid.shows_of_ofValuation hplaces hgrid
  have hcells := eq_map_of_mapM_eq_ok (fun t _ n hn => hshows.livingCount_eq hplaces hn) hliving
  show livingCells.getD generation 0 = _
  rw [hcells, List.getD_eq_getElem?_getD, List.getElem?_map]
  by_cases hlt : generation < grid.generations
  · rw [List.getElem?_range hlt]
    rfl
  · -- a generation that the grid does not have has no values
    rw [List.getElem?_eq_none (by simpa using hlt)]
    symm
    rw [Option.map_none, Option.getD_none, List.countP_eq_zero]
    intro p hp hlives
    have := (hshows.has p hp).2.2
    have := (PlacedValue.livesIn_iff.mp hlives).1
    omega

/-! ## Names -/

namespace ValueGrid

open Text

variable {name : String} {v : Value}

theorem exists_of_coordinates? {s : List Char} {x : Nat × Nat × Nat}
    (h : coordinates? s = some x) :
    ∀ w ∈ pieces (· == '_') s, ∃ n, readNatUpTo? Word.maxNat64 w = some n := by
  intro w hw
  have hread := List.mem_map_of_mem (f := readNatUpTo? Word.maxNat64) hw
  unfold coordinates? at h
  split at h
  · next hmap =>
    rw [hmap] at hread
    simp only [List.mem_cons, List.not_mem_nil, or_false] at hread
    rcases hread with hread | hread | hread <;> exact ⟨_, hread⟩
  · contradiction

theorem mem_of_placed? {p : PlacedValue} (h : placed? "c" (name, v) = some p) :
    ∀ c ∈ name.toList, c ∈ ['c', '_', '+'] ∨ isDigit c = true := by
  obtain ⟨rest, hrest, h⟩ := Option.bind_eq_some_iff.mp h
  obtain ⟨x, hx, -⟩ := Option.bind_eq_some_iff.mp h
  have hname : name.toList = ['c', '_'] ++ rest := eq_append_of_dropStart? hrest
  intro c hc
  rw [hname, List.mem_append] at hc
  rcases hc with hc | hc
  · exact .inl (by revert hc; simp; tauto)
  · by_cases hunderscore : c = '_'
    · exact .inl (by simp [hunderscore])
    · obtain ⟨w, hw, hcw⟩ := exists_mem_pieces (p := (· == '_')) hc (by simpa using hunderscore)
      obtain ⟨n, hn⟩ := exists_of_coordinates? hx w hw
      rcases isDigit_of_readNatUpTo? hn c hcw with rfl | hdigit
      · exact .inl (by simp)
      · exact .inr hdigit

theorem coordinates?_toString_eq_some_iff {x y z : Int} {row column generation : Nat} :
    coordinates? ((toString x).toList ++ '_' ::
        ((toString y).toList ++ '_' :: (toString z).toList)) = some (row, column, generation) ↔
      (x = row ∧ row ≤ Word.maxNat64) ∧ (y = column ∧ column ≤ Word.maxNat64) ∧
        (z = generation ∧ generation ≤ Word.maxNat64) := by
  have hsplit : ∀ x : Int, ∀ c ∈ (toString x).toList, (c == '_') = false := by
    intro x c hc
    rw [beq_eq_false_iff_ne]
    rintro rfl
    exact absurd (mem_toString_int hc) (by decide)
  rw [coordinates?, pieces_append (hsplit x) rfl, pieces_append (hsplit y) rfl,
    pieces_of_forall (hsplit z), ← readNatUpTo?_toString_eq_some_iff,
    ← readNatUpTo?_toString_eq_some_iff, ← readNatUpTo?_toString_eq_some_iff]
  simp only [List.map_cons, List.map_nil]
  cases readNatUpTo? Word.maxNat64 (toString x).toList with
  | none => simp
  | some i =>
    cases readNatUpTo? Word.maxNat64 (toString y).toList with
    | none => simp
    | some j => cases readNatUpTo? Word.maxNat64 (toString z).toList <;> simp

end ValueGrid

/-- **The place that the name of a node gives** is that of the node, if its numbers fit. -/
theorem Node.placed?_name_eq_some_iff {n : Node} {v : Value} {p : PlacedValue} :
    ValueGrid.placed? "c" (n.name, v) = some p ↔
      ((n.cell.row = p.row ∧ p.row ≤ Word.maxNat64) ∧
        (n.cell.column = p.column ∧ p.column ≤ Word.maxNat64) ∧
          (n.generation = p.generation ∧ p.generation ≤ Word.maxNat64)) ∧ p.value = v := by
  obtain ⟨row, column, generation, value⟩ := p
  have hname : n.name.toList = "c_".toList ++ ((toString n.cell.row).toList ++ '_' ::
      ((toString n.cell.column).toList ++ '_' :: (toString n.generation).toList)) := by
    simp only [Node.name, String.toList_append, List.append_assoc]
    rfl
  have hdrop := Text.dropStart?_append "c_".toList ((toString n.cell.row).toList ++ '_' ::
      ((toString n.cell.column).toList ++ '_' :: (toString n.generation).toList))
  rw [← hname] at hdrop
  unfold ValueGrid.placed?
  change (Text.dropStart? "c_".toList n.name.toList).bind _ = _ ↔ _
  rw [hdrop, Option.bind_some, ← ValueGrid.coordinates?_toString_eq_some_iff]
  constructor
  · intro h
    obtain ⟨⟨i, j, t⟩, hx, h⟩ := Option.bind_eq_some_iff.mp h
    obtain ⟨rfl, rfl, rfl, rfl⟩ := PlacedValue.mk.inj (Option.some.inj h)
    exact ⟨hx, rfl⟩
  · rintro ⟨hx, rfl⟩
    exact Option.bind_eq_some_iff.mpr ⟨_, hx, rfl⟩

theorem Node.placed?_name {n : Node} (hrow : 0 ≤ n.cell.row) (hcolumn : 0 ≤ n.cell.column)
    (hgeneration : 0 ≤ n.generation) (hrow' : n.cell.row ≤ Word.maxInt64)
    (hcolumn' : n.cell.column ≤ Word.maxInt64) (hgeneration' : n.generation ≤ Word.maxInt64)
    (v : Value) :
    ValueGrid.placed? "c" (n.name, v) =
      some ⟨n.cell.row.toNat, n.cell.column.toNat, n.generation.toNat, v⟩ := by
  have hfits : ∀ {x : Int}, 0 ≤ x → x ≤ Word.maxInt64 →
      x = x.toNat ∧ x.toNat ≤ Word.maxNat64 := fun hx hx' => by
    simp only [Word.maxInt64, Word.maxNat64] at *
    omega
  exact Node.placed?_name_eq_some_iff.mpr
    ⟨⟨hfits hrow hrow', hfits hcolumn hcolumn', hfits hgeneration hgeneration'⟩, rfl⟩

end CellSat
