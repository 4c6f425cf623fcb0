import Mathlib
import CellSat.Proofs.Cnf.Compile
import CellSat.Proofs.Grid.Extent
import CellSat.Proofs.Tag.Capture
import CellSat.Proofs.Template.Inflate
/-!
# Tags on cells outside

In a template the false wire stands for every cell outside. Pinning it makes its truth value false,
but not its number: a literal with a tag asks for the number of the wire, which is one more value
to choose. So all cells outside have one value in common, which is free.

* `Lattice.reads`, `Lattice.Obeys`: what a template says at the nodes of a grid, given what a tag
  says of a cell outside;
* `Lattice.satisfies_iff_obeys`: the clauses of an inflated template;
* `Lattice.ExtendsTo`: values of the cells inside that extend to a solution of a formula;
* `Template.Spares`: a value that no tag on a cell outside asks for;
* **`Lattice.compile_inflateGrid64_iff`**: the values of the cells inside that extend to solutions.
-/

namespace CellSat

open Template

/-- Tags on symbols of the neighbourhood, and on the false wire, are ruled out only, and never a
given value. -/
def Template.Spares (template : List Clause) (z : Nat) : Prop :=
  ∀ d ∈ Clause.disjunctions template, ∀ l ∈ d, l.tag ≠ none →
    l.name ∈ Literal.zeroName :: Symbol.center :: Symbol.neighbors →
    l.positive = false ∧ l.tag ≠ some z

namespace Lattice

variable {lattice : Lattice} {grid : List Node} {template cs : List Clause} {n : Node}
  {I K : Interpretation} {l : Literal} {outside : Option Nat → Bool}

/-- What a literal of a template says at a node: of a cell outside what is given, of a cell inside
and of other variables what an interpretation says. -/
def reads (lattice : Lattice) (outside : Option Nat → Bool) (K : Interpretation) (n : Node)
    (l : Literal) : Bool :=
  match lattice.named? n l.name with
  | some m =>
    if lattice.isOutside m then outside l.tag == l.positive else (l.rename m.name).holds K
  | none =>
    (l.rename (if l.name.endsWith helperEnd then l.name ++ n.name else l.name)).holds K

/-- All clauses of a template hold at all nodes of a grid. -/
def Obeys (lattice : Lattice) (grid : List Node) (template : List Clause)
    (outside : Option Nat → Bool) (K : Interpretation) : Prop :=
  ∀ n ∈ grid, ∀ d ∈ Clause.disjunctions template, ∃ l ∈ d, lattice.reads outside K n l = true

/-- The values of the cells inside are within their tags. -/
def InsideInRange (lattice : Lattice) (grid : List Node) (cs : List Clause) (I : Interpretation) :
    Prop :=
  ∀ n ∈ grid, lattice.isOutside n = false → Clause.Tagged cs n.name →
    I.number n.name ≤ Clause.largestTag cs n.name

/-- Two interpretations give the same values to the cells inside. -/
def AgreeInside (lattice : Lattice) (grid : List Node) (K I : Interpretation) : Prop :=
  ∀ n ∈ grid, lattice.isOutside n = false →
    K.truth n.name = I.truth n.name ∧ K.number n.name = I.number n.name

/-- The values of the cells inside extend to a solution of a formula. -/
def ExtendsTo (lattice : Lattice) (grid : List Node) (cs : List Clause) (f : Formula)
    (I : Interpretation) : Prop :=
  ∃ J : Interpretation, f.SatisfiedBy (Assignment.ofInterpretation f.symbols J) ∧
    ∀ n ∈ grid, lattice.isOutside n = false → J.WritesAt I cs n.name

/-! ## Templates at a node -/

theorem mem_symbols_of_named? {symbol : String} {m : Node}
    (h : lattice.named? n symbol = some m) : symbol ∈ Symbol.center :: Symbol.neighbors := by
  rw [named?] at h
  by_cases hcenter : symbol = Symbol.center
  · rw [hcenter]
    exact List.mem_cons_self
  · rw [if_neg hcenter] at h
    exact List.mem_cons_of_mem _ (mem_neighbors_of_neighbor? h)

theorem lookup_of_named? {s : Substitution}
    (hs : lattice.substitution64 (helpers template) n = .ok s) {symbol : String} {m : Node}
    (hm : lattice.named? n symbol = some m) : s.lookup symbol = some (lattice.target m) := by
  rw [lookup_substitution64 hs, if_neg (not_mem_helpers (mem_symbols_of_named? hm) template), hm]
  rfl

theorem holds_zeroName (hzero : K.truth Literal.zeroName = false) (l : Literal) :
    (l.rename Literal.zeroName).holds K =
      ((l.tag == some (K.number Literal.zeroName)) == l.positive) := by
  obtain ⟨name, positive, _ | tag⟩ := l
  · show (K.truth Literal.zeroName == positive) = _
    rw [hzero]
    rfl
  · show ((K.number Literal.zeroName == tag) == positive) = _
    rw [Option.some_beq_some, BEq.comm (a := tag)]

theorem holds_along_naming {s : Substitution}
    (hlookup : ∀ symbol, s.lookup symbol =
      if symbol ∈ helpers template then some ⟨symbol ++ n.name, n.orientation⟩
      else (lattice.named? n symbol).map lattice.target)
    {d : Disjunction} (hd : d ∈ Clause.disjunctions template) (hl : l ∈ d)
    (hzero : ∀ m, lattice.named? n l.name = some m → lattice.isOutside m = true →
      K.truth Literal.zeroName = false) :
    l.holds (K.along s.naming) =
      lattice.reads (fun tag => tag == some (K.number Literal.zeroName)) K n l := by
  show (l.rename (s.naming l.name)).holds K = _
  rw [Substitution.naming, hlookup, reads]
  cases hm : lattice.named? n l.name with
  | some m =>
    rw [if_neg (not_mem_helpers (mem_symbols_of_named? hm) template)]
    show (l.rename (lattice.target m).name).holds K = if lattice.isOutside m then _ else _
    rw [target]
    by_cases hout : lattice.isOutside m = true
    · rw [if_pos hout, if_pos hout, holds_zeroName (hzero m hm hout)]
    · rw [if_neg hout, if_neg hout]
  | none =>
    have hhelper : l.name ∈ helpers template ↔ l.name.endsWith helperEnd = true := by
      rw [helpers, List.mem_filter, and_iff_right]
      exact Clause.mem_variableNames.mpr ⟨d, hd, l, hl, rfl⟩
    by_cases hend : l.name.endsWith helperEnd = true
    · rw [if_pos (hhelper.mpr hend), if_pos hend]
      rfl
    · rw [if_neg (fun h => hend (hhelper.mp h)), if_neg hend]
      rfl

/-! ## Templates on a grid -/

section Grid

variable (hl : lattice.Proper) (hgrid : lattice.grid64 Node.origin = .ok grid)

include hl hgrid

theorem satisfies_iff_obeys (template : List Clause) (consequent : Option String) :
    ∃ cs, inflateGrid64 lattice grid template consequent .fixed = .ok cs ∧
      ∀ K : Interpretation, K.truth Literal.zeroName = false →
        (K.Satisfies (Clause.disjunctions cs) ↔ lattice.Obeys grid template
          (fun tag => tag == some (K.number Literal.zeroName)) K) := by
  have hlookup : ∀ n ∈ grid, ∃ s, lattice.substitution64 (helpers template) n = .ok s ∧
      ∀ symbol, s.lookup symbol =
        if symbol ∈ helpers template then some ⟨symbol ++ n.name, n.orientation⟩
        else (lattice.named? n symbol).map lattice.target := by
    intro n hn
    obtain ⟨ms, hms⟩ := (mem_grid_iff_reaches hl hgrid).2 n hn
    exact exists_lookup hms (helpers template)
  obtain ⟨cs, hcs, hmeaning⟩ := inflateGrid64_renames (fun d _ l _ => .inl rfl)
    (fun n hn => (hlookup n hn).imp fun s hs => hs.1) consequent
  refine ⟨cs, hcs, fun K hzero => (hmeaning K hzero).trans ?_⟩
  constructor
  · intro h n hn d hd
    obtain ⟨s, hs, hlookup⟩ := hlookup n hn
    obtain ⟨l, hl, hholds⟩ := Disjunction.holds_iff.mp (h n hn s hs d hd)
    rw [holds_along_naming hlookup hd hl fun _ _ _ => hzero] at hholds
    exact ⟨l, hl, hholds⟩
  · intro h n hn s hs d hd
    obtain ⟨s', hs', hlookup⟩ := hlookup n hn
    obtain rfl : s = s' := Except.ok.inj (hs.symm.trans hs')
    obtain ⟨l, hl, hreads⟩ := h n hn d hd
    rw [← holds_along_naming hlookup hd hl fun _ _ _ => hzero] at hreads
    exact Disjunction.holds_iff.mpr ⟨l, hl, hreads⟩

theorem exists_isOutside (hopen : lattice.folding.IsOpen) :
    ∃ n ∈ grid, lattice.isOutside n = true := by
  have hrows : 0 < lattice.folding.rows := hl.sized.rows_pos
  have hcolumns : 0 < lattice.folding.columns := hl.sized.columns_pos
  have hextent : lattice.folding.Extent ⟨-1, 0⟩ ∧ lattice.folding.isOutside ⟨-1, 0⟩ = true := by
    cases hf : lattice.folding with
    | torus k l s | tessellated t =>
      rw [hf] at hopen
      exact absurd hopen id
    | bounded k l =>
      rw [hf] at hrows hcolumns
      simp only [Folding.rows, Folding.columns] at hrows hcolumns
      exact ⟨⟨le_rfl, by simp only; omega, by simp, hcolumns.le⟩, by simp [Folding.isOutside]⟩
    | strip k l =>
      rw [hf] at hrows hcolumns
      simp only [Folding.rows, Folding.columns] at hrows hcolumns
      exact ⟨⟨le_rfl, by simp only; omega, le_rfl, hcolumns⟩, by simp [Folding.isOutside]⟩
  have horigin : lattice.Reaches ⟨0, 0⟩ 0 := .refl
  have hreaches : lattice.Reaches ⟨-1, 0⟩ 0 :=
    horigin.step hl (show ⟨-1, 0⟩ ∈ Cell.around by decide) (stays_of_extent hl hextent.1)
  exact ⟨_, ((mem_grid_iff_reaches hl hgrid).1 _).mpr hreaches, hextent.2⟩

/-- A cell outside stands for itself in its own neighbourhood, so the false wire is pinned. -/
theorem pin_mem_of_open (hopen : lattice.folding.IsOpen) {consequent : Option String} {turn : Turn}
    (hcs : inflateGrid64 lattice grid template consequent turn = .ok cs) : pin ∈ cs := by
  obtain ⟨n, hn, hout⟩ := exists_isOutside hl hgrid hopen
  obtain ⟨ms, hms⟩ := (mem_grid_iff_reaches hl hgrid).2 n hn
  obtain ⟨s, hs, -⟩ := exists_lookup hms (helpers template)
  have hcenter : s.lookup Symbol.center = some (lattice.target n) :=
    lookup_of_named? hs (if_pos rfl)
  exact pin_mem_of_lookup hcs hn hs hcenter (by rw [target, if_pos hout])

theorem truth_zeroName_of_satisfies (hopen : lattice.folding.IsOpen)
    {consequent : Option String} {turn : Turn}
    (hcs : inflateGrid64 lattice grid template consequent turn = .ok cs)
    (hK : K.Satisfies (Clause.disjunctions cs)) : K.truth Literal.zeroName = false :=
  holds_pin.mp (hK _ (List.mem_filterMap.mpr ⟨pin, pin_mem_of_open hl hgrid hopen hcs, rfl⟩))

end Grid

/-! ## Cells outside that are dead -/

theorem append_name_ne_zeroName (helper : String) (m : Node) :
    helper ++ m.name ≠ Literal.zeroName := by
  intro h
  have hmem : 'c' ∈ (helper ++ m.name).toList := by simp [Node.name]
  rw [h] at hmem
  exact absurd hmem (by decide)

theorem name_ne_zeroName (m : Node) : m.name ≠ Literal.zeroName := by
  have hne := append_name_ne_zeroName "" m
  rwa [String.empty_append] at hne

/-- The variable is the false wire only for literals that name it. -/
theorem reads_cases (lattice : Lattice) (n : Node) (l : Literal) :
    (l.name ∈ Symbol.center :: Symbol.neighbors ∧
      ∀ outside K, lattice.reads outside K n l = (outside l.tag == l.positive)) ∨
    ∃ name, (name = Literal.zeroName → l.name = Literal.zeroName) ∧
      ∀ outside K, lattice.reads outside K n l = (l.rename name).holds K := by
  cases hm : lattice.named? n l.name with
  | some m =>
    by_cases hout : lattice.isOutside m = true
    · exact Or.inl ⟨mem_symbols_of_named? hm, fun outside K => by
        simp only [reads, hm, if_pos hout]⟩
    · refine Or.inr ⟨m.name, fun h => absurd h ?_, fun outside K => by
        simp only [reads, hm, if_neg hout]⟩
      exact name_ne_zeroName m
  | none =>
    by_cases hend : l.name.endsWith helperEnd = true
    · refine Or.inr ⟨l.name ++ n.name, fun h => absurd h ?_, fun outside K => by
        simp only [reads, hm, if_pos hend]⟩
      exact append_name_ne_zeroName l.name n
    · exact Or.inr ⟨l.name, id, fun outside K => by simp only [reads, hm, if_neg hend]⟩

/-- Tags that are ruled out only lose nothing if the cells outside have no value at all. -/
theorem Obeys.dead {z z' : Nat} (hspares : Spares template z)
    (h : lattice.Obeys grid template (fun tag => tag == some z') K) :
    lattice.Obeys grid template (fun _ => false) K := by
  intro n hn d hd
  obtain ⟨l, hl, hreads⟩ := h n hn d hd
  refine ⟨l, hl, ?_⟩
  rcases reads_cases lattice n l with ⟨hsymbol, hcases⟩ | ⟨name, -, hcases⟩
  · rw [hcases] at hreads ⊢
    cases htag : l.tag with
    | none => rwa [htag] at hreads
    | some tag =>
      rw [(hspares d hd l hl (by simp [htag]) (List.mem_cons_of_mem _ hsymbol)).1]
      rfl
  · rw [hcases] at hreads ⊢
    exact hreads

/-- A value that is not ruled out can be given to the false wire. -/
theorem Obeys.update {z : Nat} (hspares : Spares template z)
    (h : lattice.Obeys grid template (fun _ => false) K) :
    lattice.Obeys grid template (fun tag => tag == some z)
      ⟨K.truth, Function.update K.number Literal.zeroName z⟩ := by
  intro n hn d hd
  obtain ⟨l, hl, hreads⟩ := h n hn d hd
  refine ⟨l, hl, ?_⟩
  rcases reads_cases lattice n l with ⟨hsymbol, hcases⟩ | ⟨name, hzero, hcases⟩
  · rw [hcases] at hreads ⊢
    cases htag : l.tag with
    | none => exact hreads
    | some tag =>
      obtain ⟨hpositive, hne⟩ :=
        hspares d hd l hl (by simp [htag]) (List.mem_cons_of_mem _ hsymbol)
      rw [htag] at hne
      rw [hpositive, beq_false_of_ne hne]
      rfl
  · rw [hcases] at hreads ⊢
    by_cases hname : name = Literal.zeroName
    · cases htag : l.tag with
      | none => simpa [Literal.holds, Literal.rename, htag] using hreads
      | some tag =>
        have hmem : l.name ∈ Literal.zeroName :: Symbol.center :: Symbol.neighbors := by
          rw [hzero hname]
          exact List.mem_cons_self
        obtain ⟨hpositive, hne⟩ := hspares d hd l hl (by simp [htag]) hmem
        rw [htag, ne_eq, Option.some.injEq] at hne
        simp [Literal.holds, Literal.rename, htag, hname, hpositive, Ne.symm hne]
    · rw [← hreads]
      exact Literal.holds_congr rfl (Function.update_of_ne hname _ _)

theorem exists_obeys_iff_dead {z : Nat} (hz : z ≤ Clause.largestTag cs Literal.zeroName)
    (hspares : Spares template z) :
    (∃ K : Interpretation, K.InRange cs ∧ lattice.AgreeInside grid K I ∧
      K.truth Literal.zeroName = false ∧
      lattice.Obeys grid template (fun tag => tag == some (K.number Literal.zeroName)) K) ↔
    ∃ K : Interpretation, K.InRange cs ∧ lattice.AgreeInside grid K I ∧
      K.truth Literal.zeroName = false ∧ lattice.Obeys grid template (fun _ => false) K := by
  constructor
  · rintro ⟨K, hrange, hagree, hzero, h⟩
    exact ⟨K, hrange, hagree, hzero, h.dead hspares⟩
  · rintro ⟨K, hrange, hagree, hzero, h⟩
    refine ⟨⟨K.truth, Function.update K.number Literal.zeroName z⟩, ?_, ?_, hzero, ?_⟩
    · intro name hname
      by_cases hwire : name = Literal.zeroName
      · simp only [hwire, Function.update_self]
        exact hz
      · simp only [Function.update_of_ne hwire]
        exact hrange name hname
    · intro n hn hin
      simp only [Function.update_of_ne (name_ne_zeroName n)]
      exact hagree n hn hin
    · simp only [Function.update_self]
      exact h.update hspares

/-! ## Solutions -/

theorem extendsTo_iff (hapart : Clause.Apart cs) {f : Formula}
    (hf : ∀ I J : Interpretation, J.Writes I cs → I.FitsBits cs →
      (f.SatisfiedBy (Assignment.ofInterpretation f.symbols J) ↔
        I.InRange cs ∧ I.Satisfies (Clause.disjunctions cs)))
    (hI : lattice.InsideInRange grid cs I) :
    lattice.ExtendsTo grid cs f I ↔ ∃ K : Interpretation, K.InRange cs ∧
      lattice.AgreeInside grid K I ∧ K.Satisfies (Clause.disjunctions cs) := by
  constructor
  · rintro ⟨J, hJ, hinside⟩
    obtain ⟨hrange, hsat⟩ := (hf _ J (Interpretation.writes_readBack J I cs)
      (Interpretation.fitsBits_readBack J I cs)).mp hJ
    refine ⟨J.readBack I cs, hrange, fun n hn hin => ?_, hsat⟩
    refine (hinside n hn hin).readBack_eq fun htagged => ?_
    have hle := hI n hn hin htagged
    have hlt := Tag.lt_two_pow_bitLength (Clause.largestTag cs n.name + 1)
    omega
  · rintro ⟨K, hrange, hagree, hsat⟩
    have hwrites := Interpretation.writes_written hapart K
    refine ⟨K.written cs, (hf K _ hwrites hrange.fitsBits).mpr ⟨hrange, hsat⟩, fun n hn hin => ?_⟩
    obtain ⟨htruth, hnumber⟩ := hagree n hn hin
    constructor
    · intro huntagged
      rw [(hwrites n.name).truth huntagged, htruth]
    · intro htagged i hi
      rw [(hwrites n.name).bits htagged i hi, hnumber]

/-- **Cells outside share a value**, that of the false wire. They are dead if tags on neighbours are
only ruled out, and not all of its values are. -/
theorem compile_inflateGrid64_iff (hl : lattice.Proper) (hopen : lattice.folding.IsOpen)
    (hgrid : lattice.grid64 Node.origin = .ok grid) (template : List Clause)
    (consequent : Option String) :
    ∃ cs, inflateGrid64 lattice grid template consequent .fixed = .ok cs ∧
      (Clause.Apart cs →
        (∀ es, Clause.expandTags cs = .ok es → (Clause.variableNames es).length < 2 ^ 31) →
        ∃ f, Formula.compile cs = .ok f ∧
          ∀ I : Interpretation, lattice.InsideInRange grid cs I →
            (lattice.ExtendsTo grid cs f I ↔ ∃ K : Interpretation, K.InRange cs ∧
              lattice.AgreeInside grid K I ∧ K.truth Literal.zeroName = false ∧
              lattice.Obeys grid template
                (fun tag => tag == some (K.number Literal.zeroName)) K) ∧
            ((∃ z ≤ Clause.largestTag cs Literal.zeroName, Spares template z) →
              (lattice.ExtendsTo grid cs f I ↔ ∃ K : Interpretation, K.InRange cs ∧
                lattice.AgreeInside grid K I ∧ K.truth Literal.zeroName = false ∧
                lattice.Obeys grid template (fun _ => false) K))) := by
  obtain ⟨cs, hcs, hobeys⟩ := satisfies_iff_obeys hl hgrid template consequent
  refine ⟨cs, hcs, fun hapart hcount => ?_⟩
  obtain ⟨f, hf, hmeaning⟩ := Formula.compile_writes hcount
  refine ⟨f, hf, fun I hI => ?_⟩
  have hextends : lattice.ExtendsTo grid cs f I ↔ ∃ K : Interpretation, K.InRange cs ∧
      lattice.AgreeInside grid K I ∧ K.truth Literal.zeroName = false ∧
      lattice.Obeys grid template (fun tag => tag == some (K.number Literal.zeroName)) K := by
    rw [extendsTo_iff hapart hmeaning hI]
    refine exists_congr fun K => and_congr_right fun _ => and_congr_right fun _ => ?_
    constructor
    · intro hsat
      have hzero := truth_zeroName_of_satisfies hl hgrid hopen hcs hsat
      exact ⟨hzero, (hobeys K hzero).mp hsat⟩
    · rintro ⟨hzero, h⟩
      exact (hobeys K hzero).mpr h
  refine ⟨hextends, ?_⟩
  rintro ⟨z, hz, hspares⟩
  rw [hextends, exists_obeys_iff_dead hz hspares]

/-! ## A plane of one cell -/

/-- A bounded plane of one cell that does not change. -/
def oneCell : Lattice := ⟨.bounded 1 1, ⟨1, 0, 0⟩⟩

/-- The cell and its border. -/
def oneCellGrid : List Node :=
  [⟨⟨-1, -1⟩, 0, 0⟩, ⟨⟨-1, 0⟩, 0, 0⟩, ⟨⟨-1, 1⟩, 0, 0⟩, ⟨⟨0, -1⟩, 0, 0⟩, ⟨⟨0, 0⟩, 0, 0⟩,
    ⟨⟨0, 1⟩, 0, 0⟩, ⟨⟨1, -1⟩, 0, 0⟩, ⟨⟨1, 0⟩, 0, 0⟩, ⟨⟨1, 1⟩, 0, 0⟩]

theorem steady_oneCell : oneCell.Steady :=
  ⟨⟨⟨by decide, by decide⟩, by decide⟩, fun _ => ⟨rfl, rfl⟩⟩

theorem mem_oneCellGrid : n ∈ oneCellGrid ↔ oneCell.Placed n := by
  have hextent : ∀ n ∈ oneCellGrid, n.orientation = 0 ∧ 0 ≤ n.generation ∧ n.generation < 1 ∧
      -1 ≤ n.cell.row ∧ n.cell.row ≤ 1 ∧ -1 ≤ n.cell.column ∧ n.cell.column ≤ 1 := by decide
  rw [placed_iff steady_oneCell]
  constructor
  · exact hextent n
  · obtain ⟨⟨i, j⟩, t, o⟩ := n
    rintro ⟨ho, ht, ht', hi, hi', hj, hj'⟩
    simp only [oneCell] at ho ht ht' hi hi' hj hj'
    obtain rfl := ho
    obtain rfl : t = 0 := by omega
    interval_cases i <;> interval_cases j <;> decide

theorem grid64_oneCell : oneCell.grid64 Node.origin = .ok oneCellGrid := by
  obtain ⟨grid, hgrid⟩ := exists_grid64 steady_oneCell.toProper
    ⟨⟨by decide, by decide, fun m n s h => by cases h⟩, by decide, by decide, by decide⟩
  have hmem : ∀ n, n ∈ grid ↔ n ∈ oneCellGrid := fun n =>
    (mem_grid_iff_placed steady_oneCell hgrid n).trans mem_oneCellGrid.symm
  have hsorted := List.pairwise_map.mp (sorted_of_grid64 hgrid fun n hn =>
    ((mem_grid_iff_placed steady_oneCell hgrid n).mp hn).belongs.1)
  -- Both are strictly increasing lists of the same nodes.
  have hperm : grid.Perm oneCellGrid :=
    (List.perm_ext_iff_of_nodup (nodup_of_grid64 hgrid) (by decide)).mpr hmem
  have heq : grid = oneCellGrid := by
    refine List.Perm.eq_of_pairwise (fun m n _ _ hmn hnm => ?_) hsorted (by decide) hperm
    rw [← compare_eq_lt_iff] at hmn hnm
    rw [@Std.OrientedCmp.eq_swap _ Node.compare _ m n, hnm] at hmn
    exact absurd hmn (by decide)
  rw [hgrid, heq]

/-- The cell to the east has the value 1, or has another one. -/
def eastTemplate (positive : Bool) : List Clause := [.disjunction [⟨"E", positive, some 1⟩]]

/-- The template at the nodes of the grid. Only the node in the west sees the cell in its east. -/
def oneCellClauses (positive : Bool) : List Clause :=
  let wire : Clause := .disjunction [⟨Literal.zeroName, positive, some 1⟩]
  [heading [⟨"E", positive, some 1⟩] none, wire, wire, wire,
    .disjunction [⟨"c_0_0_0", positive, some 1⟩], wire, wire, wire, wire, wire, pin]

theorem inflateGrid64_oneCell (positive : Bool) :
    inflateGrid64 oneCell oneCellGrid (eastTemplate positive) none .fixed =
      .ok (oneCellClauses positive) := by
  cases positive <;> cbv

theorem apart_oneCell (positive : Bool) : Clause.Apart (oneCellClauses positive) := by
  apply Clause.apart_of_plain
  unfold Tag.Plain
  cases positive <;> decide

theorem tag_oneCell (positive : Bool) : ∀ d ∈ Clause.disjunctions (oneCellClauses positive),
    ∀ l ∈ d, l.tag ≠ none → l.tag = some 1 := by
  cases positive <;> decide

theorem count_oneCell (positive : Bool) (es : List Clause)
    (hes : Clause.expandTags (oneCellClauses positive) = .ok es) :
    (Clause.variableNames es).length < 2 ^ 31 := by
  have hle := Formula.length_variableNames_le hes fun d hd l hl tag htag => by
    have hone := tag_oneCell positive d hd l hl (by rw [htag]; exact Option.some_ne_none _)
    exact (Option.some.inj (htag.symm.trans hone)).le
  have hten : (Clause.disjunctions (oneCellClauses positive)).flatten.length = 10 := rfl
  have htwo : Tag.bitLength (1 + 1) = 2 := by decide
  rw [hten, htwo] at hle
  omega

/-- **Ruling out a value.** The cells outside can have the value 0. -/
theorem compile_inflateGrid64_iff_oneCell :
    ∃ f, Formula.compile (oneCellClauses false) = .ok f ∧
      ∀ I : Interpretation, oneCell.InsideInRange oneCellGrid (oneCellClauses false) I →
        (oneCell.ExtendsTo oneCellGrid (oneCellClauses false) f I ↔
          ∃ K : Interpretation, K.InRange (oneCellClauses false) ∧
            oneCell.AgreeInside oneCellGrid K I ∧ K.truth Literal.zeroName = false ∧
            oneCell.Obeys oneCellGrid (eastTemplate false) (fun _ => false) K) := by
  obtain ⟨cs, hcs, h⟩ := compile_inflateGrid64_iff steady_oneCell.toProper trivial grid64_oneCell
    (eastTemplate false) none
  obtain rfl : oneCellClauses false = cs :=
    Except.ok.inj ((inflateGrid64_oneCell false).symm.trans hcs)
  obtain ⟨f, hf, hiff⟩ := h (apart_oneCell false) (count_oneCell false)
  have hspares : Spares (eastTemplate false) 0 := by
    intro d hd l hl _ _
    rw [List.mem_singleton.mp hd] at hl
    rw [List.mem_singleton.mp hl]
    decide
  exact ⟨f, hf, fun I hI => (hiff I hI).2 ⟨0, Nat.zero_le _, hspares⟩⟩

/-- The cell to the east has the value 1, also where it is outside. -/
theorem not_dead_of_tagged :
    inflateGrid64 oneCell oneCellGrid (eastTemplate true) none .fixed = .ok (oneCellClauses true) ∧
    (∃ f, Formula.compile (oneCellClauses true) = .ok f ∧
      ∃ I : Interpretation, oneCell.InsideInRange oneCellGrid (oneCellClauses true) I ∧
        oneCell.ExtendsTo oneCellGrid (oneCellClauses true) f I) ∧
    ∀ K : Interpretation, ¬ oneCell.Obeys oneCellGrid (eastTemplate true) (fun _ => false) K := by
  refine ⟨inflateGrid64_oneCell true, ?_, ?_⟩
  · obtain ⟨f, hf, hmeaning⟩ := Formula.compile_writes (count_oneCell true)
    let K : Interpretation := ⟨fun _ => false, fun _ => 1⟩
    have hrange : K.InRange (oneCellClauses true) := by
      rintro name ⟨d, hd, l, hl, rfl, htag⟩
      exact Clause.largestTag_le_iff.mp le_rfl d hd l hl rfl 1 (tag_oneCell true d hd l hl htag)
    have hsat : K.Satisfies (Clause.disjunctions (oneCellClauses true)) := by
      unfold Interpretation.Satisfies
      decide
    have hinside : oneCell.InsideInRange oneCellGrid (oneCellClauses true) K :=
      fun n _ _ htagged => hrange n.name htagged
    refine ⟨f, hf, K, hinside, (extendsTo_iff (apart_oneCell true) hmeaning hinside).mpr ?_⟩
    exact ⟨K, hrange, fun _ _ _ => ⟨rfl, rfl⟩, hsat⟩
  · intro K hK
    obtain ⟨l, hl, hreads⟩ := hK Node.origin (by decide) [⟨"E", true, some 1⟩] (by decide)
    rw [List.mem_singleton.mp hl] at hreads
    have hdead : oneCell.reads (fun _ => false) K Node.origin ⟨"E", true, some 1⟩ = false := by rfl
    rw [hdead] at hreads
    exact absurd hreads (by decide)

end Lattice

end CellSat
