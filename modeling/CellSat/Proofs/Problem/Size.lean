import Mathlib
import CellSat.Proofs.Cnf.Content
import CellSat.Proofs.Counter.Clauses
import CellSat.Proofs.Life.Names
/-!
# The size of an encoding

Formulas number the names that occur, and drop clauses that always hold or occur before. The rule of
Life is about every cell inside, and the clauses of a bound are about temporaries of its own. So a
bound on two cells or more adds its temporaries to the variables and all its clauses to the clauses.

* `Bound.clauses64_fresh`: the clauses of a bound differ and are about its own temporaries;
* `Encoder.Ready`, `Encoder.Grows`: encoders with all cells, and what bounds add to them;
* `Encoder.addBound_grows`, `Encoder.addBounds_grows`: one bound, and many of them;
* `Encoder.exists_addBounds_iff`: when bounds can be added;
* **`Encoder.life_sizes`**: the sizes of the formula of Life with bounds.
-/

namespace CellSat

open Temporary

/-! ## One bound -/

namespace Bound

variable {b : Bound} {lattice : Lattice} {grid : List Node} {issued issued' : Nat}
  {cs : List Clause}

/-- A bound on the cells of a generation that has two cells or more. -/
structure IsWide (b : Bound) (lattice : Lattice) (grid : List Node) : Prop where
  helper : b.helper = none
  two_le : 2 ≤ (lattice.layer grid b.generation).length

/-- The number of cells that may be dead fits in a machine word. -/
def Fits (b : Bound) (lattice : Lattice) (grid : List Node) : Prop :=
  b.comparator = .atLeast →
    Word.minInt64 ≤ (lattice.layer grid b.generation).length - b.size ∧
      (lattice.layer grid b.generation).length - b.size ≤ Word.maxInt64

/-- The number of temporaries that a bound takes, two for each adder. -/
def temporaries (b : Bound) (lattice : Lattice) (grid : List Node) : Nat :=
  2 * Network.adderCount (lattice.layer grid b.generation).length

theorem length_literals : (b.literals lattice grid).length =
    (lattice.layer grid b.generation).length := by
  rw [literals, List.length_map]

theorem takes_temporaries (issued : Nat) {literals : List Literal}
    (h : literals.length = (b.literals lattice grid).length) (limit : Int) :
    Word.Takes issued (issued + b.temporaries lattice grid) (Count.atMost32 issued literals limit)
      (Count.atMost issued literals limit) := by
  rw [temporaries, ← length_literals, ← h]
  exact Count.takes_atMost32 issued literals limit

theorem issued_of_clauses64 (h : b.clauses64 lattice grid issued = .ok (cs, issued')) :
    issued' = issued + b.temporaries lattice grid := by
  obtain ⟨literals, limit, -, rfl, hliterals⟩ := exists_atMost h
  have hlength : literals.length = (b.literals lattice grid).length := by
    rcases hliterals with ⟨rfl, -⟩ | ⟨rfl, -⟩
    · rfl
    · rw [List.length_map]
  rw [Count.temporaries_atMost, hlength, length_literals, temporaries]

theorem exists_clauses64_iff (hissued : issued ≤ Word.maxNat32) :
    (∃ r, b.clauses64 lattice grid issued = .ok r) ↔
      b.Fits lattice grid ∧ issued + b.temporaries lattice grid ≤ Word.maxNat32 := by
  have hcount : (∃ r, b.clauses64 lattice grid issued = .ok r) ↔
      ∃ c, b.comparator.count issued (b.literals lattice grid) b.size = .ok c := by
    constructor
    · rintro ⟨r, hr⟩
      obtain ⟨c, hc, -⟩ := bind_eq_ok.mp hr
      exact ⟨c, hc⟩
    · rintro ⟨c, hc⟩
      exact ⟨_, bind_eq_ok.mpr ⟨c, hc, rfl⟩⟩
  rw [hcount, Fits]
  cases b.comparator with
  | atMost =>
    have htakes := @takes_temporaries b lattice grid issued _ rfl b.size
    constructor
    · rintro ⟨c, hc⟩
      exact ⟨nofun, htakes.le_of_ok hissued hc⟩
    · rintro ⟨-, hroom⟩
      exact ⟨_, (htakes.eq_ite hissued).trans (if_pos hroom)⟩
  | atLeast =>
    have htakes := @takes_temporaries b lattice grid issued
      ((b.literals lattice grid).map Literal.negate) (List.length_map _)
    rw [← length_literals]
    constructor
    · rintro ⟨c, hc⟩
      obtain ⟨others, hothers, hc⟩ := bind_eq_ok.mp hc
      exact ⟨fun _ => Word.bounds_of_int64 hothers, (htakes others).le_of_ok hissued hc⟩
    · rintro ⟨hbounds, hroom⟩
      exact ⟨_, bind_eq_ok.mpr ⟨_, if_pos (hbounds rfl),
        ((htakes _).eq_ite hissued).trans (if_pos hroom)⟩⟩

section Wide

variable (hl : lattice.Proper) (hgrid : lattice.grid64 Node.origin = .ok grid)

include hl hgrid

theorem nodup_map_name_literals (hb : b.helper = none) :
    ((b.literals lattice grid).map Literal.name).Nodup := by
  rw [literals_eq lattice grid hb, List.map_map]
  refine List.Nodup.map_on (fun m hm n hn h => ?_) ((Lattice.nodup_of_grid64 hgrid).filter _)
  obtain ⟨hm, -, hmin⟩ := Lattice.mem_layer.mp hm
  obtain ⟨hn, -, hnin⟩ := Lattice.mem_layer.mp hn
  exact Lattice.eq_of_name_eq hl hgrid (Lattice.mem_inside.mpr ⟨hm, hmin⟩)
    (Lattice.mem_inside.mpr ⟨hn, hnin⟩) h

theorem distinct_literals (hb : b.helper = none) {literals : List Literal}
    (h : literals.map Literal.name = (b.literals lattice grid).map Literal.name) :
    Network.Distinct issued (Network.wiresAt 0 literals) := by
  have hmem : ∀ l ∈ literals, ∃ k ∈ b.literals lattice grid, k.name = l.name := fun l hl =>
    List.mem_map.mp (h ▸ List.mem_map_of_mem hl)
  refine Network.distinct_wiresAt (h ▸ nodup_map_name_literals hl hgrid hb) ?_ ?_
  · intro l hl
    obtain ⟨k, hk, hname⟩ := hmem l hl
    obtain ⟨n, -, start, rfl, -⟩ := mem_literals hk
    exact hname ▸ not_named_append_name start n
  · intro l hl
    obtain ⟨k, hk, hname⟩ := hmem l hl
    exact hname ▸ name_ne_zeroName hk

/-- **The clauses of a bound** may fail, differ, and are about its own temporaries. -/
theorem clauses64_fresh (hb : b.IsWide lattice grid)
    (h : b.clauses64 lattice grid issued = .ok (cs, issued')) :
    (∀ d ∈ Clause.disjunctions cs, Disjunction.isAlwaysTrue (Literal.toSet d) = false) ∧
      ((Clause.disjunctions cs).map Literal.toSet).Nodup ∧
      ∀ d ∈ Clause.disjunctions cs, ∃ l ∈ d, ∃ k, issued < k ∧ (literal k).name = l.name := by
  have hnames := (forall_clauses64 h).2
  obtain ⟨literals, limit, hclauses, -, hliterals⟩ := exists_atMost h
  have hmap : literals.map Literal.name = (b.literals lattice grid).map Literal.name := by
    rcases hliterals with ⟨rfl, -⟩ | ⟨rfl, -⟩
    · rfl
    · rw [List.map_map]
      rfl
  have htwo : 2 ≤ literals.length := by
    have hlength := congrArg List.length hmap
    rw [List.length_map, List.length_map, length_literals] at hlength
    exact hlength ▸ hb.two_le
  have hdistinct := @distinct_literals b lattice grid issued hl hgrid hb.helper literals hmap
  rw [hclauses] at hnames ⊢
  refine ⟨fun d => Count.isAlwaysTrue_of_mem htwo hdistinct, Count.nodup_clauses htwo hdistinct,
    fun d hd => ?_⟩
  obtain ⟨l, hl, hnamed⟩ := Count.exists_named_of_mem htwo hd
  rcases (hnames d hd l hl).2 with ⟨k, hk, hname⟩ | ⟨k, hk, -, hname⟩
  · obtain ⟨n, -, start, rfl, -⟩ := mem_literals hk
    rw [← hname] at hnamed
    exact absurd hnamed (not_named_append_name start n)
  · exact ⟨l, hl, k, hk, hname⟩

end Wide

end Bound

/-! ## Many bounds -/

namespace Encoder

variable {e e' e'' : Encoder} {b : Bound} {bs : List Bound}

/-- An encoder on a grid that has clauses about all cells inside, and about no temporary that is not
issued. -/
structure Ready (e : Encoder) : Prop where
  proper : e.lattice.Proper
  grid : e.lattice.grid64 Node.origin = .ok e.grid
  cells : ∀ n ∈ e.lattice.inside e.grid, n.name ∈ Clause.variableNames e.clauses
  issued : ∀ k, (literal k).name ∈ Clause.variableNames e.clauses → k ≤ e.issued

/-- An encoder with more clauses. They are about the temporaries that are issued in between, and
all of them are kept in formulas. -/
structure Grows (e e' : Encoder) : Prop where
  lattice : e'.lattice = e.lattice
  grid : e'.grid = e.grid
  issued : e.issued ≤ e'.issued
  boolean : Disjunction.Boolean (Clause.disjunctions e.clauses) →
    Disjunction.Boolean (Clause.disjunctions e'.clauses)
  names : ∀ name, name ∈ Clause.variableNames e'.clauses ↔
    name ∈ Clause.variableNames e.clauses ∨
      ∃ k, e.issued < k ∧ k ≤ e'.issued ∧ (literal k).name = name
  kept : (Disjunction.kept (Clause.disjunctions e'.clauses)).length +
      (Clause.disjunctions e.clauses).length =
    (Disjunction.kept (Clause.disjunctions e.clauses)).length +
      (Clause.disjunctions e'.clauses).length

theorem Grows.refl (e : Encoder) : e.Grows e where
  lattice := rfl
  grid := rfl
  issued := le_rfl
  boolean := id
  names name := (or_iff_left fun ⟨k, hk, hk', _⟩ => by omega).symm
  kept := rfl

theorem Grows.trans (h : e.Grows e') (h' : e'.Grows e'') : e.Grows e'' where
  lattice := h'.lattice.trans h.lattice
  grid := h'.grid.trans h.grid
  issued := h.issued.trans h'.issued
  boolean := h'.boolean ∘ h.boolean
  names name := by
    have hissued := h.issued
    have hissued' := h'.issued
    rw [h'.names, h.names, or_assoc]
    refine or_congr_right ⟨?_, ?_⟩
    · rintro (⟨k, hk, hk', hname⟩ | ⟨k, hk, hk', hname⟩)
      · exact ⟨k, hk, by omega, hname⟩
      · exact ⟨k, by omega, hk', hname⟩
    · rintro ⟨k, hk, hk', hname⟩
      rcases Nat.lt_or_ge e'.issued k with hlt | hle
      · exact .inr ⟨k, hlt, hk', hname⟩
      · exact .inl ⟨k, hk, hle, hname⟩
  kept := by
    have := h.kept
    have := h'.kept
    omega

theorem Ready.grows (he : e.Ready) (h : e.Grows e') : e'.Ready where
  proper := h.lattice ▸ he.proper
  grid := by rw [h.lattice, h.grid]; exact he.grid
  cells n hn := by
    rw [h.lattice, h.grid] at hn
    exact (h.names _).mpr (.inl (he.cells n hn))
  issued k hk := by
    rcases (h.names _).mp hk with hk | ⟨m, -, hm, hname⟩
    · exact (he.issued k hk).trans h.issued
    · exact name_injective hname ▸ hm

theorem mem_variableNames_append {cs cs' : List Clause} {name : String} :
    name ∈ Clause.variableNames (cs ++ cs') ↔
      name ∈ Clause.variableNames cs ∨ name ∈ Clause.variableNames cs' := by
  simp only [Clause.mem_variableNames, Clause.disjunctions_append, List.mem_append, or_and_right,
    exists_or]

/-- **One bound** adds its temporaries and all its clauses. -/
theorem addBound_grows (he : e.Ready) (hb : b.IsWide e.lattice e.grid) (h : e.addBound b = .ok e') :
    e.Grows e' := by
  obtain ⟨⟨cs, issued⟩, hcs, h⟩ := bind_eq_ok.mp h
  obtain rfl := Except.ok.inj h
  obtain ⟨hissued, hliterals⟩ := Bound.forall_clauses64 hcs
  obtain ⟨hfails, hnodup, hfresh⟩ := Bound.clauses64_fresh he.proper he.grid hb hcs
  refine ⟨rfl, rfl, hissued, fun hbool => ?_, fun name => ?_, ?_⟩
  · rw [Clause.disjunctions_append]
    exact List.forall_mem_append.mpr ⟨hbool, fun d hd l hl => (hliterals d hd l hl).1⟩
  · rw [mem_variableNames_append]
    constructor
    · refine fun hname => hname.elim .inl fun hname => ?_
      obtain ⟨d, hd, l, hl, rfl⟩ := Clause.mem_variableNames.mp hname
      refine (hliterals d hd l hl).2.imp ?_ id
      rintro ⟨k, hk, hname⟩
      rw [Bound.literals_eq _ _ hb.helper] at hk
      obtain ⟨n, hn, rfl⟩ := List.mem_map.mp hk
      obtain ⟨hn, -, hin⟩ := Lattice.mem_layer.mp hn
      exact hname ▸ he.cells n (Lattice.mem_inside.mpr ⟨hn, hin⟩)
    · refine Or.imp_right ?_
      rintro ⟨k, hk, hk', rfl⟩
      obtain ⟨d, hd, hl⟩ := Bound.exists_mem_clauses64 hcs hk hk'
      exact Clause.mem_variableNames.mpr ⟨d, hd, _, hl, rfl⟩
  · -- A clause of the bound is about a temporary that no clause before is about.
    have hnew : ∀ d ∈ Clause.disjunctions e.clauses, ∀ c ∈ Clause.disjunctions cs,
        Literal.toSet d ≠ Literal.toSet c := by
      intro d hd c hc heq
      obtain ⟨l, hl, k, hk, hname⟩ := hfresh c hc
      have hld : l ∈ d := by rwa [← Literal.mem_toSet, heq, Literal.mem_toSet]
      have := he.issued k (Clause.mem_variableNames.mpr ⟨d, hd, l, hld, hname.symm⟩)
      omega
    rw [Clause.disjunctions_append, Disjunction.kept_append hfails hnodup hnew]
    simp only [List.length_append, List.length_map]
    omega

/-- **Many bounds** do so as well. -/
theorem addBounds_grows (he : e.Ready) (hbs : ∀ b ∈ bs, b.IsWide e.lattice e.grid)
    (h : e.addBounds bs = .ok e') : e.Grows e' := by
  induction bs generalizing e with
  | nil =>
    obtain rfl := Except.ok.inj h
    exact .refl e
  | cons b bs ih =>
    obtain ⟨hb, hbs⟩ := List.forall_mem_cons.mp hbs
    obtain ⟨e₁, he₁, h⟩ := bind_eq_ok.mp h
    have hgrows := addBound_grows he hb he₁
    refine hgrows.trans (ih (he.grows hgrows) ?_ h)
    rwa [hgrows.lattice, hgrows.grid]

theorem addBound_eq_ok (h : e.addBound b = .ok e') :
    e'.lattice = e.lattice ∧ e'.grid = e.grid ∧
      e'.issued = e.issued + b.temporaries e.lattice e.grid := by
  obtain ⟨⟨cs, issued⟩, hcs, h⟩ := bind_eq_ok.mp h
  obtain rfl := Except.ok.inj h
  exact ⟨rfl, rfl, Bound.issued_of_clauses64 hcs⟩

theorem addBounds_eq_ok (h : e.addBounds bs = .ok e') :
    e'.grid = e.grid ∧
      e'.issued = e.issued + (bs.map fun b => b.temporaries e.lattice e.grid).sum := by
  induction bs generalizing e with
  | nil =>
    obtain rfl := Except.ok.inj h
    exact ⟨rfl, rfl⟩
  | cons b bs ih =>
    obtain ⟨e₁, he₁, h⟩ := bind_eq_ok.mp h
    obtain ⟨hlattice, hgrid, hissued⟩ := addBound_eq_ok he₁
    obtain ⟨hgrid', hissued'⟩ := ih h
    rw [hlattice, hgrid, hissued] at hissued'
    rw [List.map_cons, List.sum_cons]
    exact ⟨hgrid'.trans hgrid, by omega⟩

theorem exists_addBound_iff (he : e.issued ≤ Word.maxNat32) :
    (∃ e', e.addBound b = .ok e') ↔
      b.Fits e.lattice e.grid ∧ e.issued + b.temporaries e.lattice e.grid ≤ Word.maxNat32 := by
  rw [← Bound.exists_clauses64_iff he]
  constructor
  · rintro ⟨e', h⟩
    obtain ⟨r, hr, -⟩ := bind_eq_ok.mp h
    exact ⟨r, hr⟩
  · rintro ⟨⟨cs, issued⟩, hcs⟩
    exact ⟨_, bind_eq_ok.mpr ⟨_, hcs, rfl⟩⟩

theorem exists_addBounds_iff (he : e.issued ≤ Word.maxNat32) :
    (∃ e', e.addBounds bs = .ok e') ↔ (∀ b ∈ bs, b.Fits e.lattice e.grid) ∧
      e.issued + (bs.map fun b => b.temporaries e.lattice e.grid).sum ≤ Word.maxNat32 := by
  induction bs generalizing e with
  | nil => exact iff_of_true ⟨e, rfl⟩ ⟨by simp, by simpa using he⟩
  | cons b bs ih =>
    rw [List.forall_mem_cons, List.map_cons, List.sum_cons]
    constructor
    · rintro ⟨e', h⟩
      obtain ⟨e₁, he₁, h⟩ := bind_eq_ok.mp h
      obtain ⟨hb, hroom⟩ := (exists_addBound_iff he).mp ⟨e₁, he₁⟩
      obtain ⟨hlattice, hgrid, hissued⟩ := addBound_eq_ok he₁
      obtain ⟨hbs, hsum⟩ := (ih (hissued ▸ hroom)).mp ⟨e', h⟩
      rw [hlattice, hgrid] at hbs hsum
      exact ⟨⟨hb, hbs⟩, by omega⟩
    · rintro ⟨⟨hb, hbs⟩, hsum⟩
      obtain ⟨e₁, he₁⟩ := (exists_addBound_iff he).mpr ⟨hb, by omega⟩
      obtain ⟨hlattice, hgrid, hissued⟩ := addBound_eq_ok he₁
      have hrest := @ih e₁ (by omega)
      rw [hlattice, hgrid, hissued] at hrest
      obtain ⟨e', h⟩ := hrest.mpr ⟨hbs, by omega⟩
      exact ⟨e', bind_eq_ok.mpr ⟨e₁, he₁, h⟩⟩

/-! ## Sizes -/

/-- The number of variables, if they are known names and the first temporaries. -/
theorem length_variableNames {cs : List Clause} {base : List String} {issued : Nat}
    (hbase : base.Nodup) (hnamed : ∀ name ∈ base, ¬ Named name)
    (h : ∀ name, name ∈ Clause.variableNames cs ↔
      name ∈ base ∨ ∃ k, 0 < k ∧ k ≤ issued ∧ (literal k).name = name) :
    (Clause.variableNames cs).length = base.length + issued := by
  let temporaries := (List.range issued).map fun i => (literal (i + 1)).name
  have hmem : ∀ name, name ∈ temporaries ↔
      ∃ k, 0 < k ∧ k ≤ issued ∧ (literal k).name = name := by
    intro name
    rw [List.mem_map]
    constructor
    · rintro ⟨i, hi, rfl⟩
      exact ⟨i + 1, by omega, List.mem_range.mp hi, rfl⟩
    · rintro ⟨k, hk, hk', rfl⟩
      exact ⟨k - 1, List.mem_range.mpr (by omega), by rw [Nat.sub_add_cancel hk]⟩
  have htemporaries : temporaries.Nodup := List.nodup_range.map fun i j hij => by
    have := name_injective hij
    omega
  have hnodup : (base ++ temporaries).Nodup := by
    refine List.nodup_append'.mpr ⟨hbase, htemporaries, fun name hname htemporary => ?_⟩
    obtain ⟨k, -, -, hk⟩ := (hmem name).mp htemporary
    exact hnamed name hname ⟨k, hk⟩
  have hnames : (Clause.variableNames cs).Nodup := nodup_sortedSet _
  have hperm : (Clause.variableNames cs).Perm (base ++ temporaries) :=
    (List.perm_ext_iff_of_nodup hnames hnodup).mpr fun name => by rw [h, List.mem_append, hmem]
  rw [hperm.length_eq, List.length_append, List.length_map, List.length_range]

theorem countDisjunctions_eq (cs : List Clause) :
    Clause.countDisjunctions cs = (Clause.disjunctions cs).length := by
  induction cs with
  | nil => rfl
  | cons c cs ih =>
    rw [Clause.countDisjunctions] at ih ⊢
    cases c with
    | comment text => rw [List.countP_cons_of_neg (by simp [Clause.isComment]), ih]; rfl
    | disjunction d =>
      rw [List.countP_cons_of_pos (by simp [Clause.isComment]), ih,
        Clause.disjunctions_disjunction, List.length_cons]

/-- An encoder without temporaries, which is about all cells inside, and about the false wire if
there are cells outside. -/
structure CellsOnly (e : Encoder) : Prop where
  proper : e.lattice.Proper
  grid : e.lattice.grid64 Node.origin = .ok e.grid
  issued : e.issued = 0
  boolean : Disjunction.Boolean (Clause.disjunctions e.clauses)
  names : ∀ name, name ∈ Clause.variableNames e.clauses ↔
    name ∈ (e.lattice.inside e.grid).map Node.name ∨
      e.lattice.folding.IsOpen ∧ name = Literal.zeroName

theorem not_named_of_mem_inside {lattice : Lattice} {grid : List Node} {name : String}
    (h : name ∈ (lattice.inside grid).map Node.name) : ¬ Named name := by
  obtain ⟨n, -, rfl⟩ := List.mem_map.mp h
  have hnot := not_named_append_name "" n
  rwa [String.empty_append] at hnot

theorem zeroName_not_mem_inside {lattice : Lattice} {grid : List Node} :
    Literal.zeroName ∉ (lattice.inside grid).map Node.name := by
  intro hzero
  obtain ⟨n, -, hname⟩ := List.mem_map.mp hzero
  exact Lattice.name_ne_zeroName n hname

namespace CellsOnly

theorem ready (h : e.CellsOnly) : e.Ready where
  proper := h.proper
  grid := h.grid
  cells n hn := (h.names _).mpr (.inl (List.mem_map_of_mem hn))
  issued k hk := by
    rcases (h.names _).mp hk with hk | ⟨-, hk⟩
    · exact absurd ⟨k, rfl⟩ (not_named_of_mem_inside hk)
    · exact absurd ⟨k, hk⟩ not_named_zeroName

theorem length_of_closed (h : e.CellsOnly) (hgrows : e.Grows e')
    (hclosed : ¬ e.lattice.folding.IsOpen) :
    (Clause.variableNames e'.clauses).length = e'.grid.length + e'.issued := by
  have hlength := @length_variableNames e'.clauses _ e'.issued
    (Lattice.nodup_map_name h.proper h.grid) (fun name => not_named_of_mem_inside) fun name => by
      simp only [hgrows.names, h.names, h.issued, hclosed, false_and, or_false]
  rwa [List.length_map, Lattice.inside_of_closed hclosed, ← hgrows.grid] at hlength

theorem length_of_open (h : e.CellsOnly) (hgrows : e.Grows e') (hopen : e.lattice.folding.IsOpen) :
    (Clause.variableNames e'.clauses).length =
      (e'.lattice.inside e'.grid).length + e'.issued + 1 := by
  have hlength := @length_variableNames e'.clauses
    (Literal.zeroName :: (e.lattice.inside e.grid).map Node.name) e'.issued
    (List.nodup_cons.mpr ⟨zeroName_not_mem_inside, Lattice.nodup_map_name h.proper h.grid⟩)
    (List.forall_mem_cons.mpr ⟨not_named_zeroName, fun name => not_named_of_mem_inside⟩)
    fun name => by
      rw [hgrows.names, h.names, h.issued, and_iff_right hopen, List.mem_cons,
        @or_comm (name = Literal.zeroName)]
  rw [List.length_cons, List.length_map] at hlength
  rw [hlength, hgrows.lattice, hgrows.grid]
  omega

/-- Formulas count the variables and keep all clauses that were added. -/
theorem compile_grows (h : e.CellsOnly) (hgrows : e.Grows e')
    (hsize : (Clause.variableNames e'.clauses).length < 2 ^ 31) :
    ∃ f f', e.compile = .ok f ∧ e'.compile = .ok f' ∧
      f'.variableCount = (Clause.variableNames e'.clauses).length ∧
      f'.clauseCount + (Clause.disjunctions e.clauses).length =
        f.clauseCount + (Clause.disjunctions e'.clauses).length := by
  have hes := Clause.expandTags_of_boolean h.boolean
  have hes' := Clause.expandTags_of_boolean (hgrows.boolean h.boolean)
  have hle : (Clause.variableNames e.clauses).length ≤ (Clause.variableNames e'.clauses).length :=
    ((nodup_sortedSet _).subperm fun name hname => (hgrows.names name).mpr (.inl hname)).length_le
  obtain ⟨-, f, hf⟩ := (Formula.compile_cases hes).resolve_right fun hlarge => by omega
  obtain ⟨-, f', hf'⟩ := (Formula.compile_cases hes').resolve_right fun hlarge => by omega
  refine ⟨f, f', hf, hf', Formula.variableCount_of_compile hf' hes', ?_⟩
  rw [Formula.clauseCount_of_compile hf hes, Formula.clauseCount_of_compile hf' hes']
  exact hgrows.kept

end CellsOnly

/-- **Sizes add up.** Bounds need limits that fit and numbers for their temporaries. -/
theorem life_sizes {lattice : Lattice} (hl : lattice.Steady) {e : Encoder}
    (he : ofLattice lattice = .ok e) (consequent : Option String) (turn : Turn) :
    ∃ template e₁, lifeTemplate = .ok template ∧
      e.addRule template .totalistic consequent turn = .ok e₁ ∧
      ∀ bs : List Bound, (∀ b ∈ bs, b.IsWide lattice e.grid) →
        let temporaries := (bs.map fun b => b.temporaries lattice e.grid).sum
        ((∃ e₂, e₁.addBounds bs = .ok e₂) ↔
          (∀ b ∈ bs, b.Fits lattice e.grid) ∧ temporaries ≤ Word.maxNat32) ∧
        ∀ e₂, e₁.addBounds bs = .ok e₂ →
          e₂.grid = e.grid ∧ e₂.statistics.temporaryVariables = temporaries ∧ ∃ size,
          (¬ lattice.folding.IsOpen →
            size = e₂.statistics.gridNodes + e₂.statistics.temporaryVariables) ∧
          (lattice.folding.IsOpen →
            size = (lattice.inside e₂.grid).length + e₂.statistics.temporaryVariables + 1) ∧
          (2 ^ 31 ≤ size → e₂.compile = .error (.fault .overflow)) ∧
          (size < 2 ^ 31 → ∃ f₁ f₂, e₁.compile = .ok f₁ ∧ e₂.compile = .ok f₂ ∧
            f₂.variableCount = size ∧
            f₂.clauseCount + e₁.statistics.symbolicClauses =
              f₁.clauseCount + e₂.statistics.symbolicClauses) := by
  obtain ⟨template, e₁, htemplate, hrule, rfl, hgrid, hissued, hgrid64, hboolean, hnames⟩ :=
    exists_addRule_life hl he consequent turn
  rw [← hgrid] at hgrid64 hnames
  have hcells : e₁.CellsOnly := ⟨hl.toProper, hgrid64, hissued, hboolean, hnames⟩
  refine ⟨template, e₁, htemplate, hrule, fun bs hbs => ?_⟩
  rw [← hgrid] at hbs ⊢
  intro temporaries
  have hexists := @exists_addBounds_iff e₁ bs (by rw [hissued]; exact Nat.zero_le _)
  rw [hissued, Nat.zero_add] at hexists
  refine ⟨hexists, fun e₂ he₂ => ?_⟩
  have hgrows := addBounds_grows hcells.ready hbs he₂
  obtain ⟨hgrid₂, hissued₂⟩ := addBounds_eq_ok he₂
  rw [hissued, Nat.zero_add] at hissued₂
  refine ⟨hgrid₂, hissued₂, (Clause.variableNames e₂.clauses).length,
    hcells.length_of_closed hgrows,
    fun hopen => hgrows.lattice ▸ hcells.length_of_open hgrows hopen,
    fun hlarge => ?_, fun hsmall => ?_⟩
  · have hes := Clause.expandTags_of_boolean (hgrows.boolean hboolean)
    exact ((Formula.compile_cases hes).resolve_left fun hsmall => by omega).2
  · obtain ⟨f₁, f₂, hf₁, hf₂, hvariables, hclauses⟩ := hcells.compile_grows hgrows hsmall
    refine ⟨f₁, f₂, hf₁, hf₂, hvariables, ?_⟩
    simpa only [statistics, countDisjunctions_eq] using hclauses

/-- Two cells, two temporaries for each bound, and the false wire. -/
theorem life_sizes_strip :
    let lattice : Lattice := ⟨.strip 1 2, ⟨1, 0, 0⟩⟩
    let bs : List Bound := [⟨.atMost, -1, 0, none⟩, ⟨.atLeast, 1, 0, none⟩]
    lattice.Steady ∧ ∃ e template e₁ e₂ f₁ f₂, ofLattice lattice = .ok e ∧
      lifeTemplate = .ok template ∧ e.addRule template .totalistic none .fixed = .ok e₁ ∧
      (∀ b ∈ bs, b.IsWide lattice e.grid) ∧ e₁.addBounds bs = .ok e₂ ∧
      e₁.compile = .ok f₁ ∧ e₂.compile = .ok f₂ ∧ f₂.variableCount = 7 ∧
      f₂.clauseCount + e₁.statistics.symbolicClauses =
        f₁.clauseCount + e₂.statistics.symbolicClauses := by
  intro lattice bs
  have hl : lattice.Steady := ⟨⟨⟨by decide, by decide⟩, by decide⟩, fun _ => ⟨rfl, rfl⟩⟩
  obtain ⟨grid, hgrid⟩ := Lattice.exists_grid64 hl.toProper
    ⟨⟨by decide, by decide, fun m n s h => by cases h⟩, by decide, by decide, by decide⟩
  let nodes : List Node := [⟨⟨-1, 0⟩, 0, 0⟩, ⟨⟨-1, 1⟩, 0, 0⟩, ⟨⟨0, 0⟩, 0, 0⟩, ⟨⟨0, 1⟩, 0, 0⟩,
    ⟨⟨1, 0⟩, 0, 0⟩, ⟨⟨1, 1⟩, 0, 0⟩]
  have hnodes : grid = nodes := by
    refine Lattice.eq_of_grid64 hl hgrid ?_ fun n => ?_
    · simp [nodes, Node.position, Prod.lex_def]
    · show n ∈ nodes ↔ n.orientation = 0 ∧ 0 ≤ n.generation ∧ n.generation < 1 ∧
        -1 ≤ n.cell.row ∧ n.cell.row ≤ 1 ∧ 0 ≤ n.cell.column ∧ n.cell.column < 2
      obtain ⟨⟨i, j⟩, t, orientation⟩ := n
      simp only [nodes, List.mem_cons, Node.mk.injEq, Cell.mk.injEq, List.not_mem_nil, or_false]
      omega
  subst hnodes
  have he : ofLattice lattice = .ok { lattice, grid := nodes } := bind_eq_ok.mpr ⟨_, hgrid, rfl⟩
  have hwide : ∀ b ∈ bs, b.IsWide lattice nodes := by
    simp only [bs, List.forall_mem_cons]
    exact ⟨⟨rfl, by decide⟩, ⟨rfl, by decide⟩, by simp⟩
  have hfits : ∀ b ∈ bs, b.Fits lattice nodes := by
    simp only [bs, List.forall_mem_cons, Bound.Fits]
    exact ⟨by simp, fun _ => by decide, by simp⟩
  have htemporaries : (bs.map fun b => b.temporaries lattice nodes).sum = 4 := by decide +kernel
  obtain ⟨template, e₁, htemplate, hrule, hsizes⟩ := life_sizes hl he none .fixed
  obtain ⟨hexists, hsizes⟩ := hsizes bs hwide
  obtain ⟨e₂, he₂⟩ := hexists.mpr ⟨hfits, by rw [htemporaries]; decide⟩
  obtain ⟨hgrid₂, hissued₂, size, -, hopen, -, hcompile⟩ := hsizes e₂ he₂
  have hinside : (lattice.inside nodes).length = 2 := by decide
  have hsize : size = 7 := by rw [hopen trivial, hgrid₂, hissued₂, htemporaries, hinside]
  obtain ⟨f₁, f₂, hf₁, hf₂, hvariables, hclauses⟩ := hcompile (by rw [hsize]; decide)
  exact ⟨hl, _, template, e₁, e₂, f₁, f₂, he, htemplate, hrule, hwide, he₂, hf₁, hf₂,
    hvariables.trans hsize, hclauses⟩

/-- No machine word says how many cells may be dead if at least the least word live. -/
theorem addBound_overflows_of_least_size :
    let lattice : Lattice := ⟨.torus 1 2 0, ⟨1, 0, 0⟩⟩
    let b : Bound := ⟨.atLeast, Word.minInt64, 0, none⟩
    lattice.Steady ∧ ∃ e template e₁, ofLattice lattice = .ok e ∧ lifeTemplate = .ok template ∧
      e.addRule template .totalistic none .fixed = .ok e₁ ∧ b.IsWide lattice e.grid ∧
      e₁.addBound b = .error .overflow := by
  intro lattice b
  have hl : lattice.Steady := ⟨⟨⟨by decide, by decide⟩, by decide⟩, fun _ => ⟨rfl, rfl⟩⟩
  obtain ⟨grid, hgrid⟩ := Lattice.exists_grid64 hl.toProper
    ⟨⟨by decide, by decide, fun m n s h => by cases h; decide⟩, by decide, by decide, by decide⟩
  have he : ofLattice lattice = .ok { lattice, grid } := bind_eq_ok.mpr ⟨grid, hgrid, rfl⟩
  have hinner : ∀ p ∈ [⟨0, 0⟩, ⟨0, 1⟩], lattice.Inner p := by
    intro p hp
    rcases List.mem_pair.mp hp with rfl | rfl <;> exact ⟨⟨by decide, by decide⟩, by decide⟩
  have hlayer : 2 ≤ (lattice.layer grid 0).length :=
    Lattice.length_le_layer hl.toProper hgrid (by decide) hinner le_rfl (by decide)
  obtain ⟨template, e₁, htemplate, hrule, hlattice, hgrid₁, -⟩ :=
    exists_addRule_life hl he none .fixed
  refine ⟨hl, _, template, e₁, he, htemplate, hrule, ⟨rfl, hlayer⟩, ?_⟩
  have hothers : Word.sub (b.literals e₁.lattice e₁.grid).length b.size = .error .overflow := by
    rw [Word.sub, Word.int64, if_neg]
    simp only [Word.minInt64, Word.maxInt64, b]
    omega
  have hcount : b.comparator.count e₁.issued (b.literals e₁.lattice e₁.grid) b.size =
      .error .overflow := bind_eq_error.mpr (.inl hothers)
  exact bind_eq_error.mpr (.inl (bind_eq_error.mpr (.inl hcount)))

end Encoder

end CellSat
