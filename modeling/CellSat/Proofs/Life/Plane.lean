import Mathlib
import CellSat.Proofs.Grid.Room
import CellSat.Proofs.Life.Rule
import CellSat.Proofs.Template.Inflate
/-!
# Life on the unfolded plane

An assignment of the variables of a lattice is a pattern on the whole plane at all times: each cell
has the value of its representative, and after each period the pattern reappears, shifted. The
clauses of the rule of Life, one neighbourhood for each node of the grid, hold exactly for the
patterns that follow this rule everywhere and at all times.

* `Lattice.pattern`: the pattern of an assignment;
* `Lattice.Evolves`, `Lattice.Follows`: the rule on the plane, and at one cell and generation;
* `Lattice.follows_fold_iff`: the rule at a cell is the rule at its representative;
* `Lattice.evolves_iff`: the rule on the plane is the rule in one period;
* **`Encoder.satisfies_life_iff`**: the encoded rule means Life on the plane.
-/

namespace CellSat

/-- How far the pattern is shifted by the periods that have passed at a time. -/
def Clock.drift (c : Clock) (t : Nat) : Cell :=
  ⟨(t : Int) / c.period * c.rowShift, (t : Int) / c.period * c.columnShift⟩

namespace Lattice

variable {lattice : Lattice} {I : Interpretation} {n : Node} {p q : Cell} {t : Int}

/-! ## Patterns -/

/-- The value of a node under an assignment. Outside nothing lives. -/
def value (lattice : Lattice) (I : Interpretation) (n : Node) : Bool :=
  !lattice.isOutside n && I.truth n.name

/-- The pattern of an assignment: the value of a cell of the plane at a time. -/
def pattern (lattice : Lattice) (I : Interpretation) (p : Cell) (t : Nat) : Bool :=
  lattice.value I (lattice.node (p.shift (lattice.clock.drift t)) (t % lattice.clock.period))

/-- At all times each cell of the plane becomes what its neighbours make of it. -/
def Evolves (lattice : Lattice) (I : Interpretation) : Prop :=
  ∀ (p : Cell) (t : Nat), lattice.pattern I p (t + 1) = Life.successor (lattice.pattern I p t)
    (Cell.around.countP fun d => lattice.pattern I (p.shift d) t)

theorem truth_target (hzero : I.truth Literal.zeroName = false) (n : Node) :
    I.truth (lattice.target n).name = lattice.value I n := by
  rw [target, value]
  by_cases h : lattice.isOutside n = true
  · simp [h, hzero]
  · simp [h]

theorem value_node_congr (h : (lattice.folding.fold p).cell = (lattice.folding.fold q).cell) :
    lattice.value I (lattice.node p t) = lattice.value I (lattice.node q t) := by
  simp only [value, isOutside, node, Node.name, h]

/-- The cell lives in the next generation if the rule says so. -/
def Follows (lattice : Lattice) (I : Interpretation) (p : Cell) (t : Int) : Prop :=
  lattice.value I (lattice.next ⟨p, t, 0⟩) = Life.successor (lattice.value I (lattice.node p t))
    (Cell.around.countP fun d => lattice.value I (lattice.node (p.shift d) t))

/-! ## Representatives follow for their cells -/

theorem value_fold (hl : lattice.Regular) (p : Cell) (t : Int) :
    lattice.value I (lattice.node (lattice.folding.fold p).cell t) =
      lattice.value I (lattice.node p t) := by
  refine value_node_congr ?_
  rw [Folding.fold_fold hl.positive.sized]

theorem countP_fold (hl : lattice.Regular) (p : Cell) (t : Int) :
    (Cell.around.countP fun d =>
        lattice.value I (lattice.node ((lattice.folding.fold p).cell.shift d) t)) =
      Cell.around.countP fun d => lattice.value I (lattice.node (p.shift d) t) := by
  let living : Cell → Bool := fun q => lattice.value I (lattice.node q t)
  have hliving : ∀ q, living (lattice.folding.fold q).cell = living q := fun q => value_fold hl q t
  have hperm := (Folding.perm_fold_shift hl.positive.sized p).countP_eq living
  rw [hl.positive.steps_eq, List.countP_map, List.countP_map] at hperm
  simpa only [Function.comp_def, hliving] using hperm

theorem next_eq_node (p : Cell) (t : Int) : lattice.next ⟨p, t, 0⟩ =
    if t + 1 = lattice.clock.period then
      lattice.node (p.shift ⟨lattice.clock.rowShift, lattice.clock.columnShift⟩) 0
    else lattice.node p (t + 1) :=
  next_eq lattice ⟨p, t, 0⟩

theorem fold_shift_clock (hl : lattice.Regular) (p : Cell) :
    (lattice.folding.fold ((lattice.folding.fold p).cell.shift
        ⟨lattice.clock.rowShift, lattice.clock.columnShift⟩)).cell =
      (lattice.folding.fold (p.shift
        ⟨lattice.clock.rowShift, lattice.clock.columnShift⟩)).cell := by
  by_cases htorus : lattice.folding.IsTorus
  · refine Folding.fold_shift_fold hl.positive.sized (fun t ht => ?_) p _
    rw [ht] at htorus
    exact htorus
  · obtain ⟨hrow, hcolumn⟩ := hl.still htorus
    rw [hrow, hcolumn, Cell.shift_zero, Cell.shift_zero, Folding.fold_fold hl.positive.sized]

theorem value_next_fold (hl : lattice.Regular) (p : Cell) (t : Int) :
    lattice.value I (lattice.next ⟨(lattice.folding.fold p).cell, t, 0⟩) =
      lattice.value I (lattice.next ⟨p, t, 0⟩) := by
  rw [next_eq_node, next_eq_node]
  split_ifs
  · exact value_node_congr (fold_shift_clock hl p)
  · exact value_fold hl p (t + 1)

/-- **The rule at a cell is the rule at its representative.** -/
theorem follows_fold_iff (hl : lattice.Regular) (p : Cell) (t : Int) :
    lattice.Follows I (lattice.folding.fold p).cell t ↔ lattice.Follows I p t := by
  rw [Follows, Follows, value_next_fold hl, value_fold hl, countP_fold hl]

/-! ## Nodes of the grid -/

theorem follows_of_not_placed (hl : lattice.Regular) (hp : lattice.folding.IsRepresentative p)
    (ht : 0 ≤ t) (ht' : t < lattice.clock.period) (h : ¬ lattice.Placed ⟨p, t, 0⟩) :
    lattice.Follows I p t := by
  have hbelongs : ¬ lattice.Belongs ⟨p, t, 0⟩ := fun hb => h ⟨hp, ht, ht', hb⟩
  rw [Belongs, not_and, Classical.not_imp, not_exists] at hbelongs
  obtain ⟨hout, hall⟩ := hbelongs rfl
  have hdead : ∀ m ∈ lattice.neighbors ⟨p, t, 0⟩, lattice.value I m = false := by
    intro m hm
    have := hall m
    simp_all [value]
  have hnode : lattice.value I (lattice.node p t) = false := by
    rw [node_of_isRepresentative hl.proper hp, value, hout]
    rfl
  have hcount : (Cell.around.countP fun d => lattice.value I (lattice.node (p.shift d) t)) = 0 := by
    refine List.countP_eq_zero.mpr fun d hd => ?_
    rw [hdead _ (mem_neighbors.mpr (.inl ⟨d, hd, rfl⟩))]
    exact Bool.false_ne_true
  rw [Follows, hnode, hcount, hdead _ (mem_neighbors.mpr (.inr rfl))]
  rfl

/-- The rule holds everywhere if it holds at the nodes in their places. -/
theorem forall_follows_iff (hl : lattice.Regular) :
    (∀ p t, 0 ≤ t → t < lattice.clock.period → lattice.Follows I p t) ↔
      ∀ n, lattice.Placed n → lattice.Follows I n.cell n.generation := by
  constructor
  · exact fun h n hn => h n.cell n.generation hn.generation_nonneg hn.generation_lt
  · intro h p t ht ht'
    rw [← follows_fold_iff hl]
    have hrep := Folding.isRepresentative_fold hl.positive.sized p
    by_cases hplaced : lattice.Placed ⟨(lattice.folding.fold p).cell, t, 0⟩
    · exact h ⟨(lattice.folding.fold p).cell, t, 0⟩ hplaced
    · exact follows_of_not_placed hl hrep ht ht' hplaced

/-! ## All times -/

theorem shift_comm (p d v : Cell) : (p.shift d).shift v = (p.shift v).shift d := by
  simp only [Cell.shift, Cell.mk.injEq]
  omega

theorem pattern_succ (hl : lattice.Regular) (p : Cell) (t : Nat) :
    lattice.pattern I p (t + 1) = lattice.value I
      (lattice.next ⟨p.shift (lattice.clock.drift t), t % lattice.clock.period, 0⟩) := by
  have hperiod := hl.period_pos
  have hmod := Int.emod_add_mul_ediv t lattice.clock.period
  have h₀ := Int.emod_nonneg t hperiod.ne'
  have h₁ := Int.emod_lt_of_pos t hperiod
  rw [next_eq_node, pattern]
  split_ifs with hend
  · obtain ⟨hdiv, hrest⟩ : ((t + 1 : Nat) : Int) / lattice.clock.period =
        t / lattice.clock.period + 1 ∧ ((t + 1 : Nat) : Int) % lattice.clock.period = 0 := by
      refine ediv_emod_of_eq ?_ le_rfl hperiod
      push_cast
      linear_combination hend - hmod
    have hshift : (p.shift (lattice.clock.drift t)).shift
        ⟨lattice.clock.rowShift, lattice.clock.columnShift⟩ =
        p.shift (lattice.clock.drift (t + 1)) := by
      simp only [Clock.drift, hdiv, Cell.shift, Cell.mk.injEq]
      constructor <;> ring
    rw [hrest, hshift]
  · obtain ⟨hdiv, hrest⟩ : ((t + 1 : Nat) : Int) / lattice.clock.period =
        t / lattice.clock.period ∧
        ((t + 1 : Nat) : Int) % lattice.clock.period = t % lattice.clock.period + 1 := by
      refine ediv_emod_of_eq ?_ (by omega) (by omega)
      push_cast
      linear_combination -hmod
    have hdrift : lattice.clock.drift (t + 1) = lattice.clock.drift t := by
      simp only [Clock.drift, hdiv]
    rw [hrest, hdrift]

/-- The rule at a cell of the plane at a time is that of one period. -/
theorem pattern_follows_iff (hl : lattice.Regular) (p : Cell) (t : Nat) :
    lattice.pattern I p (t + 1) = Life.successor (lattice.pattern I p t)
        (Cell.around.countP fun d => lattice.pattern I (p.shift d) t) ↔
      lattice.Follows I (p.shift (lattice.clock.drift t)) (t % lattice.clock.period) := by
  rw [pattern_succ hl, Follows]
  simp only [pattern, shift_comm p]

/-- **The rule on the plane** at all times is the rule in one period. -/
theorem evolves_iff (hl : lattice.Regular) : lattice.Evolves I ↔
    ∀ p t, 0 ≤ t → t < lattice.clock.period → lattice.Follows I p t := by
  simp only [Evolves, pattern_follows_iff hl]
  constructor
  · intro h p t ht ht'
    obtain ⟨k, rfl⟩ := Int.eq_ofNat_of_zero_le ht
    have hzero : lattice.clock.drift k = ⟨0, 0⟩ := by
      simp [Clock.drift, ediv_emod_of_lt ht ht']
    have hfollows := h p k
    rw [hzero, (ediv_emod_of_lt ht ht').2] at hfollows
    simpa [Cell.shift] using hfollows
  · intro h p t
    exact h _ _ (Int.emod_nonneg t hl.period_pos.ne') (Int.emod_lt_of_pos t hl.period_pos)

/-! ## The clauses at a node -/

theorem neighbor?_compass (n : Node) (i : Fin 8) : lattice.neighbor? (Symbol.compass i) n =
    some (lattice.node (n.cell.shift (Cell.around.get i)) n.generation) := by
  fin_cases i <;> rfl

theorem compass_mem_neighbors : ∀ i, Symbol.compass i ∈ Symbol.neighbors := by decide

theorem exists_substitution {l : List Node} (h : lattice.neighbors64 n = .ok l)
    (template : List Clause) :
    ∃ s, lattice.substitution64 (Template.helpers template) n = .ok s ∧
      s.naming Symbol.center = (lattice.target n).name ∧
      s.naming Symbol.next = (lattice.target (lattice.next n)).name ∧
      ∀ i, s.naming (Symbol.compass i) = (lattice.target
        (lattice.node (n.cell.shift (Cell.around.get i)) n.generation)).name := by
  obtain ⟨s, hs, hcenter, hneighbors⟩ := substitution64_eq_ok h
    (not_mem_helpers List.mem_cons_self template)
    (fun symbol hsymbol => not_mem_helpers (List.mem_cons_of_mem _ hsymbol) template)
  refine ⟨s, hs, hcenter, hneighbors Symbol.next (by decide) (lattice.next n) rfl, fun i => ?_⟩
  exact hneighbors _ (compass_mem_neighbors i) _ (neighbor?_compass n i)

theorem count_around (f : Cell → Bool) :
    Life.count (fun i => f (Cell.around.get i)) = Cell.around.countP f := by
  have hlist : (List.ofFn fun i : Fin 8 => f (Cell.around.get i)) = Cell.around.map f := rfl
  rw [Life.count, hlist, List.count_eq_countP, List.countP_map]
  exact List.countP_congr fun d _ => by simp

/-- A template that means the rule says at a node of the grid that its cell follows the rule. -/
theorem satisfies_along_naming_iff (hl : lattice.Regular) (hn : lattice.Placed n) {l : List Node}
    (hneighbors : lattice.neighbors64 n = .ok l) (hzero : I.truth Literal.zeroName = false)
    {template : List Clause}
    (hlife : ∀ J : Interpretation, J.Satisfies (Clause.disjunctions template) ↔
      J.truth Symbol.next = Life.successor (J.truth Symbol.center)
        (Life.count fun i => J.truth (Symbol.compass i)))
    {s : Substitution} (hs : lattice.substitution64 (Template.helpers template) n = .ok s) :
    (I.along s.naming).Satisfies (Clause.disjunctions template) ↔
      lattice.Follows I n.cell n.generation := by
  obtain ⟨s', hs', hcenter, hnext, hcompass⟩ := exists_substitution hneighbors template
  obtain rfl : s' = s := Except.ok.inj (hs'.symm.trans hs)
  have hnode : n = ⟨n.cell, n.generation, 0⟩ := by rw [← hn.belongs.1]
  have hcount := count_around fun d => lattice.value I (lattice.node (n.cell.shift d) n.generation)
  rw [hlife, Follows, node_of_isRepresentative hl.proper hn.isRepresentative, ← hnode, ← hcount]
  simp only [Interpretation.along, hcenter, hnext, hcompass, truth_target hzero]

end Lattice

/-! ## The encoder -/

namespace Encoder

theorem addRule_eq_ok {e : Encoder} {template expanded clauses : List Clause} {basis : Basis}
    {consequent : Option String} {turn : Turn}
    (hexpanded : Clause.expandSymmetry basis.generators template = .ok expanded)
    (hclauses : Template.inflateGrid64 e.lattice e.grid expanded
      (some (consequent.getD Symbol.next)) turn = .ok clauses) :
    e.addRule template basis consequent turn = .ok { e with
      ruleLines := e.ruleLines + Clause.countDisjunctions expanded
      clauses := e.clauses ++ clauses } := by
  rw [addRule, hexpanded]
  change (Checked.toResult (Template.inflateGrid64 e.lattice e.grid expanded
    (some (consequent.getD Symbol.next)) turn) >>= _) = _
  rw [hclauses]
  rfl

theorem exists_addRule {e : Encoder} {template expanded clauses : List Clause} {basis : Basis}
    {consequent : Option String} {turn : Turn}
    (hexpanded : Clause.expandSymmetry basis.generators template = .ok expanded)
    (hclauses : Template.inflateGrid64 e.lattice e.grid expanded
      (some (consequent.getD Symbol.next)) turn = .ok clauses) :
    ∃ e', e.addRule template basis consequent turn = .ok e' ∧
      e'.clauses = e.clauses ++ clauses :=
  ⟨_, addRule_eq_ok hexpanded hclauses, rfl⟩

theorem exists_ofLattice {lattice : Lattice} (hl : lattice.Regular) (hs : lattice.Small) :
    ∃ e, Encoder.ofLattice lattice = .ok e := by
  obtain ⟨grid, hgrid⟩ := Lattice.exists_grid64 hl.proper hs
  refine ⟨{ lattice, grid }, ?_⟩
  rw [ofLattice, hgrid]
  rfl

/-- **Life on the plane.** The clauses say that the pattern follows the rule everywhere, always. -/
theorem satisfies_life_iff {lattice : Lattice} (hl : lattice.Regular) {e : Encoder}
    (he : Encoder.ofLattice lattice = .ok e) (consequent : Option String) (turn : Turn) :
    ∃ template e', lifeTemplate = .ok template ∧
      e.addRule template .totalistic consequent turn = .ok e' ∧
      ∀ I : Interpretation, I.truth Literal.zeroName = false →
        (I.Satisfies (Clause.disjunctions e'.clauses) ↔ lattice.Evolves I) := by
  obtain ⟨grid, hgrid, he⟩ := bind_eq_ok.mp he
  obtain rfl : { lattice, grid } = e := Except.ok.inj he
  obtain ⟨hmem, hneighbors⟩ := Lattice.mem_grid_iff hl hgrid
  obtain ⟨template, expanded, htemplate, hexpanded, hboolean, hlife⟩ := Life.exists_expanded
  have hsubstitution : ∀ n ∈ grid,
      ∃ s, lattice.substitution64 (Template.helpers expanded) n = .ok s := by
    intro n hn
    obtain ⟨l, hl⟩ := hneighbors n hn
    obtain ⟨s, hs, -⟩ := Lattice.exists_substitution hl expanded
    exact ⟨s, hs⟩
  obtain ⟨clauses, hclauses, hinflated⟩ := Template.inflateGrid64_eq_ok hboolean hsubstitution
    (some (consequent.getD Symbol.next)) turn
  obtain ⟨e', he', hadded⟩ := @exists_addRule { lattice, grid } _ _ _ _ _ _ hexpanded hclauses
  refine ⟨template, e', htemplate, he', fun I hzero => ?_⟩
  have hnode : ∀ n ∈ grid, ((∀ s, lattice.substitution64 (Template.helpers expanded) n = .ok s →
      (I.along s.naming).Satisfies (Clause.disjunctions expanded)) ↔
      lattice.Follows I n.cell n.generation) := by
    intro n hn
    obtain ⟨l, hneighbors⟩ := hneighbors n hn
    obtain ⟨s, hs⟩ := hsubstitution n hn
    have hiff := fun s hs => @Lattice.satisfies_along_naming_iff lattice I n hl ((hmem n).mp hn) l
      hneighbors hzero expanded hlife s hs
    exact ⟨fun h => (hiff s hs).mp (h s hs), fun h s hs => (hiff s hs).mpr h⟩
  rw [Lattice.evolves_iff hl, Lattice.forall_follows_iff hl, hadded, List.nil_append,
    hinflated I hzero]
  exact ⟨fun h n hn => (hnode n ((hmem n).mpr hn)).mp (h n ((hmem n).mpr hn)),
    fun h n hn => (hnode n hn).mpr (h n ((hmem n).mp hn))⟩

/-- On a sheared torus, where the pattern is shifted after two generations. -/
theorem satisfies_life_iff_shearedTorus : ∃ e template e',
    Encoder.ofLattice ⟨.torus 2 3 1, ⟨2, 1, -1⟩⟩ = .ok e ∧ lifeTemplate = .ok template ∧
      e.addRule template .totalistic none .fixed = .ok e' ∧
      ∀ I : Interpretation, I.truth Literal.zeroName = false →
        (I.Satisfies (Clause.disjunctions e'.clauses) ↔
          Lattice.Evolves ⟨.torus 2 3 1, ⟨2, 1, -1⟩⟩ I) := by
  have hl : Lattice.Regular ⟨.torus 2 3 1, ⟨2, 1, -1⟩⟩ :=
    ⟨⟨by decide, by decide⟩, by decide, fun h => absurd trivial h⟩
  have hs : Lattice.Small ⟨.torus 2 3 1, ⟨2, 1, -1⟩⟩ := by
    refine ⟨⟨by decide, by decide, fun m n s h => ?_⟩, by decide, by decide, by decide⟩
    obtain ⟨-, -, rfl⟩ := Folding.torus.inj h
    decide
  obtain ⟨e, he⟩ := exists_ofLattice hl hs
  obtain ⟨template, e', h⟩ := satisfies_life_iff hl he none .fixed
  exact ⟨e, template, e', he, h⟩

end Encoder

end CellSat
