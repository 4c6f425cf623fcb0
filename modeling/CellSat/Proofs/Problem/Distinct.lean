import Mathlib
import CellSat.Proofs.Counter.Rigid
import CellSat.Proofs.Grid.Extent
import CellSat.Proofs.Problem.Outcome
import CellSat.Proofs.Solve.Blocking
import CellSat.Proofs.Tag.Capture
/-!
# Solutions that show the same pattern

The models that a solver finds differ from each other, but they need not differ in cells or helpers:
where a bound leaves slack its temporaries can have several values. Only there can two solutions of
one problem show the same pattern.

* `Assignment.Total.gives_or_gives_not`, `Assignment.truth_lowest_congr`: total answers;
* `Formula.satisfies_lowest_of_untagged`: the clauses without tags, in an answer;
* `Encoder.Issued`, `GridProblem.exists_bound_of_issued`: the temporaries of an encoder;
* `GridProblem.truth_lowest_eq_of_not_slack`: without slack, the temporaries depend on the rest;
* `GridProblem.exists_gives_opposite`: the variables in which two models differ;
* `GridProblem.Square`: four cells, one of which may live;
* **`GridProblem.solve_distinct`**: the values in which two solutions differ.
-/

namespace CellSat

/-! ## Total answers -/

namespace Assignment

variable {t : SymbolTable} {names : List String} {numbers others : List Int} {name : String}
  {width : Nat} {b : Bool}

theorem Total.consistent (h : Total width numbers) : Consistent numbers := by
  intro n hn hpos hneg
  have hle := h.bounded n hn
  exact (h.decides n (by omega) (by omega)).mp hneg hn

theorem Total.gives_or_gives_not (h : Total width numbers) (h' : Total width others)
    (hgives : Gives t numbers name b) : Gives t others name b ∨ Gives t others name !b := by
  obtain ⟨n, hn, hname, rfl⟩ := hgives
  have hle := h.bounded n hn
  have hdecides := h'.decides n.natAbs (by omega) (by omega)
  have hsign : ∀ k ∈ others, k.natAbs = n.natAbs →
      Gives t others name (decide (0 < n)) ∨ Gives t others name !decide (0 < n) := by
    intro k hk habs
    have hgiven : Gives t others name (decide (0 < k)) := ⟨k, hk, by rw [habs, hname], rfl⟩
    rcases Bool.eq_or_eq_not (decide (0 < k)) (decide (0 < n)) with heq | heq
    · exact .inl (heq ▸ hgiven)
    · exact .inr (heq ▸ hgiven)
  by_cases hmem : (n.natAbs : Int) ∈ others
  · exact hsign _ hmem (by omega)
  · exact hsign _ (hdecides.mpr hmem) (by omega)

theorem truth_lowest_of_gives (ht : t.Numbers names) (hconsistent : Consistent numbers)
    (h : Gives t numbers name b) : (lowest t numbers).truth name = b := by
  have htruth : (lowest t numbers).truth name = true ↔ Gives t numbers name true :=
    truth_lowest_iff_gives ht
  cases b with
  | true => exact htruth.mpr h
  | false =>
    by_contra hne
    have hgives := htruth.mp (by simpa using hne)
    exact absurd (gives_unique ht hconsistent h hgives) (by decide)

/-- Total answers agree about a variable of which they do not have opposite signs. -/
theorem truth_lowest_congr (ht : t.Numbers names) (h : Total width numbers)
    (h' : Total width others)
    (hname : ∀ b, Gives t numbers name b → ¬ Gives t others name !b) :
    (lowest t numbers).truth name = (lowest t others).truth name := by
  rw [Bool.eq_iff_iff, truth_lowest_iff_gives ht, truth_lowest_iff_gives ht]
  constructor
  · intro hgives
    exact (h.gives_or_gives_not h' hgives).resolve_right (hname true hgives)
  · intro hgives
    refine (h'.gives_or_gives_not h hgives).resolve_right fun hnot => ?_
    exact hname false hnot hgives

end Assignment

/-! ## Clauses without tags -/

theorem Formula.satisfies_lowest_of_untagged {cs : List Clause} {f : Formula} {numbers : List Int}
    (hf : compile cs = .ok f) (hconsistent : Assignment.Consistent numbers)
    (h : f.SatisfiedBy numbers) {ds : List Disjunction} (hds : ∀ d ∈ ds, d ∈ Clause.disjunctions cs)
    (hbool : Disjunction.Boolean ds) :
    (Assignment.lowest f.symbols numbers).Satisfies ds := by
  obtain ⟨es, hes, hesbool, -, hsat⟩ := Clause.expandTags_writes cs
  have hlowest := satisfies_lowest_of_expandTags hf hes hesbool hconsistent h
  have hread := ((hsat _ _ (Interpretation.writes_readBack _ ⟨fun _ => false, fun _ => 0⟩ cs)
    (Interpretation.fitsBits_readBack _ _ cs)).mp hlowest).2
  refine (Interpretation.Satisfies.congr fun d hd l hl => ?_).mp fun d hd => hread d (hds d hd)
  have huntagged : Clause.Untagged cs l.name := ⟨d, hds d hd, l, hl, rfl, hbool d hd l hl⟩
  simp [Literal.holds, hbool d hd l hl, Interpretation.readBack_truth huntagged]

theorem Formula.satisfiedBy_iff_satisfiesAll {f : Formula} {numbers : List Int} :
    f.SatisfiedBy numbers ↔ Model.satisfiesAll numbers f.clauses = true := by
  simp only [SatisfiedBy, Model.satisfiesAll_iff, Model.satisfies_iff]

/-! ## The temporaries of an encoder -/

namespace Encoder

variable {e e' : Encoder} {name : String}

/-- The names of temporaries in use. -/
def Issued (e : Encoder) (name : String) : Prop :=
  ∃ k, 0 < k ∧ k ≤ e.issued ∧ (Temporary.literal k).name = name

theorem not_issued_of_mem_literals {b : Bound} {lattice : Lattice} {grid : List Node} {l : Literal}
    (h : l ∈ b.literals lattice grid) : ¬ e.Issued l.name := by
  obtain ⟨n, -, start, rfl, -⟩ := Bound.mem_literals h
  rintro ⟨k, -, -, hname⟩
  exact Temporary.not_named_append_name start n ⟨k, hname⟩

theorem exists_of_addBounds_issued {bs : List Bound} (h : e.addBounds bs = .ok e') {k : Nat}
    (hk : e.issued < k) (hk' : k ≤ e'.issued) :
    ∃ b ∈ bs, ∃ cs issued issued', b.clauses64 e.lattice e.grid issued = .ok (cs, issued') ∧
      issued < k ∧ k ≤ issued' ∧
      ∀ d ∈ Clause.disjunctions cs, d ∈ Clause.disjunctions e'.clauses := by
  induction bs generalizing e with
  | nil =>
    obtain rfl := Except.ok.inj h
    omega
  | cons b bs ih =>
    obtain ⟨e₁, he₁, h⟩ := bind_eq_ok.mp h
    obtain ⟨⟨cs, issued⟩, hcs, he₁⟩ := bind_eq_ok.mp he₁
    obtain rfl := Except.ok.inj he₁
    by_cases hlate : issued < k
    · obtain ⟨b', hb', hbound⟩ := ih h hlate
      exact ⟨b', List.mem_cons_of_mem b hb', hbound⟩
    · refine ⟨b, List.mem_cons_self, cs, _, _, hcs, hk, not_lt.mp hlate, fun d hd => ?_⟩
      obtain ⟨parts, hclauses, -⟩ := exists_of_addBounds h
      simp [hclauses, Clause.disjunctions_append, hd]

end Encoder

namespace GridProblem

theorem exists_bound_of_issued {s : Settings} {template : List Clause} {e : Encoder}
    (he : encode s template = .ok e) {name : String} (hname : e.Issued name) :
    ∃ b ∈ s.population, ∃ cs issued issued' k,
      b.clauses64 e.lattice e.grid issued = .ok (cs, issued') ∧ issued < k ∧ k ≤ issued' ∧
        (Temporary.literal k).name = name ∧
        ∀ d ∈ Clause.disjunctions cs, d ∈ Clause.disjunctions e.clauses := by
  obtain ⟨k, hk, hk', hname⟩ := hname
  obtain ⟨e₀, he₀, he⟩ := bind_eq_ok.mp he
  obtain ⟨grid, -, he₀⟩ := bind_eq_ok.mp (Checked.toResult_eq_ok.mp he₀)
  obtain rfl := Except.ok.inj he₀
  obtain ⟨e₁, he₁, he⟩ := bind_eq_ok.mp he
  obtain ⟨expanded, -, he₁⟩ := bind_eq_ok.mp he₁
  obtain ⟨clauses, -, he₁⟩ := bind_eq_ok.mp he₁
  obtain rfl := Except.ok.inj he₁
  have he := Checked.toResult_eq_ok.mp he
  obtain ⟨-, -, hlattice, hgrid, -⟩ := Encoder.exists_of_addBounds he
  obtain ⟨b, hb, cs, issued, issued', hcs, hbound⟩ := Encoder.exists_of_addBounds_issued he hk hk'
  rw [hlattice, hgrid]
  exact ⟨b, hb, cs, issued, issued', k, hcs, hbound.1, hbound.2.1, hname, hbound.2.2⟩

section Models

variable {s : Settings} {template : List Clause} {e : Encoder} {f : Formula} {model other : List Int}
  {width : Nat} (he : encode s template = .ok e) (hf : e.compile = .ok f)
  (hsizes : ∀ b ∈ s.population, b.size ≤ Word.maxInt64)
  (hmodel : Clauses.Sound width f.clauses (some model))
  (hother : Clauses.Sound width f.clauses (some other))

include he hf hsizes hmodel hother

/-- **Without slack the temporaries depend on the rest.** -/
theorem truth_lowest_eq_of_not_slack
    (hagree : ∀ x, ¬ e.Issued x → (Assignment.lowest f.symbols model).truth x =
      (Assignment.lowest f.symbols other).truth x)
    (htight : ¬ ∃ b ∈ s.population,
      b.Slack (b.literals e.lattice e.grid) (Assignment.lowest f.symbols model)) (name : String) :
    (Assignment.lowest f.symbols model).truth name =
      (Assignment.lowest f.symbols other).truth name := by
  by_cases hissued : e.Issued name
  · obtain ⟨htotal, hsat⟩ := hmodel model rfl
    obtain ⟨htotal', hsat'⟩ := hother other rfl
    obtain ⟨b, hb, cs, issued, issued', k, hcs, hk, hk', rfl, hsub⟩ :=
      exists_bound_of_issued he hissued
    have hbool : Disjunction.Boolean (Clause.disjunctions cs) := fun d hd l hl =>
      ((Bound.forall_clauses64 hcs).2 d hd l hl).1
    have htemporary := Bound.temporary_eq hcs (hsizes b hb)
      (Formula.satisfies_lowest_of_untagged hf htotal.consistent
        (Formula.satisfiedBy_iff_satisfiesAll.mpr hsat) hsub hbool)
      (Formula.satisfies_lowest_of_untagged hf htotal'.consistent
        (Formula.satisfiedBy_iff_satisfiesAll.mpr hsat') hsub hbool)
      (fun l hl => ?_) (fun h => htight ⟨b, hb, h⟩) hk hk'
    · simpa [Literal.holds, Temporary.literal] using htemporary
    · obtain ⟨m, -, start, rfl, -⟩ := Bound.mem_literals hl
      simp [Literal.holds, hagree _ (Encoder.not_issued_of_mem_literals hl)]
  · exact hagree name hissued

/-- **The variables in which two models differ** are not only temporaries, but for slack. -/
theorem exists_gives_opposite (hopposed : Assignment.Opposed model other)
    (hnamed : ∀ n ∈ model, ∃ name, f.symbols.name? n.natAbs = some name) :
    ∃ name b, Assignment.Gives f.symbols model name b ∧ Assignment.Gives f.symbols other name !b ∧
      (e.Issued name → ∃ b ∈ s.population,
        b.Slack (b.literals e.lattice e.grid) (Assignment.lowest f.symbols model)) := by
  have htotal := (hmodel model rfl).1
  have htotal' := (hother other rfl).1
  obtain ⟨names, ht⟩ := Formula.exists_numbers_of_compile hf
  obtain ⟨n, hn, hneg⟩ := hopposed
  obtain ⟨name, hname⟩ := hnamed n hn
  have hgives : Assignment.Gives f.symbols model name (decide (0 < n)) := ⟨n, hn, hname, rfl⟩
  have hgives' : Assignment.Gives f.symbols other name !decide (0 < n) := by
    have hne := (htotal.bounded n hn).1
    refine ⟨-n, hneg, by rwa [Int.natAbs_neg], ?_⟩
    rw [← decide_not, decide_eq_decide]
    omega
  by_cases hslack : ∃ b ∈ s.population,
      b.Slack (b.literals e.lattice e.grid) (Assignment.lowest f.symbols model)
  · exact ⟨name, _, hgives, hgives', fun _ => hslack⟩
  · by_contra hnone
    have hagree : ∀ x, ¬ e.Issued x → (Assignment.lowest f.symbols model).truth x =
        (Assignment.lowest f.symbols other).truth x := by
      intro x hx
      refine Assignment.truth_lowest_congr ht htotal htotal' fun b hb hb' => ?_
      exact hnone ⟨x, b, hb, hb', fun h => absurd h hx⟩
    have heq := truth_lowest_eq_of_not_slack he hf hsizes hmodel hother hagree hslack name
    rw [Assignment.truth_lowest_of_gives ht htotal.consistent hgives,
      Assignment.truth_lowest_of_gives ht htotal'.consistent hgives'] at heq
    simp at heq

end Models

end GridProblem

/-! ## Values -/

namespace Assignment

variable {cs : List Clause} {f : Formula} {t : SymbolTable} {names : List String}
  {numbers others : List Int} {values : Valuation} {tree tree' : Std.TreeMap String Value}
  {name : String} {b : Bool}

theorem variableInBits_of_gives (hf : Formula.compile cs = .ok f)
    (h : Gives f.symbols numbers name b) : Clause.VariableInBits cs name := by
  obtain ⟨es, hes, -, hnames, -⟩ := Clause.expandTags_writes cs
  have ht := Formula.numbers_of_compile hf hes
  obtain ⟨n, -, hname, -⟩ := h
  obtain ⟨i, hi, -⟩ := (ht.name? _ _).mp hname
  obtain ⟨d, hd, l, hl, rfl⟩ :=
    Clause.mem_variableNames.mp (mem_sortedSet.mp (List.mem_of_getElem? hi))
  exact hnames d hd l hl

theorem reads_of_decode (hcs : Clause.Encodable cs) (hf : Formula.compile cs = .ok f)
    (h : decode f.symbols numbers = .ok values) :
    ∃ tree : Std.TreeMap String Value, values = tree.toList ∧
      Reads cs (Gives f.symbols numbers) tree := by
  obtain ⟨tree, htree, h⟩ := bind_eq_ok.mp h
  obtain rfl := Except.ok.inj h
  obtain ⟨es, hes, -, hsize, -⟩ := Formula.exists_of_compile hf
  have ht := Formula.numbers_of_compile hf hes
  have hnumbers : ∀ n ∈ numbers, (n.natAbs : Int) ≤ Word.maxInt32 ∧
      ∃ name, f.symbols.name? n.natAbs = some name ∧ Clause.VariableInBits cs name := by
    intro n hn
    obtain ⟨name, hname⟩ := exists_name_of_decodeFrom htree hn
    have hle := (ht.le_of_index? (ht.index?_eq_some_iff.mpr hname)).2
    refine ⟨?_, name, hname, variableInBits_of_gives hf ⟨n, hn, hname, rfl⟩⟩
    simp only [Formula.variableCount, Word.maxInt32] at hsize ⊢
    omega
  obtain ⟨tree', htree', hreads⟩ := decodeFrom_reads hcs reads_empty hnumbers
  obtain rfl := Except.ok.inj (htree'.symm.trans htree)
  exact ⟨tree', rfl, hreads⟩

theorem Reads.getElem?_truth (ht : t.Numbers names) (hconsistent : Consistent numbers)
    (h : Reads cs (Gives t numbers) tree) (hname : Clause.Untagged cs name)
    (hgives : Gives t numbers name b) : tree[name]? = some (.truth b) := by
  obtain ⟨c, hc⟩ := h.untagged name b hgives hname
  rw [hc, gives_unique ht hconsistent (h.truth name c hc).2 hgives]

theorem Reads.exists_ne (ht : t.Numbers names) (hconsistent : Consistent numbers)
    (hconsistent' : Consistent others) (h : Reads cs (Gives t numbers) tree)
    (h' : Reads cs (Gives t others) tree') (hname : Clause.VariableInBits cs name)
    (hgives : Gives t numbers name b) (hgives' : Gives t others name !b) :
    ∃ x v w, (x, v) ∈ tree.toList ∧ (x, w) ∈ tree'.toList ∧ v ≠ w ∧
      (x = name ∨ Clause.Tagged cs x) := by
  simp only [Std.TreeMap.mem_toList_iff_getElem?_eq_some]
  rcases hname with huntagged | ⟨base, hbase, i, -, rfl⟩
  · exact ⟨name, _, _, h.getElem?_truth ht hconsistent huntagged hgives,
      h'.getElem?_truth ht hconsistent' huntagged hgives', by simp, .inl rfl⟩
  · obtain ⟨v, hv⟩ := h.tagged base i b hgives hbase
    obtain ⟨w, hw⟩ := h'.tagged base i _ hgives' hbase
    refine ⟨base, _, _, hv, hw, ?_, .inr hbase⟩
    rintro ⟨⟩
    -- one answer says that the bit is set, the other that it is not
    have hbit := (h.number base v hv).2 i
    rw [(h'.number base v hw).2 i] at hbit
    cases b with
    | true => exact absurd (gives_unique ht hconsistent' (hbit.mpr hgives) hgives') (by decide)
    | false => exact absurd (gives_unique ht hconsistent (hbit.mp hgives') hgives) (by decide)

theorem IsWhole.untagged (h : IsWhole name) (hcs : Clause.Encodable cs)
    (hname : Clause.VariableInBits cs name) : Clause.Untagged cs name := by
  rcases hname with huntagged | ⟨base, hbase, i, hi, rfl⟩
  · exact huntagged
  · have hread := h _ _ (Tag.splitFirst_bitName (hcs.plain_of_tagged hbase) i)
    have hmax : i ≤ Word.maxNat32 := by
      have := hcs.bitLength_le base
      simp only [Word.maxNat32]
      omega
    rw [Text.readNatUpTo?_toDigits hmax] at hread
    contradiction

/-- Which variables that are not read as bits are true is seen from the values. -/
theorem truth_mem_decode_iff (hcs : Clause.Encodable cs) (hf : Formula.compile cs = .ok f)
    (hconsistent : Consistent numbers) (h : decode f.symbols numbers = .ok values)
    (hname : IsWhole name) :
    (name, Value.truth true) ∈ values ↔ (lowest f.symbols numbers).truth name = true := by
  obtain ⟨names, ht⟩ := Formula.exists_numbers_of_compile hf
  obtain ⟨tree, rfl, hreads⟩ := reads_of_decode hcs hf h
  rw [Std.TreeMap.mem_toList_iff_getElem?_eq_some, truth_lowest_iff_gives ht]
  constructor
  · exact fun htruth => (hreads.truth name true htruth).2
  · intro hgives
    exact hreads.getElem?_truth ht hconsistent
      (hname.untagged hcs (variableInBits_of_gives hf hgives)) hgives

end Assignment

theorem Bound.isWhole_of_mem_literals {b : Bound} {lattice : Lattice} {grid : List Node}
    {l : Literal} (h : l ∈ b.literals lattice grid) : Assignment.IsWhole l.name := by
  obtain ⟨n, -, start, rfl, hnone, hsome⟩ := mem_literals h
  by_cases hhelper : b.helper = none
  · rw [hnone hhelper, String.empty_append]
    exact Assignment.isWhole_of_plain n.hash_not_mem_name
  · exact Assignment.isWhole_append (hsome hhelper) n.hash_not_mem_name

/-- The interpretation where nothing is true but what a solution says. -/
def Solution.interpretation (t : Solution) : Interpretation where
  truth name := decide ((name, .truth true) ∈ t.values)
  number _ := 0

namespace GridProblem

/-! ## Four cells -/

/-- A host that accepts all files and keeps none. -/
instance Host.discarding : Host Id where
  openFile _ := .error .notFound
  pathExists _ := false
  isDirectory _ := false
  writeFile _ _ := .ok ()
  makeDirectory _ := .ok ()
  launch _ _ _ _ := .timedOut
  print _ := ()
  printError _ := ()
  environment _ := none
  time := (0 : Nat)

namespace Square

/-- Four cells on a torus, one of which may live, and no rule. -/
def settings : Settings where
  grid := { folding := .torus 2 2 0, period := 1 }
  rule := { basis := .rotated }
  population := [{ comparator := .atMost, size := 1 }]
  solver := { maxSolutions := 2 }
  output := { directory := ⟨""⟩, fileRoot := "square", format := .life }

def nodes : List Node := [⟨⟨0, 0⟩, 0, 0⟩, ⟨⟨0, 1⟩, 0, 0⟩, ⟨⟨1, 0⟩, 0, 0⟩, ⟨⟨1, 1⟩, 0, 0⟩]

def cells : List Literal :=
  [{ name := "c_0_0_0" }, { name := "c_0_1_0" }, { name := "c_1_0_0" }, { name := "c_1_1_0" }]

def encoder : Encoder where
  lattice := settings.grid.lattice
  grid := nodes
  issued := 6
  clauses := Bound.heading { comparator := .atMost, size := 1 } ::
    (Count.atMost 0 cells 1).clauses.map .disjunction
  boundCount := 1

/-- No cell lives. The lowest digit of the sum of three cells is free. -/
def values (b : Bool) : Valuation :=
  [("c_0_0_0", .truth false), ("c_0_1_0", .truth false), ("c_1_0_0", .truth false),
    ("c_1_1_0", .truth false), ("\x7bx001\x7d", .truth b), ("\x7bx002\x7d", .truth false),
    ("\x7bx003\x7d", .truth true), ("\x7bx004\x7d", .truth false), ("\x7bx005\x7d", .truth false),
    ("\x7bx006\x7d", .truth false)]

def model (b : Bool) : Fin 10 → Bool :=
  ![false, false, false, false, b, false, true, false, false, false]

def models : List (Fin 10 → Bool) := [model false, model true]

/-- The last clause. It is about the last variable. -/
def last : Disjunction := [{ name := "\x7bx006\x7d", positive := false }]

def names : List String := (values false).map Prod.fst

def symbols : SymbolTable := .numberFrom {} 1 names

def grid : ValueGrid := ⟨1, 2, 2, Array.replicate 4 (some (.truth false))⟩

def solution (clauseCount : Nat) (b : Bool) : Solution where
  index := if b then 2 else 1
  values := values b
  grid := grid
  folding := settings.grid.folding.render
  livingCells := [0]
  variableCount := 10
  clauseCount := clauseCount

theorem encode_eq : encode settings [] = .ok encoder := by
  have hl : settings.grid.lattice.Steady :=
    ⟨⟨⟨by decide, by decide⟩, by decide⟩, fun _ => ⟨rfl, rfl⟩⟩
  obtain ⟨grid, hgrid⟩ := Lattice.exists_grid64 hl.toProper
    ⟨⟨by decide, by decide, fun m n s h => by cases h; decide⟩, by decide, by decide, by decide⟩
  have hnodes : grid = nodes := by
    refine Lattice.eq_of_grid64 hl hgrid ?_ fun n => ?_
    · simp [nodes, Node.position, Prod.lex_def]
    · have hextent : settings.grid.lattice.folding.Extent n.cell ↔
          0 ≤ n.cell.row ∧ n.cell.row < 2 ∧ 0 ≤ n.cell.column ∧ n.cell.column < 2 :=
        Folding.exists_fold_eq_iff hl.sized
      have hperiod : settings.grid.lattice.clock.period = 1 := rfl
      rw [hextent, hperiod]
      obtain ⟨⟨row, column⟩, generation, orientation⟩ := n
      simp only [nodes, List.mem_cons, Node.mk.injEq, Cell.mk.injEq, List.not_mem_nil, or_false]
      omega
  subst hnodes
  let start : Encoder := { lattice := settings.grid.lattice, grid := nodes }
  have hrule : start.addRule [] .rotated settings.rule.consequent Turn.fixed = .ok start := by cbv
  have hbounds : start.addBounds settings.population = .ok encoder := by cbv
  exact bind_eq_ok.mpr ⟨start, Checked.toResult_eq_ok.mpr (bind_eq_ok.mpr ⟨nodes, hgrid, rfl⟩),
    bind_eq_ok.mpr ⟨start, hrule, Checked.toResult_eq_ok.mpr hbounds⟩⟩

theorem encodable_clauses : Clause.Encodable encoder.clauses := by
  decide

theorem variableNames_clauses : Clause.variableNames encoder.clauses = names := by
  have hsub : ∀ name ∈ (Clause.disjunctions encoder.clauses).flatten.map (·.name),
      name ∈ names := by decide
  have hsub' : ∀ name ∈ names,
      name ∈ (Clause.disjunctions encoder.clauses).flatten.map (·.name) := by decide
  exact sortedSet_eq_of_lt (by decide) fun name => ⟨hsub name, hsub' name⟩

theorem ofNames_names : SymbolTable.ofNames names = symbols :=
  congrArg (SymbolTable.numberFrom {} 1) (sortedSet_eq_of_lt (by decide) fun _ => .rfl)

theorem decode_model (b : Bool) :
    Assignment.decode symbols (Model.ofValues (model b)) = .ok (values b) := by
  cases b <;> cbv

theorem ofValues_values (b : Bool) (clauseCount : Nat) :
    Solution.ofValues (if b then 2 else 1) (values b) settings.grid.folding.render 10 clauseCount
      0 = .ok (solution clauseCount b) := by
  have hgrid : ∀ b, ValueGrid.ofValuation "c" (values b) = .ok grid := by decide
  have hliving : (List.range grid.generations).mapM grid.livingCount = .ok [0] := by decide
  exact bind_eq_ok.mpr ⟨grid, hgrid b, bind_eq_ok.mpr ⟨[0], hliving, rfl⟩⟩

theorem size_symbols : symbols.size = 10 := by cbv

theorem exists_compile : ∃ f, encoder.compile = .ok f ∧ f.symbols = symbols ∧
    (∀ b, f.SatisfiedBy (Model.ofValues (model b))) ∧ (Session.addFormula {} f).Over 10 := by
  have hbool : Disjunction.Boolean (Clause.disjunctions encoder.clauses) := by
    unfold Disjunction.Boolean
    decide
  have hexpand := Clause.expandTags_of_boolean hbool
  obtain ⟨f, hf, hsymbols, hsat⟩ := Formula.compile_of_expandTags hexpand hbool
    (by rw [variableNames_clauses]; decide)
  have ht := SymbolTable.numbers_ofNames names
  rw [variableNames_clauses, ofNames_names] at hsymbols
  rw [ofNames_names] at ht
  have hcount : f.variableCount = 10 := by rw [Formula.variableCount, hsymbols, size_symbols]
  refine ⟨f, hf, hsymbols, fun b => ?_, ?_⟩
  · have hholds : (solution 0 b).interpretation.Satisfies
        (Clause.disjunctions encoder.clauses) := by
      unfold Interpretation.Satisfies
      cases b <;> decide
    have hmodel : Model.ofValues (model b) =
        Assignment.ofInterpretation symbols (solution 0 b).interpretation := by
      cases b <;> decide
    rw [hmodel, hsat _ (solution 0 b).interpretation]
    · exact hholds
    · rw [hcount, ← size_symbols]
      exact Assignment.total_ofInterpretation ht
    · rw [hsymbols]
      exact Assignment.agrees_ofInterpretation ht
  · have hset : Literal.toSet last = last := by cbv
    have hmem : last ∈ Clause.disjunctions (Clause.minimize encoder.clauses) := by
      rw [← hset]
      exact Clause.toSet_mem_minimizeFrom (by decide) (by rw [hset]; rfl) (by simp)
    obtain ⟨clause, hclause, hencode⟩ := Formula.exists_clause_of_mem hf hexpand hmem
    have hten : last.mapM (Formula.encodeLiteral f.symbols) = .ok [-10] := by
      rw [hsymbols]
      cbv
    rw [← Except.ok.inj (hten.symm.trans hencode)] at hclause
    have hover := Session.over_addFormula hf hclause List.mem_cons_self hcount.symm
    rwa [hcount] at hover

theorem decodeModel_model {f : Formula} (hsymbols : f.symbols = symbols)
    (hsat : ∀ b, f.SatisfiedBy (Model.ofValues (model b))) (b : Bool) :
    decodeModel ⟨settings, encoder⟩ f 0 (Model.ofValues (model b), b.toNat) =
      .ok (some (solution f.clauseCount b)) := by
  have hindex : b.toNat + 1 = if b then 2 else 1 := by cases b <;> rfl
  simp only [decodeModel, Formula.isValid_validate_iff.mpr (hsat b), if_true, hsymbols,
    decode_model, Formula.variableCount, size_symbols, hindex, ofValues_values]

theorem run_eq {oracle : Oracle} {f : Formula} (hf : encoder.compile = .ok f)
    {models : List (List Int)} {session : Session}
    (hmodels : Session.solveMultiple oracle 2 (Session.addFormula {} f) = (.ok models, session)) :
    (withTemplate settings [] >>= solve oracle : Run Id (List Solution)) =
      decode ⟨settings, encoder⟩ ⟨f, models, 0⟩ := by
  have hproblem : (withTemplate settings [] : Run Id GridProblem) = .ok ⟨settings, encoder⟩ := by
    unfold withTemplate
    rw [encode_eq]
    rfl
  have hcompile : (compile ⟨settings, encoder⟩ : Run Id Formula) = pure f := by
    unfold compile
    rw [hf]
    rfl
  have hsolve : ((Solver.ofSettings settings.solver settings.output.rootPath).addFormula
      f).solveMultiple oracle settings.solver.maxSolutions =
        (pure (.ok models, .internal session) : Run Id _) := by
    show ((Solver.internal {}).addFormula f).solveMultiple oracle 2 = _
    simp only [Solver.addFormula, Solver.solveMultiple, hmodels]
  have hfind : (find oracle ⟨settings, encoder⟩ : Run Id Found) = .ok ⟨f, models, 0⟩ := by
    have htime : (Host.time : Run Id Nat) = pure 0 := rfl
    simp only [find, hcompile, htime, hsolve, pure_bind]
    rfl
  rw [hproblem]
  show (solve oracle ⟨settings, encoder⟩ : Run Id (List Solution)) = _
  unfold solve
  rw [hfind]
  show (MonadExcept.ofExcept (decode ⟨settings, encoder⟩ ⟨f, models, 0⟩) : Run Id _) = _
  cases decode ⟨settings, encoder⟩ ⟨f, models, 0⟩ <;> rfl

end Square

/-! ## Solutions -/

variable {m : Type → Type} [Monad m] [LawfulMonad m] [Host m]

theorem values_of_ofValues {index variableCount clauseCount time : Nat} {values : Valuation}
    {folding : String} {t : Solution}
    (h : Solution.ofValues index values folding variableCount clauseCount time = .ok t) :
    t.values = values := by
  obtain ⟨grid, -, h⟩ := bind_eq_ok.mp h
  obtain ⟨livingCells, -, h⟩ := bind_eq_ok.mp h
  rw [← Except.ok.inj h]

theorem exists_value_ne {s : Settings} {template : List Clause} {e : Encoder} {f : Formula}
    {model other : List Int} {width : Nat} {t u : Solution} (he : encode s template = .ok e)
    (hclauses : Clause.Encodable e.clauses) (hf : e.compile = .ok f)
    (hsizes : ∀ b ∈ s.population, b.size ≤ Word.maxInt64)
    (hmodel : Clauses.Sound width f.clauses (some model))
    (hother : Clauses.Sound width f.clauses (some other))
    (hopposed : Assignment.Opposed model other)
    (hvalues : Assignment.decode f.symbols model = .ok t.values)
    (hvalues' : Assignment.decode f.symbols other = .ok u.values) :
    ∃ name v w, (name, v) ∈ t.values ∧ (name, w) ∈ u.values ∧ v ≠ w ∧
      (e.Issued name → ∃ b ∈ s.population,
        b.Slack (b.literals e.lattice e.grid) t.interpretation) := by
  have hconsistent := (hmodel model rfl).1.consistent
  obtain ⟨names, ht⟩ := Formula.exists_numbers_of_compile hf
  obtain ⟨tree, htree, -⟩ := bind_eq_ok.mp hvalues
  obtain ⟨name, b, hgives, hgives', hslack⟩ := exists_gives_opposite he hf hsizes hmodel hother
    hopposed fun n hn => Assignment.exists_name_of_decodeFrom htree hn
  obtain ⟨tree, hvalues₁, hreads⟩ := Assignment.reads_of_decode hclauses hf hvalues
  obtain ⟨tree', hvalues₂, hreads'⟩ := Assignment.reads_of_decode hclauses hf hvalues'
  obtain ⟨x, v, w, hv, hw, hne, hx⟩ := hreads.exists_ne ht hconsistent
    (hother other rfl).1.consistent hreads' (Assignment.variableInBits_of_gives hf hgives) hgives
    hgives'
  refine ⟨x, v, w, hvalues₁ ▸ hv, hvalues₂ ▸ hw, hne, fun hissued => ?_⟩
  rcases hx with rfl | htagged
  · obtain ⟨b, hb, hfour, hcount⟩ := hslack hissued
    refine ⟨b, hb, hfour, ?_⟩
    rwa [List.countP_congr fun l hl => ?_]
    have htruth := Assignment.truth_mem_decode_iff hclauses hf hconsistent hvalues
      (Bound.isWhole_of_mem_literals hl)
    obtain ⟨n, -, start, rfl, -⟩ := Bound.mem_literals hl
    simpa [Literal.holds, Solution.interpretation] using htruth
  · -- a temporary occurs without a tag, so it is not many-valued
    obtain ⟨b, -, cs, issued, issued', k, hcs, hk, hk', rfl, hsub⟩ :=
      exists_bound_of_issued he hissued
    obtain ⟨d, hd, hmem⟩ := Bound.exists_mem_clauses64 hcs hk hk'
    exact absurd ⟨d, hsub d hd, _, hmem, rfl, rfl⟩ (hclauses.not_untagged htagged)

/-- **Different solutions differ in more than temporaries, but for slack.** -/
theorem solve_distinct {s : Settings} {template : List Clause} {e : Encoder} {oracle : Oracle}
    (he : encode s template = .ok e) (hclauses : Clause.Encodable e.clauses)
    (hsizes : ∀ b ∈ s.population, b.size ≤ Word.maxInt64)
    (hsound : (Solver.ofSettings s.solver s.output.rootPath).IsSound (Run m) oracle) :
    SatisfiesM (fun solutions => ∀ t ∈ solutions, ∀ u ∈ solutions, t ≠ u →
        ∃ name v w, (name, v) ∈ t.values ∧ (name, w) ∈ u.values ∧ v ≠ w ∧
          (e.Issued name → ∃ b ∈ s.population,
            b.Slack (b.literals e.lattice e.grid) t.interpretation))
      (withTemplate s template >>= solve oracle : Run m (List Solution)) := by
  apply SatisfiesM.bind (satisfiesM_withTemplate s template)
  rintro p ⟨-, rfl, hencode⟩
  obtain rfl := Except.ok.inj (hencode.symm.trans he)
  unfold solve
  apply SatisfiesM.bind (satisfiesM_find_of (P := fun f models =>
    ∃ width, Clauses.Enumerated width f.clauses models) fun f hf =>
      Solver.satisfiesM_solveMultiple_addFormula hsound hf _)
  rintro found ⟨hf, width, hfound⟩
  refine (Run.satisfiesM_ofExcept _).imp ?_
  intro solutions hdecode t ht u hu hne
  obtain ⟨i, model, values, hmodel, -, -, hvalues, hsolution⟩ := exists_of_decode hdecode ht
  obtain ⟨j, other, values', hother, -, -, hvalues', hsolution'⟩ := exists_of_decode hdecode hu
  have hij : i ≠ j := by
    rintro rfl
    obtain rfl := Option.some.inj (hmodel.symm.trans hother)
    obtain rfl := Except.ok.inj (hvalues.symm.trans hvalues')
    exact hne (Except.ok.inj (hsolution.symm.trans hsolution'))
  rw [← values_of_ofValues hsolution] at hvalues
  rw [← values_of_ofValues hsolution'] at hvalues'
  exact exists_value_ne he hclauses hf hsizes (hfound.sound model (List.mem_of_getElem? hmodel))
    (hfound.sound other (List.mem_of_getElem? hother)) (hfound.opposed hmodel hother hij) hvalues
    hvalues'

/-- At most one of four cells lives. If it does, all other solutions differ from it in a cell. -/
theorem solve_distinct_square :
    encode Square.settings [] = .ok Square.encoder ∧
      SatisfiesM (fun solutions => ∀ t ∈ solutions, ∀ u ∈ solutions, t ≠ u →
          Square.cells.countP (Literal.holds t.interpretation) = 1 →
          ∃ name v w, (name, v) ∈ t.values ∧ (name, w) ∈ u.values ∧ v ≠ w ∧
            ¬ Square.encoder.Issued name)
        (withTemplate Square.settings [] >>= solve Split.solve : Run Id (List Solution)) := by
  refine ⟨Square.encode_eq, ?_⟩
  have hliterals : ∀ b ∈ Square.settings.population,
      b.literals Square.encoder.lattice Square.encoder.grid = Square.cells ∧ b.size = 1 := by
    decide +kernel
  refine (solve_distinct (m := Id) Square.encode_eq Square.encodable_clauses (by decide)
    Split.solve_decides.sound).imp ?_
  intro solutions h t ht u hu hne hcount
  obtain ⟨name, v, w, hv, hw, hvw, hslack⟩ := h t ht u hu hne
  refine ⟨name, v, w, hv, hw, hvw, fun hissued => ?_⟩
  obtain ⟨b, hb, -, hsize⟩ := hslack hissued
  rw [(hliterals b hb).1, (hliterals b hb).2, hcount] at hsize
  exact hsize rfl

/-- At most one of four cells lives, and none does: the solutions differ in a temporary only. -/
theorem solve_same_cells :
    ∃ (oracle : Oracle) (e : Encoder) (t u : Solution),
      oracle.Decides ∧ encode Square.settings [] = .ok e ∧
      (withTemplate Square.settings [] >>= solve oracle : Run Id (List Solution)) = .ok [t, u] ∧
      t ≠ u ∧ t.grid = u.grid ∧
      ∀ name v, ¬ e.Issued name → ((name, v) ∈ t.values ↔ (name, v) ∈ u.values) := by
  obtain ⟨f, hf, hsymbols, hsat, hover⟩ := Square.exists_compile
  have haccepted : ∀ b, Square.model b ∈ (Session.addFormula {} f).accepted 10 := fun b =>
    Session.mem_accepted_addAll.mpr ⟨by simp [Session.accepted, Model.satisfiesAll],
      Formula.satisfiedBy_iff_satisfiesAll.mp (hsat b)⟩
  have hnodup : Square.models.Nodup := by decide
  obtain ⟨session, hmodels⟩ := Session.solveMultiple_preferring hover hnodup
    (by simpa [Square.models] using ⟨haccepted false, haccepted true⟩) (List.forall_mem_nil _)
  refine ⟨.preferring (Square.models.map Model.ofValues), Square.encoder,
    Square.solution f.clauseCount false, Square.solution f.clauseCount true,
    Oracle.preferring_decides Square.models, Square.encode_eq, ?_, ?_, rfl, ?_⟩
  · have hfalse := Square.decodeModel_model hsymbols hsat false
    have htrue := Square.decodeModel_model hsymbols hsat true
    have hdecode : (Square.models.map Model.ofValues).zipIdx.mapM
        (decodeModel ⟨Square.settings, Square.encoder⟩ f 0) =
          .ok [some (Square.solution f.clauseCount false),
            some (Square.solution f.clauseCount true)] := by
      show (List.mapM _ [(_, Bool.toNat false), (_, Bool.toNat true)]) = _
      simp only [List.mapM_cons, List.mapM_nil, hfalse, htrue]
      rfl
    exact (Square.run_eq hf hmodels).trans (bind_eq_ok.mpr ⟨_, hdecode, rfl⟩)
  · intro heq
    exact absurd (congrArg Solution.index heq) (by simp [Square.solution])
  · intro name v hname
    have hfree : name ≠ "\x7bx001\x7d" := by
      rintro rfl
      exact hname ⟨1, by decide, by decide, by decide⟩
    simp [Square.solution, Square.values, hfree]

end GridProblem

end CellSat
