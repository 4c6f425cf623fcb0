import Mathlib
import CellSat.Proofs.Counter.Freshness
import CellSat.Proofs.Template.Names
/-!
# The bounds of one encoder

An encoder collects the clauses of rules and bounds. Each bound issues temporaries of its own, also
after the encoder was reset, so bounds restrict cells and helpers as if each of them stood alone.

* `Encoder.Operation`, `Encoder.operate`: what can be done to an encoder;
* `Encoder.Journal`: the clauses since the last reset, by the operation that added them;
* `Encoder.Journal.Separate`, `Encoder.Journal.Separate.operate`: the invariant, and that operations
  keep it;
* **`Encoder.Journal.parts_independent`**: bounds do not interfere.
-/

namespace CellSat

open Temporary

theorem Lattice.not_named_variableAt (lattice : Lattice) (n : Node) {name : String}
    (h : name ∈ Symbol.center :: Symbol.neighbors ∨ name.endsWith Template.helperEnd = true) :
    ¬ Named (lattice.variableAt n name) := by
  rcases lattice.variableAt_cases n h with hzero | ⟨m, -, -, hm⟩ | ⟨-, hhelper⟩
  · exact hzero ▸ not_named_zeroName
  · rw [hm, ← String.empty_append (s := m.name)]
    exact not_named_append_name "" m
  · exact hhelper ▸ not_named_append_name name n

namespace Encoder

/-- What can be done to an encoder. -/
inductive Operation where
  | rule (template : List Clause) (basis : Basis) (consequent : Option String) (turn : Turn)
  | bound (b : Bound)
  | reset

/-- The templates of rules are about the neighbourhood and helpers. -/
def Operation.IsLocal : Operation → Prop
  | rule template .. => Template.IsLocal template
  | bound _ | reset => True

/-- Do something to an encoder. What fails leaves it as it is. -/
def operate (e : Encoder) : Operation → Encoder
  | .rule template basis consequent turn =>
    (e.addRule template basis consequent turn).toOption.getD e
  | .bound b => (e.addBound b).toOption.getD e
  | .reset => e.reset

/-- The clauses that one operation added. -/
inductive Part where
  | rule (clauses : List Clause)
  | bound (clauses : List Clause)

/-- The clauses of a part. -/
def Part.clauses : Part → List Clause
  | rule cs | bound cs => cs

/-- A part restricts cells, helpers and the false wire: the clauses of a rule are satisfied, and
those of a bound are satisfied by some values of the temporaries. -/
def Part.Satisfiable (I : Interpretation) : Part → Prop
  | rule cs => I.Satisfies (Clause.disjunctions cs)
  | bound cs => ∃ J, Varies I J ∧ J.Satisfies (Clause.disjunctions cs)

/-- An encoder with the parts of its clauses since the last reset. -/
structure Journal where
  encoder : Encoder
  parts : List Part := []

namespace Journal

/-- Do something and note the clauses that it added. -/
def operate (j : Journal) (op : Operation) : Journal :=
  let e := j.encoder.operate op
  let added := e.clauses.drop j.encoder.clauses.length
  match op with
  | .rule .. => ⟨e, j.parts ++ [.rule added]⟩
  | .bound _ => ⟨e, j.parts ++ [.bound added]⟩
  | .reset => ⟨e, []⟩

/-- An encoder of a grid after some operations. -/
def ofOperations (lattice : Lattice) (grid : List Node) (ops : List Operation) : Journal :=
  ops.foldl Journal.operate ⟨{ lattice, grid }, []⟩

/-- The parts of an encoder have different temporaries, all of them issued with 32 bits. -/
structure Separate (j : Journal) : Prop where
  fits : j.encoder.issued ≤ Word.maxNat32
  clauses : j.encoder.clauses = j.parts.flatMap Part.clauses
  rules : ∀ cs, .rule cs ∈ j.parts → ∀ name ∈ Clause.variableNames cs, ¬ Named name
  issued : ∀ part ∈ j.parts, ∀ k,
    (literal k).name ∈ Clause.variableNames part.clauses → k ≤ j.encoder.issued
  apart : (j.parts.map Part.clauses).Pairwise Apart

end Journal

/-! ## One operation -/

variable {e : Encoder} {I : Interpretation}

theorem not_mem_variableNames_nil (name : String) : name ∉ Clause.variableNames [] := by
  simp [Clause.mem_variableNames]

theorem operate_rule (e : Encoder) {template : List Clause} (hlocal : Template.IsLocal template)
    (basis : Basis) (consequent : Option String) (turn : Turn) :
    ∃ cs, (e.operate (.rule template basis consequent turn)).clauses = e.clauses ++ cs ∧
      (e.operate (.rule template basis consequent turn)).issued = e.issued ∧
      ∀ name ∈ Clause.variableNames cs, ¬ Named name := by
  rw [operate]
  cases h : e.addRule template basis consequent turn with
  | error failure =>
    exact ⟨[], by simp [Except.toOption], rfl,
      fun name hname => absurd hname (not_mem_variableNames_nil name)⟩
  | ok e' =>
    obtain ⟨cs, he', hcs⟩ := exists_of_addRule hlocal h
    refine ⟨cs, by rw [Except.toOption, Option.getD_some, he'], by
      rw [Except.toOption, Option.getD_some, he'], ?_⟩
    intro name hname
    obtain ⟨d, hd, l, hl, rfl⟩ := Clause.mem_variableNames.mp hname
    rcases (hcs d hd l hl).1 with hzero | ⟨n, -, name, hname, hl⟩
    · exact hzero ▸ not_named_zeroName
    · rw [hl]
      exact e.lattice.not_named_variableAt n (hname.imp_right And.right)

theorem operate_bound (e : Encoder) (b : Bound) :
    ∃ cs, (e.operate (.bound b)).clauses = e.clauses ++ cs ∧
      e.issued ≤ (e.operate (.bound b)).issued ∧
      (e.issued ≤ Word.maxNat32 → (e.operate (.bound b)).issued ≤ Word.maxNat32) ∧
      ∀ k, (literal k).name ∈ Clause.variableNames cs →
        e.issued < k ∧ k ≤ (e.operate (.bound b)).issued := by
  rw [operate, addBound]
  cases h : b.clauses64 e.lattice e.grid e.issued with
  | error failure =>
    exact ⟨[], by simp [bind, Except.bind, Except.toOption], le_rfl, id,
      fun k hk => absurd hk (not_mem_variableNames_nil _)⟩
  | ok result =>
    obtain ⟨cs, issued⟩ := result
    obtain ⟨hissued, hcs⟩ := Bound.forall_clauses64 h
    refine ⟨cs, rfl, hissued, Bound.le_of_clauses64 h, fun k hk => ?_⟩
    obtain ⟨d, hd, l, hl, hname⟩ := Clause.mem_variableNames.mp hk
    rcases (hcs d hd l hl).2 with ⟨l', hl', heq⟩ | ⟨m, hm, hm', heq⟩
    · obtain ⟨n, -, start, rfl, -⟩ := Bound.mem_literals hl'
      exact absurd ⟨k, by rw [← hname, ← heq]⟩ (not_named_append_name start n)
    · obtain rfl := name_injective (heq.trans hname)
      exact ⟨hm, hm'⟩

namespace Journal

variable {j : Journal}

/-- Clauses whose temporaries were not issued before make a part of their own. -/
theorem Separate.add (hj : j.Separate) {e : Encoder} {part : Part}
    (hclauses : e.clauses = j.encoder.clauses ++ part.clauses)
    (hissued : j.encoder.issued ≤ e.issued) (hfits : e.issued ≤ Word.maxNat32)
    (hnew : ∀ k, (literal k).name ∈ Clause.variableNames part.clauses →
      j.encoder.issued < k ∧ k ≤ e.issued)
    (hrule : ∀ cs, part = .rule cs → ∀ name ∈ Clause.variableNames cs, ¬ Named name) :
    Separate ⟨e, j.parts ++ [part]⟩ where
  fits := hfits
  clauses := by simp [hclauses, hj.clauses]
  rules cs hcs := by
    rcases List.mem_append.mp hcs with hcs | hcs
    · exact hj.rules cs hcs
    · exact hrule cs (List.mem_singleton.mp hcs).symm
  issued := by
    intro p hp k hk
    rcases List.mem_append.mp hp with hp | hp
    · exact (hj.issued p hp k hk).trans hissued
    · obtain rfl := List.mem_singleton.mp hp
      exact (hnew k hk).2
  apart := by
    rw [List.map_append, List.pairwise_append]
    refine ⟨hj.apart, List.pairwise_singleton _ _, ?_⟩
    rintro cs hcs cs' hcs' _ ⟨k, rfl⟩ hk hk'
    obtain ⟨p, hp, rfl⟩ := List.mem_map.mp hcs
    obtain rfl : cs' = part.clauses := by simpa using hcs'
    -- the temporary was issued before, and it was not
    have hold := hj.issued p hp k hk
    have := (hnew k hk').1
    omega

/-- **One operation** keeps parts separate. -/
theorem Separate.operate (hj : j.Separate) {op : Operation} (hop : op.IsLocal) :
    (j.operate op).Separate := by
  cases op with
  | rule template basis consequent turn =>
    obtain ⟨cs, hclauses, hissued, hcs⟩ := operate_rule j.encoder hop basis consequent turn
    have hadded : (j.encoder.operate (.rule template basis consequent turn)).clauses.drop
        j.encoder.clauses.length = cs := by rw [hclauses, List.drop_left]
    show Separate ⟨_, j.parts ++ [.rule _]⟩
    rw [hadded]
    refine hj.add hclauses hissued.ge (hissued ▸ hj.fits)
      (fun k hk => absurd ⟨k, rfl⟩ (hcs _ hk)) ?_
    rintro _ ⟨⟩
    exact hcs
  | bound b =>
    obtain ⟨cs, hclauses, hissued, hfits, hcs⟩ := operate_bound j.encoder b
    have hadded : (j.encoder.operate (.bound b)).clauses.drop j.encoder.clauses.length = cs := by
      rw [hclauses, List.drop_left]
    show Separate ⟨_, j.parts ++ [.bound _]⟩
    rw [hadded]
    exact hj.add hclauses hissued (hfits hj.fits) hcs (by simp)
  | reset =>
    exact ⟨Nat.zero_le _, rfl, by simp [Journal.operate], by simp [Journal.operate], .nil⟩

/-! ## Many operations -/

/-- **Many operations** keep parts separate. -/
theorem Separate.foldl_operate (hj : j.Separate) {ops : List Operation}
    (hops : ∀ op ∈ ops, op.IsLocal) : (ops.foldl Journal.operate j).Separate := by
  induction ops generalizing j with
  | nil => exact hj
  | cons op ops ih =>
    obtain ⟨hop, hops⟩ := List.forall_mem_cons.mp hops
    exact ih (hj.operate hop) hops

theorem encoder_foldl_operate (ops : List Operation) (j : Journal) :
    (ops.foldl Journal.operate j).encoder = ops.foldl Encoder.operate j.encoder := by
  induction ops generalizing j with
  | nil => rfl
  | cons op ops ih =>
    rw [List.foldl_cons, List.foldl_cons, ih]
    cases op <;> rfl

theorem satisfies_flatMap_clauses {J : Interpretation} {parts : List Part} :
    J.Satisfies (Clause.disjunctions (parts.flatMap Part.clauses)) ↔
      ∀ cs ∈ parts.map Part.clauses, J.Satisfies (Clause.disjunctions cs) := by
  induction parts with
  | nil => simp [Interpretation.satisfies_nil]
  | cons part parts ih =>
    rw [List.flatMap_cons, Clause.disjunctions_append, Interpretation.satisfies_append, ih,
      List.map_cons, List.forall_mem_cons]

theorem Separate.satisfiable_iff (hj : j.Separate) (I : Interpretation) :
    (∃ J, Varies I J ∧ J.Satisfies (Clause.disjunctions j.encoder.clauses)) ↔
      ∀ part ∈ j.parts, part.Satisfiable I := by
  simp only [hj.clauses, satisfies_flatMap_clauses]
  rw [exists_varies_iff hj.apart, List.forall_mem_map]
  refine forall_congr' fun part => forall_congr' fun hpart => ?_
  cases part with
  | bound cs => exact Iff.rfl
  | rule cs =>
    -- a rule has no temporaries, so their values do not matter
    have hfree : ∀ d ∈ Clause.disjunctions cs, ∀ l ∈ d, ¬ Named l.name := fun d hd l hl =>
      hj.rules cs hpart l.name (Clause.mem_variableNames.mpr ⟨d, hd, l, hl, rfl⟩)
    exact ⟨fun ⟨J, hJ, hsat⟩ => (hJ.satisfies_iff hfree).mp hsat, fun h => ⟨I, .refl I, h⟩⟩

theorem Separate.le_issued (hj : j.Separate) {k : ℕ}
    (hk : (literal k).name ∈ Clause.variableNames j.encoder.clauses) : k ≤ j.encoder.issued := by
  obtain ⟨d, hd, l, hl, hname⟩ := Clause.mem_variableNames.mp hk
  rw [hj.clauses, Clause.disjunctions, List.filterMap_flatMap, List.mem_flatMap] at hd
  obtain ⟨part, hpart, hd⟩ := hd
  exact hj.issued part hpart k (Clause.mem_variableNames.mpr ⟨d, hd, l, hl, hname⟩)

/-- **Bounds do not interfere**, whatever was done to an encoder. -/
theorem parts_independent (lattice : Lattice) (grid : List Node) (ops : List Operation)
    (hops : ∀ op ∈ ops, op.IsLocal) :
    let e := ops.foldl Encoder.operate { lattice, grid }
    let parts := (ofOperations lattice grid ops).parts
    e.clauses = parts.flatMap Part.clauses ∧
      (∀ I, (∃ J, Varies I J ∧ J.Satisfies (Clause.disjunctions e.clauses)) ↔
        ∀ part ∈ parts, part.Satisfiable I) ∧
      (∀ k, (literal k).name ∈ Clause.variableNames e.clauses → k ≤ e.issued) ∧
      e.issued ≤ Word.maxNat32 := by
  intro e parts
  have hstart : Separate ⟨{ lattice, grid }, []⟩ :=
    ⟨Nat.zero_le _, rfl, by simp, by simp, .nil⟩
  have hj : (ofOperations lattice grid ops).Separate := hstart.foldl_operate hops
  have he : (ofOperations lattice grid ops).encoder = e := encoder_foldl_operate ops _
  exact ⟨he ▸ hj.clauses, he ▸ hj.satisfiable_iff, he ▸ fun _ => hj.le_issued, he ▸ hj.fits⟩

/-- A forgotten bound, a rule with a helper, and bounds on the cells and on that helper. -/
theorem parts_independent_after_reset :
    let template : List Clause := [.disjunction [{ name := "G" }, ⟨"h$", false, none⟩]]
    let ops : List Operation := [.bound ⟨.atMost, 1, 0, none⟩, .reset,
      .rule template .rotated none .fixed, .bound ⟨.atMost, 1, 0, none⟩,
      .bound ⟨.atLeast, 1, 0, some "h"⟩]
    let lattice : Lattice := { folding := .bounded 1 2 }
    let grid : List Node := [{ cell := ⟨0, 0⟩ }, { cell := ⟨0, 1⟩ }]
    (∀ op ∈ ops, op.IsLocal) ∧
      ∀ I, (∃ J, Varies I J ∧ J.Satisfies (Clause.disjunctions
          (ops.foldl Encoder.operate { lattice, grid }).clauses)) ↔
        ∀ part ∈ (ofOperations lattice grid ops).parts, part.Satisfiable I := by
  intro template ops lattice grid
  have hlocal : Template.IsLocal template := by
    intro name hname
    obtain ⟨d, hd, l, hl, rfl⟩ := Clause.mem_variableNames.mp hname
    obtain rfl := List.mem_singleton.mp hd
    rcases List.mem_pair.mp hl with rfl | rfl
    · exact .inl (by decide)
    · exact .inr (String.Slice.endsWith_string_iff.mpr (by decide))
  have hops : ∀ op ∈ ops, op.IsLocal := by
    simpa [ops, Operation.IsLocal] using hlocal
  exact ⟨hops, (parts_independent lattice grid ops hops).2.1⟩

end Journal

end Encoder

end CellSat
