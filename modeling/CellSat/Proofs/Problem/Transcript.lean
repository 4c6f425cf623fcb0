import Mathlib
import CellSat.Proofs.Clause.RoundTrip
import CellSat.Proofs.Cnf.Content
import CellSat.Proofs.Counter.Clauses
import CellSat.Proofs.Problem.Independence
import CellSat.Proofs.Template.Instances
import CellSat.Proofs.Template.Turn
/-!
# The text of the clauses of an encoder

The clauses of an encoder are written to one file and numbered for another. The names of cells, of
temporaries and of the false wire can all be read back, so that the written clauses have the same
formula, with one exception: a bound that cannot be met in a generation without cells is the empty
disjunction. Its line is read as a comment, and what is read back can be satisfied.

* `Encoder.Operation.Writable`: rules and bounds whose names and numbers can be read back;
* `Bound.Impossible`: bounds that no generation without cells meets;
* `Encoder.operate_writable`, `Encoder.foldl_operate_writable`: one operation, and many of them;
* **`Encoder.read_write_clauses`**: what is left of the clauses of an encoder that are written and
  read back.
-/

namespace CellSat

open Literal

/-! ## Names -/

theorem Node.toList_name (n : Node) : n.name.toList = 'c' :: '_' :: ((toString n.cell.row).toList ++
    '_' :: ((toString n.cell.column).toList ++ '_' :: (toString n.generation).toList)) := by
  simp [Node.name]

theorem Node.spellable_name (n : Node) : Spellable n.name where
  chars c hc := by
    have hnumber : ∀ x : Int, c ∈ (toString x).toList →
        Text.isBlank c = false ∧ c ≠ '(' ∧ c ≠ ')' := by
      intro x hx
      rcases Text.mem_toString_int hx with rfl | hdigit
      · decide
      · refine ⟨Text.isBlank_of_isDigit hdigit, ?_, ?_⟩ <;> rintro rfl <;>
          exact absurd hdigit (by decide)
    simp only [toList_name, List.mem_cons, List.mem_append] at hc
    rcases hc with rfl | rfl | hc | rfl | hc | rfl | hc
    · decide
    · decide
    · exact hnumber _ hc
    · decide
    · exact hnumber _ hc
    · decide
    · exact hnumber _ hc
  start c hc := by
    rw [toList_name, List.head?_cons, Option.mem_some] at hc
    rw [← hc]
    decide

theorem Text.isBlank_of_digitValue? {c : Char} (h : digitValue? c ≠ none) : isBlank c = false := by
  have hrange : isDigit c = true ∨ 97 ≤ c.toNat ∧ c.toNat ≤ 102 ∨ 65 ≤ c.toNat ∧ c.toNat ≤ 70 := by
    rw [digitValue?] at h
    split_ifs at h with hdigit hlower hupper
    · exact .inl hdigit
    · exact .inr (.inl hlower)
    · exact .inr (.inr hupper)
    · contradiction
  rcases hrange with hdigit | hletter
  · exact isBlank_of_isDigit hdigit
  · simp only [isBlank, Bool.or_eq_false_iff, Bool.and_eq_false_iff, decide_eq_false_iff_not,
      beq_eq_false_iff_ne]
    omega

theorem Temporary.spellable_name (k : Nat) : Spellable (literal k).name where
  chars c hc := by
    have hcases : c ∈ ['\x7b', 'x', '\x7d'] ∨ Text.digitValue? c ≠ none := by
      by_contra h
      rw [not_or, not_not] at h
      exact not_mem_name h.1 h.2 k hc
    rcases hcases with hc | hdigit
    · fin_cases hc <;> decide
    · refine ⟨Text.isBlank_of_digitValue? hdigit, ?_, ?_⟩ <;> rintro rfl <;>
        exact absurd hdigit (by decide)
  start c hc := by
    have hlist : (literal k).name.toList.head? = some '\x7b' := by simp [literal]
    rw [hlist, Option.mem_some] at hc
    rw [← hc]
    decide

namespace Literal

variable {l : Literal}

theorem writable_append_name {start : String} (hstart : Spellable start) {n : Node}
    (hname : l.name = start ++ n.name) (htag : ∀ tag ∈ l.tag, tag ≤ Word.maxNat32) :
    l.Writable := by
  have hmem : '_' ∈ l.name.toList := by
    rw [hname, String.toList_append, Node.toList_name]
    simp
  refine ⟨hname ▸ hstart.append n.spellable_name, ?_, ?_, htag⟩
  · intro heq
    rw [heq] at hmem
    contradiction
  · intro heq
    rw [heq] at hmem
    exact absurd hmem (by decide)

theorem writable_temporary {k : Nat} (hname : (Temporary.literal k).name = l.name)
    (htag : ∀ tag ∈ l.tag, tag ≤ Word.maxNat32) : l.Writable := by
  have hmem : '\x7b' ∈ l.name.toList := by
    rw [← hname]
    simp [Temporary.literal]
  refine ⟨hname ▸ Temporary.spellable_name k, ?_, ?_, htag⟩
  · intro heq
    rw [heq] at hmem
    contradiction
  · intro heq
    rw [heq] at hmem
    exact absurd hmem (by decide)

theorem Writable.rename (h : l.Writable) {name : String}
    (hname : name ∈ zeroName :: Symbol.center :: Symbol.neighbors) : (l.rename name).Writable := by
  have hnames : ∀ name ∈ zeroName :: Symbol.center :: Symbol.neighbors,
      Spellable name ∧ name ≠ "" ∧ name ≠ Clause.impliedBy := by decide
  obtain ⟨hspellable, hnonempty, harrow⟩ := hnames name hname
  exact ⟨hspellable, hnonempty, harrow, h.tag_le⟩

end Literal

/-! ## Rules -/

namespace Template

variable {template expanded cs : List Clause} {basis : Basis} {turn : Turn}
  {consequent : Option String} {lattice : Lattice} {grid : List Node} {n : Node}
  {s : Substitution} {l : Literal}

theorem tag_apply_le (hturn : turn.IsNarrow) (hl : l.Writable) :
    ∀ tag ∈ (s.apply turn l).tag, tag ≤ Word.maxNat32 := by
  rw [Substitution.apply]
  cases s.lookup l.name with
  | none => exact hl.tag_le
  | some target =>
    intro tag htag
    obtain ⟨tag', htag', rfl⟩ := Option.mem_map.mp htag
    exact Turn.adjust_le hturn _ (hl.tag_le tag' htag')

theorem writable_apply (hturn : turn.IsNarrow) (hl : l.Writable)
    (hlocal : l.name ∈ Symbol.center :: Symbol.neighbors ∨ l.name.endsWith helperEnd = true)
    (hname : (s.apply turn l).name = lattice.variableAt n l.name) : (s.apply turn l).Writable := by
  have htag : ∀ tag ∈ (s.apply turn l).tag, tag ≤ Word.maxNat32 := tag_apply_le hturn hl
  rcases lattice.variableAt_cases n hlocal with hzero | ⟨m, -, -, hm⟩ | ⟨-, hhelper⟩
  · have hwire : (l.rename Literal.zeroName).Writable := hl.rename List.mem_cons_self
    rw [hzero] at hname
    exact ⟨hname ▸ hwire.spellable, hname ▸ hwire.nonempty, hname ▸ hwire.notArrow, htag⟩
  · have hempty : Spellable "" := by decide
    have hcell : (s.apply turn l).name = "" ++ m.name := by rw [hname, hm, String.empty_append]
    exact writable_append_name hempty hcell htag
  · exact writable_append_name hl.spellable (hname.trans hhelper) htag

theorem writable_expandSymmetry (hlocal : IsLocal template) (hwritable : Clause.Writable template)
    (h : Clause.expandSymmetry basis.generators template = .ok expanded) :
    Clause.Writable expanded ∧ ∀ d ∈ Clause.disjunctions expanded, ∀ l ∈ d,
      l.name ∈ Symbol.center :: Symbol.neighbors ∨ l.name.endsWith helperEnd = true := by
  have hliterals := Clause.forall_expandSymmetry
    (P := fun l => l.Writable ∧
      (l.name ∈ Symbol.center :: Symbol.neighbors ∨ l.name.endsWith helperEnd = true))
    (fun l hl symbol hsymbol => ⟨hl.1.rename (List.mem_cons_of_mem _ hsymbol), .inl hsymbol⟩) h
    fun d hd l hl => ⟨hwritable.literals d hd l hl,
      hlocal l.name (Clause.mem_variableNames.mpr ⟨d, hd, l, hl, rfl⟩)⟩
  refine ⟨⟨?_, fun d hd l hl => (hliterals d hd l hl).1⟩, fun d hd l hl => (hliterals d hd l hl).2⟩
  rw [Clause.comments_expandSymmetry h]
  exact hwritable.comments

theorem writable_inflateGrid64 (hturn : turn.IsNarrow) (hwritable : Clause.Writable template)
    (hlocal : ∀ d ∈ Clause.disjunctions template, ∀ l ∈ d,
      l.name ∈ Symbol.center :: Symbol.neighbors ∨ l.name.endsWith helperEnd = true)
    (h : inflateGrid64 lattice grid template consequent turn = .ok cs) : Clause.Writable cs where
  comments text htext := by
    rcases comments_inflateGrid64 h htext with htext | ⟨c, hc, rfl⟩
    · exact hwritable.comments text htext
    · intro hmem
      rw [String.toList_append, List.mem_append] at hmem
      rcases hmem with hmem | hmem
      · exact absurd hmem (by decide)
      · have hlegible := fun l hl => (hwritable.literals c hc l hl).spellable.legible
        rcases Clause.mem_renderDisjunction hlegible hmem with heq | hblank
        · exact absurd heq (by decide)
        · exact absurd hblank (by decide)
  literals := by
    have hzero : Literal.zero.negate.Writable := by decide
    refine forall_inflateGrid64 hzero h fun n hn s hs d hd l hl => ?_
    have hname : (s.apply turn l).name = lattice.variableAt n l.name := by
      rw [Substitution.name_apply, Lattice.naming_substitution64 hs hd hl]
    exact writable_apply hturn (hwritable.literals d hd l hl) (hlocal d hd l hl) hname

theorem nil_not_mem_inflateGrid64 (hnil : [] ∉ Clause.disjunctions template)
    (h : inflateGrid64 lattice grid template consequent turn = .ok cs) :
    [] ∉ Clause.disjunctions cs := by
  obtain ⟨ss, -, hmem⟩ := mem_inflateGrid64 h
  rw [hmem, not_or]
  constructor
  · rintro ⟨c, hc, hinstance⟩
    obtain ⟨s, -, hs⟩ := List.mem_filterMap.mp hinstance
    obtain rfl : c = [] := List.map_eq_nil_iff.mp (eq_of_instantiate? hs).symm
    exact hnil hc
  · rintro ⟨h, -⟩
    contradiction

end Template

/-! ## Bounds -/

namespace Bound

variable {b : Bound} {lattice : Lattice} {grid : List Node} {issued issued' : Nat}
  {cs : List Clause}

/-- A bound on a generation without cells that cannot be met. -/
def Impossible (b : Bound) (lattice : Lattice) (grid : List Node) : Prop :=
  lattice.layer grid b.generation = [] ∧
    match b.comparator with
    | .atMost => b.size < 0
    | .atLeast => 0 < b.size

theorem writable_clauses64 (hhelper : ∀ helper ∈ b.helper, Spellable helper)
    (h : b.clauses64 lattice grid issued = .ok (cs, issued')) : Clause.Writable cs where
  comments text htext := by
    obtain ⟨c, -, h⟩ := bind_eq_ok.mp h
    obtain ⟨rfl, -⟩ := Prod.mk.inj (Except.ok.inj h)
    obtain rfl : text = _ := by simpa [heading] using htext
    have hrender : ∀ comparator : Comparator, '\n' ∉ comparator.render.toList := by
      rintro (_ | _) <;> decide
    have hsize : '\n' ∉ (toString b.size).toList := fun hmem => by
      rcases Text.mem_toString_int hmem with heq | hdigit
      · exact absurd heq (by decide)
      · exact absurd hdigit (by decide)
    simp only [String.toList_append, List.mem_append, not_or]
    exact ⟨⟨⟨by decide, hrender _⟩, by decide⟩, hsize⟩
  literals d hd l hl := by
    obtain ⟨htag, hname⟩ := (forall_clauses64 h).2 d hd l hl
    have htag' : ∀ tag ∈ l.tag, tag ≤ Word.maxNat32 := by simp [htag]
    rcases hname with ⟨l', hl', hname⟩ | ⟨k, -, -, hname⟩
    · obtain ⟨n, -, rfl⟩ := List.mem_map.mp hl'
      refine writable_append_name ?_ hname.symm htag'
      cases hb : b.helper with
      | none => decide
      | some helper =>
        have hmark : Spellable "$" := by decide
        exact (hhelper helper hb).append hmark
    · exact writable_temporary hname htag'

theorem literals_eq_nil_iff : b.literals lattice grid = [] ↔ lattice.layer grid b.generation = [] :=
  List.map_eq_nil_iff

/-- The empty disjunction is what an impossible bound comes to. -/
theorem nil_mem_clauses64 (h : b.clauses64 lattice grid issued = .ok (cs, issued')) :
    [] ∈ Clause.disjunctions cs ↔ b.Impossible lattice grid := by
  obtain ⟨c, hc, h⟩ := bind_eq_ok.mp h
  obtain ⟨rfl, -⟩ := Prod.mk.inj (Except.ok.inj h)
  rw [heading, Clause.disjunctions_comment, Clause.disjunctions_map, Impossible]
  cases hcomparator : b.comparator with
  | atMost =>
    rw [hcomparator] at hc
    obtain rfl := Count.eq_of_atMost32 hc
    rw [Count.nil_mem_atMost, literals_eq_nil_iff]
  | atLeast =>
    rw [hcomparator] at hc
    obtain ⟨others, hothers, hc⟩ := bind_eq_ok.mp hc
    obtain rfl := Count.eq_of_atMost32 hc
    rw [Count.nil_mem_atMost, List.map_eq_nil_iff, literals_eq_nil_iff, Word.eq_of_int64 hothers]
    refine and_congr_right fun hlayer => ?_
    rw [literals_eq_nil_iff.mpr hlayer, List.length_nil]
    omega

theorem exists_clauses64_of_impossible (h : b.Impossible lattice grid)
    (hsize : b.size ≤ Word.maxInt64) (issued : Nat) :
    ∃ cs issued', b.clauses64 lattice grid issued = .ok (cs, issued') := by
  obtain ⟨c, hc⟩ : ∃ c, b.comparator.count issued (b.literals lattice grid) b.size = .ok c := by
    obtain ⟨hlayer, hsize'⟩ := h
    rw [literals_eq_nil_iff.mpr hlayer]
    cases hcomparator : b.comparator with
    | atMost => exact ⟨_, rfl⟩
    | atLeast =>
      simp only [hcomparator] at hsize'
      simp only [Word.maxInt64] at hsize
      have hothers : Word.sub ([] : List Literal).length b.size = .ok (0 - b.size) :=
        Word.int64_eq_ok (by rw [List.length_nil]; omega) (by rw [List.length_nil]; omega)
      rw [Comparator.count, Count.atLeast32, hothers]
      exact ⟨_, rfl⟩
  rw [clauses64, hc]
  exact ⟨_, _, rfl⟩

end Bound

/-! ## Operations -/

namespace Encoder

/-- Rules and bounds whose names and numbers can be read back. -/
def Operation.Writable : Operation → Prop
  | rule template _ _ turn => Template.IsLocal template ∧ Clause.Writable template ∧
      [] ∉ Clause.disjunctions template ∧ turn.IsNarrow
  | bound b => (∀ helper ∈ b.helper, Spellable helper) ∧ b.size ≤ Word.maxInt64
  | reset => False

theorem operate_rule_writable (e : Encoder) {template : List Clause} {basis : Basis}
    {consequent : Option String} {turn : Turn}
    (hop : (Operation.rule template basis consequent turn).Writable) :
    ∃ cs, (e.operate (.rule template basis consequent turn)).clauses = e.clauses ++ cs ∧
      (e.operate (.rule template basis consequent turn)).lattice = e.lattice ∧
      (e.operate (.rule template basis consequent turn)).grid = e.grid ∧
      Clause.Writable cs ∧ [] ∉ Clause.disjunctions cs := by
  obtain ⟨hlocal, hwritable, hnil, hturn⟩ := hop
  rw [operate]
  cases h : e.addRule template basis consequent turn with
  | error failure =>
    exact ⟨[], (List.append_nil _).symm, rfl, rfl, by decide, List.not_mem_nil⟩
  | ok e' =>
    obtain ⟨expanded, hexpanded, h⟩ := bind_eq_ok.mp h
    obtain ⟨cs, hcs, h⟩ := bind_eq_ok.mp h
    have hcs := Checked.toResult_eq_ok.mp hcs
    obtain rfl := Except.ok.inj h
    obtain ⟨hwritable', hlocal'⟩ := Template.writable_expandSymmetry hlocal hwritable hexpanded
    have hnil' : [] ∉ Clause.disjunctions expanded := fun hmem => by
      obtain ⟨c, hc, himage⟩ := Clause.exists_image_of_mem hexpanded hmem
      rw [List.eq_nil_of_length_eq_zero himage.length_eq.symm] at hc
      exact hnil hc
    exact ⟨cs, rfl, rfl, rfl, Template.writable_inflateGrid64 hturn hwritable' hlocal' hcs,
      Template.nil_not_mem_inflateGrid64 hnil' hcs⟩

theorem operate_bound_writable (e : Encoder) {b : Bound} (hop : (Operation.bound b).Writable) :
    ∃ cs, (e.operate (.bound b)).clauses = e.clauses ++ cs ∧
      (e.operate (.bound b)).lattice = e.lattice ∧ (e.operate (.bound b)).grid = e.grid ∧
      Clause.Writable cs ∧ ([] ∈ Clause.disjunctions cs ↔ b.Impossible e.lattice e.grid) := by
  obtain ⟨hhelper, hsize⟩ := hop
  rw [operate, addBound]
  cases h : b.clauses64 e.lattice e.grid e.issued with
  | error failure =>
    refine ⟨[], (List.append_nil _).symm, rfl, rfl, by decide, iff_of_false List.not_mem_nil ?_⟩
    intro himpossible
    obtain ⟨cs, issued', hok⟩ := Bound.exists_clauses64_of_impossible himpossible hsize e.issued
    rw [h] at hok
    contradiction
  | ok result =>
    obtain ⟨cs, issued'⟩ := result
    exact ⟨cs, rfl, rfl, rfl, Bound.writable_clauses64 hhelper h, Bound.nil_mem_clauses64 h⟩

/-- **One operation** adds an empty disjunction only for an impossible bound. -/
theorem operate_writable (e : Encoder) {op : Operation} (hop : op.Writable) :
    ∃ cs, (e.operate op).clauses = e.clauses ++ cs ∧ (e.operate op).lattice = e.lattice ∧
      (e.operate op).grid = e.grid ∧ Clause.Writable cs ∧
      ([] ∈ Clause.disjunctions cs ↔ ∃ b, op = .bound b ∧ b.Impossible e.lattice e.grid) := by
  cases op with
  | rule template basis consequent turn =>
    obtain ⟨cs, hclauses, hlattice, hgrid, hcs, hnil⟩ := operate_rule_writable e hop
    exact ⟨cs, hclauses, hlattice, hgrid, hcs, iff_of_false hnil (by simp)⟩
  | bound b =>
    obtain ⟨cs, hclauses, hlattice, hgrid, hcs, hnil⟩ := operate_bound_writable e hop
    exact ⟨cs, hclauses, hlattice, hgrid, hcs, hnil.trans (by simp)⟩
  | reset => exact hop.elim

/-- **Many operations** do so as well. -/
theorem foldl_operate_writable {ops : List Operation} (hops : ∀ op ∈ ops, op.Writable)
    (e : Encoder) : ∃ cs, (ops.foldl operate e).clauses = e.clauses ++ cs ∧ Clause.Writable cs ∧
      ([] ∈ Clause.disjunctions cs ↔ ∃ b, .bound b ∈ ops ∧ b.Impossible e.lattice e.grid) := by
  induction ops generalizing e with
  | nil => exact ⟨[], (List.append_nil _).symm, by decide, by simp⟩
  | cons op ops ih =>
    obtain ⟨hop, hops⟩ := List.forall_mem_cons.mp hops
    obtain ⟨cs, hclauses, hlattice, hgrid, hcs, hnil⟩ := operate_writable e hop
    obtain ⟨cs', hclauses', hcs', hnil'⟩ := ih hops (e.operate op)
    refine ⟨cs ++ cs', ?_, hcs.append hcs', ?_⟩
    · rw [List.foldl_cons, hclauses', hclauses, List.append_assoc]
    · rw [Clause.disjunctions_append, List.mem_append, hnil, hnil', hlattice, hgrid]
      simp only [List.mem_cons, or_and_right, exists_or, eq_comm]

/-! ## Reading clauses back -/

/-- **The text of the clauses** can be read back, but for the empty clause of an impossible bound.
-/
theorem read_write_clauses (lattice : Lattice) (grid : List Node) (ops : List Operation)
    (hops : ∀ op ∈ ops, op.Writable) :
    let e := ops.foldl operate { lattice, grid }
    let lost := ∃ b, .bound b ∈ ops ∧ b.Impossible lattice grid
    ∃ cs, Clause.read (.text (Clause.write e.clauses)) = .ok cs ∧
      Clause.disjunctions cs = (Clause.disjunctions e.clauses).filter (· ≠ []) ∧
      (¬ lost → (Formula.compile cs).map Formula.content = e.compile.map Formula.content) ∧
      (lost → Disjunction.Boolean (Clause.disjunctions e.clauses) →
        (Formula.compile cs).map Formula.symbols = e.compile.map Formula.symbols ∧
        ∀ f g, e.compile = .ok f → Formula.compile cs = .ok g →
          [] ∈ f.clauses ∧ [] ∉ g.clauses) := by
  intro e lost
  obtain ⟨es, hclauses, hes, hlost⟩ := foldl_operate_writable hops { lattice, grid }
  have hclauses : e.clauses = es := hclauses
  rw [← hclauses] at hes hlost
  obtain ⟨cs, hread, hcs⟩ := Clause.read_write hes
  refine ⟨cs, hread, hcs, fun hkept => Formula.content_compile ?_, fun hlose hbool => ?_⟩
  · rw [hcs, List.filter_eq_self]
    intro d hd
    exact decide_eq_true fun hnil => hkept (hlost.mp (hnil ▸ hd))
  · have hbool' : Disjunction.Boolean (Clause.disjunctions cs) := fun d hd =>
      hbool d (List.mem_of_mem_filter (hcs ▸ hd))
    have hnames : Clause.variableNames cs = Clause.variableNames e.clauses := by
      rw [Clause.variableNames, Clause.variableNames, Clause.namesOf, Clause.namesOf, hcs,
        List.flatten_filter_ne_nil]
    refine ⟨Formula.symbols_compile hbool hbool' hnames, fun f g hf hg => ⟨?_, ?_⟩⟩
    · exact (Formula.nil_mem_clauses hbool hf).mpr (hlost.mpr hlose)
    · rw [Formula.nil_mem_clauses hbool' hg, hcs]
      simp

/-- A rule with a helper and bounds on cells and on that helper, of which nothing is lost. -/
theorem read_write_clauses_helper :
    let template : List Clause :=
      [.comment "marked cells live", .disjunction [{ name := "G" }, ⟨"h$", false, none⟩]]
    let ops : List Operation := [.rule template .rotated none .fixed,
      .bound ⟨.atMost, 1, 0, none⟩, .bound ⟨.atLeast, 1, 0, some "h"⟩]
    let lattice : Lattice := { folding := .bounded 1 2 }
    let grid : List Node := [{ cell := ⟨0, 0⟩ }, { cell := ⟨0, 1⟩ }]
    let e := ops.foldl operate { lattice, grid }
    (∀ op ∈ ops, op.Writable) ∧
      ∃ cs, Clause.read (.text (Clause.write e.clauses)) = .ok cs ∧
        (Formula.compile cs).map Formula.content = e.compile.map Formula.content := by
  intro template ops lattice grid e
  have hlocal : Template.IsLocal template := by
    intro name hname
    obtain ⟨d, hd, l, hl, rfl⟩ := Clause.mem_variableNames.mp hname
    obtain rfl := List.mem_singleton.mp hd
    rcases List.mem_pair.mp hl with rfl | rfl
    · exact .inl (by decide)
    · exact .inr (String.Slice.endsWith_string_iff.mpr (by decide))
  have hops : ∀ op ∈ ops, op.Writable := by
    simp only [ops, List.forall_mem_cons, Operation.Writable]
    exact ⟨⟨hlocal, by decide +kernel, by decide, trivial⟩, ⟨by simp, by decide⟩,
      ⟨by simpa using (by decide +kernel : Spellable "h"), by decide⟩, by simp⟩
  have hkept : ¬ ∃ b, .bound b ∈ ops ∧ b.Impossible lattice grid := by
    rintro ⟨b, hb, hlayer, -⟩
    have hgeneration : b.generation = 0 := by
      simp only [ops, List.mem_cons, Operation.bound.injEq, reduceCtorEq, List.not_mem_nil,
        or_false, false_or] at hb
      rcases hb with rfl | rfl <;> rfl
    rw [hgeneration] at hlayer
    exact absurd hlayer (by decide)
  obtain ⟨cs, hread, -, hcontent, -⟩ := read_write_clauses lattice grid ops hops
  exact ⟨hops, cs, hread, hcontent hkept⟩

/-- A still life has no cells in generation 5. The clause that says so is lost as a blank line. -/
theorem read_write_loses_bound :
    let e := operate { lattice := { folding := .torus 1 1 0 }, grid := [Node.origin] }
      (.bound ⟨.atLeast, 1, 5, none⟩)
    ∃ cs f g, Clause.read (.text (Clause.write e.clauses)) = .ok cs ∧ e.compile = .ok f ∧
      Formula.compile cs = .ok g ∧ [] ∈ f.clauses ∧ g.clauses = [] := by
  intro e
  have hlines : e.clauses =
      [.comment "Population constraint GreaterThanOrEqual 1", .disjunction []] := by decide
  have hwritable : Clause.Writable e.clauses := by
    rw [hlines]
    decide +kernel
  obtain ⟨cs, hread, hcs⟩ := Clause.read_write hwritable
  have hnil : ∀ d ∈ Clause.disjunctions e.clauses, d = [] := by
    rw [hlines]
    exact fun d => List.mem_singleton.mp
  have hnone : Clause.disjunctions cs = [] := by
    rw [hcs, List.filter_eq_nil_iff]
    simpa using hnil
  have hnil' : ∀ d ∈ Clause.disjunctions cs, d = [] := by simp [hnone]
  obtain ⟨f, hf⟩ := Formula.exists_compile_of_nil hnil
  obtain ⟨g, hg⟩ := Formula.exists_compile_of_nil hnil'
  refine ⟨cs, f, g, hread, hf, hg, ?_, ?_⟩
  · rw [Formula.nil_mem_clauses (Disjunction.boolean_of_nil hnil) hf, hlines]
    exact List.mem_singleton_self []
  · have hclauses := Formula.clauses_of_compile hg
      (Clause.expandTags_of_boolean (Disjunction.boolean_of_nil hnil'))
    rw [hnone] at hclauses
    exact (Except.ok.inj hclauses).symm

end Encoder

end CellSat
