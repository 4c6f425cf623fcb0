import Mathlib
import CellSat.Proofs.Entries
import CellSat.Proofs.Grid.Search
import CellSat.Proofs.Meaning
import CellSat.Template.Inflate
/-!
# The meaning of inflated templates

An instance of a template clause says of the variables of a neighbourhood what the clause says of
its symbols. Instances are left out only if they are true because of the false wire.

* `Substitution.naming`: the variables that symbols stand for;
* **`Template.inflateGrid64_renames`**: the meaning of a template at every node of a grid, if its
  tags are not turned;
* `Template.inflateGrid64_eq_ok`: the same for a template without tags;
* `Lattice.lookup_substitution64`: what symbols and helpers stand for at a node.
-/

namespace CellSat

/-! ## Instances -/

/-- The variable that a symbol stands for. -/
def Substitution.naming (s : Substitution) (name : String) : String :=
  (s.lookup name).elim name Target.name

theorem Substitution.apply_eq_rename (s : Substitution) {turn : Turn} {l : Literal}
    (hl : turn = .fixed ∨ l.tag = none) : s.apply turn l = l.rename (s.naming l.name) := by
  have htag : ∀ orientation, l.tag.map (turn.adjust orientation) = l.tag := by
    intro orientation
    rcases hl with rfl | hl
    · exact Option.map_id'
    · rw [hl, Option.map_none]
  rw [apply, naming]
  cases s.lookup l.name with
  | none => rfl
  | some target => simp only [htag, Option.elim_some, Literal.rename]

namespace Template

variable {I : Interpretation} {turn : Turn} {consequent : Option String}

theorem holds_map_apply {d : Disjunction} (hd : ∀ l ∈ d, turn = .fixed ∨ l.tag = none)
    (s : Substitution) :
    Disjunction.holds I (d.map (s.apply turn)) = d.holds (I.along s.naming) := by
  rw [← Disjunction.holds_rename]
  congr 1
  exact List.map_congr_left fun l hl => s.apply_eq_rename (hd l hl)

theorem satisfies_instances {d : Disjunction} (hd : ∀ l ∈ d, turn = .fixed ∨ l.tag = none)
    {ss : List Substitution} :
    I.Satisfies (instances d turn ss) ↔ ∀ s ∈ ss, d.holds (I.along s.naming) = true := by
  constructor
  · intro h s hs
    rw [← @holds_map_apply I turn d hd s]
    by_cases hzero : ((d.map (s.apply turn)).contains Literal.zero &&
        (d.map (s.apply turn)).contains Literal.zero.negate) = true
    · refine Disjunction.holds_of_isTautology (List.any_eq_true.mpr ⟨Literal.zero, ?_⟩)
      rw [Bool.and_eq_true, List.contains_iff_mem] at hzero
      exact hzero
    · refine h _ (List.mem_filterMap.mpr ⟨s, hs, ?_⟩)
      rw [instantiate?, if_neg hzero]
  · intro h e he
    obtain ⟨s, hs, hse⟩ := List.mem_filterMap.mp he
    rw [instantiate?] at hse
    split_ifs at hse
    rw [← Option.some.inj hse, holds_map_apply hd]
    exact h s hs

theorem holds_pin :
    Disjunction.holds I [Literal.zero.negate] = true ↔ I.truth Literal.zeroName = false := by
  simp [Disjunction.holds, Literal.holds, Literal.negate, Literal.zero]

theorem satisfies_pin (hzero : I.truth Literal.zeroName = false) :
    I.Satisfies (Clause.disjunctions [pin]) :=
  Interpretation.satisfies_cons.mpr ⟨holds_pin.mpr hzero, Interpretation.satisfies_nil⟩

theorem satisfies_flatMap_inflateLine {template : List Clause} {ss : List Substitution}
    (hrenames : ∀ d ∈ Clause.disjunctions template, ∀ l ∈ d, turn = .fixed ∨ l.tag = none) :
    I.Satisfies (Clause.disjunctions
        ((template.map (inflateLine ss consequent turn)).flatMap (·.1))) ↔
      ∀ s ∈ ss, (I.along s.naming).Satisfies (Clause.disjunctions template) := by
  induction template with
  | nil => simp [Interpretation.satisfies_nil]
  | cons line template ih =>
    rw [List.map_cons, List.flatMap_cons, Clause.disjunctions_append,
      Interpretation.satisfies_append]
    cases line with
    | comment text =>
      rw [ih hrenames]
      simp [inflateLine, Interpretation.satisfies_nil]
    | disjunction d =>
      rw [Clause.disjunctions_disjunction] at hrenames ⊢
      rw [ih fun e he => hrenames e (List.mem_cons_of_mem d he)]
      simp only [inflateLine, heading, Clause.disjunctions_comment, Clause.disjunctions_map,
        satisfies_instances (hrenames d List.mem_cons_self), Interpretation.satisfies_cons,
        forall_and]

theorem satisfies_append_pin (hzero : I.truth Literal.zeroName = false) (cs : List Clause)
    (b : Bool) : I.Satisfies (Clause.disjunctions (cs ++ if b then [pin] else [])) ↔
      I.Satisfies (Clause.disjunctions cs) := by
  rw [Clause.disjunctions_append, Interpretation.satisfies_append]
  cases b with
  | false => exact and_iff_left Interpretation.satisfies_nil
  | true => exact and_iff_left (satisfies_pin hzero)

theorem pin_mem_of_lookup {lattice : Lattice} {grid : List Node} {template cs : List Clause}
    (hcs : inflateGrid64 lattice grid template consequent turn = .ok cs) {n : Node} (hn : n ∈ grid)
    {s : Substitution} (hs : lattice.substitution64 (helpers template) n = .ok s)
    {symbol : String} {target : Target} (hlookup : s.lookup symbol = some target)
    (hzero : target.name = Literal.zeroName) : pin ∈ cs := by
  obtain ⟨ss, hss, hcs⟩ := bind_eq_ok.mp hcs
  have hmem : s ∈ ss := (mem_of_mapM_eq_ok hss).mpr ⟨n, hn, hs⟩
  have hhas : (ss.any fun s => s.any fun e => e.2.name == Literal.zeroName) = true := by
    rw [List.any_eq_true]
    exact ⟨s, hmem, List.any_eq_true.mpr
      ⟨(symbol, target), Entries.mem_of_lookup hlookup, beq_iff_eq.mpr hzero⟩⟩
  simp only [hhas, Bool.true_and] at hcs
  obtain rfl := Except.ok.inj hcs
  by_cases hlast : (inflate template ss consequent turn).getLast? = some pin
  · rw [if_neg (by simp [hlast])]
    exact List.mem_of_getLast? hlast
  · rw [if_pos (bne_iff_ne.mpr hlast)]
    exact List.mem_append_right _ (List.mem_singleton_self _)

/-- **The meaning of an inflated template** whose tags are not turned. -/
theorem inflateGrid64_renames {lattice : Lattice} {grid : List Node} {template : List Clause}
    (hrenames : ∀ d ∈ Clause.disjunctions template, ∀ l ∈ d, turn = .fixed ∨ l.tag = none)
    (hgrid : ∀ n ∈ grid, ∃ s, lattice.substitution64 (helpers template) n = .ok s)
    (consequent : Option String) :
    ∃ cs, inflateGrid64 lattice grid template consequent turn = .ok cs ∧
      ∀ I : Interpretation, I.truth Literal.zeroName = false →
        (I.Satisfies (Clause.disjunctions cs) ↔ ∀ n ∈ grid, ∀ s,
          lattice.substitution64 (helpers template) n = .ok s →
            (I.along s.naming).Satisfies (Clause.disjunctions template)) := by
  obtain ⟨ss, hss, -⟩ := @mapM_eq_ok _ _ _ (lattice.substitution64 (helpers template))
    (fun _ _ => True) grid fun n hn => (hgrid n hn).imp fun s hs => ⟨hs, trivial⟩
  refine ⟨_, by rw [inflateGrid64, hss]; rfl, fun I hzero => ?_⟩
  have hpins : ∀ cs b, (if b = true then cs ++ [pin] else cs) = cs ++ if b then [pin] else [] := by
    intro cs b
    cases b <;> simp
  rw [hpins, satisfies_append_pin hzero, inflate, satisfies_append_pin hzero,
    satisfies_flatMap_inflateLine hrenames]
  simp only [mem_of_mapM_eq_ok hss]
  exact ⟨fun h n hn s hs => h s ⟨n, hn, hs⟩, fun h s ⟨n, hn, hs⟩ => h n hn s hs⟩

theorem inflateGrid64_eq_ok {lattice : Lattice} {grid : List Node} {template : List Clause}
    (hboolean : Disjunction.Boolean (Clause.disjunctions template))
    (hgrid : ∀ n ∈ grid, ∃ s, lattice.substitution64 (helpers template) n = .ok s)
    (consequent : Option String) (turn : Turn) :
    ∃ cs, inflateGrid64 lattice grid template consequent turn = .ok cs ∧
      ∀ I : Interpretation, I.truth Literal.zeroName = false →
        (I.Satisfies (Clause.disjunctions cs) ↔ ∀ n ∈ grid, ∀ s,
          lattice.substitution64 (helpers template) n = .ok s →
            (I.along s.naming).Satisfies (Clause.disjunctions template)) :=
  inflateGrid64_renames (fun d hd l hl => .inr (hboolean d hd l hl)) hgrid consequent

end Template

/-! ## The substitution of a node -/

namespace Lattice

open Template

variable {lattice : Lattice} {n : Node}

theorem neighborTargets64_eq_ok {symbols : List String} (h : ∀ symbol ∈ symbols,
      lattice.neighbor64? symbol n = .ok (lattice.neighbor? symbol n)) :
    lattice.neighborTargets64 n symbols = .ok (symbols.filterMap fun symbol =>
      ((lattice.neighbor? symbol n).map lattice.target).map fun target => (symbol, target)) := by
  induction symbols with
  | nil => rfl
  | cons symbol symbols ih =>
    rw [List.forall_mem_cons] at h
    rw [neighborTargets64, h.1, ih h.2]
    cases hs : lattice.neighbor? symbol n with
    | none => simp [hs, bind, Except.bind, pure, Except.pure]
    | some m => simp [hs, bind, Except.bind, pure, Except.pure]

theorem lookup_helperTargets (n : Node) (helpers : List String) (k : String) :
    (helperTargets n helpers).reverse.lookup k =
      if k ∈ helpers then some ⟨k ++ n.name, n.orientation⟩ else none := by
  rw [helperTargets, ← List.map_reverse,
    Entries.lookup_map fun helper => (⟨helper ++ n.name, n.orientation⟩ : Target)]
  simp only [List.mem_reverse]

/-- The node that a symbol of a neighbourhood names. -/
def named? (lattice : Lattice) (n : Node) (symbol : String) : Option Node :=
  if symbol = Symbol.center then some n else lattice.neighbor? symbol n

theorem mem_neighbors_of_neighbor? {symbol : String} {m : Node}
    (h : lattice.neighbor? symbol n = some m) : symbol ∈ Symbol.neighbors := by
  rw [neighbor?] at h
  by_cases hnext : symbol = Symbol.next
  · rw [hnext]
    decide
  · rw [if_neg hnext, Option.map_eq_some_iff] at h
    obtain ⟨d, hd, -⟩ := h
    unfold Cell.displacement? at hd
    split at hd <;> first | decide | exact absurd hd (by simp)

theorem not_mem_helpers {symbol : String} (h : symbol ∈ Symbol.center :: Symbol.neighbors)
    (template : List Clause) : symbol ∉ Template.helpers template := by
  have hend : ∀ symbol ∈ Symbol.center :: Symbol.neighbors,
      symbol.endsWith Template.helperEnd = false := by
    decide +kernel
  rw [Template.helpers, List.mem_filter, hend symbol h]
  simp

theorem neighbor64?_of_neighborTargets64 {symbols : List String} {l : List (String × Target)}
    (h : lattice.neighborTargets64 n symbols = .ok l) :
    ∀ symbol ∈ symbols, lattice.neighbor64? symbol n = .ok (lattice.neighbor? symbol n) := by
  induction symbols generalizing l with
  | nil => simp
  | cons symbol symbols ih =>
    obtain ⟨o, ho, h⟩ := bind_eq_ok.mp h
    obtain ⟨rest, hrest, -⟩ := bind_eq_ok.mp h
    exact List.forall_mem_cons.mpr ⟨eq_of_neighbor64? ho ▸ ho, ih hrest⟩

theorem lookup_substitution64 {helpers : List String} {s : Substitution}
    (h : lattice.substitution64 helpers n = .ok s) (symbol : String) :
    s.lookup symbol = if symbol ∈ helpers then some ⟨symbol ++ n.name, n.orientation⟩
      else (lattice.named? n symbol).map lattice.target := by
  obtain ⟨l, hl, h⟩ := bind_eq_ok.mp h
  rw [neighborTargets64_eq_ok (neighbor64?_of_neighborTargets64 hl)] at hl
  obtain rfl := Except.ok.inj hl
  obtain rfl := Except.ok.inj h
  rw [Entries.lookup_ofList, List.reverse_append, List.reverse_cons, List.lookup_append,
    List.lookup_append, lookup_helperTargets, Entries.lookup_cons, ← List.filterMap_reverse,
    Entries.lookup_filterMap, named?]
  by_cases hhelper : symbol ∈ helpers
  · simp [hhelper]
  · rw [if_neg hhelper, if_neg hhelper]
    by_cases hcenter : symbol = Symbol.center
    · simp [hcenter]
    · rw [if_neg hcenter, if_neg hcenter]
      by_cases hneighbor : symbol ∈ Symbol.neighbors
      · simp [hneighbor]
      · have hnone : lattice.neighbor? symbol n = none := by
          by_contra hsome
          obtain ⟨m, hm⟩ := Option.ne_none_iff_exists'.mp hsome
          exact hneighbor (mem_neighbors_of_neighbor? hm)
        simp [hneighbor, hnone]

theorem exists_lookup {l : List Node} (h : lattice.neighbors64 n = .ok l) (helpers : List String) :
    ∃ s, lattice.substitution64 helpers n = .ok s ∧
      ∀ symbol, s.lookup symbol = if symbol ∈ helpers then some ⟨symbol ++ n.name, n.orientation⟩
        else (lattice.named? n symbol).map lattice.target := by
  obtain ⟨-, hchecked⟩ := neighborsBy64_eq_ok h
  have hok : ∃ s, lattice.substitution64 helpers n = .ok s :=
    ⟨_, by rw [substitution64, neighborTargets64_eq_ok hchecked]; rfl⟩
  exact hok.imp fun s hs => ⟨hs, lookup_substitution64 hs⟩

theorem substitution64_eq_ok {l : List Node} (h : lattice.neighbors64 n = .ok l)
    {helpers : List String} (hcenter : Symbol.center ∉ helpers)
    (hneighbors : ∀ symbol ∈ Symbol.neighbors, symbol ∉ helpers) :
    ∃ s, lattice.substitution64 helpers n = .ok s ∧
      s.naming Symbol.center = (lattice.target n).name ∧
      ∀ symbol ∈ Symbol.neighbors, ∀ m, lattice.neighbor? symbol n = some m →
        s.naming symbol = (lattice.target m).name := by
  obtain ⟨s, hs, hlookup⟩ := exists_lookup h helpers
  refine ⟨s, hs, ?_, ?_⟩
  · rw [Substitution.naming, hlookup, if_neg hcenter, named?, if_pos rfl]
    rfl
  · intro symbol hsymbol m hm
    have hne : symbol ≠ Symbol.center := by
      rintro rfl
      revert hsymbol
      decide
    rw [Substitution.naming, hlookup, if_neg (hneighbors symbol hsymbol), named?, if_neg hne, hm]
    rfl

end Lattice

end CellSat
