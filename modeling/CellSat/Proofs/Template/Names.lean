import Mathlib
import CellSat.Problem.Encoder
import CellSat.Proofs.Cnf.Numbering
import CellSat.Proofs.Symmetry.Orbit
import CellSat.Proofs.Template.Inflate
/-!
# What the clauses of a rule speak about

A rule is a template under symmetries, at every node of a grid. Symmetries change names of the
neighbourhood into others, and at a node a name becomes the variable that it stands for there.

* `Clause.forall_expandSymmetry`, `Template.forall_inflateGrid64`: what is true of all literals;
* `Template.IsLocal`, `Lattice.variableAt`: templates about the neighbourhood and helpers, and what
  their names stand for at a node;
* **`Encoder.exists_of_addRule`**: the literals of a rule.
-/

namespace CellSat

/-! ## Symmetries -/

namespace Orbit

theorem forall_image {maps : List Permutation} {P : Literal → Prop}
    (hmaps : ∀ p ∈ maps, ∀ l, P l → P (l.rename (p.apply l.name))) {c d : Disjunction}
    (h : Image maps c d) (hc : ∀ l ∈ c, P l) : ∀ l ∈ d, P l := by
  induction h with
  | refl => exact hc
  | tail _ hstep ih =>
    obtain ⟨p, hp, rfl⟩ := hstep
    intro l hl
    obtain ⟨l', hl', rfl⟩ := List.mem_map.mp hl
    exact hmaps p hp l' (ih l' hl')

theorem forall_images {basis : List Permutation} {P : Literal → Prop}
    (hbasis : ∀ p ∈ basis, ∀ l, P l → P (l.rename (p.inverse.apply l.name))) {d : Disjunction}
    {ds : List Disjunction} (h : images basis d = .ok ds) (hd : ∀ l ∈ d, P l) :
    ∀ c ∈ ds, ∀ l ∈ c, P l := by
  rcases images_cases basis d with ⟨herror, -⟩ | ⟨ds', hok, -, -, hds, -⟩
  · rw [h] at herror
    contradiction
  · rw [h] at hok
    obtain rfl := Except.ok.inj hok
    refine fun c hc => forall_image ?_ (hds c hc) hd
    intro p hp l hl
    obtain ⟨q, hq, rfl⟩ := List.mem_map.mp hp
    exact hbasis q hq l hl

end Orbit

theorem Basis.apply_inverse_mem {basis : Basis} {p : Permutation} (hp : p ∈ basis.generators)
    (name : String) :
    p.inverse.apply name = name ∨ p.inverse.apply name ∈ Symbol.center :: Symbol.neighbors := by
  have hentries : ∀ basis ∈ Basis.all, ∀ p ∈ Basis.generators basis, ∀ e ∈ p.inverse.entries,
      e.2 ∈ Symbol.center :: Symbol.neighbors := by decide
  have hbasis : basis ∈ Basis.all := by cases basis <;> decide
  rw [Permutation.apply]
  cases hlookup : p.inverse.entries.lookup name with
  | none => exact .inl rfl
  | some symbol =>
    exact .inr (hentries basis hbasis p hp (name, symbol) (Entries.mem_of_lookup hlookup))

theorem Clause.forall_expandSymmetry {basis : Basis} {P : Literal → Prop}
    (hP : ∀ l, P l → ∀ symbol ∈ Symbol.center :: Symbol.neighbors, P (l.rename symbol))
    {cs cs' : List Clause} (h : expandSymmetry basis.generators cs = .ok cs')
    (hcs : ∀ d ∈ disjunctions cs, ∀ l ∈ d, P l) : ∀ d ∈ disjunctions cs', ∀ l ∈ d, P l := by
  have hbasis : ∀ p ∈ basis.generators, ∀ l, P l → P (l.rename (p.inverse.apply l.name)) := by
    intro p hp l hl
    rcases Basis.apply_inverse_mem hp l.name with heq | hmem
    · rw [heq]
      exact hl
    · exact hP l hl _ hmem
  induction cs generalizing cs' with
  | nil =>
    obtain rfl := Except.ok.inj h
    exact hcs
  | cons line cs ih =>
    cases line with
    | comment text =>
      obtain ⟨rest, hrest, h⟩ := bind_eq_ok.mp h
      obtain rfl := Except.ok.inj h
      rw [disjunctions_comment] at hcs ⊢
      exact ih hrest hcs
    | disjunction d =>
      obtain ⟨images, himages, h⟩ := bind_eq_ok.mp h
      obtain ⟨rest, hrest, h⟩ := bind_eq_ok.mp h
      obtain rfl := Except.ok.inj h
      rw [disjunctions_disjunction, List.forall_mem_cons] at hcs
      rw [disjunctions_append, disjunctions_map]
      intro c hc
      rcases List.mem_append.mp hc with hc | hc
      · exact Orbit.forall_images hbasis himages hcs.1 c hc
      · exact ih hrest hcs.2 c hc

/-! ## Instances -/

namespace Template

variable {lattice : Lattice} {grid : List Node} {template cs : List Clause} {turn : Turn}
  {consequent : Option String} {P : Literal → Prop}

theorem forall_instances {d : Disjunction} {ss : List Substitution}
    (hP : ∀ s ∈ ss, ∀ l ∈ d, P (s.apply turn l)) : ∀ e ∈ instances d turn ss, ∀ l ∈ e, P l := by
  intro e he l hl
  obtain ⟨s, hs, hse⟩ := List.mem_filterMap.mp he
  rw [instantiate?] at hse
  split_ifs at hse
  obtain rfl := Option.some.inj hse
  obtain ⟨l', hl', rfl⟩ := List.mem_map.mp hl
  exact hP s hs l' hl'

theorem forall_flatMap_inflateLine {ss : List Substitution}
    (hP : ∀ s ∈ ss, ∀ d ∈ Clause.disjunctions template, ∀ l ∈ d, P (s.apply turn l)) :
    ∀ d ∈ Clause.disjunctions ((template.map (inflateLine ss consequent turn)).flatMap (·.1)),
      ∀ l ∈ d, P l := by
  induction template with
  | nil => simp
  | cons line template ih =>
    rw [List.map_cons, List.flatMap_cons, Clause.disjunctions_append]
    intro d hd
    cases line with
    | comment text => exact ih hP d (by simpa [inflateLine] using hd)
    | disjunction c =>
      simp only [Clause.disjunctions_disjunction, List.forall_mem_cons] at hP
      rcases List.mem_append.mp hd with hd | hd
      · refine forall_instances (fun s hs => (hP s hs).1) d ?_
        simpa [inflateLine, heading] using hd
      · exact ih (fun s hs => (hP s hs).2) d hd

theorem forall_append_pin (hpin : P Literal.zero.negate)
    (hcs : ∀ d ∈ Clause.disjunctions cs, ∀ l ∈ d, P l) (b : Bool) :
    ∀ d ∈ Clause.disjunctions (cs ++ if b then [pin] else []), ∀ l ∈ d, P l := by
  rw [Clause.disjunctions_append]
  intro d hd
  rcases List.mem_append.mp hd with hd | hd
  · exact hcs d hd
  · cases b with
    | false => simp at hd
    | true =>
      obtain rfl : d = [Literal.zero.negate] := by simpa [pin, Clause.unit] using hd
      simpa using hpin

theorem forall_inflateGrid64 (hpin : P Literal.zero.negate)
    (h : inflateGrid64 lattice grid template consequent turn = .ok cs)
    (hP : ∀ n ∈ grid, ∀ s, lattice.substitution64 (helpers template) n = .ok s →
      ∀ d ∈ Clause.disjunctions template, ∀ l ∈ d, P (s.apply turn l)) :
    ∀ d ∈ Clause.disjunctions cs, ∀ l ∈ d, P l := by
  obtain ⟨ss, hss, h⟩ := bind_eq_ok.mp h
  have hss' : ∀ s ∈ ss, ∀ d ∈ Clause.disjunctions template, ∀ l ∈ d, P (s.apply turn l) := by
    intro s hs
    obtain ⟨n, hn, hns⟩ := (mem_of_mapM_eq_ok hss).mp hs
    exact hP n hn s hns
  have hinflate : ∀ d ∈ Clause.disjunctions (inflate template ss consequent turn), ∀ l ∈ d, P l :=
    forall_append_pin hpin (forall_flatMap_inflateLine hss') _
  obtain rfl := Except.ok.inj h
  split_ifs
  · exact forall_append_pin hpin hinflate true
  · exact hinflate

end Template

/-! ## Rules -/

/-- A template about the nodes of a neighbourhood and about helpers. -/
def Template.IsLocal (template : List Clause) : Prop :=
  ∀ name ∈ Clause.variableNames template,
    name ∈ Symbol.center :: Symbol.neighbors ∨ name.endsWith Template.helperEnd = true

namespace Lattice

variable {lattice : Lattice} {n : Node} {name : String}

/-- The variable that a name of a template stands for at a node. -/
def variableAt (lattice : Lattice) (n : Node) (name : String) : String :=
  if name.endsWith Template.helperEnd then name ++ n.name
  else (lattice.named? n name).elim name fun m => (lattice.target m).name

theorem naming_substitution64 {template : List Clause} {s : Substitution}
    (h : lattice.substitution64 (Template.helpers template) n = .ok s) {d : Disjunction}
    (hd : d ∈ Clause.disjunctions template) {l : Literal} (hl : l ∈ d) :
    s.naming l.name = lattice.variableAt n l.name := by
  have hmem : l.name ∈ Template.helpers template ↔ l.name.endsWith Template.helperEnd = true := by
    rw [Template.helpers, List.mem_filter, and_iff_right]
    exact Clause.mem_variableNames.mpr ⟨d, hd, l, hl, rfl⟩
  rw [Substitution.naming, lookup_substitution64 h, variableAt]
  by_cases hend : l.name.endsWith Template.helperEnd = true
  · rw [if_pos (hmem.mpr hend), if_pos hend]
    rfl
  · rw [if_neg (fun hhelper => hend (hmem.mp hhelper)), if_neg hend]
    cases lattice.named? n l.name <;> rfl

theorem exists_named? (lattice : Lattice) (n : Node)
    (h : name ∈ Symbol.center :: Symbol.neighbors) : ∃ m, lattice.named? n name = some m := by
  rcases List.mem_cons.mp h with rfl | h
  · exact ⟨n, if_pos rfl⟩
  · have hcenter : name ≠ Symbol.center := by
      rintro rfl
      revert h
      decide
    rw [named?, if_neg hcenter, neighbor?]
    simp only [Symbol.neighbors, List.mem_cons, List.not_mem_nil, or_false] at h
    rcases h with rfl | rfl | rfl | rfl | rfl | rfl | rfl | rfl | rfl <;> exact ⟨_, rfl⟩

theorem variableAt_cases (lattice : Lattice) (n : Node)
    (h : name ∈ Symbol.center :: Symbol.neighbors ∨ name.endsWith Template.helperEnd = true) :
    lattice.variableAt n name = Literal.zeroName ∨
      (∃ m, lattice.named? n name = some m ∧ lattice.isOutside m = false ∧
        lattice.variableAt n name = m.name) ∨
      ['$'] <:+ name.toList ∧ lattice.variableAt n name = name ++ n.name := by
  by_cases hend : name.endsWith Template.helperEnd = true
  · have hsuffix := String.Slice.endsWith_string_iff.mp hend
    rw [String.copy_toSlice] at hsuffix
    exact .inr (.inr ⟨hsuffix, if_pos hend⟩)
  · obtain ⟨m, hm⟩ := exists_named? lattice n (h.resolve_right hend)
    have hvariable : lattice.variableAt n name = (lattice.target m).name := by
      rw [variableAt, if_neg hend, hm]
      rfl
    rw [hvariable, target]
    by_cases hout : lattice.isOutside m = true
    · exact .inl (if_pos hout)
    · exact .inr (.inl ⟨m, hm, by simpa using hout, if_neg hout⟩)

end Lattice

theorem Substitution.name_apply (s : Substitution) (turn : Turn) (l : Literal) :
    (s.apply turn l).name = s.naming l.name := by
  rw [apply, naming]
  cases s.lookup l.name <;> rfl

theorem Substitution.tag_apply (s : Substitution) (turn : Turn) {l : Literal} (hl : l.tag = none) :
    (s.apply turn l).tag = none := by
  rw [apply]
  cases s.lookup l.name <;> simp [hl]

/-- **The literals of a rule** are about the false wire or what names stand for at the nodes. -/
theorem Encoder.exists_of_addRule {e e' : Encoder} {template : List Clause} {basis : Basis}
    {consequent : Option String} {turn : Turn} (hlocal : Template.IsLocal template)
    (h : e.addRule template basis consequent turn = .ok e') :
    ∃ cs, e' = { e with ruleLines := e'.ruleLines, clauses := e.clauses ++ cs } ∧
      ∀ d ∈ Clause.disjunctions cs, ∀ l ∈ d,
        (l.name = Literal.zeroName ∨ ∃ n ∈ e.grid, ∃ name,
          (name ∈ Symbol.center :: Symbol.neighbors ∨
            name ∈ Clause.variableNames template ∧ name.endsWith Template.helperEnd = true) ∧
          l.name = e.lattice.variableAt n name) ∧
        (Disjunction.Boolean (Clause.disjunctions template) → l.tag = none) := by
  obtain ⟨expanded, hexpanded, h⟩ := bind_eq_ok.mp h
  obtain ⟨cs, hcs, h⟩ := bind_eq_ok.mp h
  obtain rfl := Except.ok.inj h
  refine ⟨cs, rfl, ?_⟩
  have hexpanded' := Clause.forall_expandSymmetry
    (P := fun l => (l.name ∈ Symbol.center :: Symbol.neighbors ∨
        l.name ∈ Clause.variableNames template ∧ l.name.endsWith Template.helperEnd = true) ∧
      (Disjunction.Boolean (Clause.disjunctions template) → l.tag = none))
    (fun l hl symbol hsymbol => ⟨.inl hsymbol, hl.2⟩) hexpanded fun d hd l hl => by
      have hmem : l.name ∈ Clause.variableNames template :=
        Clause.mem_variableNames.mpr ⟨d, hd, l, hl, rfl⟩
      exact ⟨(hlocal l.name hmem).imp_right fun hend => ⟨hmem, hend⟩,
        fun hboolean => hboolean d hd l hl⟩
  refine Template.forall_inflateGrid64 ⟨.inl rfl, fun _ => rfl⟩
    (Checked.toResult_eq_ok.mp hcs) fun n hn s hs d hd l hl => ?_
  obtain ⟨hname, htag⟩ := hexpanded' d hd l hl
  refine ⟨.inr ⟨n, hn, l.name, hname, ?_⟩, fun hboolean => s.tag_apply turn (htag hboolean)⟩
  rw [Substitution.name_apply, Lattice.naming_substitution64 hs hd hl]

end CellSat
