import Mathlib
import CellSat.Host.Scratch
import CellSat.Proofs.Problem.Population
/-!
# What solving reports

A problem is solved on a host, which may be any machine: it decides which files can be written and
what another program answers. What is known about the results holds on all of them.

* `Run.satisfiesM_ofResult`, `Run.satisfiesM_within` and the like: the results of one step;
* `GridProblem.satisfiesM_withTemplate`, `GridProblem.satisfiesM_find_of`: building a problem, and
  finding models;
* `GridProblem.answered`: solving, with the models kept;
* `GridProblem.WithinBounds`: solutions that obey the bounds;
* **`GridProblem.solve_within_bounds`**: solutions obey the bounds of the settings.
-/

namespace CellSat

variable {m : Type → Type} [Monad m] [LawfulMonad m]

/-! ## Steps of a run -/

namespace Run

variable {α : Type} {P : α → Prop}

theorem satisfiesM_throw (r : Report) : SatisfiesM P (throw r : Run m α) := by
  rw [SatisfiesM_ExceptT_eq]
  exact SatisfiesM.pure (by simp)

theorem satisfiesM_ofExcept (x : Except Report α) :
    SatisfiesM (fun a => x = .ok a) (MonadExcept.ofExcept x : Run m α) := by
  cases x with
  | error r => exact satisfiesM_throw r
  | ok a => exact SatisfiesM.pure rfl

theorem satisfiesM_ofResult (x : Result α) :
    SatisfiesM (fun a => x = .ok a) (ofResult x : Run m α) := by
  cases x with
  | error failure => exact satisfiesM_throw _
  | ok a => exact SatisfiesM.pure rfl

theorem satisfiesM_within {x : Run m α} (h : SatisfiesM P x) (activity : Activity) :
    SatisfiesM P (within activity x) := by
  rw [SatisfiesM_ExceptT_eq] at h ⊢
  refine h.map ?_
  intro r hr a ha
  cases r with
  | error report => contradiction
  | ok b => exact hr a ha

end Run

/-! ## Solving -/

namespace GridProblem

variable [Host m] {s : Settings} {template : List Clause}

theorem satisfiesM_withTemplate (s : Settings) (template : List Clause) :
    SatisfiesM (fun p => s.defect? = none ∧ p.settings = s ∧ encode s template = .ok p.encoder)
      (withTemplate s template : Run m GridProblem) := by
  have hvalidate : SatisfiesM (fun _ => s.defect? = none) (s.validate : Run m Unit) := by
    unfold Settings.validate
    cases hdefect : s.defect? with
    | some d => exact Run.satisfiesM_throw _
    | none => exact SatisfiesM.trivial.imp fun _ => rfl
  unfold withTemplate
  apply SatisfiesM.bind (Run.satisfiesM_within hvalidate _)
  intro _ hdefect
  apply SatisfiesM.bind (Run.satisfiesM_within (Run.satisfiesM_ofResult _) _)
  intro encoder hencoder
  exact SatisfiesM.pure ⟨hdefect, rfl, hencoder⟩

theorem satisfiesM_compile (p : GridProblem) :
    SatisfiesM (fun f => p.encoder.compile = .ok f) (p.compile : Run m Formula) := by
  have hrest : SatisfiesM (fun f => p.encoder.compile = .ok f) (do
      let formula ← Run.within .compileClauses (Run.ofResult p.encoder.compile)
      Run.writeFile (p.outputPath "dim") formula.write
      return formula : Run m Formula) := by
    apply SatisfiesM.bind (Run.satisfiesM_within (Run.satisfiesM_ofResult _) _)
    intro formula hformula
    apply SatisfiesM.bind SatisfiesM.trivial
    exact fun _ _ => SatisfiesM.pure hformula
  unfold compile
  apply SatisfiesM.bind SatisfiesM.trivial
  intro _ _
  split_ifs
  · exact SatisfiesM.bind SatisfiesM.trivial fun _ _ => hrest
  · exact hrest

/-- What a solver finds for the formula of a problem is what is found for the problem. -/
theorem satisfiesM_find_of {P : Formula → List (List Int) → Prop} {oracle : Oracle}
    {p : GridProblem}
    (hP : ∀ f, p.encoder.compile = .ok f → SatisfiesM
      (fun r => ∀ models, r.1 = .ok models → P f models)
      (((Solver.ofSettings p.settings.solver p.settings.output.rootPath).addFormula f).solveMultiple
        oracle p.settings.solver.maxSolutions : Run m (Result (List (List Int)) × Solver))) :
    SatisfiesM (fun found => p.encoder.compile = .ok found.formula ∧ P found.formula found.models)
      (p.find oracle : Run m Found) := by
  unfold find
  apply SatisfiesM.bind (satisfiesM_compile p)
  intro formula hformula
  apply SatisfiesM.bind SatisfiesM.trivial
  intro start _
  apply SatisfiesM.bind (hP formula hformula)
  intro found hfound
  apply SatisfiesM.bind SatisfiesM.trivial
  intro stop _
  apply SatisfiesM.bind (Run.satisfiesM_within (Run.satisfiesM_ofResult _) _)
  intro models hmodels
  have hP := hfound models hmodels
  split_ifs
  · apply SatisfiesM.bind SatisfiesM.trivial
    exact fun _ _ => SatisfiesM.pure ⟨hformula, hP⟩
  · exact SatisfiesM.pure ⟨hformula, hP⟩

theorem satisfiesM_find (oracle : Oracle) (p : GridProblem) :
    SatisfiesM (fun found => p.encoder.compile = .ok found.formula)
      (p.find oracle : Run m Found) := by
  refine (satisfiesM_find_of (P := fun _ _ => True) fun f _ => ?_).imp And.left
  exact SatisfiesM.trivial.imp fun _ _ _ => trivial

/-- Solve the problem of settings and keep the models that were found. -/
def answered (oracle : Oracle) (s : Settings) (template : List Clause) :
    Run m (List (List Int) × List Solution) := do
  let p ← withTemplate s template
  let found ← p.find oracle
  let solutions ← MonadExcept.ofExcept (p.decode found)
  return (found.models, solutions)

/-- Each solution comes from one of the models. If this has one sign of each variable at most, though
it may leave variables open, the solution obeys the bounds of settings on living cells. -/
def WithinBounds (s : Settings) (models : List (List Int)) (solutions : List Solution) : Prop :=
  ∀ t ∈ solutions, ∃ i model, models[i]? = some model ∧ t.index = i + 1 ∧
    (Assignment.Consistent model → ∀ b ∈ s.population, b.helper = none →
      ∀ grid, s.grid.lattice.grid64 Node.origin = .ok grid →
      let cells := s.grid.lattice.layer grid b.generation
      2 ≤ cells.length → 0 ≤ b.size → b.size ≤ cells.length → b.size ≤ Word.maxInt64 →
        b.Admits (t.livingCount b.generation.toNat))

theorem withinBounds_of_decode {p : GridProblem} {found : Found} {solutions : List Solution}
    (hlocal : Template.IsLocal template)
    (hboolean : Disjunction.Boolean (Clause.disjunctions template)) (hdefect : s.defect? = none)
    (hencode : encode s template = .ok p.encoder)
    (hformula : p.encoder.compile = .ok found.formula) (hdecode : p.decode found = .ok solutions) :
    WithinBounds s found.models solutions := by
  intro t ht
  obtain ⟨i, model, values, hmodel, hindex, hvalid, hvalues, hsolution⟩ :=
    exists_of_decode hdecode ht
  refine ⟨i, model, hmodel, hindex, ?_⟩
  intro hconsistent b hb hhelper grid hgrid cells hcells h0 hsize hmax
  exact admits_of_isValid hdefect hlocal hboolean hencode hformula hconsistent hvalid hvalues
    hsolution hb hhelper hgrid hcells h0 hsize hmax

/-- **Solutions obey the bounds of the settings**, on any host and whatever models are found. -/
theorem solve_within_bounds (oracle : Oracle) (s : Settings) {template : List Clause}
    (hlocal : Template.IsLocal template)
    (hboolean : Disjunction.Boolean (Clause.disjunctions template)) :
    Prod.snd <$> (answered oracle s template : Run m _) =
        withTemplate s template >>= solve oracle ∧
      SatisfiesM (fun (models, solutions) => WithinBounds s models solutions)
        (answered oracle s template : Run m (List (List Int) × List Solution)) ∧
      ∀ p : GridProblem, s.defect? = none → encode s template = .ok p.encoder →
        ∀ found, p.encoder.compile = .ok found.formula →
          ∀ solutions, p.decode found = .ok solutions → WithinBounds s found.models solutions := by
  refine ⟨?_, ?_, fun p hdefect hencode found hformula solutions =>
    withinBounds_of_decode hlocal hboolean hdefect hencode hformula⟩
  · unfold answered solve
    simp
  · apply SatisfiesM.bind (satisfiesM_withTemplate s template)
    rintro p ⟨hdefect, -, hencode⟩
    apply SatisfiesM.bind (satisfiesM_find oracle p)
    intro found hformula
    apply SatisfiesM.bind (Run.satisfiesM_ofExcept _)
    intro solutions hdecode
    exact SatisfiesM.pure
      (withinBounds_of_decode hlocal hboolean hdefect hencode hformula hdecode)

/-- Four cells on a torus, three of which at least have to live: so do they in all solutions. -/
theorem solve_within_bounds_torus :
    let template : List Clause := [.disjunction [⟨"G", true, none⟩, ⟨"O", false, none⟩]]
    let s : Settings := {
      grid := { folding := .torus 2 2 0, period := 1 }
      rule := { basis := .rotated }
      population := [{ comparator := .atLeast, size := 3 }]
      solver := {}
      output := { directory := ⟨"out"⟩, fileRoot := "torus", format := .life } }
    Template.IsLocal template ∧ Disjunction.Boolean (Clause.disjunctions template) ∧
      SatisfiesM (fun (models, solutions) => ∀ t ∈ solutions,
          ∃ i model, models[i]? = some model ∧ t.index = i + 1 ∧
            (Assignment.Consistent model → 3 ≤ t.livingCount 0))
        (answered Split.solve s template : Run (StateM Scratch) _) := by
  intro template s
  have hlocal : Template.IsLocal template := by
    intro name hname
    obtain ⟨d, hd, l, hl, rfl⟩ := Clause.mem_variableNames.mp hname
    obtain rfl := List.mem_singleton.mp hd
    rcases List.mem_pair.mp hl with rfl | rfl <;> exact .inl (by decide)
  have hboolean : Disjunction.Boolean (Clause.disjunctions template) := by
    unfold Disjunction.Boolean
    decide
  have hl : s.grid.lattice.Proper := ⟨⟨by decide, by decide⟩, by decide⟩
  obtain ⟨grid, hgrid⟩ := Lattice.exists_grid64 hl
    ⟨⟨by decide, by decide, fun m n s h => by cases h; decide⟩, by decide, by decide, by decide⟩
  have hbox : ∀ p ∈ ([⟨0, 0⟩, ⟨0, 1⟩, ⟨1, 0⟩, ⟨1, 1⟩] : List Cell),
      0 ≤ p.row ∧ p.row < 2 ∧ 0 ≤ p.column ∧ p.column < 2 := by decide
  have hcells : 4 ≤ (s.grid.lattice.layer grid 0).length :=
    Lattice.length_le_layer hl hgrid (by decide) (fun p hp => ⟨hbox p hp, rfl⟩) le_rfl (by decide)
  refine ⟨hlocal, hboolean, (solve_within_bounds Split.solve s hlocal hboolean).2.1.imp ?_⟩
  rintro ⟨models, solutions⟩ h t ht
  obtain ⟨i, model, hmodel, hindex, hbounds⟩ := h t ht
  refine ⟨i, model, hmodel, hindex, fun hconsistent => ?_⟩
  have hsize : (3 : Int) ≤ (s.grid.lattice.layer grid 0).length := by omega
  have hadmits : (3 : Int) ≤ t.livingCount 0 := hbounds hconsistent _ (List.mem_singleton_self _)
    rfl grid hgrid (le_trans (by decide) hcells) (by decide) hsize (by decide)
  omega

end GridProblem

end CellSat
