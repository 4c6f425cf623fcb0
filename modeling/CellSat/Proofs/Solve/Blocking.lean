import Mathlib
import CellSat.Proofs.Cnf.Answer
import CellSat.Proofs.Solve.Enumeration
import CellSat.Solve.Backend
/-!
# Models that exclude each other

A solver is asked again and again, each time with one more clause against its last answer. If its
answers satisfy the clauses that it was asked about, any two of them have opposite signs of some
variable. This does not depend on the kind of the solver, nor on what it says if it finds nothing.

* `Clauses.Sound`, `Solver.IsSound`: answers that give values to all variables, in any order, and
  satisfy all clauses;
* `Clauses.Enumerated`: models found one after the other, and `Clauses.Enumerated.pairwise_opposed`;
* `Session.enumerated_of_solveMultiple`, `ProgramSolver.satisfiesM_solveMultiple`: the two solvers;
* **`Solver.satisfiesM_solveMultiple_addFormula`**: the models of a formula.
-/

namespace CellSat

/-- Two answers have opposite signs of some variable. -/
def Assignment.Opposed (numbers others : List Int) : Prop := ∃ n ∈ numbers, -n ∈ others

theorem Assignment.Opposed.symm {numbers others : List Int} (h : Opposed numbers others) :
    Opposed others numbers := by
  obtain ⟨n, hn, hneg⟩ := h
  exact ⟨-n, hneg, by rwa [neg_neg]⟩

/-! ## One model after the other -/

/-- The model that is read off a verdict, if there is one. -/
def Verdict.model? (width : Nat) : Verdict → Option (List Int)
  | satisfiable value? => some (Model.extract width value?)
  | unsatisfiable | unknown => none

namespace Clauses

variable {width : Nat} {clauses : List (List Int)} {model : List Int} {models : List (List Int)}

/-- An answer whose model, if it has one, gives a value to each variable and satisfies all
clauses. -/
def Sound (width : Nat) (clauses : List (List Int)) (answer : Option (List Int)) : Prop :=
  ∀ model ∈ answer, Assignment.Total width model ∧ Model.satisfiesAll model clauses = true

/-- An oracle whose verdicts have such models, if they have one. -/
def SoundOracle (oracle : Oracle) : Prop :=
  ∀ width clauses, Over 1 width clauses →
    Sound width clauses ((oracle width clauses).model? width)

/-- Models that were found one after the other, with clauses against those before. -/
inductive Enumerated (width : Nat) : List (List Int) → List (List Int) → Prop
  | nil (clauses : List (List Int)) : Enumerated width clauses []
  | cons {clauses : List (List Int)} {model : List Int} {models : List (List Int)}
      (hmodel : Sound width clauses (some model))
      (hrest : Enumerated width (model.map (- ·) :: clauses) models) :
      Enumerated width clauses (model :: models)

theorem Sound.mono {clauses' : List (List Int)} {answer : Option (List Int)}
    (h : Sound width clauses answer) (hsub : ∀ c ∈ clauses', c ∈ clauses) :
    Sound width clauses' answer := by
  intro model hmodel
  obtain ⟨htotal, hsat⟩ := h model hmodel
  rw [Model.satisfiesAll_iff] at hsat
  exact ⟨htotal, Model.satisfiesAll_iff.mpr fun c hc => hsat c (hsub c hc)⟩

theorem Enumerated.mono {clauses' : List (List Int)} (h : Enumerated width clauses models)
    (hsub : ∀ c ∈ clauses', c ∈ clauses) : Enumerated width clauses' models := by
  induction h generalizing clauses' with
  | nil clauses => exact .nil clauses'
  | cons hmodel _ ih =>
    refine .cons (hmodel.mono hsub) (ih ?_)
    exact List.forall_mem_cons.mpr
      ⟨List.mem_cons_self, fun c hc => List.mem_cons_of_mem _ (hsub c hc)⟩

theorem Enumerated.sound (h : Enumerated width clauses models) :
    ∀ model ∈ models, Sound width clauses (some model) := by
  induction h with
  | nil clauses => simp
  | cons hmodel _ ih =>
    refine List.forall_mem_cons.mpr ⟨hmodel, fun other hother => ?_⟩
    exact (ih other hother).mono fun c hc => List.mem_cons_of_mem _ hc

/-- **Models exclude each other**: a later one satisfies the clause against an earlier one. -/
theorem Enumerated.pairwise_opposed (h : Enumerated width clauses models) :
    models.Pairwise Assignment.Opposed := by
  induction h with
  | nil clauses => exact .nil
  | @cons clauses model models _ hrest ih =>
    refine List.pairwise_cons.mpr ⟨fun other hother => ?_, ih⟩
    have hsat := (hrest.sound other hother other rfl).2
    obtain ⟨x, hx, hmem⟩ := Model.satisfies_iff.mp
      (Model.satisfiesAll_iff.mp hsat _ List.mem_cons_self)
    obtain ⟨n, hn, rfl⟩ := List.mem_map.mp hx
    exact ⟨n, hn, hmem⟩

theorem Enumerated.opposed (h : Enumerated width clauses models) {i j : Nat}
    {model other : List Int} (hi : models[i]? = some model) (hj : models[j]? = some other)
    (hne : i ≠ j) : Assignment.Opposed model other := by
  have hpairwise := List.pairwise_iff_getElem.mp h.pairwise_opposed
  obtain ⟨hi', rfl⟩ := List.getElem?_eq_some_iff.mp hi
  obtain ⟨hj', rfl⟩ := List.getElem?_eq_some_iff.mp hj
  rcases Nat.lt_or_gt_of_ne hne with hlt | hgt
  · exact hpairwise i j hi' hj' hlt
  · exact (hpairwise j i hj' hi' hgt).symm

theorem natAbs_neg_of_total (h : Assignment.Total width model) :
    ∀ x ∈ model.map (- ·), 1 ≤ x.natAbs ∧ x.natAbs ≤ width := by
  refine List.forall_mem_map.mpr fun n hn => ?_
  rw [Int.natAbs_neg]
  exact h.bounded n hn

theorem Over.cons_neg (h : Over 1 width clauses) (hmodel : Assignment.Total width model) :
    Over 1 width (model.map (- ·) :: clauses) := by
  refine List.forall_mem_cons.mpr ⟨fun x hx => ?_, h⟩
  have := natAbs_neg_of_total hmodel x hx
  omega

theorem max_highestVariable_neg (h : Assignment.Total width model) :
    max width (highestVariable (model.map (- ·))) = width :=
  max_eq_left (Session.highestVariable_le.mpr fun x hx => (natAbs_neg_of_total h x hx).2)

end Clauses

theorem Model.eq_of_blocking32 {numbers clause : List Int} (h : blocking32 numbers = .ok clause) :
    clause = numbers.map (- ·) :=
  eq_map_of_mapM_eq_ok (fun _ _ _ => Word.eq_of_int32) h

/-! ## Sessions -/

namespace Session

variable {s s' : Session} {oracle : Oracle} {width count : Nat} {models : List (List Int)}

/-- All clauses of a session, the empty one among them. -/
def stated (s : Session) : List (List Int) :=
  if s.contradictory then [] :: s.clauses else s.clauses

theorem mem_stated_add {c d : List Int} : d ∈ (s.add c).stated ↔ d = c ∨ d ∈ s.stated := by
  cases c with
  | nil => by_cases h : s.contradictory = true <;> simp [stated, add, h]
  | cons x c => by_cases h : s.contradictory = true <;> simp [stated, add, h, or_left_comm]

theorem mem_stated_addAll {cs : List (List Int)} {d : List Int} :
    d ∈ (s.addAll cs).stated ↔ d ∈ cs ∨ d ∈ s.stated := by
  induction cs generalizing s with
  | nil => simp [addAll]
  | cons c cs ih =>
    rw [addAll, List.foldl_cons, ← addAll, ih, mem_stated_add, List.mem_cons]
    tauto

theorem sound_solve (horacle : Clauses.SoundOracle oracle) (hcount : s.variableCount = width)
    (hover : Clauses.Over 1 width s.stated) {answer : Option (List Int)}
    (h : s.solve oracle = .ok answer) : Clauses.Sound width s.stated answer := by
  unfold solve stated at *
  by_cases hc : s.contradictory = true
  · rw [if_pos hc] at h
    obtain rfl := Except.ok.inj h
    simp [Clauses.Sound]
  · simp only [hc, hcount] at hover h ⊢
    have hsound := (horacle width s.clauses.reverse fun c hm =>
      hover c (List.mem_reverse.mp hm)).mono fun c => List.mem_reverse.mpr
    cases hverdict : oracle width s.clauses.reverse with
    | satisfiable value? | unsatisfiable =>
      rw [hverdict] at h hsound
      obtain rfl := Except.ok.inj h
      exact hsound
    | unknown =>
      rw [hverdict] at h
      contradiction

/-- What was found is nothing, or a model and what was found once it was excluded. -/
theorem solveMultiple_succ_cases (h : (s.solveMultiple oracle (count + 1)).1 = .ok models) :
    models = [] ∨ ∃ model clause rest, s.solve oracle = .ok (some model) ∧
      Model.blocking32 model = .ok clause ∧
      ((s.add clause).solveMultiple oracle count).1 = .ok rest ∧ models = model :: rest := by
  rw [solveMultiple] at h
  cases hsolve : s.solve oracle with
  | error failure =>
    rw [hsolve] at h
    contradiction
  | ok answer =>
    rw [hsolve] at h
    cases answer with
    | none => exact .inl (Except.ok.inj h).symm
    | some model =>
      simp only at h
      cases hclause : Model.blocking32 model with
      | error cause =>
        rw [hclause] at h
        contradiction
      | ok clause =>
        rw [hclause] at h
        obtain ⟨rest, hrest, rfl⟩ : ∃ rest,
            ((s.add clause).solveMultiple oracle count).1 = .ok rest ∧ model :: rest = models := by
          cases hrest : ((s.add clause).solveMultiple oracle count).1 with
          | error failure =>
            simp only [hrest] at h
            contradiction
          | ok rest =>
            simp only [hrest] at h
            exact ⟨rest, rfl, Except.ok.inj h⟩
        exact .inr ⟨model, clause, rest, rfl, hclause, hrest, rfl⟩

/-- **The models of a session** are found one after the other. -/
theorem enumerated_of_solveMultiple (horacle : Clauses.SoundOracle oracle)
    (hcount : s.variableCount = width) (hover : Clauses.Over 1 width s.stated)
    (h : (s.solveMultiple oracle count).1 = .ok models) :
    Clauses.Enumerated width s.stated models := by
  induction count generalizing s models with
  | zero =>
    obtain rfl := Except.ok.inj h
    exact .nil _
  | succ count ih =>
    rcases solveMultiple_succ_cases h with rfl | ⟨model, clause, rest, hsolve, hclause, hrest, rfl⟩
    · exact .nil _
    · have hsound := sound_solve horacle hcount hover hsolve
      obtain rfl := Model.eq_of_blocking32 hclause
      have htotal := (hsound model rfl).1
      have hover' : Clauses.Over 1 width (s.add (model.map (- ·))).stated := fun c hc =>
        hover.cons_neg htotal c (List.mem_cons.mpr (mem_stated_add.mp hc))
      have hcount' : (s.add (model.map (- ·))).variableCount = width := by
        rw [variableCount_add, hcount, Clauses.max_highestVariable_neg htotal]
      refine .cons hsound ((ih hcount' hover' hrest).mono fun c hc => ?_)
      exact mem_stated_add.mpr (List.mem_cons.mp hc)

end Session

/-! ## Programs -/

namespace ProgramSolver

/-- The clauses that the program is given. -/
def clauses (p : ProgramSolver) : List (List Int) := p.lines.filterMap FormulaLine.clause?

/-- The program is called in the same way. -/
def SameCall (p q : ProgramSolver) : Prop :=
  q.command = p.command ∧ q.seed = p.seed ∧ q.timeout = p.timeout ∧ q.input = p.input ∧
    q.output = p.output

variable {m : Type → Type} [Monad m] [LawfulMonad m] [Host m]

/-- The answers of a program are sound, whatever clauses it is given. -/
def IsSound (m : Type → Type) [Monad m] [Host m] (p : ProgramSolver) : Prop :=
  ∀ q, p.SameCall q → Clauses.Over 1 q.variableCount q.clauses →
    SatisfiesM (Clauses.Sound q.variableCount q.clauses)
      (q.solve : ExceptT Failure m (Option (List Int)))

/-- **The models of a program** are found one after the other. -/
theorem satisfiesM_solveMultiple {p : ProgramSolver} (hsound : p.IsSound m)
    (hover : Clauses.Over 1 p.variableCount p.clauses) (count : Nat) :
    SatisfiesM (fun r => ∀ models, r.1 = .ok models →
        Clauses.Enumerated p.variableCount p.clauses models)
      (p.solveMultiple count : m (Result (List (List Int)) × ProgramSolver)) := by
  induction count generalizing p with
  | zero =>
    refine SatisfiesM.pure ?_
    rintro _ ⟨⟩
    exact .nil _
  | succ count ih =>
    rw [solveMultiple]
    have hanswer := hsound p ⟨rfl, rfl, rfl, rfl, rfl⟩ hover
    rw [SatisfiesM_ExceptT_eq] at hanswer
    apply SatisfiesM.bind hanswer
    rintro (failure | answer) hanswer
    · exact SatisfiesM.pure (by simp)
    · cases answer with
      | none =>
        refine SatisfiesM.pure ?_
        rintro _ ⟨⟩
        exact .nil _
      | some model =>
        have hmodel := hanswer _ rfl
        simp only
        cases hclause : Model.blocking32 model with
        | error cause => exact SatisfiesM.pure (by simp)
        | ok clause =>
          obtain rfl := Model.eq_of_blocking32 hclause
          have htotal := (hmodel model rfl).1
          have hcount : (p.add (model.map (- ·))).variableCount = p.variableCount :=
            Clauses.max_highestVariable_neg htotal
          have ih := ih (p := p.add (model.map (- ·))) hsound
            (by rw [hcount]; exact hover.cons_neg htotal)
          apply SatisfiesM.bind ih
          rintro ⟨rest, p'⟩ hrest
          refine SatisfiesM.pure ?_
          intro models hmodels
          obtain ⟨others, hothers, rfl⟩ :
              ∃ others, rest = .ok others ∧ model :: others = models := by
            cases rest with
            | error failure => contradiction
            | ok others => exact ⟨others, rfl, Except.ok.inj hmodels⟩
          rw [hcount] at hrest
          exact .cons hmodel (hrest others hothers)

theorem foldl_addLine (lines : List FormulaLine) (p : ProgramSolver) :
    p.SameCall (lines.foldl addLine p) ∧
      p.variableCount ≤ (lines.foldl addLine p).variableCount ∧
      ∀ c, c ∈ (lines.foldl addLine p).clauses ↔
        c ∈ lines.filterMap FormulaLine.clause? ∨ c ∈ p.clauses := by
  induction lines generalizing p with
  | nil => exact ⟨⟨rfl, rfl, rfl, rfl, rfl⟩, le_rfl, by simp⟩
  | cons line lines ih =>
    obtain ⟨hcall, hcount, hclauses⟩ := ih (p.addLine line)
    cases line with
    | comment text => exact ⟨hcall, hcount, hclauses⟩
    | clause numbers =>
      refine ⟨hcall, (le_max_left _ _).trans hcount, fun c => ?_⟩
      have hline : c ∈ (p.addLine (.clause numbers)).clauses ↔ c = numbers ∨ c ∈ p.clauses := by
        rw [← List.mem_cons]
        rfl
      rw [List.foldl_cons, hclauses, hline, ← or_assoc, or_comm (b := c = numbers), ← List.mem_cons]
      rfl

theorem addFormula_adds (p : ProgramSolver) (f : Formula) :
    p.SameCall (p.addFormula f) ∧ f.variableCount ≤ (p.addFormula f).variableCount ∧
      ∀ c, c ∈ (p.addFormula f).clauses ↔ c ∈ f.clauses ∨ c ∈ p.clauses := by
  obtain ⟨hcall, hcount, hclauses⟩ := foldl_addLine f.lines { p with
    variableCount := Nat.max p.variableCount f.variableCount
    symbols := f.symbols.toList.foldl (fun t e => t.insert e.1 e.2) p.symbols }
  exact ⟨hcall, (le_max_right _ _).trans hcount, hclauses⟩

end ProgramSolver

/-! ## Solvers of either kind -/

theorem Formula.over_of_compile {cs : List Clause} {f : Formula} (hf : compile cs = .ok f) :
    Clauses.Over 1 f.variableCount f.clauses := by
  intro clause hclause x hx
  obtain ⟨es, hes, -⟩ := exists_of_compile hf
  obtain ⟨d, -, hd⟩ := (mem_clauses_iff hf hes).mp hclause
  obtain ⟨l, -, hl⟩ := (mem_of_mapM_eq_ok hd).mp hx
  obtain ⟨i, hi, rfl⟩ := eq_of_encodeLiteral hl
  have hle := (numbers_of_compile hf hes).le_of_index? hi
  unfold variableCount
  split_ifs <;> omega

namespace Session

theorem variableCount_addAll_le_iff {s : Session} {cs : List (List Int)} {b : Nat} :
    (s.addAll cs).variableCount ≤ b ↔
      s.variableCount ≤ b ∧ ∀ c ∈ cs, ∀ x ∈ c, x.natAbs ≤ b := by
  induction cs generalizing s with
  | nil => simp [addAll]
  | cons c cs ih =>
    rw [addAll, List.foldl_cons, ← addAll, ih, variableCount_add, max_le_iff, highestVariable_le,
      List.forall_mem_cons, and_assoc]

theorem exists_over_addFormula {cs : List Clause} {f : Formula}
    (hf : Formula.compile cs = .ok f) : ∃ n, (addFormula {} f).Over n := by
  have hempty : Over 0 {} := ⟨rfl, by decide, by simp [Clauses.Over]⟩
  refine hempty.addAll f.clauses fun c hc x hx => ?_
  obtain ⟨-, -, -, hsize, -⟩ := Formula.exists_of_compile hf
  have := Formula.over_of_compile hf c hc x hx
  simp only [Word.maxInt32]
  omega

/-- A clause with the last variable makes the session of a formula one over all variables. -/
theorem over_addFormula {cs : List Clause} {f : Formula} (hf : Formula.compile cs = .ok f)
    {c : List Int} (hc : c ∈ f.clauses) {x : Int} (hx : x ∈ c)
    (hlast : x.natAbs = f.variableCount) : (addFormula {} f).Over f.variableCount := by
  obtain ⟨n, hn⟩ := exists_over_addFormula hf
  have hle : n ≤ f.variableCount := by
    rw [← hn.count, addFormula, variableCount_addAll_le_iff]
    refine ⟨Nat.zero_le _, fun d hd y hy => ?_⟩
    have := Formula.over_of_compile hf d hd y hy
    omega
  have hge := (variableCount_addAll_le_iff.mp hn.count.le).2 c hc x hx
  rwa [← hlast, le_antisymm hge (hlast ▸ hle)]

end Session

namespace Solver

variable {m : Type → Type} [Monad m] [LawfulMonad m] [Host m] {oracle : Oracle} {solver : Solver}

/-- The clauses that were added. -/
def stated : Solver → List (List Int)
  | internal s => s.stated
  | external p => p.clauses

/-- The answers of a solver are sound, whatever clauses are added to it. -/
def IsSound (m : Type → Type) [Monad m] [Host m] (oracle : Oracle) : Solver → Prop
  | internal _ => Clauses.SoundOracle oracle
  | external p => p.IsSound m

theorem satisfiesM_solveMultiple (hsound : solver.IsSound m oracle)
    (hover : Clauses.Over 1 solver.variableCount solver.stated) (count : Nat) :
    SatisfiesM (fun r => ∀ models, r.1 = .ok models →
        Clauses.Enumerated solver.variableCount solver.stated models)
      (solver.solveMultiple oracle count : m (Result (List (List Int)) × Solver)) := by
  cases solver with
  | internal s =>
    refine SatisfiesM.pure ?_
    intro models hmodels
    exact Session.enumerated_of_solveMultiple hsound rfl hover hmodels
  | external p =>
    apply SatisfiesM.bind (p.satisfiesM_solveMultiple hsound hover count)
    exact fun _ hfound => SatisfiesM.pure hfound

theorem over_addFormula {cs : List Clause} {f : Formula} (hf : Formula.compile cs = .ok f)
    (s : SolverSettings) (root : Path) :
    let solver := (ofSettings s root).addFormula f
    Clauses.Over 1 solver.variableCount solver.stated ∧ ∀ c ∈ f.clauses, c ∈ solver.stated := by
  have hover := Formula.over_of_compile hf
  unfold ofSettings
  cases s.backend with
  | internal =>
    obtain ⟨n, hn⟩ := Session.exists_over_addFormula hf
    refine ⟨?_, fun c hc => Session.mem_stated_addAll.mpr (.inl hc)⟩
    show Clauses.Over 1 (Session.addFormula {} f).variableCount (Session.stated _)
    rw [hn.count]
    intro c hc x hx
    have hc : c ∈ (Session.addFormula {} f).clauses := by
      unfold Session.stated at hc
      split_ifs at hc
      · exact (List.mem_cons.mp hc).resolve_left (List.ne_nil_of_mem hx)
      · exact hc
    exact hn.clauses c hc x hx
  | external =>
    obtain ⟨-, hcount, hclauses⟩ := ProgramSolver.addFormula_adds _ f
    refine ⟨fun c hc x hx => ?_, fun c hc => (hclauses c).mpr (.inl hc)⟩
    have hc := ((hclauses c).mp hc).resolve_right (by simp [ProgramSolver.clauses])
    exact ⟨(hover c hc x hx).1,
      Nat.lt_of_lt_of_le (hover c hc x hx).2 (Nat.add_le_add_left hcount 1)⟩

omit [LawfulMonad m] in
theorem isSound_addFormula (hsound : solver.IsSound m oracle) (f : Formula) :
    (solver.addFormula f).IsSound m oracle := by
  cases solver with
  | internal s => exact hsound
  | external p =>
    obtain ⟨hcommand, hseed, htimeout, hinput, houtput⟩ := (p.addFormula_adds f).1
    rintro q ⟨h₁, h₂, h₃, h₄, h₅⟩
    exact hsound q ⟨h₁.trans hcommand, h₂.trans hseed, h₃.trans htimeout, h₄.trans hinput,
      h₅.trans houtput⟩

/-- **The models of a formula** are found one after the other, by a sound solver of either kind. -/
theorem satisfiesM_solveMultiple_addFormula {s : SolverSettings} {root : Path}
    (hsound : (ofSettings s root).IsSound m oracle) {cs : List Clause} {f : Formula}
    (hf : Formula.compile cs = .ok f) (count : Nat) :
    SatisfiesM (fun r => ∀ models, r.1 = .ok models →
        ∃ width, Clauses.Enumerated width f.clauses models)
      (((ofSettings s root).addFormula f).solveMultiple oracle count :
        m (Result (List (List Int)) × Solver)) := by
  obtain ⟨hover, hclauses⟩ := over_addFormula hf s root
  refine (satisfiesM_solveMultiple (isSound_addFormula hsound f) hover count).imp ?_
  exact fun h models hmodels => ⟨_, (h models hmodels).mono hclauses⟩

end Solver

/-! ## Which models are found -/

open Model

theorem Model.total_ofValues {n : Nat} (v : Fin n → Bool) : Assignment.Total n (ofValues v) where
  bounded _ := natAbs_le_of_mem_ofValues
  decides i h₁ hn := by
    obtain ⟨k, rfl⟩ := Int.eq_ofNat_of_zero_le (by omega : 0 ≤ i)
    have hmem := fun b => literal_mem_ofValuesFrom (v := v) Nat.one_pos ⟨k - 1, by omega⟩ b
    have hk : 1 + (k - 1) = k := by omega
    simp only [hk] at hmem
    have hpos : (k : Int) = literal k true := rfl
    have hneg : -(k : Int) = literal k false := rfl
    rw [hneg, hpos, ofValues, hmem, hmem]
    simp

theorem Oracle.Decides.sound {oracle : Oracle} (h : oracle.Decides) :
    Clauses.SoundOracle oracle := by
  intro width clauses hover model hmodel
  have hdecided := h width clauses hover
  cases hverdict : oracle width clauses with
  | satisfiable value? =>
    rw [hverdict] at hdecided hmodel
    obtain ⟨v, hvalue, hsat⟩ := hdecided
    obtain rfl : extract width value? = model := Option.some.inj hmodel
    rw [extract_eq_ofValues hvalue]
    exact ⟨total_ofValues v, hsat⟩
  | unsatisfiable | unknown =>
    rw [hverdict] at hmodel
    contradiction

/-- The oracle that gives the first of some models that satisfies the clauses, if there is one. -/
def Oracle.preferring (models : List (List Int)) : Oracle := fun width clauses =>
  match models.find? fun model => model.length == width && satisfiesAll model clauses with
  | some model => .satisfiable (sign? model)
  | none => Split.solve width clauses

theorem Oracle.preferring_decides {n : Nat} (found : List (Fin n → Bool)) :
    (preferring (found.map ofValues)).Decides := by
  intro width clauses hover
  unfold preferring
  cases hfind : (found.map ofValues).find? fun model =>
      model.length == width && satisfiesAll model clauses with
  | none => exact Split.solve_decides width clauses hover
  | some model =>
    obtain ⟨v, -, rfl⟩ := List.mem_map.mp (List.mem_of_find?_eq_some hfind)
    obtain ⟨hwidth, hsat⟩ : n = width ∧ satisfiesAll (ofValues v) clauses = true := by
      simpa [ofValues, ofValuesFrom] using List.find?_some hfind
    subst hwidth
    exact ⟨v, sign?_ofValues v, hsat⟩

namespace Session

variable {s : Session} {n : Nat}

theorem solve_preferring (h : s.Over n) {before after : List (Fin n → Bool)} {v : Fin n → Bool}
    (hv : v ∈ s.accepted n) (hbefore : ∀ w ∈ before, w ∉ s.accepted n) :
    s.solve (.preferring ((before ++ v :: after).map ofValues)) = .ok (some (ofValues v)) := by
  have hc : s.contradictory = false := (Finset.mem_filter.mp hv).2.1
  have haccepted : (fun w => (ofValues w).length == n &&
      satisfiesAll (ofValues w) s.clauses.reverse) = fun w => decide (w ∈ s.accepted n) := by
    funext w
    rw [Bool.eq_iff_iff]
    simp [accepted, hc, ofValues, ofValuesFrom, satisfiesAll]
  have hfind : (before ++ v :: after).find? (fun w => decide (w ∈ s.accepted n)) = some v := by
    rw [List.find?_append, List.find?_eq_none.mpr (by simpa using hbefore)]
    simp [hv]
  rw [solve, hc, if_neg Bool.false_ne_true, Oracle.preferring, h.count, List.find?_map]
  simp only [Function.comp_def, haccepted, hfind, Option.map_some]
  rw [extract_eq_ofValues (sign?_ofValues v)]

/-- **Any different models can be found**: an oracle that decides clauses may give them. -/
theorem solveMultiple_preferring (h : s.Over n) {before found : List (Fin n → Bool)}
    (hnodup : found.Nodup) (hfound : ∀ v ∈ found, v ∈ s.accepted n)
    (hbefore : ∀ w ∈ before, w ∉ s.accepted n) :
    ∃ s', s.solveMultiple (.preferring ((before ++ found).map ofValues)) found.length =
      (.ok (found.map ofValues), s') := by
  induction found generalizing s before with
  | nil => exact ⟨s, rfl⟩
  | cons v found ih =>
    obtain ⟨hv, hfound⟩ := List.forall_mem_cons.mp hfound
    obtain ⟨hnot, hnodup⟩ := List.nodup_cons.mp hnodup
    have hne : ∀ w ∈ found, w ≠ v := fun w hw heq => hnot (heq ▸ hw)
    have hmem : ∀ w, w ∈ (s.add ((ofValues v).map (- ·))).accepted n ↔
        w ≠ v ∧ w ∈ s.accepted n := fun w => by rw [accepted_add_blocking, Finset.mem_erase]
    -- the model that was found joins those that are not accepted any more
    have hbefore' : ∀ w ∈ before ++ [v], w ∉ (s.add ((ofValues v).map (- ·))).accepted n := by
      intro w hw
      rw [hmem, not_and]
      rcases List.mem_append.mp hw with hw | hw
      · exact fun _ => hbefore w hw
      · exact fun hwv => absurd (List.mem_singleton.mp hw) hwv
    obtain ⟨s', hs'⟩ := ih (h.add_blocking v) hnodup
      (fun w hw => (hmem w).mpr ⟨hne w hw, hfound w hw⟩) hbefore'
    rw [List.append_assoc, List.singleton_append] at hs'
    refine ⟨s', ?_⟩
    exact solveMultiple_succ (solve_preferring h hv hbefore) (blocking32_ofValues h.fits) hs'

end Session

end CellSat
