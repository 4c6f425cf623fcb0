import Mathlib
import CellSat.Proofs.Meaning
import CellSat.Solve.Session
/-!
# The models a session finds

An assignment of the variables 1 to `n` is a function on `Fin n`; a session writes it as the list of
the literals that hold. Excluding an assignment that was found takes it away from the assignments
that a session accepts, and nothing else.

* `Model.ofValues`: the list that an assignment is written as, and `Model.extract_eq_ofValues`: it
  is what is read off the values of a solver;
* `Oracle.Decides`: what is expected of an oracle, and `Split.solve_decides`, one that does it;
* `Session.accepted_add_blocking`: what is accepted once a model was excluded;
* **`Session.solveMultiple_enumerates`**: the models that are found are different assignments that
  satisfy the clauses, as many as there are or as many as were asked for.
-/

namespace CellSat

/-! ## Assignments as lists of literals -/

namespace Model

/-- The literals that hold when the variables from a number on have given values. -/
def ofValuesFrom (first : Nat) {n : Nat} (values : Fin n → Bool) : List Int :=
  List.ofFn fun i => literal (first + i) (values i)

/-- The literals that hold when the variables from 1 on have given values. -/
def ofValues {n : Nat} (values : Fin n → Bool) : List Int := ofValuesFrom 1 values

variable {n first : Nat} {v w : Fin n → Bool}

@[simp]
theorem natAbs_literal (number : Nat) (b : Bool) : (literal number b).natAbs = number := by
  cases b <;> simp [literal]

theorem neg_literal (number : Nat) (b : Bool) : -literal number b = literal number !b := by
  cases b <;> simp [literal]

theorem literal_inj {i j : Nat} (hi : 0 < i) {b c : Bool} :
    literal i b = literal j c ↔ i = j ∧ b = c := by
  constructor
  · intro h
    have hij : i = j := by simpa using congrArg Int.natAbs h
    subst hij
    refine ⟨rfl, ?_⟩
    cases b <;> cases c <;> simp [literal] at h ⊢ <;> omega
  · rintro ⟨rfl, rfl⟩
    rfl

theorem exists_literal (x : Int) : ∃ b, x = literal x.natAbs b := by
  rcases Int.natAbs_eq x with h | h
  · exact ⟨true, by simpa [literal] using h⟩
  · exact ⟨false, by simpa [literal] using h⟩

theorem mem_ofValuesFrom {x : Int} :
    x ∈ ofValuesFrom first v ↔ ∃ i : Fin n, literal (first + i) (v i) = x := by
  simp [ofValuesFrom]

theorem literal_mem_ofValuesFrom (hf : 0 < first) (i : Fin n) (b : Bool) :
    literal (first + i) b ∈ ofValuesFrom first v ↔ v i = b := by
  rw [mem_ofValuesFrom]
  constructor
  · rintro ⟨j, hj⟩
    rw [literal_inj (by omega)] at hj
    obtain rfl : j = i := Fin.ext (by omega)
    exact hj.2
  · rintro rfl
    exact ⟨i, rfl⟩

theorem ofValuesFrom_succ (v : Fin (n + 1) → Bool) :
    ofValuesFrom first v = literal first (v 0) :: ofValuesFrom (first + 1) (fun i => v i.succ) := by
  simp only [ofValuesFrom, List.ofFn_succ, Fin.val_zero, Fin.val_succ, Nat.add_zero]
  congr 2
  funext i
  rw [Nat.add_right_comm, Nat.add_assoc]

theorem ofValues_injective : Function.Injective (ofValues (n := n)) := by
  intro v w h
  funext i
  rw [← literal_mem_ofValuesFrom (v := v) Nat.one_pos]
  rw [ofValues, ofValues] at h
  rw [h, literal_mem_ofValuesFrom Nat.one_pos]

/-- **The model of given values**: nothing is left out if all variables have one. -/
theorem extract_eq_ofValues {value? : Nat → Option Bool}
    (h : ∀ i : Fin n, value? (i + 1) = some (v i)) : extract n value? = ofValues v := by
  rw [extract, ← List.map_coe_finRange_eq_range, List.filterMap_map, ofValues, ofValuesFrom,
    List.ofFn_eq_map, ← List.filterMap_eq_map]
  congr 1
  funext i
  simp only [Function.comp_apply, h, Option.map_some, Nat.add_comm]

theorem sign?_ofValues (v : Fin n → Bool) (i : Fin n) :
    sign? (ofValues v) (i + 1) = some (v i) := by
  have hmem : ∀ b, literal (i + 1) b ∈ ofValues v ↔ v i = b := fun b => by
    rw [Nat.add_comm]
    exact literal_mem_ofValuesFrom Nat.one_pos i b
  unfold sign?
  simp only [List.contains_iff_mem, hmem]
  cases v i <;> simp

theorem satisfies_iff {numbers clause : List Int} :
    satisfies numbers clause = true ↔ ∃ x ∈ clause, x ∈ numbers := by
  simp [satisfies]

theorem satisfiesAll_iff {numbers : List Int} {clauses : List (List Int)} :
    satisfiesAll numbers clauses = true ↔ ∀ c ∈ clauses, satisfies numbers c = true := by
  simp [satisfiesAll]

theorem satisfies_map_neg : satisfies (ofValues w) ((ofValues v).map (- ·)) = true ↔ w ≠ v := by
  rw [satisfies_iff, Function.ne_iff]
  constructor
  · rintro ⟨x, hx, hw⟩
    obtain ⟨y, hy, rfl⟩ := List.mem_map.mp hx
    obtain ⟨i, rfl⟩ := mem_ofValuesFrom.mp hy
    rw [neg_literal, ofValues, literal_mem_ofValuesFrom Nat.one_pos] at hw
    exact ⟨i, by simp [hw]⟩
  · rintro ⟨i, hi⟩
    refine ⟨-literal (1 + i) (v i), List.mem_map_of_mem (mem_ofValuesFrom.mpr ⟨i, rfl⟩), ?_⟩
    rw [neg_literal, ofValues, literal_mem_ofValuesFrom Nat.one_pos]
    exact Bool.eq_not.mpr hi

theorem natAbs_le_of_mem_ofValues {x : Int} (hx : x ∈ ofValues v) :
    1 ≤ x.natAbs ∧ x.natAbs ≤ n := by
  obtain ⟨i, rfl⟩ := mem_ofValuesFrom.mp hx
  simp
  omega

theorem blocking32_ofValues (hn : (n : Int) ≤ Word.maxInt32) :
    blocking32 (ofValues v) = .ok ((ofValues v).map (- ·)) := by
  have hfits : ∀ x ∈ ofValues v, ∃ y, Word.int32 (-x) = .ok y ∧ -x = y := by
    intro x hx
    have := natAbs_le_of_mem_ofValues hx
    refine ⟨-x, ?_, rfl⟩
    rw [Word.int32, if_pos]
    simp only [Word.minInt32, Word.maxInt32] at hn ⊢
    omega
  obtain ⟨opposites, hok, hopposites⟩ := mapM_eq_ok hfits
  rw [blocking32, hok]
  rw [← List.forall₂_map_left_iff (R := Eq), List.forall₂_eq_eq_eq] at hopposites
  rw [hopposites]

end Model

/-! ## Oracles -/

open Model

/-- The literals of clauses are over the variables from a number on, so many of them. -/
def Clauses.Over (first count : Nat) (clauses : List (List Int)) : Prop :=
  ∀ c ∈ clauses, ∀ x ∈ c, first ≤ x.natAbs ∧ x.natAbs < first + count

/-- An answer that decides clauses over some variables: values of all of them that satisfy every
clause, or nothing if there are no such values. -/
def Clauses.Decided (first count : Nat) (clauses : List (List Int)) : Option (List Int) → Prop
  | none => ∀ v : Fin count → Bool, satisfiesAll (ofValuesFrom first v) clauses = false
  | some model => ∃ v : Fin count → Bool,
      model = ofValuesFrom first v ∧ satisfiesAll model clauses = true

/-- A verdict that gives values to all variables from 1 on that satisfy every clause, or says that
there are none. -/
def Verdict.Decides (width : Nat) (clauses : List (List Int)) : Verdict → Prop
  | satisfiable value? => ∃ v : Fin width → Bool,
      (∀ i : Fin width, value? (i + 1) = some (v i)) ∧ satisfiesAll (ofValues v) clauses = true
  | unsatisfiable => ∀ v : Fin width → Bool, satisfiesAll (ofValues v) clauses = false
  | unknown => False

/-- An oracle that decides all clauses over the variables from 1 on. -/
def Oracle.Decides (oracle : Oracle) : Prop :=
  ∀ width clauses, Clauses.Over 1 width clauses → (oracle width clauses).Decides width clauses

namespace Split

variable {first count : Nat} {clauses : List (List Int)}

theorem over_assign (h : Clauses.Over first (count + 1) clauses) (b : Bool) :
    Clauses.Over (first + 1) count (assign (literal first b) clauses) := by
  intro c hc x hx
  simp only [assign, List.mem_map, List.mem_filter] at hc
  obtain ⟨d, ⟨hd, hnot⟩, rfl⟩ := hc
  obtain ⟨hxd, hne⟩ := List.mem_filter.mp hx
  have hbounds := h d hd x hxd
  -- neither sign of the variable is left in a clause that does not hold
  have hvar : x.natAbs ≠ first := by
    rintro rfl
    obtain ⟨c, hc⟩ := exists_literal x
    by_cases hcb : c = b
    · rw [← hcb, ← hc] at hnot
      simp [hxd] at hnot
    · rw [neg_literal, ← Bool.eq_not.mpr hcb, ← hc] at hne
      simp at hne
  omega

/-- The clauses that are left are satisfied if, with the value that was given, all of them are. -/
theorem satisfiesAll_assign (hf : 0 < first) (b : Bool) {v : Fin count → Bool} :
    satisfiesAll (ofValuesFrom (first + 1) v) (assign (literal first b) clauses) = true ↔
      satisfiesAll (literal first b :: ofValuesFrom (first + 1) v) clauses = true := by
  have hneg : -literal first b ∉ ofValuesFrom (first + 1) v := by
    rw [neg_literal, mem_ofValuesFrom]
    rintro ⟨i, hi⟩
    rw [literal_inj (by omega)] at hi
    omega
  simp only [satisfiesAll_iff, satisfies_iff, assign, List.mem_map, List.mem_filter,
    List.mem_cons]
  constructor
  · intro h c hc
    by_cases hin : literal first b ∈ c
    · exact ⟨_, hin, .inl rfl⟩
    · obtain ⟨x, hx, hmem⟩ := h _ ⟨c, ⟨hc, by simpa using hin⟩, rfl⟩
      exact ⟨x, (List.mem_filter.mp hx).1, .inr hmem⟩
  · rintro h _ ⟨c, ⟨hc, hnot⟩, rfl⟩
    obtain ⟨x, hx, rfl | hmem⟩ := h c hc
    · simp_all
    · refine ⟨x, List.mem_filter.mpr ⟨hx, ?_⟩, hmem⟩
      simp only [decide_eq_true_eq]
      rintro rfl
      exact hneg hmem

theorem decided_of_assign (hf : 0 < first) {answer opposite : Option (List Int)} :
    Clauses.Decided (first + 1) count (assign (literal first true) clauses) answer →
    Clauses.Decided (first + 1) count (assign (literal first false) clauses) opposite →
    Clauses.Decided first (count + 1) clauses
      (match answer with
      | some model => some (literal first true :: model)
      | none => opposite.map fun model => literal first false :: model) := by
  intro htrue hfalse
  cases answer with
  | some model =>
    obtain ⟨v, rfl, hv⟩ := htrue
    exact ⟨Fin.cons true v, by simp [ofValuesFrom_succ], (satisfiesAll_assign hf true).mp hv⟩
  | none =>
    cases opposite with
    | some model =>
      obtain ⟨v, rfl, hv⟩ := hfalse
      exact ⟨Fin.cons false v, by simp [ofValuesFrom_succ], (satisfiesAll_assign hf false).mp hv⟩
    | none =>
      intro v
      rw [← Bool.not_eq_true, ofValuesFrom_succ, ← satisfiesAll_assign hf, Bool.not_eq_true]
      cases v 0 with
      | true => exact htrue _
      | false => exact hfalse _

/-- Trying both values of each variable finds an assignment if there is one. -/
theorem solveFrom_decides (hf : 0 < first) (h : Clauses.Over first count clauses) :
    Clauses.Decided first count clauses (solveFrom count first clauses) := by
  induction count generalizing first clauses with
  | zero =>
    cases clauses with
    | nil => exact ⟨Fin.elim0, by simp [ofValuesFrom], rfl⟩
    | cons c cs =>
      -- a clause over no variables is empty
      have hc : c = [] := List.eq_nil_iff_forall_not_mem.mpr fun x hx => by
        have := h c List.mem_cons_self x hx
        omega
      intro v
      simp [hc, satisfiesAll, satisfies]
  | succ count ih =>
    rw [solveFrom]
    by_cases hempty : clauses.contains [] = true
    · rw [if_pos hempty]
      intro v
      rw [← Bool.not_eq_true, satisfiesAll_iff]
      intro hall
      simpa [satisfies] using hall [] (by simpa using hempty)
    · rw [if_neg hempty]
      exact decided_of_assign hf (ih (by omega) (over_assign h true))
        (ih (by omega) (over_assign h false))

theorem solve_decides : Oracle.Decides solve := by
  intro width clauses h
  have hdecided := solveFrom_decides Nat.one_pos h
  unfold solve
  cases hfound : solveFrom width 1 clauses with
  | none =>
    rw [hfound] at hdecided
    exact hdecided
  | some model =>
    rw [hfound] at hdecided
    obtain ⟨v, rfl, hsat⟩ := hdecided
    exact ⟨v, sign?_ofValues v, hsat⟩

end Split

/-! ## Sessions -/

namespace Session

variable {s : Session} {n : Nat}

/-- The assignments that satisfy all clauses that were added. -/
def accepted (n : Nat) (s : Session) : Finset (Fin n → Bool) :=
  {v | s.contradictory = false ∧ satisfiesAll (ofValues v) s.clauses = true}

/-- A session over the variables from 1 to a number of 32 bits. -/
structure Over (n : Nat) (s : Session) : Prop where
  count : s.variableCount = n
  fits : (n : Int) ≤ Word.maxInt32
  clauses : Clauses.Over 1 n s.clauses

theorem mem_accepted_add {c : List Int} {v : Fin n → Bool} :
    v ∈ (s.add c).accepted n ↔ v ∈ s.accepted n ∧ satisfies (ofValues v) c = true := by
  cases c with
  | nil => simp [accepted, add, satisfies]
  | cons x c => simp [accepted, add, satisfiesAll, and_left_comm, and_comm]

theorem mem_accepted_addAll {cs : List (List Int)} {v : Fin n → Bool} :
    v ∈ (s.addAll cs).accepted n ↔ v ∈ s.accepted n ∧ satisfiesAll (ofValues v) cs = true := by
  induction cs generalizing s with
  | nil => simp [addAll, satisfiesAll]
  | cons c cs ih =>
    rw [addAll, List.foldl_cons, ← addAll, ih, mem_accepted_add, and_assoc]
    simp [satisfiesAll]

theorem highestVariable_le {c : List Int} {b : Nat} :
    highestVariable c ≤ b ↔ ∀ x ∈ c, x.natAbs ≤ b := by
  simp [highestVariable, foldl_max_le_iff]

theorem variableCount_add (c : List Int) :
    (s.add c).variableCount = max s.variableCount (highestVariable c) := by
  cases c with
  | nil => simp [add, highestVariable]
  | cons x c => rfl

theorem mem_clauses_add {c d : List Int} (h : d ∈ (s.add c).clauses) : d ∈ s.clauses ∨ d = c := by
  cases c with
  | nil => exact .inl h
  | cons x c => exact (List.mem_cons.mp h).symm

theorem Over.add (h : s.Over n) {c : List Int}
    (hc : ∀ x ∈ c, x ≠ 0 ∧ (x.natAbs : Int) ≤ Word.maxInt32) :
    (s.add c).Over (max n (highestVariable c)) where
  count := by rw [variableCount_add, h.count]
  fits := by
    have hmax : highestVariable c ≤ Word.maxInt32.toNat :=
      highestVariable_le.mpr fun x hx => by have := (hc x hx).2; omega
    have := h.fits
    simp only [Word.maxInt32] at hmax this ⊢
    omega
  clauses := by
    intro d hd x hx
    rcases mem_clauses_add hd with hd | rfl
    · have := h.clauses d hd x hx
      omega
    · have := highestVariable_le.mp le_rfl x hx
      have := (hc x hx).1
      omega

theorem Over.addAll (h : s.Over n) (cs : List (List Int))
    (hcs : ∀ c ∈ cs, ∀ x ∈ c, x ≠ 0 ∧ (x.natAbs : Int) ≤ Word.maxInt32) :
    ∃ m, (s.addAll cs).Over m := by
  induction cs generalizing s n with
  | nil => exact ⟨n, h⟩
  | cons c cs ih =>
    exact ih (h.add (hcs c List.mem_cons_self)) fun d hd => hcs d (List.mem_cons_of_mem c hd)

theorem foldlM_add32_eq_ok {cs : List (List Int)} {s' : Session}
    (h : cs.foldlM add32 s = .ok s') :
    s' = s.addAll cs ∧ ∀ c ∈ cs, ∀ x ∈ c, x ≠ 0 ∧ x ≠ Word.minInt32 := by
  induction cs generalizing s with
  | nil => exact ⟨(Except.ok.inj h).symm, by simp⟩
  | cons c cs ih =>
    rw [List.foldlM_cons] at h
    obtain ⟨t, ht, h⟩ := bind_eq_ok.mp h
    rw [add32] at ht
    split_ifs at ht with hc
    obtain rfl := Except.ok.inj ht
    obtain ⟨rfl, hcs⟩ := ih h
    exact ⟨rfl, List.forall_mem_cons.mpr ⟨by simpa [not_or] using hc, hcs⟩⟩

/-- Once a model was excluded, exactly the others are accepted. -/
theorem accepted_add_blocking (v : Fin n → Bool) :
    (s.add ((ofValues v).map (- ·))).accepted n = (s.accepted n).erase v := by
  ext w
  rw [mem_accepted_add, satisfies_map_neg, Finset.mem_erase, and_comm]

theorem Over.add_blocking (h : s.Over n) (v : Fin n → Bool) :
    (s.add ((ofValues v).map (- ·))).Over n := by
  have hbounds : ∀ x ∈ (ofValues v).map (- ·), 1 ≤ x.natAbs ∧ x.natAbs ≤ n := by
    intro x hx
    obtain ⟨y, hy, rfl⟩ := List.mem_map.mp hx
    simpa using natAbs_le_of_mem_ofValues hy
  have hn : max n (highestVariable ((ofValues v).map (- ·))) = n :=
    max_eq_left (highestVariable_le.mpr fun x hx => (hbounds x hx).2)
  have hadd := h.add (c := (ofValues v).map (- ·)) fun x hx => by
    have := hbounds x hx
    have := h.fits
    omega
  rwa [hn] at hadd

theorem solve_cases {oracle : Oracle} (horacle : oracle.Decides) (h : s.Over n) :
    (s.solve oracle = .ok none ∧ s.accepted n = ∅) ∨
      ∃ v ∈ s.accepted n, s.solve oracle = .ok (some (ofValues v)) := by
  have hover : Clauses.Over 1 n s.clauses.reverse :=
    fun c hc => h.clauses c (List.mem_reverse.mp hc)
  have hanswer := horacle n _ hover
  have hreverse : ∀ numbers, satisfiesAll numbers s.clauses.reverse =
      satisfiesAll numbers s.clauses := fun numbers => by simp [satisfiesAll]
  rw [solve, h.count]
  by_cases hc : s.contradictory = true
  · exact .inl ⟨if_pos hc, by simp [accepted, hc]⟩
  · rw [if_neg hc]
    cases ho : oracle n s.clauses.reverse with
    | satisfiable value? =>
      rw [ho] at hanswer
      obtain ⟨v, hvalue, hv⟩ := hanswer
      rw [hreverse] at hv
      refine .inr ⟨v, by simpa [accepted, hc] using hv, ?_⟩
      show Except.ok (some (extract n value?)) = _
      rw [extract_eq_ofValues hvalue]
    | unsatisfiable =>
      rw [ho] at hanswer
      refine .inl ⟨rfl, Finset.filter_eq_empty_iff.mpr fun v _ hv => ?_⟩
      have := hanswer v
      rw [hreverse, hv.2] at this
      contradiction
    | unknown =>
      rw [ho] at hanswer
      exact hanswer.elim

theorem solveMultiple_succ {oracle : Oracle} {count : Nat} {model clause : List Int}
    {models : List (List Int)} {s' : Session} (hmodel : s.solve oracle = .ok (some model))
    (hclause : blocking32 model = .ok clause)
    (h : (s.add clause).solveMultiple oracle count = (.ok models, s')) :
    s.solveMultiple oracle (count + 1) = (.ok (model :: models), s') := by
  simp only [solveMultiple, hmodel, hclause, h]
  rfl

theorem exists_solveMultiple {oracle : Oracle} (horacle : oracle.Decides) (count : Nat)
    (h : s.Over n) :
    ∃ (found : List (Fin n → Bool)) (s' : Session),
      s.solveMultiple oracle count = (.ok (found.map ofValues), s') ∧ found.Nodup ∧
      (∀ v ∈ found, v ∈ s.accepted n) ∧ found.length = min count (s.accepted n).card := by
  induction count generalizing s with
  | zero => exact ⟨[], s, rfl, .nil, by simp, by simp⟩
  | succ count ih =>
    rcases solve_cases horacle h with ⟨hnone, hempty⟩ | ⟨v, hv, hsome⟩
    · rw [solveMultiple, hnone]
      exact ⟨[], s, rfl, .nil, by simp, by simp [hempty]⟩
    · obtain ⟨found, s', hok, hnodup, hfound, hlength⟩ := ih (h.add_blocking v)
      simp only [accepted_add_blocking, Finset.mem_erase] at hfound hlength
      refine ⟨v :: found, s', solveMultiple_succ hsome (blocking32_ofValues h.fits) hok, ?_, ?_, ?_⟩
      · exact List.nodup_cons.mpr ⟨fun hmem => (hfound v hmem).1 rfl, hnodup⟩
      · rintro w hw
        rcases List.mem_cons.mp hw with rfl | hw
        · exact hv
        · exact (hfound w hw).2
      · rw [List.length_cons, hlength, Finset.card_erase_of_mem hv]
        have := Finset.card_pos.mpr ⟨v, hv⟩
        omega

/-- **Solving repeatedly enumerates the models**, as many as there are or as were asked for. -/
theorem solveMultiple_enumerates {oracle : Oracle} (horacle : oracle.Decides)
    (clauses : List (List Int))
    (h32 : ∀ c ∈ clauses, ∀ x ∈ c, Word.minInt32 ≤ x ∧ x ≤ Word.maxInt32)
    {s : Session} (hs : clauses.foldlM add32 {} = .ok s) (count : Nat) :
    ∃ models s', s.solveMultiple oracle count = (.ok models, s') ∧ models.Nodup ∧
      (∀ m ∈ models, ∃ v : Fin s.variableCount → Bool,
        m = ofValues v ∧ satisfiesAll m clauses = true) ∧
      models.length = min count (Fintype.card
        {v : Fin s.variableCount → Bool // satisfiesAll (ofValues v) clauses = true}) := by
  obtain ⟨rfl, hliterals⟩ := foldlM_add32_eq_ok hs
  have hempty : Over 0 {} := ⟨rfl, by decide, by simp [Clauses.Over]⟩
  obtain ⟨n, hover⟩ := hempty.addAll clauses fun c hc x hx => by
    have hbounds := h32 c hc x hx
    have hliteral := hliterals c hc x hx
    simp only [Word.minInt32, Word.maxInt32] at hbounds hliteral ⊢
    omega
  have hcount : (addAll {} clauses).variableCount = n := hover.count
  rw [hcount]
  have haccepted : (addAll {} clauses).accepted n =
      ({v | satisfiesAll (ofValues v) clauses = true} : Finset (Fin n → Bool)) := by
    ext v
    rw [mem_accepted_addAll]
    simp [accepted, satisfiesAll]
  obtain ⟨found, s', hok, hnodup, hfound, hlength⟩ := exists_solveMultiple horacle count hover
  rw [haccepted] at hfound hlength
  refine ⟨found.map ofValues, s', hok, hnodup.map ofValues_injective, ?_, ?_⟩
  · intro m hm
    obtain ⟨v, hv, rfl⟩ := List.mem_map.mp hm
    exact ⟨v, rfl, by simpa using hfound v hv⟩
  · rw [List.length_map, hlength, Fintype.card_subtype]

/-- Three of four assignments satisfy the clause, and five are asked for. -/
theorem solveMultiple_enumerates_either :
    ∃ models s', solveMultiple Split.solve 5 (add {} [1, 2]) = (.ok models, s') ∧ models.Nodup ∧
      (∀ m ∈ models, ∃ v : Fin 2 → Bool, m = ofValues v ∧ satisfiesAll m [[1, 2]] = true) ∧
      models.length = 3 := by
  have hcard : Fintype.card
      {v : Fin 2 → Bool // satisfiesAll (ofValues v) [[1, 2]] = true} = 3 := by decide
  obtain ⟨models, s', hok, hnodup, hmodels, hlength⟩ := solveMultiple_enumerates
    Split.solve_decides [[1, 2]] (by decide) (s := add {} [1, 2]) rfl 5
  exact ⟨models, s', hok, hnodup, hmodels, hlength.trans (congrArg (min 5) hcard)⟩

end Session

end CellSat
