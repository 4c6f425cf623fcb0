import Mathlib
import CellSat.Proofs.Cnf.Exchange
/-!
# Answers at the ends of machine words

The texts of formulas and answers may hold any numbers. Those of an answer have 32 bits, and the
absolute value and the opposite of the least of them have not. The number of clauses in a header has
64 bits, and the greatest of these numbers has no successor. Nothing else in an answer or in the text
of a formula makes a step leave its range.

* `Formula.headerOf?`, `Formula.clauseTotal?`: the header of a text and the number in it;
* `Formula.bumpHeader_eq`, `Formula.exclude_eq`: how an answer is ruled out;
* `Assignment.bounds_of_read`: the numbers of an answer have 32 bits;
* `Assignment.decodeFrom_eq_foldlM`: values are decoded one number after the other;
* **`Formula.load_exclude_fault_iff`**: when decoding an answer and ruling it out fault.
-/

namespace CellSat

/-! ## Reading -/

theorem FileError.toResult_ne_fault {α : Type} (x : Except FileError α) (cause : Fault) :
    FileError.toResult x ≠ .error (.fault cause) := by
  cases x <;> simp [FileError.toResult]

theorem SymbolTable.readLine_ne_fault (line : String) (cause : Fault) :
    readLine line ≠ .error (.fault cause) := by
  unfold readLine
  intro h
  split at h
  · contradiction
  · split at h
    · contradiction
    · dsimp only at h
      split_ifs at h
      all_goals cases h

theorem SymbolTable.readLines_ne_fault (t : SymbolTable) (lines : List (Except FileError String))
    (cause : Fault) : readLines t lines ≠ .error (.fault cause) := by
  induction lines generalizing t with
  | nil => simp [readLines]
  | cons line lines ih =>
    intro h
    rcases bind_eq_error.mp h with h | ⟨text, -, h⟩
    · exact FileError.toResult_ne_fault line cause h
    · rcases bind_eq_error.mp h with h | ⟨given?, -, h⟩
      · exact readLine_ne_fault text cause h
      · cases given? with
        | none => exact ih t h
        | some entry => exact ih _ h

namespace Assignment

variable {t : SymbolTable} {values : Std.TreeMap String Value} {numbers : List Int} {n : Int}
  {cause : Fault}

theorem readNumber_eq_ok {word : String} (h : readNumber word = .ok n) :
    Word.minInt32 ≤ n ∧ n ≤ Word.maxInt32 := by
  unfold readNumber at h
  split at h
  · next number hread =>
    obtain rfl := Except.ok.inj h
    unfold Text.readIntIn? at hread
    split at hread
    all_goals exact of_decide_eq_true (Option.filter_eq_some_iff.mp hread).2
  · contradiction

theorem readNumber_ne_fault (word : String) : readNumber word ≠ .error (.fault cause) := by
  unfold readNumber
  split <;> simp

theorem readLine_ne_fault (line : String) : readLine line ≠ .error (.fault cause) := by
  unfold readLine
  split
  · intro h
    rcases bind_eq_error.mp h with h | ⟨numbers, -, h⟩
    · obtain ⟨word, -, h⟩ := mapM_eq_error h
      exact readNumber_ne_fault word h
    · contradiction
  · simp

theorem readLines_ne_fault (lines : List (Except FileError String)) :
    readLines lines ≠ .error (.fault cause) := by
  induction lines with
  | nil => simp [readLines]
  | cons line lines ih =>
    intro h
    rcases bind_eq_error.mp h with h | ⟨text, -, h⟩
    · exact FileError.toResult_ne_fault line cause h
    · rcases bind_eq_error.mp h with h | ⟨numbers, -, h⟩
      · exact readLine_ne_fault text h
      · rcases bind_eq_error.mp h with h | ⟨rest, -, h⟩
        · exact ih h
        · contradiction

theorem bounds_of_readLine {line : String} (h : readLine line = .ok numbers) :
    ∀ n ∈ numbers, Word.minInt32 ≤ n ∧ n ≤ Word.maxInt32 := by
  unfold readLine at h
  split at h
  · obtain ⟨all, hall, h⟩ := bind_eq_ok.mp h
    obtain rfl := Except.ok.inj h
    intro n hn
    obtain ⟨word, -, hword⟩ := (mem_of_mapM_eq_ok hall).mp (List.mem_of_mem_filter hn)
    exact readNumber_eq_ok hword
  · obtain rfl := Except.ok.inj h
    simp

theorem bounds_of_readLines {lines : List (Except FileError String)}
    (h : readLines lines = .ok numbers) : ∀ n ∈ numbers, Word.minInt32 ≤ n ∧ n ≤ Word.maxInt32 := by
  induction lines generalizing numbers with
  | nil =>
    obtain rfl := Except.ok.inj h
    simp
  | cons line lines ih =>
    obtain ⟨text, -, h⟩ := bind_eq_ok.mp h
    obtain ⟨first, hfirst, h⟩ := bind_eq_ok.mp h
    obtain ⟨rest, hrest, h⟩ := bind_eq_ok.mp h
    obtain rfl := Except.ok.inj h
    exact List.forall_mem_append.mpr ⟨bounds_of_readLine hfirst, ih hrest⟩

/-- **The numbers of an answer have 32 bits.** -/
theorem bounds_of_read {answer : Content} (h : read answer = .ok numbers) :
    ∀ n ∈ numbers, Word.minInt32 ≤ n ∧ n ≤ Word.maxInt32 :=
  bounds_of_readLines h

/-! ## Decoding -/

theorem int32_natAbs (hn : Word.minInt32 ≤ n ∧ n ≤ Word.maxInt32) :
    Word.int32 n.natAbs = if n = Word.minInt32 then .error .overflow else .ok (n.natAbs : Int) := by
  by_cases hmin : n = Word.minInt32
  · rw [if_pos hmin, hmin]
    rfl
  · rw [if_neg hmin, Word.int32, if_pos]
    simp only [Word.minInt32, Word.maxInt32] at hn hmin ⊢
    omega

theorem int32_neg (hn : Word.minInt32 ≤ n ∧ n ≤ Word.maxInt32) :
    Word.int32 (-n) = if n = Word.minInt32 then .error .overflow else .ok (-n) := by
  by_cases hmin : n = Word.minInt32
  · rw [if_pos hmin, hmin]
    rfl
  · rw [if_neg hmin, Word.int32, if_pos]
    simp only [Word.minInt32, Word.maxInt32] at hn hmin ⊢
    omega

/-- Add what one number says to the values. -/
def decodeNumber (t : SymbolTable) (values : Std.TreeMap String Value) (n : Int) :
    Result (Std.TreeMap String Value) := do
  let index ← Word.int32 n.natAbs
  match t.name? index with
  | none => throw (.unknownVariable n.natAbs)
  | some name => decodeNamed values name (0 < n)

theorem decodeFrom_eq_foldlM (t : SymbolTable) (values : Std.TreeMap String Value)
    (numbers : List Int) :
    decodeFrom t values numbers = numbers.foldlM (decodeNumber t) values := by
  induction numbers generalizing values with
  | nil => rfl
  | cons n numbers ih =>
    rw [List.foldlM_cons, decodeFrom, decodeNumber, bind_assoc]
    congr 1
    funext index
    cases t.name? index with
    | none => rfl
    | some name =>
      show (decodeNamed values name (0 < n) >>= fun values' => decodeFrom t values' numbers) = _
      congr 1
      funext values'
      exact ih values'

theorem decodeNamed_ne_fault (values : Std.TreeMap String Value) (name : String) (truth : Bool) :
    decodeNamed values name truth ≠ .error (.fault cause) := by
  unfold decodeNamed
  split
  · simp
  · split <;> simp

theorem decodeNumber_eq_fault_iff (hn : Word.minInt32 ≤ n ∧ n ≤ Word.maxInt32) :
    decodeNumber t values n = .error (.fault cause) ↔ cause = .overflow ∧ n = Word.minInt32 := by
  unfold decodeNumber
  rw [int32_natAbs hn]
  split_ifs with hmin
  · simp [hmin, liftM, monadLift, MonadLift.monadLift, Checked.toResult, bind, Except.bind, eq_comm]
  · simp only [liftM, monadLift, MonadLift.monadLift, Checked.toResult, bind, Except.bind, hmin,
      and_false, iff_false]
    cases t.name? (n.natAbs : Int) with
    | none => simp [throw, throwThe, MonadExceptOf.throw]
    | some name => exact decodeNamed_ne_fault values name _

theorem decode_eq_ok_iff {results : Valuation} : decode t numbers = .ok results ↔
    ∃ values, decodeFrom t ∅ numbers = .ok values ∧ results = values.toList := by
  rw [decode, bind_eq_ok]
  exact exists_congr fun values => and_congr_right fun _ =>
    ⟨fun h => (Except.ok.inj h).symm, fun h => congrArg Except.ok h.symm⟩

/-- Decoding faults at the least 32-bit number, unless it fails before it gets there. -/
theorem decode_eq_fault_iff (h : ∀ n ∈ numbers, Word.minInt32 ≤ n ∧ n ≤ Word.maxInt32) :
    decode t numbers = .error (.fault cause) ↔ cause = .overflow ∧ ∃ before after results,
      numbers = before ++ Word.minInt32 :: after ∧ decode t before = .ok results := by
  have hfrom : decode t numbers = .error (.fault cause) ↔
      numbers.foldlM (decodeNumber t) ∅ = .error (.fault cause) := by
    rw [← decodeFrom_eq_foldlM, decode, bind_eq_error]
    simp [pure, Except.pure]
  rw [hfrom, foldlM_eq_error]
  constructor
  · rintro ⟨before, n, after, values, rfl, hbefore, hn⟩
    obtain ⟨rfl, rfl⟩ := (decodeNumber_eq_fault_iff (h n (by simp))).mp hn
    rw [← decodeFrom_eq_foldlM] at hbefore
    exact ⟨rfl, before, after, _, rfl, decode_eq_ok_iff.mpr ⟨values, hbefore, rfl⟩⟩
  · rintro ⟨rfl, before, after, results, rfl, hbefore⟩
    obtain ⟨values, hvalues, -⟩ := decode_eq_ok_iff.mp hbefore
    rw [decodeFrom_eq_foldlM] at hvalues
    exact ⟨before, _, after, values, rfl, hvalues,
      (decodeNumber_eq_fault_iff (h _ (by simp))).mpr ⟨rfl, rfl⟩⟩

/-- An answer has the least 32-bit number, and what stands before it can be decoded with the names in
the text of a formula. -/
def Overflows (cnf answer : Content) : Prop :=
  ∃ t before after results, SymbolTable.read cnf = .ok t ∧
    read answer = .ok (before ++ Word.minInt32 :: after) ∧ decode t before = .ok results

theorem load_eq_fault_iff {cnf answer : Content} :
    load cnf answer = .error (.fault cause) ↔ cause = .overflow ∧ Overflows cnf answer := by
  rw [load, bind_eq_error]
  constructor
  · rintro (h | ⟨t, ht, h⟩)
    · exact absurd h (SymbolTable.readLines_ne_fault _ _ cause)
    · rcases bind_eq_error.mp h with h | ⟨numbers, hnumbers, h⟩
      · exact absurd h (readLines_ne_fault _)
      · obtain ⟨rfl, before, after, results, rfl, hbefore⟩ :=
          (decode_eq_fault_iff (bounds_of_read hnumbers)).mp h
        exact ⟨rfl, t, before, after, results, ht, hnumbers, hbefore⟩
  · rintro ⟨rfl, t, before, after, results, ht, hnumbers, hbefore⟩
    refine .inr ⟨t, ht, bind_eq_error.mpr (.inr ⟨_, hnumbers, ?_⟩)⟩
    exact (decode_eq_fault_iff (bounds_of_read hnumbers)).mpr
      ⟨rfl, before, after, results, rfl, hbefore⟩

end Assignment

/-! ## Headers -/

namespace Formula

variable {cnf answer line : String} {lines : List String} {numbers : List Int} {n : Nat}
  {cause : Fault}

/-- The header among lines: the first one that starts with `p cnf`. -/
def headerOf? (lines : List String) : Option String :=
  lines.find? fun line => line.startsWith "p cnf"

/-- The number that a line ends with. -/
def countOf? (line : String) : Option Nat :=
  (Text.wordsOf line).getLast?.bind fun word => Text.readNat? word.toList

/-- The number of clauses in the header of a text. -/
def clauseTotal? (cnf : String) : Option Nat := (headerOf? (Text.lines cnf)).bind countOf?

theorem bumpHeader_eq (line : String) : bumpHeader line =
    match countOf? line with
    | none => .error (.decode (.badHeader line))
    | some n =>
      if n < Word.maxNat64 then
        .ok (Text.join " " (Text.wordsOf line).dropLast ++ " " ++ toString (n + 1))
      else if n = Word.maxNat64 then .error (.fault .overflow)
      else .error (.decode (.badHeader line)) := by
  unfold bumpHeader countOf?
  rw [← List.head?_reverse, ← List.reverse_reverse (Text.wordsOf line).dropLast,
    ← List.tail_reverse]
  cases (Text.wordsOf line).reverse with
  | nil => rfl
  | cons word rest =>
    simp only [Text.readNatUpTo?, List.head?_cons, Option.bind_some, List.tail_cons]
    cases Text.readNat? word.toList with
    | none => rfl
    | some n =>
      rcases Nat.lt_trichotomy n Word.maxNat64 with h | h | h
      · have hnext : Word.nat64 (n + 1) = .ok (n + 1) := if_pos h
        rw [Option.filter_some_pos (by simpa using h.le)]
        simp only [hnext, if_pos h]
        rfl
      · have hnext : Word.nat64 (n + 1) = .error .overflow := if_neg (by omega)
        rw [Option.filter_some_pos (by simpa using h.le)]
        simp only [hnext, if_neg h.not_lt, if_pos h]
        rfl
      · rw [Option.filter_some_neg (by simpa using h)]
        simp only [if_neg h.not_gt, if_neg h.ne']

theorem bumpFirstHeader_cons_of_pos (h : line.startsWith "p cnf" = true) :
    bumpFirstHeader (line :: lines) = (bumpHeader line).map (· :: lines) := by
  rw [bumpFirstHeader, if_pos h]
  cases bumpHeader line <;> rfl

theorem bumpFirstHeader_cons_of_neg (h : ¬ line.startsWith "p cnf" = true) :
    bumpFirstHeader (line :: lines) = (bumpFirstHeader lines).map (line :: ·) := by
  rw [bumpFirstHeader, if_neg h]
  cases bumpFirstHeader lines <;> rfl

theorem headerOf?_cons_of_pos (h : line.startsWith "p cnf" = true) :
    headerOf? (line :: lines) = some line :=
  List.find?_cons_of_pos h

theorem headerOf?_cons_of_neg (h : ¬ line.startsWith "p cnf" = true) :
    headerOf? (line :: lines) = headerOf? lines :=
  List.find?_cons_of_neg h

theorem bumpFirstHeader_eq_fault_iff : bumpFirstHeader lines = .error (.fault cause) ↔
    cause = .overflow ∧ (headerOf? lines).bind countOf? = some Word.maxNat64 := by
  induction lines with
  | nil => simp [bumpFirstHeader, headerOf?]
  | cons line lines ih =>
    by_cases h : line.startsWith "p cnf" = true
    · rw [bumpFirstHeader_cons_of_pos h, headerOf?_cons_of_pos h, map_eq_error, bumpHeader_eq,
        Option.bind_some]
      cases countOf? line with
      | none => simp
      | some n =>
        dsimp only
        split_ifs with hlt heq
        · simp [hlt.ne]
        · simp [heq, eq_comm]
        · simp [heq]
    · rw [bumpFirstHeader_cons_of_neg h, headerOf?_cons_of_neg h, map_eq_error, ih]

theorem exists_bumpFirstHeader_iff : (∃ bumped, bumpFirstHeader lines = .ok bumped) ↔
    ∃ n < Word.maxNat64, (headerOf? lines).bind countOf? = some n := by
  induction lines with
  | nil => simp [bumpFirstHeader, headerOf?]
  | cons line lines ih =>
    by_cases h : line.startsWith "p cnf" = true
    · rw [bumpFirstHeader_cons_of_pos h, headerOf?_cons_of_pos h, exists_map_eq_ok, bumpHeader_eq,
        Option.bind_some]
      cases countOf? line with
      | none => simp
      | some n =>
        dsimp only
        split_ifs with hlt heq
        · simp [hlt]
        · simp [heq]
        · simpa using hlt
    · rw [bumpFirstHeader_cons_of_neg h, headerOf?_cons_of_neg h, exists_map_eq_ok, ih]

/-! ## Ruling out an answer -/

/-- The comment before a clause that rules out an answer. -/
def exclusionComment : String := "c excluded solution:"

/-- The clause that rules out an answer. -/
def exclusionLine (numbers : List Int) : String :=
  String.join (numbers.map fun n => toString (-n) ++ " ") ++ "0"

theorem mapM_opposite (h : ∀ n ∈ numbers, Word.minInt32 ≤ n ∧ n ≤ Word.maxInt32) :
    (numbers.mapM fun n => do return toString (← Word.int32 (-n)) ++ " " : Result (List String)) =
      if Word.minInt32 ∈ numbers then .error (.fault .overflow)
      else .ok (numbers.map fun n => toString (-n) ++ " ") := by
  induction numbers with
  | nil => rfl
  | cons n numbers ih =>
    rw [List.forall_mem_cons] at h
    rw [List.mapM_cons, ih h.2, Assignment.int32_neg h.1]
    by_cases hn : n = Word.minInt32
    · simp [hn, liftM, monadLift, MonadLift.monadLift, Checked.toResult, bind, Except.bind]
    · by_cases hmem : Word.minInt32 ∈ numbers
      · simp [hn, hmem, liftM, monadLift, MonadLift.monadLift, Checked.toResult, bind, Except.bind,
          pure, Except.pure]
      · simp [hn, hmem, Ne.symm hn, liftM, monadLift, MonadLift.monadLift, Checked.toResult, bind,
          Except.bind, pure, Except.pure]

/-- **How an answer is ruled out**, unless one of its numbers has no opposite. -/
theorem exclude_eq (cnf answer : String) : exclude cnf answer = (do
    let lines ← bumpFirstHeader (Text.lines cnf)
    let numbers ← Assignment.read (.text answer)
    if Word.minInt32 ∈ numbers then .error (.fault .overflow)
    else .ok (String.join
      ((lines ++ [exclusionComment, exclusionLine numbers]).map (· ++ "\n")))) := by
  unfold exclude
  congr 1
  funext lines
  cases hnumbers : Assignment.read (.text answer) with
  | error failure => rfl
  | ok numbers =>
    simp only [bind, Except.bind]
    have hopposites := mapM_opposite (Assignment.bounds_of_read hnumbers)
    simp only [bind, Except.bind] at hopposites
    rw [hopposites]
    by_cases hmem : Word.minInt32 ∈ numbers
    · simp [hmem]
    · simp only [if_neg hmem]
      refine congrArg Except.ok (String.toList_injective ?_)
      simp [exclusionComment, exclusionLine]

theorem exclude_eq_fault_iff : exclude cnf answer = .error (.fault cause) ↔ cause = .overflow ∧
    (clauseTotal? cnf = some Word.maxNat64 ∨ ∃ n numbers, n < Word.maxNat64 ∧
      clauseTotal? cnf = some n ∧ Assignment.read (.text answer) = .ok numbers ∧
        Word.minInt32 ∈ numbers) := by
  rw [exclude_eq, bind_eq_error, bumpFirstHeader_eq_fault_iff]
  constructor
  · rintro (⟨rfl, h⟩ | ⟨lines, hlines, h⟩)
    · exact ⟨rfl, .inl h⟩
    · obtain ⟨n, hn, htotal⟩ := exists_bumpFirstHeader_iff.mp ⟨lines, hlines⟩
      rcases bind_eq_error.mp h with h | ⟨numbers, hnumbers, h⟩
      · exact absurd h (Assignment.readLines_ne_fault _)
      · split_ifs at h with hmem
        · cases h
          exact ⟨rfl, .inr ⟨n, numbers, hn, htotal, hnumbers, hmem⟩⟩
  · rintro ⟨rfl, h | ⟨n, numbers, hn, htotal, hnumbers, hmem⟩⟩
    · exact .inl ⟨rfl, h⟩
    · obtain ⟨lines, hlines⟩ := exists_bumpFirstHeader_iff.mpr ⟨n, hn, htotal⟩
      refine .inr ⟨lines, hlines, bind_eq_error.mpr (.inr ⟨numbers, hnumbers, ?_⟩)⟩
      rw [if_pos hmem]

/-- **Faults**: the least 32-bit number of an answer, and the greatest 64-bit number of a header. -/
theorem load_exclude_fault_iff (cause : Fault) :
    (∀ cnf answer : Content, Assignment.load cnf answer = .error (.fault cause) ↔
      cause = .overflow ∧ Assignment.Overflows cnf answer) ∧
    ∀ cnf answer : String, exclude cnf answer = .error (.fault cause) ↔
      cause = .overflow ∧ (clauseTotal? cnf = some Word.maxNat64 ∨ ∃ n numbers,
        n < Word.maxNat64 ∧ clauseTotal? cnf = some n ∧
          Assignment.read (.text answer) = .ok numbers ∧ Word.minInt32 ∈ numbers) :=
  ⟨fun _ _ => Assignment.load_eq_fault_iff, fun _ _ => exclude_eq_fault_iff⟩

/-- The least number without a name, and the greatest number in a header. -/
theorem load_exclude_fault :
    Assignment.load (.text "p cnf 1 0\nc variable a: 1\n") (.text "v -2147483648 0\n") =
        .error (.fault .overflow) ∧
      exclude "p cnf 1 0\n" "v -2147483648 0\n" = .error (.fault .overflow) ∧
      exclude "p cnf 1 18446744073709551615\n" "v 1 0\n" = .error (.fault .overflow) :=
  ⟨by cbv, by cbv, by cbv⟩

end Formula

end CellSat
