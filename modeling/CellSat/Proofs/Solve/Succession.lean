import Mathlib
import CellSat.Proofs.Cnf.Faults
import CellSat.Proofs.Solve.Blocking
/-!
# One answer ruled out after the other

The text of a formula is read and written again for each answer that is ruled out. Whatever the
comments of the formula look like, the header counts the clauses of the text at each point, the
clauses stay in their order, and the names are those of the formula.

* `Formula.clauseLines`, `Formula.Spells`: the lines of a text that are clauses, and the numbers in
  such a line;
* `Formula.Counts`: texts whose header counts their clauses;
* `Formula.Counts.exclude_eq_ok_iff`, `Formula.Counts.of_exclude`: one more answer is ruled out;
* `Formula.Counts.exists_excludeAll_iff`, `Formula.Counts.of_excludeAll`: any number of answers;
* **`Formula.excludeAll_write`**: the text of a formula after any answers.
-/

namespace CellSat

/-! ## Lines that are read twice -/

theorem Text.dropStart?_concat {p : List Char} {c : Char} (h : c ∉ p) (s : List Char) :
    dropStart? p (s ++ [c]) = (dropStart? p s).map (· ++ [c]) := by
  induction p generalizing s with
  | nil => rfl
  | cons d p ih =>
    rw [List.mem_cons, not_or] at h
    cases s with
    | nil => simp [dropStart?, Ne.symm h.1]
    | cons e s =>
      by_cases he : d = e
      · simp [dropStart?, he, ih h.2]
      · simp [dropStart?, he]

theorem Text.takeWhile_concat {c : Char} {p : Char → Bool} (h : p c = false) (s : List Char) :
    (s ++ [c]).takeWhile p = s.takeWhile p := by
  have hlast : [c].takeWhile p = [] := List.takeWhile_cons_of_neg (by simp [h])
  rw [List.takeWhile_append, hlast, List.append_nil]
  split_ifs with hall
  · exact ((List.takeWhile_prefix p).eq_of_length hall).symm
  · rfl

namespace SymbolTable

variable {line : String}

theorem splitColon_concat_return (s : List Char) :
    splitColon (s ++ ['\r']) = (splitColon s).map fun (a, b) => (a, b ++ ['\r']) := by
  fun_induction splitColon s with
  | case1 => rfl
  | case2 s => rfl
  | case3 c s hc ih =>
    rw [List.cons_append, splitColon, ih]
    · simp [Option.map_map, Function.comp_def]
    · -- the carriage return is not the space that a colon needs
      rintro r rfl hr
      cases s with
      | nil => simp at hr
      | cons d s =>
        obtain ⟨rfl, -⟩ := List.cons.inj hr
        exact hc s rfl rfl

/-- The failures differ, since they show the line. -/
theorem readLine_asRead_eq_ok_iff {given? : Option (String × Int)} :
    readLine (Text.asRead line) = .ok given? ↔ readLine line = .ok given? := by
  rcases Text.dropReturn_cases line.toList with h | h
  · rw [Text.asRead, h, String.ofList_toList]
  · rw [Text.asRead]
    generalize Text.dropReturn line.toList = s at h
    unfold readLine
    rw [String.toList_ofList, ← h, Text.dropStart?_concat (by decide)]
    cases Text.dropStart? Formula.variableComment.toList s with
    | none => rfl
    | some rest =>
      simp only [Option.map_some, splitColon_concat_return]
      cases splitColon rest with
      | none => rfl
      | some parts =>
        simp only [Option.map_some,
          Text.takeWhile_concat (c := '\r') (p := Text.isDigit) (by decide)]
        split_ifs <;> simp

theorem entriesOf_map_asRead_eq_ok_iff (lines : List String) {entries : List (String × Int)} :
    entriesOf (lines.map Text.asRead) = .ok entries ↔ entriesOf lines = .ok entries := by
  induction lines generalizing entries with
  | nil => rfl
  | cons line lines ih =>
    rw [List.map_cons, entriesOf, entriesOf, bind_eq_ok, bind_eq_ok]
    refine exists_congr fun given? => and_congr readLine_asRead_eq_ok_iff ?_
    cases given? with
    | none => exact ih
    | some entry =>
      rw [bind_eq_ok, bind_eq_ok]
      exact exists_congr fun rest => and_congr_left fun _ => ih

end SymbolTable

namespace Formula

open SymbolTable

variable {cnf cnf' line : String} {lines : List String} {numbers : List Int} {v n : Nat}

/-! ## Clauses in a text -/

/-- Whether a line is neither a comment nor a header. -/
def isClauseLine (line : String) : Bool := line.toList.head?.all fun c => c ≠ 'c' && c ≠ 'p'

/-- The lines of a text that are clauses. -/
def clauseLines (cnf : String) : List String := (Text.lines cnf).filter isClauseLine

/-- A line is read as the numbers of a clause, none of which is zero, with a zero after them. -/
def Spells (line : String) (numbers : List Int) : Prop :=
  (∀ n ∈ numbers, n ≠ 0) ∧ (Text.wordsOf line).mapM Assignment.readNumber = .ok (numbers ++ [0])

theorem isClauseLine_of_not_mem (hc : 'c' ∉ line.toList) (hp : 'p' ∉ line.toList) :
    isClauseLine line = true := by
  rw [isClauseLine, Option.all_eq_true]
  intro d hd
  have hmem := List.mem_of_head? hd
  have hne : d ≠ 'c' ∧ d ≠ 'p' := ⟨fun heq => hc (heq ▸ hmem), fun heq => hp (heq ▸ hmem)⟩
  simpa using hne

theorem isClauseLine_asRead (line : String) :
    isClauseLine (Text.asRead line) = isClauseLine line := by
  rw [isClauseLine, isClauseLine, Text.asRead, String.toList_ofList]
  rcases Text.dropReturn_cases line.toList with h | h
  · rw [h]
  · generalize Text.dropReturn line.toList = s at h
    rw [← h]
    cases s with
    | nil => decide
    | cons c s => rfl

theorem isClauseLine_append {start : String} {c : Char} (hc : start.toList.head? = some c)
    (h : c = 'c' ∨ c = 'p') (s : String) : isClauseLine (start ++ s) = false := by
  rw [isClauseLine, String.toList_append, List.head?_append, hc]
  rcases h with rfl | rfl <;> rfl

/-- The numbers of a clause with a space after each, and a zero. -/
def numberLine (numbers : List Int) : String :=
  String.join (numbers.map fun n => toString n ++ " ") ++ "0"

theorem exclusionLine_eq (numbers : List Int) :
    exclusionLine numbers = numberLine (numbers.map (- ·)) := by
  rw [exclusionLine, numberLine, List.map_map]
  rfl

theorem toList_numberLine_cons (n : Int) (numbers : List Int) :
    (numberLine (n :: numbers)).toList =
      (toString n).toList ++ ' ' :: (numberLine numbers).toList := by
  simp [numberLine, String.join_cons]

theorem mem_numberLine {c : Char} (h : c ∈ (numberLine numbers).toList) :
    c = ' ' ∨ c = '-' ∨ Text.isDigit c = true := by
  induction numbers with
  | nil =>
    obtain rfl : c = '0' := List.mem_singleton.mp h
    decide
  | cons n numbers ih =>
    rw [toList_numberLine_cons, List.mem_append, List.mem_cons] at h
    rcases h with h | rfl | h
    · exact .inr (Text.mem_toString_int h)
    · exact .inl rfl
    · exact ih h

theorem wordsOf_numberLine (numbers : List Int) :
    Text.wordsOf (numberLine numbers) = (numbers ++ [0]).map toString := by
  induction numbers with
  | nil => decide
  | cons n numbers ih =>
    rw [Text.wordsOf, toList_numberLine_cons, Text.words_append
      (fun c => Assignment.isBlank_of_mem_toString) (Text.toList_toString_ne_nil n) (by decide),
      List.map_cons, ← Text.wordsOf, ih, String.ofList_toList]
    rfl

theorem clauseLine_cons (n : Int) (numbers : List Int) :
    clauseLine (n :: numbers) = numberLine (n :: numbers) := by
  induction numbers generalizing n with
  | nil => simp [clauseLine, numberLine, Text.join, String.append_assoc]
  | cons m numbers ih =>
    have hcut : clauseLine (n :: m :: numbers) =
        toString n ++ " " ++ clauseLine (m :: numbers) := by
      simp [clauseLine, Text.join, String.append_assoc]
    rw [hcut, ih]
    simp [numberLine, String.join_cons, String.append_assoc]

theorem wordsOf_clauseLine (numbers : List Int) :
    Text.wordsOf (clauseLine numbers) = (numbers ++ [0]).map toString := by
  cases numbers with
  | nil => decide
  | cons n numbers => rw [clauseLine_cons, wordsOf_numberLine]

theorem spells_of_wordsOf (hwords : Text.wordsOf line = (numbers ++ [0]).map toString)
    (h : ∀ n ∈ numbers, n ≠ 0 ∧ n.natAbs < 2 ^ 31) : Spells line numbers := by
  refine ⟨fun n hn => (h n hn).1, ?_⟩
  rw [hwords]
  exact Assignment.mapM_readNumber
    (List.forall_mem_append.mpr ⟨fun n hn => (h n hn).2, by simp⟩)

theorem spells_exclusionLine (h : ∀ n ∈ numbers, n ≠ 0 ∧ n.natAbs < 2 ^ 31) :
    Spells (exclusionLine numbers) (numbers.map (- ·)) := by
  rw [exclusionLine_eq]
  refine spells_of_wordsOf (wordsOf_numberLine _) (List.forall_mem_map.mpr fun n hn => ?_)
  rw [neg_ne_zero, Int.natAbs_neg]
  exact h n hn

theorem isClauseLine_clauseLine (numbers : List Int) : isClauseLine (clauseLine numbers) = true :=
  isClauseLine_of_not_mem (fun hmem => absurd (mem_clauseLine hmem) (by decide))
    fun hmem => absurd (mem_clauseLine hmem) (by decide)

theorem mem_exclusionLine {c : Char} (h : c ∈ (exclusionLine numbers).toList) :
    c = ' ' ∨ c = '-' ∨ Text.isDigit c = true :=
  mem_numberLine (exclusionLine_eq numbers ▸ h)

theorem isClauseLine_exclusionLine (numbers : List Int) :
    isClauseLine (exclusionLine numbers) = true :=
  isClauseLine_of_not_mem (fun hmem => absurd (mem_exclusionLine hmem) (by decide))
    fun hmem => absurd (mem_exclusionLine hmem) (by decide)

/-! ## Headers that count -/

theorem wordsOf_header (v n : Nat) :
    Text.wordsOf (header v n) = ["p", "cnf", toString v, toString n] := by
  have hdigits : ∀ k : Nat, (toString k).toList ≠ [] ∧
      ∀ c ∈ (toString k).toList, Text.isBlank c = false := fun k => by
    rw [Text.toList_toString_nat]
    exact ⟨Nat.toDigits_ne_nil,
      fun c hc => Text.isBlank_of_isDigit (Text.isDigit_of_mem_toDigits hc)⟩
  have hlist : (header v n).toList =
      ['p'] ++ [['c', 'n', 'f'], (toString v).toList, (toString n).toList].flatMap (' ' :: ·) := by
    simp [header]
  have hp : ∀ c ∈ ['p'], Text.isBlank c = false := fun c hc => by fin_cases hc; decide
  have hcnf : ∀ c ∈ ['c', 'n', 'f'], Text.isBlank c = false := fun c hc => by
    fin_cases hc <;> decide
  have hwords : ∀ w ∈ [['c', 'n', 'f'], (toString v).toList, (toString n).toList],
      w ≠ [] ∧ ∀ c ∈ w, Text.isBlank c = false :=
    List.forall_mem_cons.mpr ⟨⟨List.cons_ne_nil _ _, hcnf⟩,
      List.forall_mem_cons.mpr ⟨hdigits v, List.forall_mem_singleton.mpr (hdigits n)⟩⟩
  rw [Text.wordsOf, hlist, Text.words_flatMap hp (List.cons_ne_nil _ _) hwords]
  simp only [List.map_cons, String.ofList_toList]
  rfl

theorem countOf?_header (v n : Nat) : countOf? (header v n) = some n := by
  rw [countOf?, wordsOf_header]
  show Text.readNat? (toString n).toList = some n
  rw [Text.toList_toString_nat, Text.readNat?_toDigits]

theorem bumpHeader_header_eq_ok_iff :
    bumpHeader (header v n) = .ok line ↔ n + 1 < 2 ^ 64 ∧ line = header v (n + 1) := by
  have hnext : Text.join " " (Text.wordsOf (header v n)).dropLast ++ " " ++ toString (n + 1) =
      header v (n + 1) := by
    rw [wordsOf_header]
    apply String.toList_injective
    simp [Text.join, header]
  rw [bumpHeader_eq, countOf?_header]
  simp only [hnext]
  have hmax : n < Word.maxNat64 ↔ n + 1 < 2 ^ 64 := by
    simp only [Word.maxNat64]
    omega
  by_cases hlt : n < Word.maxNat64
  · rw [if_pos hlt]
    exact ⟨fun h => ⟨hmax.mp hlt, (Except.ok.inj h).symm⟩, fun h => h.2 ▸ rfl⟩
  · rw [if_neg hlt]
    constructor
    · intro h
      split_ifs at h
    · rintro ⟨hroom, -⟩
      exact absurd (hmax.mpr hroom) hlt

theorem startsWith_header (v n : Nat) : (header v n).startsWith "p cnf" = true := by
  rw [String.startsWith_string_iff]
  exact ⟨_, by simp [header]; rfl⟩

/-- A text whose header counts the clauses among its other lines. -/
structure Counts (v : Nat) (lines : List String) (cnf : String) : Prop where
  text : cnf = String.join
    ((header v (lines.filter isClauseLine).length :: lines).map (· ++ "\n"))
  unbroken : ∀ line ∈ lines, '\n' ∉ line.toList
  closed : ∀ line ∈ lines, isClauseLine line = true → '\r' ∉ line.toList

namespace Counts

theorem lines_eq (h : Counts v lines cnf) : Text.lines cnf =
    header v (lines.filter isClauseLine).length :: lines.map Text.asRead := by
  have hbreak : ∀ line ∈ header v (lines.filter isClauseLine).length :: lines,
      '\n' ∉ line.toList :=
    List.forall_mem_cons.mpr ⟨fun hmem => absurd (mem_header hmem) (by decide), h.unbroken⟩
  rw [h.text, Text.lines_join hbreak, List.map_cons,
    Text.asRead_of_not_mem fun hmem => absurd (mem_header hmem) (by decide)]

theorem filter_map_asRead (h : Counts v lines cnf) :
    (lines.map Text.asRead).filter isClauseLine = lines.filter isClauseLine := by
  have hsame : isClauseLine ∘ Text.asRead = isClauseLine := by
    funext line
    rw [Function.comp_apply, isClauseLine_asRead]
  rw [List.filter_map, hsame]
  refine (List.map_congr_left fun line hline => ?_).trans (List.map_id _)
  obtain ⟨hmem, hclause⟩ := List.mem_filter.mp hline
  exact Text.asRead_of_not_mem (h.closed line hmem hclause)

theorem clauseLines_eq (h : Counts v lines cnf) : clauseLines cnf = lines.filter isClauseLine := by
  rw [clauseLines, h.lines_eq, List.filter_cons_of_neg, h.filter_map_asRead]
  rw [header, String.append_assoc, String.append_assoc,
    isClauseLine_append (c := 'p') (by decide) (.inr rfl)]
  exact Bool.false_ne_true

theorem headerOf?_eq (h : Counts v lines cnf) :
    headerOf? (Text.lines cnf) = some (header v (clauseLines cnf).length) := by
  rw [h.lines_eq, h.clauseLines_eq, headerOf?_cons_of_pos (startsWith_header _ _)]

theorem read_eq_ok_iff (h : Counts v lines cnf) {t : SymbolTable} :
    SymbolTable.read (.text cnf) = .ok t ↔ ∃ entries, entriesOf lines = .ok entries ∧
      enter {} entries = t := by
  have hread : SymbolTable.read (.text cnf) =
      (entriesOf (lines.map Text.asRead)).map (enter {}) := by
    rw [SymbolTable.read, Content.lines, readLines_eq, h.lines_eq, entriesOf, readLine_header]
    rfl
  simp only [hread, ← entriesOf_map_asRead_eq_ok_iff lines]
  cases entriesOf (lines.map Text.asRead) <;> simp [Except.map]

/-! ## One more answer -/

/-- The other lines of a text, as they are read, after one more answer was ruled out. -/
def excluded (lines : List String) (numbers : List Int) : List String :=
  lines.map Text.asRead ++ [exclusionComment, exclusionLine numbers]

theorem exclude_eq_ok_iff (h : Counts v lines cnf)
    (hnumbers : ∀ n ∈ numbers, n ≠ 0 ∧ n.natAbs < 2 ^ 31) :
    exclude cnf (Assignment.write (some numbers)) = .ok cnf' ↔
      (clauseLines cnf).length + 1 < 2 ^ 64 ∧ cnf' = String.join
        ((header v ((clauseLines cnf).length + 1) :: excluded lines numbers).map (· ++ "\n")) := by
  have hleast : Word.minInt32 ∉ numbers := fun hmem => by
    have := (hnumbers _ hmem).2
    simp [Word.minInt32] at this
  rw [exclude_eq, Assignment.read_write hnumbers, h.lines_eq, ← h.clauseLines_eq,
    bumpFirstHeader_cons_of_pos (startsWith_header _ _)]
  cases hbump : bumpHeader (header v (clauseLines cnf).length) with
  | error failure =>
    constructor
    · intro hrun
      simp [Except.map, bind, Except.bind] at hrun
    · rintro ⟨hroom, -⟩
      exact absurd (hbump.symm.trans (bumpHeader_header_eq_ok_iff.mpr ⟨hroom, rfl⟩)) (by simp)
  | ok line =>
    obtain ⟨hroom, rfl⟩ := bumpHeader_header_eq_ok_iff.mp hbump
    simp only [Except.map, bind, Except.bind, if_neg hleast, Except.ok.injEq, hroom, true_and,
      excluded, List.cons_append, eq_comm]

theorem filter_excluded (h : Counts v lines cnf) (numbers : List Int) :
    (excluded lines numbers).filter isClauseLine = clauseLines cnf ++ [exclusionLine numbers] := by
  have hcomment : isClauseLine exclusionComment = false := by decide
  rw [excluded, List.filter_append, h.filter_map_asRead, h.clauseLines_eq,
    List.filter_cons_of_neg (by simp [hcomment]),
    List.filter_cons_of_pos (isClauseLine_exclusionLine numbers), List.filter_nil]

/-- **One more answer is ruled out**: the header still counts the clauses. -/
theorem of_exclude (h : Counts v lines cnf)
    (hnumbers : ∀ n ∈ numbers, n ≠ 0 ∧ n.natAbs < 2 ^ 31)
    (hrun : exclude cnf (Assignment.write (some numbers)) = .ok cnf') :
    Counts v (excluded lines numbers) cnf' := by
  obtain ⟨-, rfl⟩ := (h.exclude_eq_ok_iff hnumbers).mp hrun
  refine ⟨by rw [h.filter_excluded, List.length_append, List.length_singleton], ?_, ?_⟩
  · refine List.forall_mem_append.mpr ⟨List.forall_mem_map.mpr fun line hline hmem => ?_, ?_⟩
    · rw [Text.asRead, String.toList_ofList] at hmem
      exact h.unbroken line hline ((Text.isPrefix_dropReturn _).subset hmem)
    · refine List.forall_mem_cons.mpr ⟨by decide, List.forall_mem_singleton.mpr fun hmem => ?_⟩
      exact absurd (mem_exclusionLine hmem) (by decide)
  · refine List.forall_mem_append.mpr ⟨List.forall_mem_map.mpr fun line hline hclause => ?_, ?_⟩
    · rw [isClauseLine_asRead] at hclause
      have hclosed := h.closed line hline hclause
      rwa [Text.asRead_of_not_mem hclosed]
    · refine List.forall_mem_cons.mpr ⟨by decide, List.forall_mem_singleton.mpr fun _ hmem => ?_⟩
      exact absurd (mem_exclusionLine hmem) (by decide)

theorem clauseLines_of_exclude (h : Counts v lines cnf)
    (hnumbers : ∀ n ∈ numbers, n ≠ 0 ∧ n.natAbs < 2 ^ 31)
    (hrun : exclude cnf (Assignment.write (some numbers)) = .ok cnf') :
    clauseLines cnf' = clauseLines cnf ++ [exclusionLine numbers] := by
  rw [(h.of_exclude hnumbers hrun).clauseLines_eq, h.filter_excluded]

theorem read_of_exclude (h : Counts v lines cnf)
    (hnumbers : ∀ n ∈ numbers, n ≠ 0 ∧ n.natAbs < 2 ^ 31)
    (hrun : exclude cnf (Assignment.write (some numbers)) = .ok cnf') (t : SymbolTable) :
    SymbolTable.read (.text cnf') = .ok t ↔ SymbolTable.read (.text cnf) = .ok t := by
  have hmore : entriesOf [exclusionComment, exclusionLine numbers] = .ok [] := by
    apply entriesOf_of_none
    refine List.forall_mem_cons.mpr ⟨by decide, List.forall_mem_singleton.mpr ?_⟩
    apply readLine_of_not_isPrefix
    intro hstart
    exact absurd (mem_exclusionLine (hstart.subset (List.mem_cons_self (a := 'c')))) (by decide)
  rw [(h.of_exclude hnumbers hrun).read_eq_ok_iff, h.read_eq_ok_iff]
  refine exists_congr fun entries => and_congr_left fun _ => ?_
  rw [← entriesOf_map_asRead_eq_ok_iff lines, excluded, entriesOf_append, hmore]
  cases entriesOf (lines.map Text.asRead) <;> simp [bind, Except.bind, pure, Except.pure]

end Counts

/-! ## Any number of answers -/

/-- A formula's text with clauses that rule out answers, one after the other. -/
def excludeAll (cnf : String) (answers : List (List Int)) : Result String :=
  answers.foldlM (fun cnf numbers => exclude cnf (Assignment.write (some numbers))) cnf

theorem excludeAll_cons_eq_ok_iff {answers : List (List Int)} :
    excludeAll cnf (numbers :: answers) = .ok cnf' ↔
      ∃ next, exclude cnf (Assignment.write (some numbers)) = .ok next ∧
        excludeAll next answers = .ok cnf' := by
  rw [excludeAll, List.foldlM_cons, bind_eq_ok]
  rfl

namespace Counts

variable {answers : List (List Int)}

/-- **Answers can be ruled out** as long as the number of clauses has 64 bits. -/
theorem exists_excludeAll_iff (h : Counts v lines cnf)
    (hanswers : ∀ numbers ∈ answers, ∀ n ∈ numbers, n ≠ 0 ∧ n.natAbs < 2 ^ 31) :
    (∃ cnf', excludeAll cnf answers = .ok cnf') ↔
      answers = [] ∨ (clauseLines cnf).length + answers.length < 2 ^ 64 := by
  induction answers generalizing lines cnf with
  | nil => simp [excludeAll, pure, Except.pure]
  | cons numbers answers ih =>
    obtain ⟨hnumbers, hanswers⟩ := List.forall_mem_cons.mp hanswers
    simp only [excludeAll_cons_eq_ok_iff, reduceCtorEq, false_or, List.length_cons]
    constructor
    · rintro ⟨cnf', next, hnext, hrest⟩
      have hroom := ((h.exclude_eq_ok_iff hnumbers).mp hnext).1
      rcases (ih (h.of_exclude hnumbers hnext) hanswers).mp ⟨cnf', hrest⟩ with rfl | hmore
      · exact hroom
      · rw [h.clauseLines_of_exclude hnumbers hnext, List.length_append,
          List.length_singleton] at hmore
        omega
    · intro hroom
      have hnext := (h.exclude_eq_ok_iff hnumbers).mpr ⟨by omega, rfl⟩
      have hmore := (ih (h.of_exclude hnumbers hnext) hanswers).mpr <| .inr <| by
        rw [h.clauseLines_of_exclude hnumbers hnext, List.length_append, List.length_singleton]
        omega
      obtain ⟨cnf', hrest⟩ := hmore
      exact ⟨cnf', _, hnext, hrest⟩

/-- **What ruling out answers does to a text.** -/
theorem of_excludeAll (h : Counts v lines cnf)
    (hanswers : ∀ numbers ∈ answers, ∀ n ∈ numbers, n ≠ 0 ∧ n.natAbs < 2 ^ 31)
    (hrun : excludeAll cnf answers = .ok cnf') :
    (∃ lines', Counts v lines' cnf') ∧
      clauseLines cnf' = clauseLines cnf ++ answers.map exclusionLine ∧
      ∀ t, SymbolTable.read (.text cnf') = .ok t ↔ SymbolTable.read (.text cnf) = .ok t := by
  induction answers generalizing lines cnf with
  | nil =>
    obtain rfl := Except.ok.inj hrun
    exact ⟨⟨lines, h⟩, by simp, fun t => Iff.rfl⟩
  | cons numbers answers ih =>
    obtain ⟨hnumbers, hanswers⟩ := List.forall_mem_cons.mp hanswers
    obtain ⟨next, hnext, hrest⟩ := excludeAll_cons_eq_ok_iff.mp hrun
    obtain ⟨hcounts, hclauses, hread⟩ := ih (h.of_exclude hnumbers hnext) hanswers hrest
    refine ⟨hcounts, ?_, fun t => (hread t).trans (h.read_of_exclude hnumbers hnext t)⟩
    rw [hclauses, h.clauseLines_of_exclude hnumbers hnext, List.append_assoc, List.map_cons,
      List.singleton_append]

end Counts

/-! ## The text of a formula -/

section Write

variable {f : Formula} {cs : List Clause}

theorem isClauseLine_variableLine (e : String × Int) : isClauseLine (variableLine e) = false := by
  rw [variableLine, String.append_assoc, String.append_assoc]
  exact isClauseLine_append (c := 'c') (by decide) (.inl rfl) _

theorem filter_writeLine (lines : List FormulaLine) :
    (lines.map writeLine).filter isClauseLine =
      (lines.filterMap FormulaLine.clause?).map clauseLine := by
  induction lines with
  | nil => rfl
  | cons line lines ih =>
    cases line with
    | comment text =>
      have hcomment : isClauseLine (writeLine (.comment text)) = false :=
        isClauseLine_append (c := 'c') (by decide) (.inl rfl) text
      rw [List.map_cons, List.filter_cons_of_neg (by simp [hcomment]), ih]
      rfl
    | clause numbers =>
      rw [List.map_cons, writeLine, List.filter_cons_of_pos (isClauseLine_clauseLine numbers), ih]
      rfl

theorem filter_textLines (f : Formula) :
    (f.symbols.toList.map variableLine ++ f.lines.map writeLine).filter isClauseLine =
      f.clauses.map clauseLine := by
  rw [List.filter_append, filter_writeLine, List.filter_eq_nil_iff.mpr, List.nil_append, clauses]
  exact List.forall_mem_map.mpr fun e _ => by simp [isClauseLine_variableLine]

theorem counts_write (hnames : ∀ e ∈ f.symbols.toList, Legible e.1)
    (hcomments : ∀ text ∈ f.comments, '\n' ∉ text.toList) :
    Counts f.variableCount (f.symbols.toList.map variableLine ++ f.lines.map writeLine)
      f.write := by
  refine ⟨?_, fun line hline => ?_, ?_⟩
  · rw [filter_textLines, List.length_map]
    rfl
  · exact not_mem_textLines hnames hcomments line (List.mem_cons_of_mem _ hline)
  · intro line hline hclause hmem
    have hmem' := filter_textLines f ▸ List.mem_filter.mpr ⟨hline, hclause⟩
    obtain ⟨numbers, -, rfl⟩ := List.mem_map.mp hmem'
    exact absurd (mem_clauseLine hmem) (by decide)

theorem counts_of_compile (hnames : ∀ name ∈ Clause.variableNames cs, Legible name)
    (hcomments : ∀ text, .comment text ∈ cs → '\n' ∉ text.toList) (hf : compile cs = .ok f) :
    Counts f.variableCount (f.symbols.toList.map variableLine ++ f.lines.map writeLine)
      f.write := by
  refine counts_write (fun e he => ?_) fun text htext => ?_
  · exact legible_of_variableInBits hnames (mem_symbols_of_compile hf he).1
  · obtain ⟨more, hmore, htag⟩ := comments_of_compile hf
    rw [hmore, List.mem_append] at htext
    rcases htext with htext | htext
    · exact hcomments text (Clause.mem_comments.mp htext)
    · rw [htag text htext]
      decide

/-- **The text of a formula after any answers.** Its header counts its clauses, and its names stay.
-/
theorem excludeAll_write (hnames : ∀ name ∈ Clause.variableNames cs, Legible name)
    (hcomments : ∀ text, .comment text ∈ cs → '\n' ∉ text.toList) (hf : compile cs = .ok f)
    (answers : List (List Int))
    (hanswers : ∀ numbers ∈ answers, ∀ n ∈ numbers, n ≠ 0 ∧ n.natAbs < 2 ^ 31) :
    ((∃ cnf, excludeAll f.write answers = .ok cnf) ↔
      answers = [] ∨ f.clauseCount + answers.length < 2 ^ 64) ∧
    ∀ cnf, excludeAll f.write answers = .ok cnf →
      headerOf? (Text.lines cnf) = some (header f.variableCount (clauseLines cnf).length) ∧
      List.Forall₂ Spells (clauseLines cnf)
        (f.clauses ++ answers.map fun numbers => numbers.map (- ·)) ∧
      ∀ t, SymbolTable.read (.text cnf) = .ok t ↔ SymbolTable.read (.text f.write) = .ok t := by
  have hcounts := counts_of_compile hnames hcomments hf
  have hclauses : clauseLines f.write = f.clauses.map clauseLine := by
    rw [hcounts.clauseLines_eq, filter_textLines]
  refine ⟨?_, fun cnf hcnf => ?_⟩
  · rw [hcounts.exists_excludeAll_iff hanswers, hclauses, List.length_map, clauseCount]
  · obtain ⟨⟨lines, hlines⟩, hlast, hread⟩ := hcounts.of_excludeAll hanswers hcnf
    refine ⟨hlines.headerOf?_eq, ?_, hread⟩
    obtain ⟨-, -, -, hsize, -⟩ := exists_of_compile hf
    have hnumbers : ∀ c ∈ f.clauses, ∀ n ∈ c, n ≠ 0 ∧ n.natAbs < 2 ^ 31 := fun c hc n hn => by
      have := over_of_compile hf c hc n hn
      omega
    rw [hlast, hclauses]
    apply List.rel_append
    · exact List.forall₂_map_left_iff.mpr (List.forall₂_same.mpr fun c hc =>
        spells_of_wordsOf (wordsOf_clauseLine c) (hnumbers c hc))
    · exact List.forall₂_map_left_iff.mpr (List.forall₂_map_right_iff.mpr
        (List.forall₂_same.mpr fun c hc => spells_exclusionLine (hanswers c hc)))

/-- Comments that look like a header and like the line of a name, and two clauses. -/
def commentsLikeLines : List Clause :=
  [.comment "p cnf 7 7", .disjunction [{ name := "a" }, { name := "x", tag := some 1 }],
    .comment "variable b: 2\r\r", .disjunction [{ name := "a", positive := false }]]

theorem excludeAll_write_disguised :
    ∃ f cnf t, compile commentsLikeLines = .ok f ∧ excludeAll f.write [[-1, 2, -3], []] = .ok cnf ∧
      headerOf? (Text.lines cnf) = some "p cnf 3 5" ∧
      List.Forall₂ Spells (clauseLines cnf) [[1, 2], [-1], [-3], [1, -2, 3], []] ∧
      SymbolTable.read (.text cnf) = .ok t ∧ t.name? 2 = some "b" := by
  obtain ⟨f, hf, hclauses, hcount, entries, hentries, hb⟩ : ∃ f, compile commentsLikeLines = .ok f ∧
      f.clauses = [[1, 2], [-1], [-3]] ∧ f.variableCount = 3 ∧ ∃ entries,
        entriesOf (f.symbols.toList.map variableLine ++ f.lines.map writeLine) = .ok entries ∧
          (enter {} entries).name? 2 = some "b" :=
    ⟨_, by cbv, by cbv, by cbv, _, by cbv, by cbv⟩
  have hvariables : Clause.variableNames commentsLikeLines = ["a", "x"] := by cbv
  have hnames : ∀ name ∈ Clause.variableNames commentsLikeLines, Legible name := by
    rw [hvariables]
    simp [Legible]
    decide
  have hcomments : ∀ text, .comment text ∈ commentsLikeLines → '\n' ∉ text.toList := by
    intro text htext
    obtain rfl | rfl : text = "p cnf 7 7" ∨ text = "variable b: 2\r\r" := by
      simpa [commentsLikeLines] using htext
    all_goals decide
  have htable := (counts_of_compile hnames hcomments hf).read_eq_ok_iff.mpr ⟨entries, hentries, rfl⟩
  obtain ⟨hruns, hall⟩ := excludeAll_write hnames hcomments hf [[-1, 2, -3], []] (by decide)
  obtain ⟨cnf, hcnf⟩ := hruns.mpr (.inr (by rw [clauseCount, hclauses]; decide))
  obtain ⟨hheader, hspells, hread⟩ := hall cnf hcnf
  rw [hclauses] at hspells
  have hlength := hspells.length_eq
  rw [hcount, hlength] at hheader
  exact ⟨f, cnf, _, hf, hcnf, hheader, hspells, (hread _).mpr htable, hb⟩

end Write

end Formula

end CellSat
