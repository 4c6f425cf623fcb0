import Mathlib
import CellSat.Proofs.Cnf.Compile
import CellSat.Proofs.Cnf.Table
/-!
# Formulas and answers as text

A formula is handed to a solver as a text that starts with its names, and the answer comes back as a
text. What is read from both texts is what was written: the names are numbered as in the formula,
and the values are those that the numbers of the answer have there.

* `Formula.read_write`: the table in the text of a formula is its own one, with what its comments
  look like entered after it;
* `Assignment.read_write`: numbers of 32 bits are read back;
* `Assignment.decode_congr`: tables where numbers stand for the same things decode alike;
* **`Formula.load_write`**: the texts of a formula and an answer decode as formula and answer do.
-/

namespace CellSat

/-! ## Comments -/

/-- The text of a comment. -/
def Clause.comment? : Clause → Option String
  | .comment text => some text
  | .disjunction _ => none

/-- The comments of a list, in order. -/
def Clause.comments (cs : List Clause) : List String := cs.filterMap comment?

/-- The text of a comment line. -/
def FormulaLine.comment? : FormulaLine → Option String
  | comment text => some text
  | clause _ => none

/-- The comments of a formula, in order. -/
def Formula.comments (f : Formula) : List String := f.lines.filterMap FormulaLine.comment?

namespace Clause

variable {cs es : List Clause} {text : String}

@[simp] theorem comments_comment (text : String) (cs : List Clause) :
    comments (.comment text :: cs) = text :: comments cs := rfl

@[simp] theorem comments_disjunction (d : Disjunction) (cs : List Clause) :
    comments (.disjunction d :: cs) = comments cs := rfl

@[simp] theorem comments_append (cs ds : List Clause) :
    comments (cs ++ ds) = comments cs ++ comments ds :=
  List.filterMap_append

@[simp] theorem comments_map (ds : List Disjunction) : comments (ds.map .disjunction) = [] := by
  induction ds with
  | nil => rfl
  | cons d ds ih => rw [List.map_cons, comments_disjunction, ih]

theorem mem_comments : text ∈ comments cs ↔ .comment text ∈ cs := by
  rw [comments, List.mem_filterMap]
  constructor
  · rintro ⟨c, hc, htext⟩
    cases c with
    | comment other =>
      obtain rfl := Option.some.inj htext
      exact hc
    | disjunction d => contradiction
  · exact fun h => ⟨_, h, rfl⟩

theorem comments_minimizeFrom (seen : Std.HashSet Disjunction) (cs : List Clause) :
    comments (minimizeFrom seen cs) = comments cs := by
  fun_induction minimizeFrom seen cs with
  | case1 => rfl
  | case2 seen text cs ih => rw [comments_comment, comments_comment, ih]
  | case3 seen d cs set _ ih => rw [ih, comments_disjunction]
  | case4 seen d cs set _ ih => rw [comments_disjunction, comments_disjunction, ih]

theorem comments_of_replaceTags {max : MaxTags} (h : replaceTags max cs = .ok es) :
    comments es = comments cs := by
  induction cs generalizing es with
  | nil =>
    obtain rfl := Except.ok.inj h
    rfl
  | cons c cs ih =>
    cases c with
    | comment text =>
      obtain ⟨rest, hrest, h⟩ := bind_eq_ok.mp h
      obtain rfl := Except.ok.inj h
      rw [comments_comment, comments_comment, ih hrest]
    | disjunction d =>
      obtain ⟨clauses, -, h⟩ := bind_eq_ok.mp h
      obtain ⟨rest, hrest, h⟩ := bind_eq_ok.mp h
      obtain rfl := Except.ok.inj h
      rw [comments_append, comments_map, List.nil_append, comments_disjunction, ih hrest]

theorem comments_of_expandTags (h : expandTags cs = .ok es) : ∃ more,
    comments es = comments cs ++ more ∧ ∀ text ∈ more, text = "Setting upper bound on tags." := by
  unfold expandTags at h
  simp only at h
  split_ifs at h
  · obtain rfl := Except.ok.inj h
    exact ⟨[], by simp⟩
  · obtain ⟨expanded, hexpanded, h⟩ := bind_eq_ok.mp h
    obtain ⟨bounds, -, h⟩ := bind_eq_ok.mp h
    obtain rfl := Except.ok.inj h
    refine ⟨["Setting upper bound on tags."], ?_, by simp⟩
    rw [comments_append, comments_of_replaceTags hexpanded, comments_comment, comments_map]

end Clause

namespace Formula

open SymbolTable

variable {cs : List Clause} {f : Formula}

theorem comments_of_encodeLines {t : SymbolTable} {lines : List FormulaLine}
    (h : cs.mapM (encodeLine t) = .ok lines) :
    lines.filterMap FormulaLine.comment? = Clause.comments cs := by
  induction cs generalizing lines with
  | nil =>
    obtain rfl := Except.ok.inj h
    rfl
  | cons c cs ih =>
    rw [List.mapM_cons] at h
    obtain ⟨line, hline, h⟩ := bind_eq_ok.mp h
    obtain ⟨rest, hrest, h⟩ := bind_eq_ok.mp h
    obtain rfl := Except.ok.inj h
    cases c with
    | comment text =>
      obtain rfl := Except.ok.inj hline
      exact congrArg (text :: ·) (ih hrest)
    | disjunction d =>
      obtain ⟨numbers, -, hline⟩ := bind_eq_ok.mp hline
      obtain rfl := Except.ok.inj hline
      show rest.filterMap FormulaLine.comment? = _
      exact ih hrest

theorem comments_of_compile (hf : compile cs = .ok f) : ∃ more,
    f.comments = Clause.comments cs ++ more ∧
      ∀ text ∈ more, text = "Setting upper bound on tags." := by
  obtain ⟨es, hes, -, -, hlines⟩ := exists_of_compile hf
  obtain ⟨more, hmore, htext⟩ := Clause.comments_of_expandTags hes
  refine ⟨more, ?_, htext⟩
  rw [comments, comments_of_encodeLines hlines, ← hmore]
  exact Clause.comments_minimizeFrom ∅ es

/-! ## Writing and reading a formula -/

theorem mem_header {v n : Nat} {c : Char} (h : c ∈ (header v n).toList) :
    c ∈ "p cnf ".toList ∨ Text.isDigit c = true := by
  have hdigits : ∀ k : Nat, c ∈ (toString k).toList → Text.isDigit c = true := by
    intro k hk
    refine Text.isDigit_of_mem_toDigits (n := k) ?_
    simpa [toString, Nat.repr] using hk
  simp only [header, String.toList_append, List.mem_append] at h
  rcases h with ((h | h) | h) | h
  · exact .inl h
  · exact .inr (hdigits v h)
  · exact .inl (by rw [List.mem_singleton.mp h]; decide)
  · exact .inr (hdigits n h)

theorem mem_clauseLine {numbers : List Int} {c : Char} (h : c ∈ (clauseLine numbers).toList) :
    c = ' ' ∨ c = '-' ∨ Text.isDigit c = true := by
  have hjoin : ∀ numbers : List Int, c ∈ (Text.join " " (numbers.map toString)).toList →
      c = ' ' ∨ c = '-' ∨ Text.isDigit c = true := by
    intro numbers
    unfold Text.join
    induction numbers with
    | nil => simp
    | cons n numbers ih =>
      cases numbers with
      | nil =>
        intro hc
        exact .inr (Text.mem_toString_int (by simpa using hc))
      | cons m numbers =>
        intro hc
        simp only [List.map_cons, String.intercalate_cons_cons, String.toList_append,
          List.mem_append] at hc
        rcases hc with (hc | hc) | hc
        · exact .inr (Text.mem_toString_int hc)
        · exact .inl (List.mem_singleton.mp hc)
        · exact ih hc
  rw [clauseLine, String.toList_append, List.mem_append] at h
  rcases h with h | h
  · exact hjoin numbers h
  · have hlast : c ∈ [' ', '0'] := h
    fin_cases hlast <;> decide

theorem mem_variableLine {name : String} {i : Int} {c : Char} (hname : Legible name)
    (hc : c ∈ (variableLine (name, i)).toList) : c = ' ' ∨ Text.isBlank c = false := by
  have hdigits : ∀ c ∈ (toString i).toList, Text.isBlank c = false := by
    intro c hc
    rcases Text.mem_toString_int hc with rfl | hdigit
    · decide
    · exact Text.isBlank_of_isDigit hdigit
  simp only [variableLine, String.toList_append, List.mem_append] at hc
  rcases hc with ((hc | hc) | hc) | hc
  · have hstart : c ∈ ['c', ' ', 'v', 'a', 'r', 'i', 'a', 'b', 'l', 'e', ' '] := hc
    fin_cases hstart <;> decide
  · exact .inr (shown_legible hname c hc)
  · have hcolon : c ∈ [':', ' '] := hc
    fin_cases hcolon <;> decide
  · exact .inr (hdigits c hc)

theorem readLine_header (v n : Nat) : readLine (header v n) = .ok none := by
  apply readLine_of_not_isPrefix
  rintro ⟨rest, hrest⟩
  rw [header, String.toList_append, String.toList_append, String.toList_append] at hrest
  exact absurd (List.cons.inj hrest).1 (by decide)

theorem readLine_clauseLine (numbers : List Int) : readLine (clauseLine numbers) = .ok none := by
  apply readLine_of_not_isPrefix
  intro hprefix
  have hc : 'c' ∈ (clauseLine numbers).toList := hprefix.subset (by decide)
  exact absurd (mem_clauseLine hc) (by decide)

theorem entriesOf_lines (lines : List FormulaLine) :
    entriesOf (lines.map fun line => Text.asRead (writeLine line)) =
      entriesOf ((lines.filterMap FormulaLine.comment?).map fun text => Text.asRead ("c " ++ text)) := by
  induction lines with
  | nil => rfl
  | cons line lines ih =>
    cases line with
    | comment text =>
      rw [List.map_cons, entriesOf, ih]
      rfl
    | clause numbers =>
      have hreturn : '\r' ∉ (clauseLine numbers).toList := fun hmem =>
        absurd (mem_clauseLine hmem) (by decide)
      have hline : readLine (Text.asRead (writeLine (.clause numbers))) = .ok none := by
        rw [writeLine, Text.asRead_of_not_mem hreturn, readLine_clauseLine]
      rw [List.map_cons, entriesOf, hline]
      exact ih

theorem entriesOf_variableLines {entries : List (String × Int)}
    (h : ∀ e ∈ entries, Legible e.1 ∧ 0 ≤ e.2 ∧ e.2 ≤ Word.maxInt32) :
    entriesOf (entries.map fun e => Text.asRead (variableLine e)) =
      .ok (entries.filterMap shownEntry) := by
  induction entries with
  | nil => rfl
  | cons e entries ih =>
    rw [List.forall_mem_cons] at h
    obtain ⟨⟨hname, h0, hmax⟩, hrest⟩ := h
    have hreturn : '\r' ∉ (variableLine e).toList := fun hmem =>
      absurd (mem_variableLine hname hmem) (by decide)
    have hline := readLine_variableLine (hname.not_mem (by decide)) h0 hmax
    rw [List.map_cons, entriesOf, Text.asRead_of_not_mem hreturn, hline, ih hrest, List.filterMap_cons]
    cases shownEntry e <;> rfl

theorem enter_append (t : SymbolTable) (entries more : List (String × Int)) :
    t.enter (entries ++ more) = (t.enter entries).enter more :=
  List.foldl_append

theorem not_mem_textLines (hnames : ∀ e ∈ f.symbols.toList, Legible e.1)
    (hcomments : ∀ text ∈ f.comments, '\n' ∉ text.toList) :
    ∀ line ∈ f.textLines, '\n' ∉ line.toList := by
  intro line hline hmem
  simp only [textLines, List.cons_append, List.mem_cons, List.mem_append, List.mem_map] at hline
  rcases hline with rfl | ⟨e, he, rfl⟩ | ⟨line, hline, rfl⟩
  · exact absurd (mem_header hmem) (by decide)
  · exact absurd (mem_variableLine (hnames e he) hmem) (by decide)
  · cases line with
    | clause numbers => exact absurd (mem_clauseLine hmem) (by decide)
    | comment text =>
      have htext := hcomments text (List.mem_filterMap.mpr ⟨_, hline, rfl⟩)
      simp [writeLine, htext] at hmem

/-- **What is read from the text of a formula.** Comments may look like lines of names. -/
theorem read_write (hnames : ∀ e ∈ f.symbols.toList,
      Legible e.1 ∧ 0 ≤ e.2 ∧ e.2 ≤ Word.maxInt32)
    (hcomments : ∀ text ∈ f.comments, '\n' ∉ text.toList) :
    SymbolTable.read (.text f.write) =
      (entriesOf (f.comments.map fun text => Text.asRead ("c " ++ text))).map
        (enter (enter {} (f.symbols.toList.filterMap shownEntry))) := by
  have hbreak := not_mem_textLines (fun e he => (hnames e he).1) hcomments
  have hheader : Text.asRead (header f.variableCount f.clauseCount) =
      header f.variableCount f.clauseCount :=
    Text.asRead_of_not_mem fun hmem => absurd (mem_header hmem) (by decide)
  have hlines : Content.lines (.text f.write) =
      (f.textLines.map Text.asRead).map .ok := by
    rw [Content.lines, write, Text.lines_join hbreak]
  rw [SymbolTable.read, hlines, readLines_eq, textLines, List.cons_append, List.map_cons,
    entriesOf, hheader, readLine_header, List.map_append, List.map_map, List.map_map]
  show (entriesOf ((f.symbols.toList.map fun e => Text.asRead (variableLine e)) ++
    f.lines.map fun line => Text.asRead (writeLine line))).map (enter {}) = _
  rw [entriesOf_append, entriesOf_variableLines hnames, entriesOf_lines]
  cases hentries : entriesOf (f.comments.map fun text => Text.asRead ("c " ++ text)) with
  | error failure =>
    rw [comments] at hentries
    simp [hentries, bind, Except.bind, Except.map]
  | ok entries =>
    rw [comments] at hentries
    simp [hentries, bind, Except.bind, Except.map, pure, Except.pure, enter_append]

theorem mem_symbols_of_compile (hf : compile cs = .ok f) {e : String × Int}
    (he : e ∈ f.symbols.toList) :
    Clause.VariableInBits cs e.1 ∧ 0 ≤ e.2 ∧ e.2 ≤ Word.maxInt32 := by
  obtain ⟨es, hes, -, hsize, -⟩ := exists_of_compile hf
  obtain ⟨es', hes', -, hvariables, -⟩ := Clause.expandTags_writes cs
  obtain rfl := Except.ok.inj (hes.symm.trans hes')
  have ht := numbers_of_compile hf hes
  have hindex := SymbolTable.mem_toList.mp he
  obtain ⟨n, hn, -⟩ := (ht.index? _ _).mp hindex
  obtain ⟨d, hd, l, hl, hname⟩ := Clause.mem_variableNames.mp
    (mem_sortedSet.mp (List.mem_of_getElem? hn))
  have hrange := ht.le_of_index? hindex
  rw [variableCount] at hsize
  refine ⟨hname ▸ hvariables d hd l hl, by omega, ?_⟩
  simp only [Word.maxInt32]
  omega

theorem forall_mem_of_variableInBits {p : Char → Prop} (hmark : p '#')
    (hdigit : ∀ c, Text.isDigit c = true → p c)
    (h : ∀ name ∈ Clause.variableNames cs, ∀ c ∈ name.toList, p c) {name : String}
    (hname : Clause.VariableInBits cs name) : ∀ c ∈ name.toList, p c := by
  rcases hname with ⟨d, hd, l, hl, rfl, -⟩ | ⟨base, ⟨d, hd, l, hl, rfl, -⟩, i, -, rfl⟩
  · exact h _ (Clause.mem_variableNames.mpr ⟨d, hd, l, hl, rfl⟩)
  · intro c hc
    rw [Tag.toList_bitName, List.mem_append, List.mem_cons] at hc
    rcases hc with hc | rfl | hc
    · exact h _ (Clause.mem_variableNames.mpr ⟨d, hd, l, hl, rfl⟩) c hc
    · exact hmark
    · exact hdigit c (Text.isDigit_of_mem_toDigits hc)

theorem legible_of_variableInBits (h : ∀ name ∈ Clause.variableNames cs, Legible name)
    {name : String} (hname : Clause.VariableInBits cs name) : Legible name :=
  forall_mem_of_variableInBits (by decide) (fun _ => Text.isBlank_of_isDigit) h hname

theorem ne_empty_of_variableInBits (h : ∀ name ∈ Clause.variableNames cs, name ≠ "")
    {name : String} (hname : Clause.VariableInBits cs name) : name ≠ "" := by
  rcases hname with ⟨d, hd, l, hl, rfl, -⟩ | ⟨base, -, i, -, rfl⟩
  · exact h _ (Clause.mem_variableNames.mpr ⟨d, hd, l, hl, rfl⟩)
  · intro hempty
    have hlist := congrArg String.toList hempty
    simp [Tag.toList_bitName] at hlist

end Formula

/-! ## Writing and reading an answer -/

namespace Assignment

variable {t u : SymbolTable} {numbers : List Int} {values : Std.TreeMap String Value}

theorem readNumber_toString {n : Int} (h : n.natAbs < 2 ^ 31) :
    readNumber (toString n) = .ok n := by
  have hrange : Word.minInt32 ≤ n ∧ n ≤ Word.maxInt32 := by
    simp only [Word.minInt32, Word.maxInt32]
    omega
  rw [readNumber, Text.readIntIn?_toString hrange]

theorem mapM_readNumber {l : List Int} (h : ∀ n ∈ l, n.natAbs < 2 ^ 31) :
    (l.map toString).mapM readNumber = .ok l := by
  induction l with
  | nil => rfl
  | cons n l ih =>
    rw [List.forall_mem_cons] at h
    rw [List.map_cons, List.mapM_cons, readNumber_toString h.1, ih h.2]
    rfl

theorem isBlank_of_mem_toString {n : Int} {c : Char} (hc : c ∈ (toString n).toList) :
    Text.isBlank c = false := by
  rcases Text.mem_toString_int hc with rfl | hdigit
  · decide
  · exact Text.isBlank_of_isDigit hdigit

/-- The line of an answer that has its numbers. -/
def valueLine (numbers : List Int) : String :=
  "v" ++ String.join (numbers.map fun n => " " ++ toString n) ++ " 0"

theorem toList_valueLine (numbers : List Int) : (valueLine numbers).toList =
    ['v'] ++ ((numbers ++ [0]).map fun n => (toString n).toList).flatMap (' ' :: ·) := by
  have hzero : (toString (0 : Int)).toList = ['0'] := rfl
  rw [valueLine, List.map_append, List.flatMap_append, List.map_singleton, hzero]
  simp [List.flatMap_map]

theorem write_some (numbers : List Int) :
    write (some numbers) = String.join (["s SATISFIABLE", valueLine numbers].map (· ++ "\n")) := by
  show "s SATISFIABLE\nv" ++ String.join (numbers.map fun n => " " ++ toString n) ++ " 0\n" = _
  apply String.toList_injective
  simp [valueLine]

theorem wordsOf_valueLine (numbers : List Int) :
    Text.wordsOf (valueLine numbers) = "v" :: (numbers ++ [0]).map toString := by
  have hv : ∀ c ∈ ['v'], Text.isBlank c = false := fun c hc => by
    rw [List.mem_singleton.mp hc]
    decide
  rw [Text.wordsOf, toList_valueLine, Text.words_flatMap hv (by simp)]
  · simp [Function.comp_def]
  · intro v hmem
    obtain ⟨n, -, rfl⟩ := List.mem_map.mp hmem
    exact ⟨Text.toList_toString_ne_nil n, fun c => isBlank_of_mem_toString⟩

theorem mem_valueLine {c : Char} (h : c ∈ (valueLine numbers).toList) :
    c = ' ' ∨ Text.isBlank c = false := by
  rw [toList_valueLine, List.mem_append, List.mem_singleton, List.mem_flatMap] at h
  rcases h with rfl | ⟨v, hv, hc⟩
  · decide
  · obtain ⟨n, -, rfl⟩ := List.mem_map.mp hv
    exact (List.mem_cons.mp hc).imp_right isBlank_of_mem_toString

theorem readLine_valueLine (h : ∀ n ∈ numbers, n ≠ 0 ∧ n.natAbs < 2 ^ 31) :
    readLine (valueLine numbers) = .ok numbers := by
  have hall : ∀ n ∈ numbers ++ [0], n.natAbs < 2 ^ 31 :=
    List.forall_mem_append.mpr ⟨fun n hn => (h n hn).2, by simp⟩
  have hfilter : (numbers ++ [0]).filter (· ≠ 0) = numbers := by
    rw [List.filter_append, List.filter_eq_self.mpr fun n hn => decide_eq_true (h n hn).1]
    simp
  rw [readLine, wordsOf_valueLine]
  show ((numbers ++ [0]).map toString).mapM readNumber >>= _ = _
  rw [mapM_readNumber hall]
  exact congrArg _ hfilter

/-- **Numbers of 32 bits are read back** from the text of an answer. -/
theorem read_write (h : ∀ n ∈ numbers, n ≠ 0 ∧ n.natAbs < 2 ^ 31) :
    read (.text (write (some numbers))) = .ok numbers := by
  have hbreak : ∀ line ∈ ["s SATISFIABLE", valueLine numbers], '\n' ∉ line.toList := by
    intro line hline hmem
    rw [List.mem_cons, List.mem_singleton] at hline
    rcases hline with rfl | rfl
    · exact absurd hmem (by decide)
    · exact absurd (mem_valueLine hmem) (by decide)
  have hreturn : '\r' ∉ (valueLine numbers).toList := fun hmem =>
    absurd (mem_valueLine hmem) (by decide)
  have hlines : Content.lines (.text (write (some numbers))) =
      [.ok "s SATISFIABLE", .ok (valueLine numbers)] := by
    rw [Content.lines, write_some, Text.lines_join hbreak, List.map_cons, List.map_singleton,
      Text.asRead_of_not_mem (by decide), Text.asRead_of_not_mem hreturn]
    rfl
  have hstatus : readLine "s SATISFIABLE" = .ok [] := by cbv
  rw [read, hlines]
  simp only [readLines, FileError.toResult, hstatus, readLine_valueLine h, bind, Except.bind, pure,
    Except.pure, List.nil_append, List.append_nil]

/-! ## Decoding with different tables -/

/-- What a name stands for in an answer: a variable, or the value of a bit of one. -/
def target (name : String) : Result (String × Option Nat) :=
  match Text.splitFirst '#' name.toList with
  | none => .ok (name, none)
  | some (base, bit) =>
    match Text.readNatUpTo? Word.maxNat32 bit with
    | none => .error (.decode (.badBit name))
    | some bit => .ok (String.ofList base, some (bitMask true bit))

/-- The value of what a number is about, given the one before. -/
def updated (values : Std.TreeMap String Value) (truth : Bool) (e : String × Option Nat) : Value :=
  match e.2 with
  | none => .truth truth
  | some mask => .number ((values[e.1]?.map Value.toNat).getD 0 ||| if truth then mask else 0)

theorem decodeNamed_eq (values : Std.TreeMap String Value) (name : String) (truth : Bool) :
    decodeNamed values name truth =
      (target name).map fun e => values.insert e.1 (updated values truth e) := by
  unfold decodeNamed target
  cases Text.splitFirst '#' name.toList with
  | none => rfl
  | some parts =>
    obtain ⟨base, bit⟩ := parts
    cases hread : Text.readNatUpTo? Word.maxNat32 bit with
    | none => simp only [hread, Except.map]
    | some bit =>
      have hmask : bitMask truth bit = if truth then bitMask true bit else 0 := by
        cases truth <;> simp [bitMask]
      simp only [hread, Except.map, updated, hmask]

theorem decodeFrom_congr
    (h : ∀ n ∈ numbers, (t.name? n.natAbs).map target = (u.name? n.natAbs).map target) :
    decodeFrom t values numbers = decodeFrom u values numbers := by
  induction numbers generalizing values with
  | nil => rfl
  | cons n numbers ih =>
    rw [List.forall_mem_cons] at h
    rw [decodeFrom, decodeFrom]
    cases hindex : (Word.int32 n.natAbs : Checked Int) with
    | error fault => rfl
    | ok index =>
      obtain rfl := Word.eq_of_int32 hindex
      simp only [liftM, monadLift, MonadLift.monadLift, Checked.toResult, bind, Except.bind]
      have hname := h.1
      cases ht : t.name? n.natAbs with
      | none =>
        cases hu : u.name? n.natAbs with
        | none => rfl
        | some b =>
          rw [ht, hu] at hname
          contradiction
      | some a =>
        cases hu : u.name? n.natAbs with
        | none =>
          rw [ht, hu] at hname
          contradiction
        | some b =>
          rw [ht, hu] at hname
          have hnamed : decodeNamed values a (0 < n) = decodeNamed values b (0 < n) := by
            rw [decodeNamed_eq, decodeNamed_eq, Option.some.inj hname]
          simp only [hnamed]
          cases decodeNamed values b (0 < n) with
          | error failure => rfl
          | ok values => exact ih h.2

theorem decode_congr
    (h : ∀ n ∈ numbers, (t.name? n.natAbs).map target = (u.name? n.natAbs).map target) :
    decode t numbers = decode u numbers := by
  rw [decode, decodeFrom_congr h, decode]

theorem load_eq {cnf answer : Content} (h : SymbolTable.read cnf = .ok t) :
    load cnf answer = read answer >>= decode t := by
  rw [load, h]
  rfl

end Assignment

namespace Formula

open SymbolTable

variable {cs : List Clause} {f : Formula}

theorem toList_asRead_comment (text : String) :
    (Text.asRead ("c " ++ text)).toList = "c ".toList ++ Text.dropReturn text.toList := by
  simp [Text.asRead, Text.dropReturn]

theorem readLine_comment {text : String} (h : ¬ "variable ".toList <+: text.toList) :
    readLine (Text.asRead ("c " ++ text)) = .ok none := by
  apply readLine_of_not_isPrefix
  rintro ⟨rest, hrest⟩
  have hcomment : variableComment.toList = "c ".toList ++ "variable ".toList := rfl
  rw [toList_asRead_comment, hcomment, List.append_assoc, List.append_cancel_left_eq] at hrest
  exact h ((List.prefix_append _ _).trans (hrest ▸ Text.isPrefix_dropReturn text.toList))

/-- **Formulas and answers as text.** What is read back numbers and decodes as the formula does. -/
theorem load_write
    (hnames : ∀ name ∈ Clause.variableNames cs,
      '~' ∉ name.toList ∧ ∃ l, Literal.parse name = .ok l)
    (hcomments : ∀ text, .comment text ∈ cs →
      '\n' ∉ text.toList ∧ ¬ "variable ".toList <+: text.toList)
    (hf : compile cs = .ok f) :
    ∃ t, SymbolTable.read (.text f.write) = .ok t ∧
      (∀ name, t.index? name = f.symbols.index? name) ∧
      (∀ i, t.name? i = f.symbols.name? i) ∧
      ∀ numbers : List Int, (∀ n ∈ numbers, n ≠ 0 ∧ n.natAbs < 2 ^ 31) →
        Assignment.load (.text f.write) (.text (Assignment.write (some numbers))) =
          Assignment.decode f.symbols numbers := by
  have hlegible : ∀ name ∈ Clause.variableNames cs, Legible name := fun name hname => by
    obtain ⟨-, l, hl⟩ := hnames name hname
    exact (Literal.legible_of_parse hl).1
  have hsymbols : ∀ e ∈ f.symbols.toList,
      Legible e.1 ∧ 0 ≤ e.2 ∧ e.2 ≤ Word.maxInt32 := fun e he => by
    obtain ⟨hbits, hrange⟩ := mem_symbols_of_compile hf he
    exact ⟨legible_of_variableInBits hlegible hbits, hrange⟩
  have hshown : f.symbols.toList.filterMap shownEntry = f.symbols.toList := by
    have hself : ∀ e ∈ f.symbols.toList, shownEntry e = some e := by
      intro e he
      have hbits := (mem_symbols_of_compile hf he).1
      have htilde : '~' ∉ e.1.toList := fun hmem =>
        forall_mem_of_variableInBits (p := (· ≠ '~')) (by decide) (by rintro _ h rfl; contradiction)
          (fun name hname c hc heq => (hnames name hname).1 (heq ▸ hc)) hbits _ hmem rfl
      have hempty : e.1 ≠ "" := ne_empty_of_variableInBits
        (fun name hname => Literal.ne_empty_of_parse (hnames name hname).2.choose_spec) hbits
      rw [shownEntry, shown_eq_self htilde, if_neg hempty]
    rw [List.filterMap_congr hself, List.filterMap_some]
  have hlines : ∀ text ∈ f.comments, '\n' ∉ text.toList ∧
      readLine (Text.asRead ("c " ++ text)) = .ok none := by
    obtain ⟨more, hmore, htag⟩ := comments_of_compile hf
    intro text htext
    rw [hmore, List.mem_append] at htext
    rcases htext with htext | htext
    · obtain ⟨hbreak, hstart⟩ := hcomments text (Clause.mem_comments.mp htext)
      exact ⟨hbreak, readLine_comment hstart⟩
    · rw [htag text htext]
      exact ⟨by decide, readLine_comment (by decide)⟩
  have hread : SymbolTable.read (.text f.write) = .ok (enter {} f.symbols.toList) := by
    rw [read_write hsymbols fun text htext => (hlines text htext).1, hshown, entriesOf_of_none]
    · rfl
    · intro line hline
      obtain ⟨text, htext, rfl⟩ := List.mem_map.mp hline
      exact (hlines text htext).2
  obtain ⟨es, -, hnumbers, -⟩ := exists_of_compile hf
  have ht := SymbolTable.numbers_ofNames (Clause.variableNames es)
  rw [← hnumbers] at ht
  refine ⟨_, hread, index?_enter_toList f.symbols, name?_enter_toList ht, fun numbers hn => ?_⟩
  rw [Assignment.load_eq hread, Assignment.read_write hn]
  exact Assignment.decode_congr fun n _ => by rw [name?_enter_toList ht]

/-- A comment, and a clause about a variable whose name ends in a colon and one with a tag. -/
def noted : List Clause :=
  [.comment "c variables: 2", .disjunction [{ name := "a:" }, { name := "x", tag := some 2 }]]

theorem load_write_noted :
    ∃ f, compile noted = .ok f ∧
      Assignment.load (.text f.write) (.text (Assignment.write (some [1, -2, 3]))) =
        .ok [("a:", .truth true), ("x", .number 2)] := by
  have hnames : Clause.variableNames noted = ["a:", "x"] := by cbv
  have hbits : ∃ es, Clause.expandTags noted = .ok es ∧
      Clause.variableNames es = ["a:", "x#0", "x#1"] := ⟨_, by cbv, by cbv⟩
  obtain ⟨es, hes, hvariables⟩ := hbits
  have hcount : ∀ es', Clause.expandTags noted = .ok es' →
      (Clause.variableNames es').length < 2 ^ 31 := by
    intro es' hes'
    rw [← Except.ok.inj (hes.symm.trans hes'), hvariables]
    decide
  have hparse : ∀ name ∈ Clause.variableNames noted,
      '~' ∉ name.toList ∧ ∃ l, Literal.parse name = .ok l := by
    rw [hnames]
    simp only [List.forall_mem_cons, List.not_mem_nil, false_imp_iff, implies_true, and_true]
    exact ⟨⟨by decide, _, by cbv⟩, by decide, _, by cbv⟩
  have hcomments : ∀ text, .comment text ∈ noted →
      '\n' ∉ text.toList ∧ ¬ "variable ".toList <+: text.toList := by
    intro text htext
    obtain rfl : text = "c variables: 2" := by simpa [noted] using htext
    exact ⟨by decide, by decide⟩
  obtain ⟨f, hf, -⟩ := compile_writes hcount
  obtain ⟨t, -, -, -, hload⟩ := load_write hparse hcomments hf
  have hdecode := hload [1, -2, 3] (by decide)
  rw [symbols_of_compile hf hes, hvariables] at hdecode
  exact ⟨f, hf, hdecode.trans (by cbv)⟩

end Formula

end CellSat
