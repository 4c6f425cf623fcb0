import Mathlib
import CellSat.Proofs.Cnf.Numbering
import CellSat.Proofs.Literal.Spelling
import CellSat.Proofs.Text.Lines
/-!
# Names and numbers in lines

The names of a formula are comments at the start of its text, one line for each. A line gives a name
whatever the lines around it are, and a later one overrides what earlier ones gave.

* `SymbolTable.enter`, `SymbolTable.entriesOf`: the names that lines give, entered in a table;
* `SymbolTable.readLines_eq`: that is what reading lines does;
* `SymbolTable.readLine_variableLine`: the line of a name gives the name without its tildes;
* `SymbolTable.Legible`, `Literal.legible_of_parse`: names without blanks, such as those of literals
  that were read.
-/

namespace CellSat

/-! ## Entering names -/

theorem map_find?_eq {α β κ : Type} [DecidableEq κ] {l : List α} {key : α → κ} {value : α → β}
    {k : κ} {o : Option β} (h : ∀ v, o = some v ↔ ∃ a ∈ l, key a = k ∧ value a = v) :
    (l.find? fun a => key a == k).map value = o := by
  cases hfind : l.find? fun a => key a == k with
  | none =>
    rw [List.find?_eq_none] at hfind
    cases ho : o with
    | none => rfl
    | some v =>
      obtain ⟨a, ha, hkey, -⟩ := (h v).mp ho
      exact absurd (by simpa using hkey) (hfind a ha)
  | some a =>
    have hkey : key a = k := by simpa using List.find?_some hfind
    exact ((h _).mpr ⟨a, List.mem_of_find?_eq_some hfind, hkey, rfl⟩).symm

namespace SymbolTable

variable {t : SymbolTable} {names : List String} {name : String} {i : Int}

/-- Enter names with numbers one after the other. -/
def enter (t : SymbolTable) (entries : List (String × Int)) : SymbolTable :=
  entries.foldl (fun t e => t.insert e.1 e.2) t

theorem index?_enter (t : SymbolTable) (entries : List (String × Int)) (name : String) :
    (t.enter entries).index? name =
      ((entries.reverse.find? fun e => e.1 == name).map Prod.snd).or (t.index? name) := by
  induction entries generalizing t with
  | nil => rfl
  | cons e entries ih =>
    rw [enter, List.foldl_cons, ← enter, ih, index?_insert, List.reverse_cons, List.find?_append]
    by_cases he : e.1 = name
    · cases entries.reverse.find? fun e => e.1 == name <;> simp [he]
    · simp [he]

theorem name?_enter (t : SymbolTable) (entries : List (String × Int)) (i : Int) :
    (t.enter entries).name? i =
      ((entries.reverse.find? fun e => e.2 == i).map Prod.fst).or (t.name? i) := by
  induction entries generalizing t with
  | nil => rfl
  | cons e entries ih =>
    rw [enter, List.foldl_cons, ← enter, ih, name?_insert, List.reverse_cons, List.find?_append]
    by_cases he : e.2 = i
    · cases entries.reverse.find? fun e => e.2 == i <;> simp [he]
    · simp [he]

theorem mem_toList : (name, i) ∈ t.toList ↔ t.index? name = some i :=
  Std.TreeMap.mem_toList_iff_getElem?_eq_some

theorem index?_enter_toList (t : SymbolTable) (name : String) :
    (enter {} t.toList).index? name = t.index? name := by
  rw [index?_enter, show index? {} name = none from rfl, Option.or_none]
  apply map_find?_eq
  intro i
  simp only [List.mem_reverse, Prod.exists, mem_toList]
  constructor
  · exact fun h => ⟨name, i, h, rfl, rfl⟩
  · rintro ⟨_, _, h, rfl, rfl⟩
    exact h

theorem name?_enter_toList (ht : t.Numbers names) (i : Int) :
    (enter {} t.toList).name? i = t.name? i := by
  rw [name?_enter, show name? {} i = none from rfl, Option.or_none]
  apply map_find?_eq
  intro name
  simp only [List.mem_reverse, Prod.exists, mem_toList]
  constructor
  · exact fun h => ⟨name, i, ht.index?_eq_some_iff.mpr h, rfl, rfl⟩
  · rintro ⟨_, _, h, rfl, rfl⟩
    exact ht.index?_eq_some_iff.mp h

/-! ## Names in lines -/

/-- The names and numbers that lines give. -/
def entriesOf : List String → Result (List (String × Int))
  | [] => .ok []
  | line :: lines => do
    match ← readLine line with
    | none => entriesOf lines
    | some entry => return entry :: (← entriesOf lines)

theorem readLines_eq (t : SymbolTable) (lines : List String) :
    readLines t (lines.map .ok) = (entriesOf lines).map t.enter := by
  induction lines generalizing t with
  | nil => rfl
  | cons line lines ih =>
    rw [List.map_cons, readLines, entriesOf]
    cases hline : readLine line with
    | error failure => simp [FileError.toResult, hline, bind, Except.bind, Except.map]
    | ok given? =>
      cases given? with
      | none => simpa [FileError.toResult, hline, bind, Except.bind] using ih t
      | some entry =>
        have htail := ih (t.insert entry.1 entry.2)
        simp only [FileError.toResult, hline, bind, Except.bind, htail]
        cases entriesOf lines <;> rfl

theorem entriesOf_append (lines more : List String) : entriesOf (lines ++ more) = do
    let entries ← entriesOf lines
    return entries ++ (← entriesOf more) := by
  induction lines with
  | nil => cases h : entriesOf more <;> simp [entriesOf, h, bind, Except.bind, pure, Except.pure]
  | cons line lines ih =>
    rw [List.cons_append, entriesOf, entriesOf, ih]
    cases readLine line with
    | error failure => rfl
    | ok given? =>
      cases given? with
      | none => rfl
      | some entry =>
        cases entriesOf lines with
        | error failure => rfl
        | ok entries => cases entriesOf more <;> rfl

theorem entriesOf_of_none {lines : List String} (h : ∀ line ∈ lines, readLine line = .ok none) :
    entriesOf lines = .ok [] := by
  induction lines with
  | nil => rfl
  | cons line lines ih =>
    rw [List.forall_mem_cons] at h
    rw [entriesOf, h.1]
    exact ih h.2

theorem le_of_readLine {line : String} {e : String × Int} (h : readLine line = .ok (some e)) :
    e.2 ≤ Word.maxInt32 := by
  unfold readLine at h
  split at h
  · cases h
  · split at h
    · cases h
    · dsimp only at h
      split_ifs at h with hskip hle
      · cases h
      · cases h
        exact Int.toNat_le.mp hle

theorem le_of_mem_entriesOf {lines : List String} {entries : List (String × Int)}
    (h : entriesOf lines = .ok entries) {e : String × Int} (he : e ∈ entries) :
    e.2 ≤ Word.maxInt32 := by
  induction lines generalizing entries with
  | nil =>
    obtain rfl := Except.ok.inj h
    contradiction
  | cons line lines ih =>
    obtain ⟨given?, hline, h⟩ := bind_eq_ok.mp h
    cases given? with
    | none => exact ih h he
    | some entry =>
      obtain ⟨rest, hrest, h⟩ := bind_eq_ok.mp h
      obtain rfl := Except.ok.inj h
      rcases List.mem_cons.mp he with rfl | he
      · exact le_of_readLine hline
      · exact ih hrest he

theorem readLine_of_not_isPrefix {line : String}
    (h : ¬ Formula.variableComment.toList <+: line.toList) : readLine line = .ok none := by
  have hnone : Text.dropStart? Formula.variableComment.toList line.toList = none := by
    cases hdrop : Text.dropStart? Formula.variableComment.toList line.toList with
    | none => rfl
    | some rest => exact absurd ⟨rest, (Text.eq_append_of_dropStart? hdrop).symm⟩ h
  rw [readLine, hnone]

theorem splitColon_append {s : List Char} (h : ' ' ∉ s) (rest : List Char) :
    splitColon (s ++ ':' :: ' ' :: rest) = some (s, rest) := by
  induction s with
  | nil => rfl
  | cons c s ih =>
    rw [List.mem_cons, not_or] at h
    rw [List.cons_append, splitColon, ih h.2]
    · rfl
    · -- The colon that counts is not followed by a character of the name.
      rintro r rfl hr
      cases s with
      | nil => simp at hr
      | cons d s => exact h.2 ((List.cons.inj hr).1 ▸ List.mem_cons_self)

/-- A name without tildes, as it is written. -/
def shown (name : String) : String := String.ofList (name.toList.filter (· ≠ '~'))

theorem shown_eq_self (h : '~' ∉ name.toList) : shown name = name := by
  have hself : name.toList.filter (· ≠ '~') = name.toList :=
    List.filter_eq_self.mpr fun c hc => decide_eq_true fun heq => h (heq ▸ hc)
  rw [shown, hself, String.ofList_toList]

/-- What is read from the line of a name. -/
def shownEntry (e : String × Int) : Option (String × Int) :=
  if shown e.1 = "" then none else some (shown e.1, e.2)

theorem readLine_variableLine (hname : ' ' ∉ name.toList) (h0 : 0 ≤ i)
    (hmax : i ≤ Word.maxInt32) :
    readLine (Formula.variableLine (name, i)) = .ok (shownEntry (name, i)) := by
  have hspace : ' ' ∉ (shown name).toList := by
    rw [shown, String.toList_ofList]
    exact fun hmem => hname (List.mem_of_mem_filter hmem)
  have hline : (Formula.variableLine (name, i)).toList = Formula.variableComment.toList ++
      ((shown name).toList ++ ':' :: ' ' :: Nat.toDigits 10 i.toNat) := by
    simp [Formula.variableLine, shown, ← Text.toList_toString_of_nonneg h0]
  have hdigits : (Nat.toDigits 10 i.toNat).takeWhile Text.isDigit = Nat.toDigits 10 i.toNat :=
    List.takeWhile_eq_self_iff.mpr fun c hc => Text.isDigit_of_mem_toDigits hc
  have hle : i.toNat ≤ Word.maxInt32.toNat := Int.toNat_le_toNat hmax
  rw [readLine, hline, Text.dropStart?_append]
  simp only [splitColon_append hspace, hdigits, Text.digitsValue_toDigits, Nat.toDigits_ne_nil,
    or_false, hle, if_true, String.ofList_toList, Int.toNat_of_nonneg h0, shownEntry]
  by_cases hempty : shown name = ""
  · simp [hempty]
  · have hne : (shown name).toList ≠ [] := by simpa using hempty
    rw [if_neg hempty, if_neg]
    simpa [hne] using hspace

/-- Names without blanks. -/
def Legible (name : String) : Prop := ∀ c ∈ name.toList, Text.isBlank c = false

theorem Legible.not_mem (h : Legible name) {c : Char} (hc : Text.isBlank c = true) :
    c ∉ name.toList := fun hmem => by simp [h c hmem] at hc

theorem shown_legible (h : Legible name) : Legible (shown name) := by
  intro c hc
  rw [shown, String.toList_ofList] at hc
  exact h c (List.mem_of_mem_filter hc)

end SymbolTable

/-! ## Names that are read as literals -/

namespace Literal

open SymbolTable

theorem legible_of_parse {text : String} {l : Literal} (h : parse text = .ok l) :
    Legible text ∧ Legible l.name := by
  have hspells := parse_eq_ok_iff.mp h
  exact ⟨hspells.isBlank, fun c hc => (hspells.lettered.2 c hc).1⟩

theorem ne_empty_of_parse {text : String} {l : Literal} (h : parse text = .ok l) : text ≠ "" := by
  rintro rfl
  contradiction

end Literal

end CellSat
