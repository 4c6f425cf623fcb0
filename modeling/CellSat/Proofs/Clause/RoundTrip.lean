import Mathlib
import CellSat.Clause.Text
import CellSat.Proofs.Checked
import CellSat.Proofs.Cnf.Exchange
import CellSat.Proofs.Literal.Spelling
import CellSat.Proofs.Text.Trim
/-!
# Clause lists that are written and read back

A literal is read back if its name has no blanks and no parentheses and does not start like a
negation or a comment. A line of such literals is read back as their disjunction, unless there are
none of them: an empty line is a comment.

* `Literal.Spellable`, `Literal.Writable`: names and literals that can be read back;
* `Literal.parse_render`, `Clause.parseLine_renderAll`: one literal, and one line;
* `Clause.Writable`: lists whose comments keep to their lines and whose literals can be read back;
* `Clause.read_text_write`: such a list is read line by line;
* **`Clause.read_write`**: what is left of a list that is written and read back;
* `Clause.Tidy`, `Clause.parseLine_render_comment`: comments that are read back as they were;
* **`Clause.read_write_faithful`**: lists that are read back as they were.
-/

namespace CellSat

/-! ## Literals -/

namespace Literal

open SymbolTable

/-- A name that can be read back: it has no blanks and no parentheses, and does not start like a
negation or a comment. -/
structure Spellable (name : String) : Prop where
  chars : ∀ c ∈ name.toList, Text.isBlank c = false ∧ c ≠ '(' ∧ c ≠ ')'
  start : ∀ c ∈ name.toList.head?, c ≠ '~' ∧ c ≠ '#'

/-- A literal that can be read back: its name is neither empty nor the arrow of an implication, and
its tag is a 32-bit number. -/
structure Writable (l : Literal) : Prop where
  spellable : Spellable l.name
  nonempty : l.name ≠ ""
  notArrow : l.name ≠ Clause.impliedBy
  tag_le : ∀ tag ∈ l.tag, tag ≤ Word.maxNat32

variable {l : Literal} {name : String}

-- Quantifiers over characters would be decided by going through all of them.
instance : Decidable (Spellable name) :=
  decidable_of_iff ((name.toList.all fun c => !Text.isBlank c && c != '(' && c != ')') = true ∧
      (name.toList.head?.all fun c => c != '~' && c != '#') = true)
    ⟨fun h => ⟨by simpa [and_assoc] using h.1, by simpa [Option.all_eq_true] using h.2⟩,
      fun h => ⟨by simpa [and_assoc] using h.chars, by simpa [Option.all_eq_true] using h.start⟩⟩

instance : Decidable l.Writable :=
  decidable_of_iff (Spellable l.name ∧ l.name ≠ "" ∧ l.name ≠ Clause.impliedBy ∧
      (l.tag.all fun tag => tag ≤ Word.maxNat32) = true)
    ⟨fun h => ⟨h.1, h.2.1, h.2.2.1, by simpa [Option.all_eq_true] using h.2.2.2⟩,
      fun h => ⟨h.spellable, h.nonempty, h.notArrow, by simpa [Option.all_eq_true] using h.tag_le⟩⟩

theorem Spellable.legible (h : Spellable name) : Legible name := fun c hc => (h.chars c hc).1

theorem Spellable.append {start : String} (hstart : Spellable start) (h : Spellable name) :
    Spellable (start ++ name) where
  chars c hc := by
    rw [String.toList_append] at hc
    exact (List.mem_append.mp hc).elim (hstart.chars c) (h.chars c)
  start c hc := by
    rw [String.toList_append, List.head?_append, Option.mem_def, Option.or_eq_some_iff] at hc
    rcases hc with hc | ⟨-, hc⟩
    · exact hstart.start c hc
    · exact h.start c hc

theorem Writable.negate (h : l.Writable) : l.negate.Writable :=
  ⟨h.spellable, h.nonempty, h.notArrow, h.tag_le⟩

theorem exists_cons_of_spellable (h : Spellable name) (hne : name ≠ "") :
    ∃ c s, name.toList = c :: s ∧ c ≠ '~' ∧ c ≠ '#' := by
  cases hlist : name.toList with
  | nil => simp [hne] at hlist
  | cons c s => exact ⟨c, s, rfl, h.start c (by simp [hlist])⟩

/-- **A literal is read back.** -/
theorem parse_render (h : l.Writable) : parse l.render = .ok l := by
  have hstart : l.name.toList.head? ≠ some '~' := fun hc => (h.spellable.start _ hc).1 rfl
  have htag : ∀ n ∈ l.tag, n < 2 ^ 32 := fun n hn => Nat.lt_succ_of_le (h.tag_le n hn)
  exact parse_eq_ok_iff.mpr ⟨⟨h.nonempty, h.spellable.chars⟩, fun _ => hstart, _,
    tagText_renderTag htag, toList_render l⟩

theorem isBlank_of_mem_renderTag {tag : Option Nat} {c : Char}
    (hc : c ∈ (renderTag tag).toList) : Text.isBlank c = false := by
  cases tag with
  | none => simp [renderTag] at hc
  | some tag =>
    have hdigit : c ∈ Nat.toDigits 10 tag → Text.isBlank c = false := fun h =>
      Text.isBlank_of_isDigit (Text.isDigit_of_mem_toDigits h)
    simp only [renderTag, String.toList_append, List.mem_append,
      Text.toList_toString_nat] at hc
    rcases hc with (hc | hc) | hc
    · rw [List.mem_singleton.mp hc]
      decide
    · exact hdigit hc
    · rw [List.mem_singleton.mp hc]
      decide

theorem legible_render (h : Legible l.name) : Legible l.render := by
  intro c hc
  rw [toList_render, List.mem_append, List.mem_append] at hc
  rcases hc with hc | hc | hc
  · split_ifs at hc
    · simp at hc
    · rw [List.mem_singleton.mp hc]
      decide
  · exact h c hc
  · exact isBlank_of_mem_renderTag hc

theorem exists_cons_of_writable (h : l.Writable) : ∃ c s, l.render.toList = c :: s ∧ c ≠ '#' := by
  obtain ⟨c, s, hlist, -, hc⟩ := exists_cons_of_spellable h.spellable h.nonempty
  rw [toList_render, hlist]
  cases l.positive with
  | false => exact ⟨'~', _, rfl, by decide⟩
  | true => exact ⟨c, _, rfl, hc⟩

theorem render_ne_impliedBy (h : l.Writable) : l.render ≠ Clause.impliedBy := by
  intro heq
  have hlist := congrArg String.toList heq
  rw [toList_render] at hlist
  obtain ⟨name, positive, tag⟩ := l
  cases positive with
  | false => exact absurd (List.cons.inj hlist).1 (by decide)
  | true =>
    cases tag with
    | none =>
      refine h.notArrow (String.toList_injective ?_)
      simpa [renderTag] using hlist
    | some tag =>
      have hmem : ')' ∈ Clause.impliedBy.toList := by
        rw [← hlist]
        simp [renderTag]
      exact absurd hmem (by decide)

end Literal

/-! ## Lines -/

namespace Clause

open SymbolTable

variable {d : Disjunction} {cs : List Clause} {c : Char} {text : String}

theorem mem_renderAll (hd : ∀ l ∈ d, Legible l.name) (hc : c ∈ (Literal.renderAll d).toList) :
    c = ' ' ∨ Text.isBlank c = false := by
  refine (Text.mem_join hc).imp_right ?_
  rintro ⟨w, hw, hc⟩
  obtain ⟨l, hl, rfl⟩ := List.mem_map.mp hw
  exact Literal.legible_render (hd l hl) c hc

theorem mem_renderDisjunction (hd : ∀ l ∈ d, Legible l.name) {consequent : Option String}
    (hc : c ∈ (renderDisjunction d consequent).toList) : c = ' ' ∨ Text.isBlank c = false := by
  rw [renderDisjunction] at hc
  split at hc
  · exact mem_renderAll hd hc
  · refine (Text.mem_join hc).imp_right ?_
    rintro ⟨w, hw, hc⟩
    rcases List.mem_append.mp hw with hw | hw
    · obtain ⟨l, hl, rfl⟩ := List.mem_map.mp hw
      exact Literal.legible_render (hd l (List.mem_of_mem_filter hl)) c hc
    · rcases List.mem_cons.mp hw with rfl | hw
      · have harrow : c ∈ ['<', '-'] := hc
        fin_cases harrow <;> decide
      · obtain ⟨l, hl, rfl⟩ := List.mem_map.mp hw
        exact Literal.legible_render (l := l.negate) (hd l (List.mem_of_mem_filter hl)) c hc

theorem parseWords_render (hd : ∀ l ∈ d, l.Writable) :
    parseWords (d.map Literal.render) = .ok d := by
  rw [parseWords, List.mapM_map]
  exact (mapM_eq_ok_map fun l hl => Literal.parse_render (hd l hl)).trans (by rw [List.map_id'])

theorem parseDisjunction_render (hd : ∀ l ∈ d, l.Writable) :
    parseDisjunction (d.map Literal.render) = .ok d := by
  have hwords := parseWords_render hd
  match d with
  | [] | [_] => exact hwords
  | l :: m :: d =>
    have harrow := Literal.render_ne_impliedBy (hd m (by simp))
    rw [List.map_cons, List.map_cons, parseDisjunction, if_neg harrow]
    exact hwords

/-- **A line of literals is read back** as their disjunction. -/
theorem parseLine_renderAll (hd : ∀ l ∈ d, l.Writable) (hne : d ≠ []) :
    parseLine (Literal.renderAll d) = .ok (.disjunction d) := by
  obtain ⟨l, d, rfl⟩ := List.exists_cons_of_ne_nil hne
  have hblank : ∀ m ∈ l :: d, ∀ c ∈ m.render.toList, Text.isBlank c = false := fun m hm =>
    Literal.legible_render (hd m hm).spellable.legible
  have hnil : ∀ m ∈ l :: d, m.render.toList ≠ [] := fun m hm => by
    obtain ⟨c, s, hlist, -⟩ := Literal.exists_cons_of_writable (hd m hm)
    exact hlist ▸ List.cons_ne_nil c s
  rw [List.forall_mem_cons] at hblank hnil
  have hws : ∀ v ∈ (d.map Literal.render).map String.toList,
      v ≠ [] ∧ ∀ c ∈ v, Text.isBlank c = false := by
    simp only [List.forall_mem_map]
    exact fun m hm => ⟨hnil.2 m hm, hblank.2 m hm⟩
  have hlist : (Literal.renderAll (l :: d)).toList = l.render.toList ++
      ((d.map Literal.render).map String.toList).flatMap (' ' :: ·) := by
    rw [Literal.renderAll, List.map_cons, Text.toList_join]
  have hwords : (Text.words (Literal.renderAll (l :: d)).toList).map String.ofList =
      (l :: d).map Literal.render := by
    rw [hlist, Text.words_flatMap hblank.1 hnil.1 hws]
    simp [Function.comp_def]
  have htrim : Text.trim (Literal.renderAll (l :: d)).toList =
      (Literal.renderAll (l :: d)).toList := by
    rw [hlist, Text.trim_flatMap hblank.1 hnil.1 hws]
  obtain ⟨c, s, hcons, hc⟩ : ∃ c s, (Literal.renderAll (l :: d)).toList = c :: s ∧ c ≠ '#' := by
    obtain ⟨c, s, hcons, hc⟩ := Literal.exists_cons_of_writable (hd l List.mem_cons_self)
    exact ⟨c, _, by rw [hlist, hcons, List.cons_append], hc⟩
  unfold parseLine
  simp only [htrim]
  rw [hcons]
  split
  · contradiction
  · next heq => exact absurd (List.cons.inj heq).1 hc
  · rw [← hcons, hwords, parseDisjunction_render hd]
    rfl

theorem parseLine_asRead (line : String) : parseLine (Text.asRead line) = parseLine line := by
  unfold parseLine
  rw [Text.asRead, String.toList_ofList, Text.trim_dropReturn]

theorem exists_parseLine_comment (text : String) :
    ∃ text', parseLine (render (.comment text)) = .ok (.comment text') := by
  obtain ⟨s, hs⟩ : ∃ s, (render (.comment text)).toList = '#' :: s := by
    rw [render]
    split_ifs
    · exact ⟨_, by rw [String.toList_append]; rfl⟩
    · exact ⟨_, by rw [String.toList_append]; rfl⟩
  obtain ⟨t, ht⟩ := Text.exists_trim_cons (c := '#') (by decide) s
  refine ⟨String.ofList (commentText ('#' :: t)), ?_⟩
  unfold parseLine
  simp only [hs, ht]

/-! ## Lists -/

/-- A list whose comments keep to their lines, and whose literals can be read back. -/
structure Writable (cs : List Clause) : Prop where
  comments : ∀ text ∈ comments cs, '\n' ∉ text.toList
  literals : ∀ d ∈ disjunctions cs, ∀ l ∈ d, l.Writable

instance : Decidable (Writable cs) :=
  decidable_of_iff ((∀ text ∈ Clause.comments cs, '\n' ∉ text.toList) ∧
      ∀ d ∈ disjunctions cs, ∀ l ∈ d, l.Writable)
    ⟨fun h => ⟨h.1, h.2⟩, fun h => ⟨h.comments, h.literals⟩⟩

theorem Writable.append {ds : List Clause} (hcs : Writable cs) (hds : Writable ds) :
    Writable (cs ++ ds) where
  comments text htext := by
    rw [comments_append] at htext
    exact (List.mem_append.mp htext).elim (hcs.comments text) (hds.comments text)
  literals d hd := by
    rw [disjunctions_append] at hd
    exact (List.mem_append.mp hd).elim (hcs.literals d) (hds.literals d)

theorem not_mem_render (hcs : Writable cs) {c : Clause} (hc : c ∈ cs) : '\n' ∉ c.render.toList := by
  cases c with
  | comment text =>
    have htext := hcs.comments text (mem_comments.mpr hc)
    rw [render]
    split_ifs
    · simpa using htext
    · simpa using htext
  | disjunction d =>
    intro hmem
    have hd : ∀ l ∈ d, Legible l.name := fun l hl =>
      (hcs.literals d (List.mem_filterMap.mpr ⟨_, hc, rfl⟩) l hl).spellable.legible
    rcases mem_renderAll hd hmem with h | h
    · exact absurd h (by decide)
    · exact absurd h (by decide)

/-- An empty disjunction is written as an empty line, which is read as a comment. -/
theorem exists_parseLine_render (hcs : Writable cs) {c : Clause} (hc : c ∈ cs) :
    ∃ c', parseLine c.render = .ok c' ∧
      disjunctions [c'] = (disjunctions [c]).filter (· ≠ []) := by
  cases c with
  | comment text =>
    obtain ⟨text', h⟩ := exists_parseLine_comment text
    exact ⟨_, h, rfl⟩
  | disjunction d =>
    have hd := hcs.literals d (List.mem_filterMap.mpr ⟨_, hc, rfl⟩)
    by_cases hne : d = []
    · rw [hne]
      exact ⟨.comment "", rfl, rfl⟩
    · exact ⟨.disjunction d, parseLine_renderAll hd hne, by simp [hne]⟩

theorem readLines_ok (ls : List String) : readLines (ls.map .ok) = ls.mapM parseLine := by
  rw [readLines, List.mapM_map]
  rfl

theorem read_text_write (hcs : Writable cs) :
    read (.text (write cs)) = cs.mapM fun c => parseLine c.render := by
  have hlines : Text.lines (write cs) = cs.map fun c => Text.asRead c.render := by
    have hjoin := @Text.lines_join (cs.map render)
      (List.forall_mem_map.mpr fun c => not_mem_render hcs)
    simpa [write, Function.comp_def] using hjoin
  rw [read, Content.lines, readLines_ok, hlines, List.mapM_map]
  simp only [Function.comp_def, parseLine_asRead]

/-- **What is written is read back**, except for empty disjunctions. -/
theorem read_write (hcs : Writable cs) : ∃ cs', read (.text (write cs)) = .ok cs' ∧
    disjunctions cs' = (disjunctions cs).filter (· ≠ []) := by
  obtain ⟨cs', hread, hcs'⟩ : ∃ cs', cs.mapM (fun c => parseLine c.render) = .ok cs' ∧
      List.Forall₂ (fun c c' => disjunctions [c'] = (disjunctions [c]).filter (· ≠ [])) cs cs' :=
    mapM_eq_ok fun c hc => exists_parseLine_render hcs hc
  refine ⟨cs', (read_text_write hcs).trans hread, ?_⟩
  clear hread hcs
  induction hcs' with
  | nil => rfl
  | @cons c c' cs cs' hc _ ih =>
    rw [← List.singleton_append, disjunctions_append, hc, ih, ← List.filter_append,
      ← disjunctions_append, List.singleton_append]

/-! ## Lists that are read back as they were -/

/-- A comment that is read back as it was: it neither starts with a space nor ends with a blank. -/
structure Tidy (text : String) : Prop where
  start : ∀ c ∈ text.toList.head?, c ≠ ' '
  ending : ∀ c ∈ text.toList.getLast?, Text.isBlank c = false

/-- A list that is read back as it was: its comments are tidy, and no disjunction is empty. -/
structure Faithful (cs : List Clause) : Prop extends Writable cs where
  tidy : ∀ text ∈ Clause.comments cs, Tidy text
  nonempty : ∀ d ∈ disjunctions cs, d ≠ []

instance : Decidable (Tidy text) :=
  decidable_of_iff ((text.toList.head?.all fun c => c != ' ') = true ∧
      (text.toList.getLast?.all fun c => !Text.isBlank c) = true)
    ⟨fun h => ⟨by simpa [Option.all_eq_true] using h.1, by simpa [Option.all_eq_true] using h.2⟩,
      fun h => ⟨by simpa [Option.all_eq_true] using h.start,
        by simpa [Option.all_eq_true] using h.ending⟩⟩

instance : Decidable (Faithful cs) :=
  decidable_of_iff (Writable cs ∧ (∀ text ∈ Clause.comments cs, Tidy text) ∧
      ∀ d ∈ disjunctions cs, d ≠ [])
    ⟨fun h => ⟨h.1, h.2.1, h.2.2⟩, fun h => ⟨h.toWritable, h.tidy, h.nonempty⟩⟩

theorem toList_render_comment (h : Tidy text) :
    (render (.comment text)).toList = '#' :: ' ' :: text.toList := by
  have hspace : ¬ text.startsWith " " = true := by
    rw [String.startsWith_string_iff]
    rintro ⟨s, hs⟩
    exact h.start ' ' (by rw [← hs]; rfl) rfl
  rw [render, if_neg hspace]
  simp

/-- **A tidy comment is read back.** The space after the mark is the one that was written. -/
theorem parseLine_render_comment (h : Tidy text) :
    parseLine (render (.comment text)) = .ok (.comment text) := by
  obtain ⟨t, htrim, htext⟩ : ∃ t, Text.trim ('#' :: ' ' :: text.toList) = '#' :: t ∧
      commentText ('#' :: t) = text.toList := by
    rcases List.eq_nil_or_concat' text.toList with hnil | ⟨s, c, hs⟩
    · -- The space after the mark is a blank at the end.
      rw [hnil]
      exact ⟨[], by decide, rfl⟩
    · refine ⟨' ' :: text.toList, Text.trim_eq_self (by simp; decide) ?_, by rfl⟩
      intro d hd
      rw [hs, ← List.cons_append, ← List.cons_append, List.getLast?_concat, Option.mem_some] at hd
      exact h.ending d (by simp [hs, hd])
  unfold parseLine
  rw [toList_render_comment h]
  simp only [htrim, htext, String.ofList_toList]

theorem parseLine_render (hcs : Faithful cs) {c : Clause} (hc : c ∈ cs) :
    parseLine c.render = .ok c := by
  cases c with
  | comment text => exact parseLine_render_comment (hcs.tidy text (mem_comments.mpr hc))
  | disjunction d =>
    have hd : d ∈ disjunctions cs := List.mem_filterMap.mpr ⟨_, hc, rfl⟩
    exact parseLine_renderAll (hcs.literals d hd) (hcs.nonempty d hd)

/-- **Faithful lists are read back** from their text. -/
theorem read_write_faithful (hcs : Faithful cs) :
    read (.ofBytes (write cs).toUTF8) = .ok cs := by
  obtain ⟨cs', hread, heq⟩ := mapM_eq_ok fun c hc => ⟨c, parseLine_render hcs hc, rfl⟩
  rw [List.forall₂_eq_eq_eq] at heq
  rw [Content.ofBytes_toUTF8, read_text_write hcs.toWritable, hread, heq]

/-- Comments and names that hold all marks. -/
theorem read_write_faithful_marks :
    let cs : List Clause := [.comment "", .comment "\t# ~x <-",
      .disjunction [⟨"x#~", false, some 4294967295⟩, ⟨"<-~", true, none⟩, ⟨"<--", false, some 0⟩]]
    Faithful cs ∧ read (.ofBytes (write cs).toUTF8) = .ok cs := by
  intro cs
  have hcs : Faithful cs := by decide
  exact ⟨hcs, read_write_faithful hcs⟩

end Clause

end CellSat
