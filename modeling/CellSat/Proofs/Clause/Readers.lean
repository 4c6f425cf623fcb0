import Mathlib
import CellSat.Proofs.Clause.RoundTrip
/-!
# Two readers of clause lists

A block of text is read after the blanks around it are removed, and is cut at line feeds. A file is
read as it stands, and its lines may end with carriage returns. Lines are trimmed before they are
read, so all that is left of the difference is empty lines around the clauses.

* `Clause.mapM_parseLine_append`: empty lines are read as empty comments;
* `Clause.exists_parse_of_parseLine`: a line is refused for one of its words;
* **`Clause.readers_agree`**: the two readers agree.
-/

namespace CellSat

namespace Clause

variable {line : String} {e : Failure}

theorem parseLine_ofList_trim (l : List Char) :
    parseLine (String.ofList (Text.trim l)) = parseLine (String.ofList l) := by
  unfold parseLine
  rw [String.toList_ofList, String.toList_ofList, Text.trim_trim]

theorem mapM_parseLine_trim (ls : List (List Char)) :
    ((ls.map Text.trim).map String.ofList).mapM parseLine =
      (ls.map String.ofList).mapM parseLine := by
  simp only [List.mapM_map, Function.comp_def, parseLine_ofList_trim]

theorem mapM_parseLine_replicate (n : Nat) :
    ((List.replicate n []).map String.ofList).mapM parseLine =
      .ok (List.replicate n (.comment "")) := by
  induction n with
  | zero => rfl
  | succ n ih =>
    rw [List.replicate_succ, List.map_cons, List.mapM_cons, ih]
    rfl

/-- **Empty lines** around other lines are read as empty comments around what those give. -/
theorem mapM_parseLine_append (m n : Nat) (ls : List (List Char)) :
    ((List.replicate m [] ++ ls ++ List.replicate n []).map String.ofList).mapM parseLine =
      ((ls.map String.ofList).mapM parseLine).map fun cs =>
        List.replicate m (.comment "") ++ cs ++ List.replicate n (.comment "") := by
  rw [List.map_append, List.map_append, List.mapM_append, List.mapM_append,
    mapM_parseLine_replicate, mapM_parseLine_replicate]
  cases (ls.map String.ofList).mapM parseLine with
  | error e => rfl
  | ok cs => rfl

theorem parseText_eq (text : String) : parseText text =
    (((Text.pieces (· == '\n') (Text.trim text.toList)).map Text.trim).map String.ofList).mapM
      parseLine :=
  (mapM_parseLine_trim _).symm

theorem read_text_eq (text : String) :
    read (.text text) = (((Text.linesOf text.toList).map Text.trim).map String.ofList).mapM
      parseLine := by
  rw [mapM_parseLine_trim, read, Content.lines, readLines_ok]
  rfl

theorem exists_flaw_of_parse {word : String} (h : Literal.parse word = .error e) :
    ∃ flaw, e = .parse word flaw := by
  unfold Literal.parse at h
  split at h
  · contradiction
  · next flaw _ => exact ⟨flaw, (Except.error.inj h).symm⟩

theorem exists_parse_of_parseWords {ws : List String} (h : parseWords ws = .error e) :
    ∃ word flaw, e = .parse word flaw := by
  obtain ⟨word, -, hword⟩ := mapM_eq_error h
  exact ⟨word, exists_flaw_of_parse hword⟩

theorem exists_parse_of_parseDisjunction {ws : List String} (h : parseDisjunction ws = .error e) :
    ∃ word flaw, e = .parse word flaw := by
  unfold parseDisjunction at h
  split at h
  · next head second body =>
    split_ifs at h
    · rcases bind_eq_error.mp h with hhead | ⟨l, -, hbody⟩
      · exact ⟨head, exists_flaw_of_parse hhead⟩
      · rcases bind_eq_error.mp hbody with hbody | ⟨d, -, hd⟩
        · exact exists_parse_of_parseWords hbody
        · contradiction
    · exact exists_parse_of_parseWords h
  · exact exists_parse_of_parseWords h

theorem exists_parse_of_parseLine (h : parseLine line = .error e) :
    ∃ word flaw, e = .parse word flaw := by
  unfold parseLine at h
  dsimp only at h
  split at h
  · contradiction
  · contradiction
  · exact exists_parse_of_parseDisjunction (map_eq_error.mp h)

/-- **The two readers agree**, but for the empty comments of a file and of a blank text. -/
theorem readers_agree (text : String) :
    (∃ word flaw, parseText text = .error (.parse word flaw) ∧
        read (.ofBytes text.toUTF8) = .error (.parse word flaw)) ∨
      (∃ cs m n, parseText text = .ok cs ∧ read (.ofBytes text.toUTF8) =
        .ok (List.replicate m (.comment "") ++ cs ++ List.replicate n (.comment ""))) ∨
      (∀ c ∈ text.toList, Text.isBlank c = true) ∧ parseText text = .ok [.comment ""] ∧
        ∃ n, read (.ofBytes text.toUTF8) = .ok (List.replicate n (.comment "")) := by
  rw [Content.ofBytes_toUTF8, read_text_eq]
  by_cases hblank : Text.trim text.toList = []
  · refine .inr (.inr ⟨Text.trim_eq_nil_iff.mp hblank, ?_,
      (Text.linesOf text.toList).length, ?_⟩)
    · rw [parseText, hblank]
      rfl
    · rw [Text.map_trim_linesOf_of_blank hblank, mapM_parseLine_replicate]
  · obtain ⟨m, n, hlines⟩ := Text.exists_map_trim_linesOf hblank
    rw [hlines, mapM_parseLine_append, ← parseText_eq]
    cases hparse : parseText text with
    | error e =>
      obtain ⟨line, -, hline⟩ := mapM_eq_error hparse
      obtain ⟨word, flaw, rfl⟩ := exists_parse_of_parseLine hline
      exact .inl ⟨word, flaw, rfl, rfl⟩
    | ok cs => exact .inr (.inl ⟨cs, m, n, rfl, rfl⟩)

end Clause

end CellSat
