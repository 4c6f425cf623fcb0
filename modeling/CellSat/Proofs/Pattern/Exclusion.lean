import Mathlib
import CellSat.Pattern.Render
import CellSat.Proofs.Clause.RoundTrip
import CellSat.Proofs.Counter.Exact
/-!
# Valuations that are ruled out as text

A valuation of the variables of a clause list can be printed as a clause against it. Temporaries and
the false wire are left out of the clause, as their names sort after the opening brace. What is
printed can be read back, and the clause has no larger tags than the list, so it does not let the
variables of the list take more values.

* `Literal.Readable`: the names of literals that are read;
* `Clause.Suits`: disjunctions that use variables as a list does, and what appending one leaves as
  it was;
* `Interpretation.Lists`, `Interpretation.DiffersAt`: the values of the variables of a list, and
  another value of one of them;
* `Valuation.holds_against`: when the clause against a valuation holds;
* **`Valuation.parse_exclusion`**: what is printed rules out the printed values and nothing else.
-/

namespace CellSat

/-! ## Names -/

namespace Literal

variable {name : String}

/-- Some text is read as a literal with the name. -/
def Readable (name : String) : Prop := ∃ text l, parse text = .ok l ∧ l.name = name

theorem Readable.lettered (h : Readable name) : Lettered name := by
  obtain ⟨text, l, h, rfl⟩ := h
  exact (parse_eq_ok_iff.mp h).lettered

theorem ne_tilde_of_le (h : name ≤ "\x7b") : ∀ c ∈ name.toList.head?, c ≠ '~' := by
  rintro _ hc rfl
  obtain ⟨s, hs⟩ := List.head?_eq_some_iff.mp hc
  rw [String.le_iff_toList_le, hs] at h
  exact h.not_gt (List.Lex.rel (by decide))

theorem isOrdinary_of_le (h : name ≤ "\x7b") : IsOrdinary { name } := by
  have hnot : ∀ c s, name.toList ≠ '\x7b' :: c :: s := by
    intro c s hs
    rw [String.le_iff_toList_le, hs] at h
    exact h.not_gt (List.Lex.cons List.Lex.nil)
  constructor
  · rw [Bool.eq_false_iff]
    intro hprefix
    obtain ⟨s, hs⟩ := List.isPrefixOf_iff_prefix.mp hprefix
    exact hnot _ _ hs.symm
  · rintro rfl
    exact hnot _ _ rfl

theorem spellable_of_le (hname : Lettered name) (hmark : Tag.Plain name) (hle : name ≤ "\x7b") :
    Spellable name where
  chars := hname.2
  start c hc := ⟨ne_tilde_of_le hle c hc, fun heq => hmark (heq ▸ List.mem_of_head? hc)⟩

end Literal

/-! ## One more disjunction -/

namespace Clause

variable {cs : List Clause} {d : Disjunction} {name : String} {I : Interpretation}

/-- A disjunction uses variables as a list does, and has no larger tags. -/
structure Suits (cs : List Clause) (d : Disjunction) : Prop where
  untagged : ∀ l ∈ d, l.tag = none → Untagged cs l.name
  tagged : ∀ l ∈ d, ∀ tag, l.tag = some tag → Tagged cs l.name ∧ tag ≤ largestTag cs l.name

theorem mem_variableNames_iff :
    name ∈ variableNames cs ↔ Tagged cs name ∨ Untagged cs name := by
  rw [mem_variableNames]
  constructor
  · rintro ⟨d, hd, l, hl, hname⟩
    by_cases htag : l.tag = none
    · exact .inr ⟨d, hd, l, hl, hname, htag⟩
    · exact .inl ⟨d, hd, l, hl, hname, htag⟩
  · rintro (⟨d, hd, l, hl, hname, -⟩ | ⟨d, hd, l, hl, hname, -⟩)
    · exact ⟨d, hd, l, hl, hname⟩
    · exact ⟨d, hd, l, hl, hname⟩

theorem mem_disjunctions_concat {e : Disjunction} :
    e ∈ disjunctions (cs ++ [disjunction d]) ↔ e ∈ disjunctions cs ∨ e = d := by
  rw [disjunctions_append, List.mem_append]
  exact or_congr_right List.mem_singleton

namespace Suits

theorem tagged_iff (h : Suits cs d) : Tagged (cs ++ [disjunction d]) name ↔ Tagged cs name := by
  constructor
  · rintro ⟨e, he, l, hl, rfl, htag⟩
    rcases mem_disjunctions_concat.mp he with he | rfl
    · exact ⟨e, he, l, hl, rfl, htag⟩
    · obtain ⟨tag, htag⟩ := Option.ne_none_iff_exists'.mp htag
      exact (h.tagged l hl tag htag).1
  · rintro ⟨e, he, l, hl, hname, htag⟩
    exact ⟨e, mem_disjunctions_concat.mpr (.inl he), l, hl, hname, htag⟩

theorem untagged_iff (h : Suits cs d) :
    Untagged (cs ++ [disjunction d]) name ↔ Untagged cs name := by
  constructor
  · rintro ⟨e, he, l, hl, rfl, htag⟩
    rcases mem_disjunctions_concat.mp he with he | rfl
    · exact ⟨e, he, l, hl, rfl, htag⟩
    · exact h.untagged l hl htag
  · rintro ⟨e, he, l, hl, hname, htag⟩
    exact ⟨e, mem_disjunctions_concat.mpr (.inl he), l, hl, hname, htag⟩

theorem largestTag_eq (h : Suits cs d) (name : String) :
    largestTag (cs ++ [disjunction d]) name = largestTag cs name := by
  apply le_antisymm
  · refine largestTag_le_iff.mpr fun e he l hl hname tag htag => ?_
    rcases mem_disjunctions_concat.mp he with he | rfl
    · exact largestTag_le_iff.mp le_rfl e he l hl hname tag htag
    · exact hname ▸ (h.tagged l hl tag htag).2
  · refine largestTag_le_iff.mpr fun e he l hl hname tag htag => ?_
    exact largestTag_le_iff.mp le_rfl e (mem_disjunctions_concat.mpr (.inl he)) l hl hname tag htag

theorem inRange_iff (h : Suits cs d) : I.InRange (cs ++ [disjunction d]) ↔ I.InRange cs := by
  simp only [Interpretation.InRange, h.tagged_iff, h.largestTag_eq]

theorem encodable (h : Suits cs d) (hcs : Encodable cs) : Encodable (cs ++ [disjunction d]) := by
  have huses : ∀ e ∈ disjunctions (cs ++ [disjunction d]), ∀ l ∈ e,
      (l.tag = none → Untagged cs l.name) ∧ (l.tag ≠ none → Tagged cs l.name) := fun e he l hl =>
    ⟨fun htag => h.untagged_iff.mp ⟨e, he, l, hl, rfl, htag⟩,
      fun htag => h.tagged_iff.mp ⟨e, he, l, hl, rfl, htag⟩⟩
  refine ⟨fun e he l hl => ?_, fun e he l hl f hf k hk hname => ?_, fun e he l hl => ?_⟩
  · by_cases htag : l.tag = none
    · exact hcs.plain_of_untagged ((huses e he l hl).1 htag)
    · exact hcs.plain_of_tagged ((huses e he l hl).2 htag)
  · constructor
    · intro hnone
      by_contra hsome
      exact hcs.not_untagged ((huses f hf k hk).2 hsome) (hname ▸ (huses e he l hl).1 hnone)
    · intro hnone
      by_contra hsome
      exact hcs.not_untagged (hname ▸ (huses e he l hl).2 hsome) ((huses f hf k hk).1 hnone)
  · rcases mem_disjunctions_concat.mp he with he | rfl
    · exact hcs.tags e he l hl
    · cases htag : l.tag with
      | none => exact Nat.zero_le _
      | some tag => exact (h.tagged l hl tag htag).2.trans (hcs.largestTag_le l.name)

end Suits

end Clause

/-! ## The clause against a valuation -/

namespace Interpretation

/-- A valuation has the values that an interpretation gives to the variables of a list. -/
def Lists (I : Interpretation) (cs : List Clause) (values : Valuation) : Prop :=
  ∀ name value, (name, value) ∈ values ↔
    Clause.Tagged cs name ∧ value = .number (I.number name) ∨
      Clause.Untagged cs name ∧ value = .truth (I.truth name)

/-- Two interpretations give different values to a variable of a list. -/
def DiffersAt (I J : Interpretation) (cs : List Clause) (name : String) : Prop :=
  Clause.Tagged cs name ∧ J.number name ≠ I.number name ∨
    Clause.Untagged cs name ∧ J.truth name ≠ I.truth name

end Interpretation

namespace Valuation

open Clause

variable {I J : Interpretation} {cs : List Clause} {values : Valuation} {name : String}

theorem opposite_number {n : Nat} (h : n ≤ Word.maxNat32) (name : String) :
    opposite (name, .number n) = ⟨name, false, some n⟩ := by
  simp [opposite, h]

theorem mem_shown {e : String × Value} : e ∈ shown values ↔ e ∈ values ∧ e.1 ≤ "\x7b" := by
  rw [shown, List.mem_filter, isShown, decide_eq_true_iff]

/-- The clause against the shown values. -/
def against (values : Valuation) : Disjunction := (shown values).map opposite

theorem mem_against_iff (hcs : Encodable cs) (hI : I.InRange cs) (hvalues : I.Lists cs values)
    {l : Literal} : l ∈ against values ↔ l.name ≤ "\x7b" ∧
      (Tagged cs l.name ∧ l = ⟨l.name, false, some (I.number l.name)⟩ ∨
        Untagged cs l.name ∧ l = ⟨l.name, !I.truth l.name, none⟩) := by
  rw [against, List.mem_map]
  constructor
  · rintro ⟨⟨name, value⟩, he, rfl⟩
    obtain ⟨hmem, hle⟩ := mem_shown.mp he
    rcases (hvalues name value).mp hmem with ⟨htagged, rfl⟩ | ⟨huntagged, rfl⟩
    · rw [opposite_number ((hI name htagged).trans (hcs.largestTag_le name))]
      exact ⟨hle, .inl ⟨htagged, rfl⟩⟩
    · exact ⟨hle, .inr ⟨huntagged, rfl⟩⟩
  · rintro ⟨hle, ⟨htagged, hl⟩ | ⟨huntagged, hl⟩⟩
    · refine ⟨(l.name, .number (I.number l.name)), mem_shown.mpr ⟨?_, hle⟩, ?_⟩
      · exact (hvalues _ _).mpr (.inl ⟨htagged, rfl⟩)
      · rw [opposite_number ((hI _ htagged).trans (hcs.largestTag_le _)), ← hl]
    · refine ⟨(l.name, .truth (I.truth l.name)), mem_shown.mpr ⟨?_, hle⟩, hl.symm⟩
      exact (hvalues _ _).mpr (.inr ⟨huntagged, rfl⟩)

theorem suits_against (hcs : Encodable cs) (hI : I.InRange cs) (hvalues : I.Lists cs values) :
    Suits cs (against values) := by
  constructor
  · intro l hl hnone
    rcases ((mem_against_iff hcs hI hvalues).mp hl).2 with ⟨-, heq⟩ | ⟨huntagged, -⟩
    · rw [heq] at hnone
      contradiction
    · exact huntagged
  · intro l hl tag htag
    rcases ((mem_against_iff hcs hI hvalues).mp hl).2 with ⟨htagged, heq⟩ | ⟨-, heq⟩
    · rw [heq] at htag
      exact ⟨htagged, Option.some.inj htag ▸ hI l.name htagged⟩
    · rw [heq] at htag
      contradiction

/-- **The clause against a valuation holds** for all other values of the shown variables. -/
theorem holds_against (hcs : Encodable cs) (hI : I.InRange cs) (hvalues : I.Lists cs values) :
    (against values).holds J = true ↔ ∃ name, name ≤ "\x7b" ∧ I.DiffersAt J cs name := by
  rw [Disjunction.holds_iff]
  constructor
  · rintro ⟨l, hl, hholds⟩
    obtain ⟨hle, hcase⟩ := (mem_against_iff hcs hI hvalues).mp hl
    refine ⟨l.name, hle, ?_⟩
    rcases hcase with ⟨htagged, heq⟩ | ⟨huntagged, heq⟩
    · rw [heq] at hholds
      exact .inl ⟨htagged, by simpa [Literal.holds] using hholds⟩
    · rw [heq] at hholds
      exact .inr ⟨huntagged, Bool.eq_not.mp (by simpa [Literal.holds] using hholds)⟩
  · rintro ⟨name, hle, ⟨htagged, hne⟩ | ⟨huntagged, hne⟩⟩
    · refine ⟨⟨name, false, some (I.number name)⟩, ?_, by simpa [Literal.holds] using hne⟩
      exact (mem_against_iff hcs hI hvalues).mpr ⟨hle, .inl ⟨htagged, rfl⟩⟩
    · refine ⟨⟨name, !I.truth name, none⟩, ?_, by simpa [Literal.holds] using Bool.eq_not.mpr hne⟩
      exact (mem_against_iff hcs hI hvalues).mpr ⟨hle, .inr ⟨huntagged, rfl⟩⟩

/-! ## Printing and reading -/

theorem exclusion_eq (values : Valuation) :
    exclusion values = Clause.write [.disjunction (against values)] := by
  simp [exclusion, Clause.write, Clause.render, against]

theorem writable_against (hcs : Encodable cs)
    (hnames : ∀ name ∈ variableNames cs, Literal.Readable name ∧ name ≠ impliedBy)
    (hI : I.InRange cs) (hvalues : I.Lists cs values) : ∀ l ∈ against values, l.Writable := by
  intro l hl
  obtain ⟨hle, hcase⟩ := (mem_against_iff hcs hI hvalues).mp hl
  have hused : Tagged cs l.name ∨ Untagged cs l.name := hcase.imp And.left And.left
  obtain ⟨hreadable, harrow⟩ := hnames _ (mem_variableNames_iff.mpr hused)
  have hplain : Tag.Plain l.name := hused.elim hcs.plain_of_tagged hcs.plain_of_untagged
  refine ⟨Literal.spellable_of_le hreadable.lettered hplain hle, hreadable.lettered.1, harrow, ?_⟩
  intro tag htag
  exact ((suits_against hcs hI hvalues).tagged l hl tag htag).2.trans (hcs.largestTag_le l.name)

theorem against_ne_nil (hvalues : I.Lists cs values) (hname : name ∈ variableNames cs)
    (hle : name ≤ "\x7b") : against values ≠ [] := by
  obtain ⟨value, hmem⟩ : ∃ value, (name, value) ∈ values := by
    rcases mem_variableNames_iff.mp hname with htagged | huntagged
    · exact ⟨_, (hvalues name _).mpr (.inl ⟨htagged, rfl⟩)⟩
    · exact ⟨_, (hvalues name _).mpr (.inr ⟨huntagged, rfl⟩)⟩
  exact List.ne_nil_of_mem (List.mem_map_of_mem (mem_shown.mpr ⟨hmem, hle⟩))

theorem parseLine_exclusion (hwritable : ∀ l ∈ against values, l.Writable)
    (hne : against values ≠ []) :
    parseLine (exclusion values) = .ok (.disjunction (against values)) ∧
      Clause.read (.text (exclusion values)) = .ok [.disjunction (against values)] := by
  have hline := parseLine_renderAll hwritable hne
  constructor
  · rw [← hline]
    unfold parseLine
    have hlist : (exclusion values).toList =
        (Literal.renderAll (against values)).toList ++ ['\n'] := by
      rw [exclusion, String.toList_append]
      rfl
    rw [hlist, Text.trim_concat_blank (by decide)]
  · have hlist : Clause.Writable [.disjunction (against values)] :=
      ⟨fun text htext => absurd htext List.not_mem_nil, by simpa using hwritable⟩
    rw [exclusion_eq, read_text_write hlist, List.mapM_cons, render, hline]
    rfl

/-- **What is printed rules out the printed values and nothing else.** Temporaries and the false
wire are not printed. -/
theorem parse_exclusion (hcs : Encodable cs)
    (hnames : ∀ name ∈ variableNames cs, Literal.Readable name ∧ name ≠ impliedBy ∧
      (Literal.IsOrdinary { name } → name ≤ "\x7b"))
    (hordinary : ∃ name ∈ variableNames cs, Literal.IsOrdinary { name })
    (hI : I.InRange cs) (hvalues : I.Lists cs values) :
    ∃ d, parseLine (exclusion values) = .ok (.disjunction d) ∧
      Clause.read (.text (exclusion values)) = .ok [.disjunction d] ∧
      Encodable (cs ++ [disjunction d]) ∧
      (∀ name, Tagged (cs ++ [disjunction d]) name ↔ Tagged cs name) ∧
      (∀ name, largestTag (cs ++ [disjunction d]) name = largestTag cs name) ∧
      ∀ J : Interpretation,
        J.InRange (cs ++ [disjunction d]) ∧ J.Satisfies (disjunctions (cs ++ [disjunction d])) ↔
          (J.InRange cs ∧ J.Satisfies (disjunctions cs)) ∧
            ∃ name, Literal.IsOrdinary { name } ∧ I.DiffersAt J cs name := by
  have hwritable := writable_against hcs (fun name hname => ⟨(hnames name hname).1,
    (hnames name hname).2.1⟩) hI hvalues
  have hne : against values ≠ [] := by
    obtain ⟨name, hname, hordinary⟩ := hordinary
    exact against_ne_nil hvalues hname ((hnames name hname).2.2 hordinary)
  obtain ⟨hline, hread⟩ := parseLine_exclusion hwritable hne
  have hsuits := suits_against hcs hI hvalues
  refine ⟨against values, hline, hread, hsuits.encodable hcs, fun _ => hsuits.tagged_iff,
    hsuits.largestTag_eq, fun J => ?_⟩
  have hdiffer : (against values).holds J = true ↔
      ∃ name, Literal.IsOrdinary { name } ∧ I.DiffersAt J cs name := by
    rw [holds_against hcs hI hvalues]
    refine exists_congr fun name => and_congr_left fun hdiffer => ?_
    have hname := mem_variableNames_iff.mpr (hdiffer.imp And.left And.left)
    exact ⟨Literal.isOrdinary_of_le, (hnames name hname).2.2⟩
  rw [hsuits.inRange_iff, disjunctions_append, Interpretation.satisfies_append, ← hdiffer,
    and_assoc, disjunctions_disjunction, Interpretation.satisfies_cons]
  simp [Interpretation.satisfies_nil]

/-- Clauses about a boolean variable, a many-valued one and a temporary. -/
def clausesOfEachKind : List Clause :=
  [.disjunction [{ name := "a" }, { name := "x", tag := some 2 }],
    .disjunction [{ name := "a", positive := false },
      { name := "\x7bx001\x7d", positive := false }]]

theorem tagged_clausesOfEachKind : Tagged clausesOfEachKind name ↔ name = "x" := by
  simp [Tagged, clausesOfEachKind, eq_comm]

theorem untagged_clausesOfEachKind :
    Untagged clausesOfEachKind name ↔ name = "a" ∨ name = "\x7bx001\x7d" := by
  simp [Untagged, clausesOfEachKind, eq_comm]

theorem parse_exclusion_mixed :
    let I : Interpretation := ⟨fun _ => false, fun _ => 2⟩
    (I.InRange clausesOfEachKind ∧ I.Satisfies (disjunctions clausesOfEachKind)) ∧
      ∃ d, parseLine "a ~x(2)\n" = .ok (.disjunction d) ∧
        ∀ J : Interpretation,
          J.InRange (clausesOfEachKind ++ [disjunction d]) ∧
              J.Satisfies (disjunctions (clausesOfEachKind ++ [disjunction d])) ↔
            (J.InRange clausesOfEachKind ∧ J.Satisfies (disjunctions clausesOfEachKind)) ∧
              ∃ name, Literal.IsOrdinary { name } ∧ I.DiffersAt J clausesOfEachKind name := by
  intro I
  have hnames : variableNames clausesOfEachKind = ["a", "x", "\x7bx001\x7d"] := by cbv
  have hrange : I.InRange clausesOfEachKind := by
    intro name hname
    rw [tagged_clausesOfEachKind.mp hname]
    decide
  have hlists : I.Lists clausesOfEachKind
      [("a", .truth false), ("x", .number 2), ("\x7bx001\x7d", .truth false)] := by
    intro name value
    rw [tagged_clausesOfEachKind, untagged_clausesOfEachKind]
    simp [I]
    tauto
  have hreadable : ∀ name ∈ variableNames clausesOfEachKind,
      Literal.Readable name ∧ name ≠ impliedBy ∧
      (Literal.IsOrdinary { name } → name ≤ "\x7b") := by
    rw [hnames]
    simp only [List.forall_mem_cons, List.not_mem_nil, false_imp_iff, implies_true, and_true]
    exact ⟨⟨⟨"a", { name := "a" }, by cbv, rfl⟩, by decide, by decide⟩,
      ⟨⟨"x", { name := "x" }, by cbv, rfl⟩, by decide, by decide⟩,
      ⟨⟨"\x7bx001\x7d", { name := "\x7bx001\x7d" }, by cbv, rfl⟩, by decide, by decide⟩⟩
  obtain ⟨d, hline, -, -, -, -, hsolutions⟩ := parse_exclusion (by decide) hreadable
    ⟨"a", by rw [hnames]; simp, by decide⟩ hrange hlists
  have htext : exclusion
      [("a", .truth false), ("x", .number 2), ("\x7bx001\x7d", .truth false)] = "a ~x(2)\n" := by
    cbv
  rw [htext] at hline
  exact ⟨⟨hrange, by unfold Interpretation.Satisfies; decide⟩, d, hline, hsolutions⟩

end Valuation

end CellSat
