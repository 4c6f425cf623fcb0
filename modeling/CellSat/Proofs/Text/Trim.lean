import Mathlib
import CellSat.Proofs.Text.Lines
/-!
# Texts without the blanks around them

* `Text.trim_eq_self`, `Text.trim_trim`: a text without blanks at its ends stays as it is;
* `Text.exists_eq_append_trim`, `Text.trim_append_left`, `Text.trim_append_right`: what is removed
  is blanks, and all of them;
* `Text.exists_map_trim_pieces`, `Text.exists_map_trim_linesOf`: the lines of a text, trimmed, are
  those of the text without the blanks around it, with empty ones before and after.
-/

namespace CellSat

namespace Text

variable {p : Char → Bool} {s t w : List Char} {c : Char}

/-! ## Blanks at the ends -/

theorem trimEnd_concat (hc : isBlank c = false) (s : List Char) :
    trimEnd (s ++ [c]) = s ++ [c] := by
  rw [trimEnd, List.reverse_append, List.reverse_singleton, List.singleton_append,
    List.dropWhile_cons_of_neg (by simp [hc]), List.reverse_cons, List.reverse_reverse]

theorem trimStart_cons (hc : isBlank c = false) (s : List Char) : trimStart (c :: s) = c :: s :=
  List.dropWhile_cons_of_neg (by simp [hc])

theorem exists_trim_cons (hc : isBlank c = false) (s : List Char) :
    ∃ t, trim (c :: s) = c :: t := by
  rw [trim, trimStart_cons hc, trimEnd, List.reverse_cons, List.dropWhile_append]
  split_ifs
  · exact ⟨[], by simp [hc]⟩
  · exact ⟨_, List.reverse_concat⟩

theorem trim_concat_blank (hc : isBlank c = true) (s : List Char) : trim (s ++ [c]) = trim s := by
  rw [trim, trim, trimStart, trimStart, List.dropWhile_append]
  split_ifs with hblank
  · rw [List.isEmpty_iff.mp hblank, List.dropWhile_cons_of_pos hc]
    rfl
  · rw [trimEnd, List.reverse_append, List.reverse_singleton, List.singleton_append,
      List.dropWhile_cons_of_pos hc, trimEnd]

theorem trim_dropReturn (s : List Char) : trim (dropReturn s) = trim s := by
  rcases dropReturn_cases s with hcut | hcut
  · rw [hcut]
  · rw [← trim_concat_blank (c := '\r') (by decide), hcut]

theorem trim_eq_self (hstart : ∀ c ∈ s.head?, isBlank c = false)
    (hend : ∀ c ∈ s.getLast?, isBlank c = false) : trim s = s := by
  have hfirst : trimStart s = s := by
    cases s with
    | nil => rfl
    | cons c s => exact trimStart_cons (hstart c rfl) s
  rw [trim, hfirst]
  rcases List.eq_nil_or_concat' s with rfl | ⟨s, c, rfl⟩
  · rfl
  · exact trimEnd_concat (hend c (by simp)) s

theorem trim_flatMap {ws : List (List Char)} (hw : ∀ c ∈ w, isBlank c = false) (hne : w ≠ [])
    (hws : ∀ v ∈ ws, v ≠ [] ∧ ∀ c ∈ v, isBlank c = false) :
    trim (w ++ ws.flatMap (' ' :: ·)) = w ++ ws.flatMap (' ' :: ·) := by
  have hlast : ∃ s c, w ++ ws.flatMap (' ' :: ·) = s ++ [c] ∧ isBlank c = false := by
    rcases List.eq_nil_or_concat' ws with rfl | ⟨ws, v, rfl⟩
    · obtain ⟨s, c, rfl⟩ := (List.eq_nil_or_concat' w).resolve_left hne
      exact ⟨s, c, by simp, hw c (by simp)⟩
    · obtain ⟨hv, hblank⟩ := hws v (by simp)
      obtain ⟨s, c, rfl⟩ := (List.eq_nil_or_concat' v).resolve_left hv
      refine ⟨w ++ (ws.flatMap (' ' :: ·) ++ ' ' :: s), c, ?_, hblank c (by simp)⟩
      simp only [List.flatMap_append, List.flatMap_singleton, List.append_assoc, List.cons_append]
  obtain ⟨s, c, heq, hc⟩ := hlast
  refine trim_eq_self ?_ (by simpa [heq] using hc)
  cases w with
  | nil => exact absurd rfl hne
  | cons d w => simpa using hw d List.mem_cons_self

/-! ## Blanks around a text -/

theorem trim_eq_nil_iff : trim s = [] ↔ ∀ c ∈ s, isBlank c = true := by
  rw [trim, trimEnd, List.reverse_eq_nil_iff, List.dropWhile_eq_nil_iff, trimStart]
  constructor
  · intro h c hc
    rw [← List.takeWhile_append_dropWhile (p := isBlank) (l := s), List.mem_append] at hc
    rcases hc with hc | hc
    · exact List.mem_takeWhile_imp hc
    · exact h c (List.mem_reverse.mpr hc)
  · intro h c hc
    exact h c ((List.dropWhile_suffix isBlank).subset (List.mem_reverse.mp hc))

theorem trim_append_left (hw : ∀ c ∈ w, isBlank c = true) (s : List Char) :
    trim (w ++ s) = trim s := by
  rw [trim, trim, trimStart, List.dropWhile_append_of_pos hw, trimStart]

theorem trim_append_right (hw : ∀ c ∈ w, isBlank c = true) (s : List Char) :
    trim (s ++ w) = trim s := by
  induction w using List.reverseRecOn with
  | nil => rw [List.append_nil]
  | append_singleton w c ih =>
    rw [List.forall_mem_append] at hw
    rw [← List.append_assoc, trim_concat_blank (hw.2 c (List.mem_singleton_self c)), ih hw.1]

/-- A text is cut into blanks, what is left of it when it is trimmed, and blanks. -/
theorem exists_eq_append_trim (s : List Char) : ∃ before after,
    (∀ c ∈ before, isBlank c = true) ∧ (∀ c ∈ after, isBlank c = true) ∧
      s = before ++ (trim s ++ after) := by
  refine ⟨s.takeWhile isBlank, ((trimStart s).reverse.takeWhile isBlank).reverse,
    fun c => List.mem_takeWhile_imp,
    fun c hc => List.mem_takeWhile_imp (List.mem_reverse.mp hc), ?_⟩
  rw [trim, trimEnd, ← List.reverse_append, List.takeWhile_append_dropWhile, List.reverse_reverse,
    trimStart, List.takeWhile_append_dropWhile]

theorem exists_trim_eq_concat (h : trim s ≠ []) : ∃ t c, trim s = t ++ [c] ∧ isBlank c = false := by
  obtain ⟨t, c, htc⟩ := (List.eq_nil_or_concat' (trim s)).resolve_left h
  refine ⟨t, c, htc, ?_⟩
  have hlast := List.head?_dropWhile_not isBlank (trimStart s).reverse
  have hreverse : (trimStart s).reverse.dropWhile isBlank = c :: t.reverse := by
    rw [← List.reverse_reverse (List.dropWhile _ _), ← trimEnd, ← trim, htc, List.reverse_concat]
  rwa [hreverse] at hlast

theorem isBlank_of_head?_trim (hc : c ∈ (trim s).head?) : isBlank c = false := by
  have hfirst := List.head?_dropWhile_not isBlank s
  have hprefix : trim s <+: trimStart s := by
    rw [trim, trimEnd, ← List.reverse_suffix, List.reverse_reverse]
    exact List.dropWhile_suffix isBlank
  obtain ⟨r, hr⟩ := hprefix
  rw [← trimStart, ← hr, List.head?_append, Option.mem_def.mp hc] at hfirst
  exact hfirst

theorem trim_trim (s : List Char) : trim (trim s) = trim s := by
  refine trim_eq_self (fun c => isBlank_of_head?_trim) fun c hc => ?_
  by_cases h : trim s = []
  · simp [h] at hc
  · obtain ⟨t, d, ht, hd⟩ := exists_trim_eq_concat h
    rw [ht, List.getLast?_concat, Option.mem_some] at hc
    rwa [← hc]

/-! ## Pieces and lines -/

theorem map_trim_eq_replicate (hs : ∀ c ∈ s, isBlank c = true) {ws : List (List Char)}
    (hws : ∀ w ∈ ws, w ∈ pieces p s) : ws.map trim = List.replicate ws.length [] :=
  List.map_eq_replicate_iff.mpr fun w hw =>
    trim_eq_nil_iff.mpr fun c hc => hs c (mem_pieces_imp (hws w hw) hc).1

theorem exists_map_trim_append_left (hs : ∀ c ∈ s, isBlank c = true) (t : List Char) :
    ∃ n, (pieces p (s ++ t)).map trim = List.replicate n [] ++ (pieces p t).map trim := by
  obtain ⟨ws, w, v, vs, hps, hpt, hpieces⟩ := exists_pieces_append p s t
  have hw : ∀ c ∈ w, isBlank c = true := fun c hc =>
    hs c (mem_pieces_imp (p := p) (by simp [hps]) hc).1
  refine ⟨ws.length, ?_⟩
  rw [hpieces, hpt, List.map_append, List.map_cons, List.map_cons, trim_append_left hw,
    map_trim_eq_replicate (p := p) hs fun u hu => by simp [hps, hu]]

theorem exists_map_trim_append_right (ht : ∀ c ∈ t, isBlank c = true) (s : List Char) :
    ∃ n, (pieces p (s ++ t)).map trim = (pieces p s).map trim ++ List.replicate n [] := by
  obtain ⟨ws, w, v, vs, hps, hpt, hpieces⟩ := exists_pieces_append p s t
  have hv : ∀ c ∈ v, isBlank c = true := fun c hc =>
    ht c (mem_pieces_imp (p := p) (by simp [hpt]) hc).1
  refine ⟨vs.length, ?_⟩
  have hvs : vs.map trim = List.replicate vs.length [] :=
    map_trim_eq_replicate (p := p) ht fun u hu => by simp [hpt, hu]
  rw [hpieces, hps, List.map_append, List.map_cons, List.map_append, List.map_singleton,
    trim_append_right hv, hvs, List.append_assoc, List.singleton_append]

/-- **Blanks around a text** add empty pieces before and after it. -/
theorem exists_map_trim_pieces (p : Char → Bool) (s : List Char) : ∃ m n,
    (pieces p s).map trim =
      List.replicate m [] ++ (pieces p (trim s)).map trim ++ List.replicate n [] := by
  obtain ⟨before, after, hbefore, hafter, hs⟩ := exists_eq_append_trim s
  obtain ⟨m, hm⟩ := exists_map_trim_append_left (p := p) hbefore (trim s ++ after)
  obtain ⟨n, hn⟩ := exists_map_trim_append_right (p := p) hafter (trim s)
  refine ⟨m, n, ?_⟩
  rw [← hs] at hm
  rw [hm, hn, List.append_assoc]

/-- The last piece of a text that does not end with a blank is not blank. -/
theorem exists_pieces_trim (h : trim s ≠ []) : ∃ ws w,
    pieces (· == '\n') (trim s) = ws ++ [w] ∧ trim w ≠ [] := by
  obtain ⟨t, c, ht, hc⟩ := exists_trim_eq_concat h
  have hfeed : (c == '\n') = false := by
    rw [beq_eq_false_iff_ne]
    rintro rfl
    exact absurd hc (by decide)
  obtain ⟨ws, w, v, vs, -, hpc, hpieces⟩ := exists_pieces_append (· == '\n') t [c]
  rw [pieces_of_forall (by simpa using hfeed)] at hpc
  obtain ⟨rfl, rfl⟩ := List.cons.inj hpc
  refine ⟨ws, w ++ [c], ht ▸ hpieces, fun hnil => ?_⟩
  have := trim_eq_nil_iff.mp hnil c (by simp)
  simp [hc] at this

theorem map_trim_closeLines (ls : List (List Char)) (l : List Char) :
    (closeLines (ls ++ [l])).map trim = ls.map trim ++ if l = [] then [] else [trim l] := by
  induction ls with
  | nil =>
    rw [List.nil_append, closeLines]
    split_ifs <;> rfl
  | cons m ls ih =>
    rw [List.cons_append, closeLines_cons (by simp), List.map_cons, ih, trim_dropReturn]
    rfl

/-- **Lines, trimmed**, with empty ones before and after. -/
theorem exists_map_trim_linesOf (h : trim s ≠ []) : ∃ m n, (linesOf s).map trim =
    List.replicate m [] ++ (pieces (· == '\n') (trim s)).map trim ++ List.replicate n [] := by
  obtain ⟨m, n, hpieces⟩ := exists_map_trim_pieces (· == '\n') s
  obtain ⟨ls, l, hl⟩ := (List.eq_nil_or_concat' _).resolve_left (pieces_ne_nil (· == '\n') s)
  obtain ⟨ws, w, hw, hlast⟩ := exists_pieces_trim h
  rw [linesOf, hl, map_trim_closeLines]
  rw [hl, List.map_append, List.map_singleton] at hpieces
  split_ifs with hnil
  · -- The empty piece after the last line feed is no line. It is one of those that blanks add.
    rw [hnil] at hpieces
    cases n with
    | zero =>
      rw [hw, List.map_append, List.map_singleton, List.replicate_zero, List.append_nil,
        ← List.append_assoc] at hpieces
      have hlast' := List.cons.inj (List.append_inj' hpieces rfl).2
      exact absurd hlast'.1.symm hlast
    | succ n =>
      rw [List.replicate_succ', ← List.append_assoc] at hpieces
      exact ⟨m, n, by rw [List.append_nil, (List.append_inj' hpieces rfl).1]⟩
  · exact ⟨m, n, hpieces⟩

theorem map_trim_linesOf_of_blank (h : trim s = []) :
    (linesOf s).map trim = List.replicate (linesOf s).length [] := by
  refine List.map_eq_replicate_iff.mpr fun l hl => trim_eq_nil_iff.mpr fun c hc => ?_
  obtain ⟨w, hw, hsub⟩ := exists_of_mem_closeLines hl
  exact trim_eq_nil_iff.mp h c (mem_pieces_imp hw (hsub c hc)).1

end Text

end CellSat
