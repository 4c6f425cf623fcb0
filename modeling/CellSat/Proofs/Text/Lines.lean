import Mathlib
import CellSat.Proofs.Text
import CellSat.Text.Lines
/-!
# Lines and words of texts

* `Text.exists_pieces_append`: the pieces of two texts in a row;
* `Text.lines_join`: lines that are written one after the other are read back;
* `Text.words_flatMap`: so are words with a space between them;
* `Text.readIntIn?_toString`: a decimal numeral with a sign reads back as its number;
* `Content.ofBytes_toUTF8`: the bytes of a text are read as that text;
* `Content.not_mem_lines`: no line that is read holds a line feed.
-/

namespace CellSat

namespace Text

variable {p : Char → Bool} {s w : List Char} {c : Char}

/-! ## Lines -/

theorem pieces_ne_nil (p : Char → Bool) (s : List Char) : pieces p s ≠ [] := by
  fun_cases pieces p s <;> simp [*]

theorem mem_pieces_imp (hw : w ∈ pieces p s) (hc : c ∈ w) : c ∈ s ∧ p c = false := by
  fun_induction pieces p s generalizing w with
  | case1 =>
    rw [List.mem_singleton.mp hw] at hc
    contradiction
  | case2 d s hd ih =>
    rcases List.mem_cons.mp hw with rfl | hw
    · contradiction
    · exact (ih hw hc).imp_left (List.mem_cons_of_mem d)
  | case3 d s hd hnil ih => exact absurd hnil (pieces_ne_nil p s)
  | case4 d s hd v vs hvs ih =>
    rw [hvs] at ih
    rcases List.mem_cons.mp hw with rfl | hw
    · rcases List.mem_cons.mp hc with rfl | hc
      · exact ⟨List.mem_cons_self, Bool.eq_false_of_not_eq_true hd⟩
      · exact (ih List.mem_cons_self hc).imp_left (List.mem_cons_of_mem d)
    · exact (ih (List.mem_cons_of_mem v hw) hc).imp_left (List.mem_cons_of_mem d)

/-- **Two texts in a row** share a piece. -/
theorem exists_pieces_append (p : Char → Bool) (s t : List Char) : ∃ ws w v vs,
    pieces p s = ws ++ [w] ∧ pieces p t = v :: vs ∧ pieces p (s ++ t) = ws ++ (w ++ v) :: vs := by
  obtain ⟨v, vs, ht⟩ := List.exists_cons_of_ne_nil (pieces_ne_nil p t)
  simp only [ht, List.cons.injEq]
  induction s with
  | nil => exact ⟨[], [], v, vs, rfl, ⟨rfl, rfl⟩, ht⟩
  | cons c s ih =>
    obtain ⟨ws, w, v', vs', hs, ⟨rfl, rfl⟩, hst⟩ := ih
    by_cases hc : p c = true
    · refine ⟨[] :: ws, w, v, vs, ?_, ⟨rfl, rfl⟩, ?_⟩
      · rw [pieces, if_pos hc, hs, List.cons_append]
      · rw [List.cons_append, pieces, if_pos hc, hst, List.cons_append]
    · -- The character joins the first piece, which is the last one too if there is no other.
      cases ws with
      | nil =>
        exact ⟨[], c :: w, v, vs, by simp [pieces, hc, hs], ⟨rfl, rfl⟩,
          by simp [pieces, hc, hst]⟩
      | cons u ws =>
        exact ⟨(c :: u) :: ws, w, v, vs, by simp [pieces, hc, hs], ⟨rfl, rfl⟩,
          by simp [pieces, hc, hst]⟩

theorem isPrefix_dropReturn (s : List Char) : dropReturn s <+: s := by
  fun_induction dropReturn s with
  | case1 => exact List.prefix_rfl
  | case2 => exact List.nil_prefix
  | case3 d s _ ih => exact (List.prefix_cons_inj d).mpr ih

theorem dropReturn_cases (s : List Char) : dropReturn s = s ∨ dropReturn s ++ ['\r'] = s := by
  fun_induction dropReturn s with
  | case1 => exact .inl rfl
  | case2 => exact .inr rfl
  | case3 d s _ ih => exact ih.imp (congrArg (d :: ·)) (congrArg (d :: ·))

theorem dropReturn_eq_self (h : ¬ ['\r'] <:+ s) : dropReturn s = s := by
  fun_induction dropReturn s with
  | case1 => rfl
  | case2 => exact absurd (List.suffix_refl _) h
  | case3 d s _ ih => rw [ih fun hs => h (hs.trans (List.suffix_cons d s))]

theorem closeLines_cons {l : List Char} {ls : List (List Char)} (h : ls ≠ []) :
    closeLines (l :: ls) = dropReturn l :: closeLines ls := by
  cases ls with
  | nil => contradiction
  | cons m ls => rfl

theorem exists_of_mem_closeLines {l : List Char} {ls : List (List Char)} (h : l ∈ closeLines ls) :
    ∃ m ∈ ls, ∀ c ∈ l, c ∈ m := by
  fun_induction closeLines ls with
  | case1 => contradiction
  | case2 => contradiction
  | case3 last _ => exact ⟨last, List.mem_cons_self, by simp [List.mem_singleton.mp h]⟩
  | case4 m ls _ ih =>
    rcases List.mem_cons.mp h with rfl | h
    · exact ⟨m, List.mem_cons_self, fun c hc => (isPrefix_dropReturn m).subset hc⟩
    · obtain ⟨k, hk, hsub⟩ := ih h
      exact ⟨k, List.mem_cons_of_mem m hk, hsub⟩

theorem linesOf_append {l : List Char} (h : '\n' ∉ l) (s : List Char) :
    linesOf (l ++ '\n' :: s) = dropReturn l :: linesOf s := by
  have hl : ∀ c ∈ l, (c == '\n') = false := fun c hc => by
    simpa using fun heq : c = '\n' => h (heq ▸ hc)
  rw [linesOf, pieces_append hl (by decide), closeLines_cons (pieces_ne_nil _ _), linesOf]

/-- A line as it is read, without a carriage return at its end. -/
def asRead (line : String) : String := String.ofList (dropReturn line.toList)

theorem asRead_eq_self {line : String} (h : ¬ ['\r'] <:+ line.toList) : asRead line = line := by
  rw [asRead, dropReturn_eq_self h, String.ofList_toList]

theorem asRead_of_not_mem {line : String} (h : '\r' ∉ line.toList) : asRead line = line :=
  asRead_eq_self fun hsuffix => h (hsuffix.subset List.mem_cons_self)

/-- **Lines are read back**, apart from carriage returns at their ends. -/
theorem lines_join {ls : List String} (h : ∀ l ∈ ls, '\n' ∉ l.toList) :
    lines (String.join (ls.map fun l => l ++ "\n")) = ls.map asRead := by
  induction ls with
  | nil => rfl
  | cons l ls ih =>
    rw [List.forall_mem_cons] at h
    have hcut : (String.join ((l :: ls).map fun l => l ++ "\n")).toList =
        l.toList ++ '\n' :: (String.join (ls.map fun l => l ++ "\n")).toList := by
      simp [String.join_cons]
    rw [lines, hcut, linesOf_append h.1, List.map_cons, List.map_cons, ← ih h.2, lines, asRead]

/-! ## Words -/

theorem words_append (hw : ∀ c ∈ w, isBlank c = false) (hne : w ≠ []) (hc : isBlank c = true)
    (s : List Char) : words (w ++ c :: s) = w :: words s := by
  rw [words, pieces_append hw hc, List.filter_cons_of_pos (by simpa using hne), words]

theorem words_of_forall (hw : ∀ c ∈ w, isBlank c = false) (hne : w ≠ []) : words w = [w] := by
  rw [words, pieces_of_forall hw, List.filter_cons_of_pos (by simpa using hne), List.filter_nil]

/-- **Words are read back** where spaces stand between them. -/
theorem words_flatMap {ws : List (List Char)} (hw : ∀ c ∈ w, isBlank c = false) (hne : w ≠ [])
    (hws : ∀ v ∈ ws, v ≠ [] ∧ ∀ c ∈ v, isBlank c = false) :
    words (w ++ ws.flatMap (' ' :: ·)) = w :: ws := by
  induction ws generalizing w with
  | nil => rw [List.flatMap_nil, List.append_nil, words_of_forall hw hne]
  | cons v ws ih =>
    rw [List.forall_mem_cons] at hws
    rw [List.flatMap_cons, List.cons_append, words_append hw hne (by decide),
      ih hws.1.2 hws.1.1 hws.2]

theorem toList_join (w : String) (ws : List String) : (join " " (w :: ws)).toList =
    w.toList ++ (ws.map String.toList).flatMap (' ' :: ·) := by
  unfold join
  induction ws generalizing w with
  | nil => simp
  | cons v ws ih =>
    rw [String.intercalate_cons_cons, String.toList_append, ih]
    simp

theorem mem_join {ws : List String} (hc : c ∈ (join " " ws).toList) :
    c = ' ' ∨ ∃ w ∈ ws, c ∈ w.toList := by
  cases ws with
  | nil => simp [join] at hc
  | cons w ws =>
    rw [toList_join, List.mem_append, List.mem_flatMap] at hc
    rcases hc with hc | ⟨v, hv, hc⟩
    · exact .inr ⟨w, List.mem_cons_self, hc⟩
    · obtain ⟨u, hu, rfl⟩ := List.mem_map.mp hv
      exact (List.mem_cons.mp hc).imp_right fun hc => ⟨u, List.mem_cons_of_mem w hu, hc⟩

/-! ## Numerals with a sign -/

theorem isBlank_of_isDigit (h : isDigit c = true) : isBlank c = false := by
  simp only [isDigit, Bool.and_eq_true, decide_eq_true_eq, Char.le_def, UInt32.le_iff_toNat_le] at h
  have h0 : (48 : Nat) ≤ c.toNat := h.1
  have h9 : c.toNat ≤ 57 := h.2
  simp only [isBlank, Bool.or_eq_false_iff, Bool.and_eq_false_iff, decide_eq_false_iff_not,
    beq_eq_false_iff_ne]
  omega

theorem toList_toString_ne_nil (x : Int) : (toString x).toList ≠ [] := by
  cases x with
  | ofNat k => exact toList_toString_of_nonneg (Int.natCast_nonneg k) ▸ Nat.toDigits_ne_nil
  | negSucc k => exact toList_toString_negSucc k ▸ List.cons_ne_nil _ _

theorem readIntIn?_toString {low high x : Int} (h : low ≤ x ∧ x ≤ high) :
    readIntIn? low high (toString x).toList = some x := by
  cases x with
  | ofNat k =>
    have hlist := toList_toString_of_nonneg (Int.natCast_nonneg k)
    have hsign : ∀ r, (toString (Int.ofNat k)).toList ≠ '-' :: r := by
      intro r hr
      have hdigit : '-' ∈ Nat.toDigits 10 k := by
        rw [Int.toNat_natCast] at hlist
        exact hlist ▸ hr ▸ List.mem_cons_self
      exact absurd (isDigit_of_mem_toDigits hdigit) (by decide)
    rw [readIntIn?]
    · rw [show Int.ofNat k = (k : Int) from rfl, hlist, readNat?_toDigits, Int.toNat_natCast]
      simpa using h
    · exact hsign
  | negSucc k =>
    rw [toList_toString_negSucc, readIntIn?, readDigits?_toDigits]
    exact Option.filter_some_pos (decide_eq_true h)

end Text

/-! ## Contents -/

namespace Content

theorem ofBytes_toUTF8 (s : String) : ofBytes s.toUTF8 = .text s := by
  have hvalid : s.toUTF8.IsValidUTF8 := s.isValidUTF8
  have hread : String.fromUTF8? s.toUTF8 = some s := by
    rw [String.fromUTF8?, dif_pos hvalid]
    rfl
  rw [ofBytes, hread]

theorem not_mem_of_mem_splitBytes {bs l : List UInt8} (h : l ∈ splitBytes bs) : 10 ∉ l := by
  fun_induction splitBytes bs generalizing l with
  | case1 => simp [List.mem_singleton.mp h]
  | case2 bs ih =>
    rcases List.mem_cons.mp h with rfl | h
    · simp
    · exact ih h
  | case3 b bs hb hnil ih => simpa [List.mem_singleton.mp h] using Ne.symm hb
  | case4 b bs hb m ms hms ih =>
    rw [hms] at ih
    rcases List.mem_cons.mp h with rfl | h
    · simpa [Ne.symm hb] using ih List.mem_cons_self
    · exact ih (List.mem_cons_of_mem m h)

theorem mem_of_mem_dropReturnByte {b : UInt8} {bs : List UInt8} (h : b ∈ dropReturnByte bs) :
    b ∈ bs := by
  fun_induction dropReturnByte bs with
  | case1 => exact h
  | case2 => contradiction
  | case3 d s _ ih =>
    rcases List.mem_cons.mp h with rfl | h
    · exact List.mem_cons_self
    · exact List.mem_cons_of_mem d (ih h)

/-- A line feed in a text is a byte of its own. -/
theorem not_mem_of_decodeLine {bs : List UInt8} {s : String} (h : decodeLine bs = .ok s)
    (hbs : 10 ∉ bs) : '\n' ∉ s.toList := by
  intro hmem
  unfold decodeLine at h
  split at h
  · next t ht =>
    obtain rfl := Except.ok.inj h
    rw [String.fromUTF8?] at ht
    split at ht
    · have hbytes : t.toByteArray = ⟨bs.toArray⟩ := by
        rw [← Option.some.inj ht]
        rfl
      have hencode := String.utf8Encode_toList (b := t)
      rw [hbytes] at hencode
      have hdata := congrArg (fun b : ByteArray => b.data.toList) hencode
      have hflat : t.toList.flatMap String.utf8EncodeChar = bs := by
        simpa [List.utf8Encode] using hdata
      apply hbs
      rw [← hflat]
      exact List.mem_flatMap.mpr ⟨'\n', hmem, by decide⟩
    · contradiction
  · contradiction

theorem exists_of_mem_closeByteLines {s : String} {ls : List (List UInt8)}
    (h : .ok s ∈ closeByteLines ls) : ∃ bs, decodeLine bs = .ok s ∧ ∃ l ∈ ls, ∀ b ∈ bs, b ∈ l := by
  fun_induction closeByteLines ls with
  | case1 => contradiction
  | case2 => contradiction
  | case3 last _ => exact ⟨last, (List.mem_singleton.mp h).symm, last, by simp, by simp⟩
  | case4 l ls _ ih =>
    rcases List.mem_cons.mp h with h | h
    · exact ⟨_, h.symm, l, by simp, fun b => mem_of_mem_dropReturnByte⟩
    · obtain ⟨bs, hbs, k, hk, hsub⟩ := ih h
      exact ⟨bs, hbs, k, List.mem_cons_of_mem l hk, hsub⟩

/-- **Lines hold no line feed**, whether they come from text or from bytes. -/
theorem not_mem_lines {content : Content} {s : String} (h : .ok s ∈ content.lines) :
    '\n' ∉ s.toList := by
  cases content with
  | text text =>
    obtain ⟨line, hline, heq⟩ := List.mem_map.mp h
    obtain ⟨l, hl, rfl⟩ := List.mem_map.mp hline
    obtain rfl := Except.ok.inj heq
    obtain ⟨m, hm, hsub⟩ := Text.exists_of_mem_closeLines hl
    rw [String.toList_ofList]
    intro hmem
    exact absurd (Text.mem_pieces_imp hm (hsub _ hmem)).2 (by decide)
  | bytes bs =>
    obtain ⟨b, hb, l, hl, hsub⟩ := exists_of_mem_closeByteLines h
    exact not_mem_of_decodeLine hb fun hmem => not_mem_of_mem_splitBytes hl (hsub _ hmem)
  | directory => simp [lines] at h

end Content

end CellSat
