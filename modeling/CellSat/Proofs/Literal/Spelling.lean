import Mathlib
import CellSat.Proofs.Checked
import CellSat.Proofs.Text.Lines
/-!
# Spellings of literals

A literal is spelled by a tilde if it is negative, by its name, and by its tag in parentheses if it
has one. A tag has many spellings, which differ in leading zeros. Reading accepts the spellings and
nothing else, and writing gives the shortest of them.

* `Text.exists_eq_zeros_append`: digits are zeros in front of a decimal numeral;
* `Literal.TagText`, `Literal.Spells`: the spellings of tags and literals;
* `Literal.parseTag_eq_ok_iff`, `Literal.parseName_eq_ok_iff`, `Literal.parseBody_eq_ok_iff`: what
  the parts of the reader accept;
* `Literal.parse_eq_ok_iff`: a text is read as a literal if it spells it;
* `Literal.Spells.isBlank`, `Literal.Lettered`: what spellings and names do not hold;
* `Literal.Spells.render`, `Literal.Spells.eq_or_length_lt`: the text that is written is a spelling,
  and every other one is longer;
* **`Literal.parse_spelling`**: all of this together.
-/

namespace CellSat

/-! ## Leading zeros -/

namespace Text

variable {ds : List Char} {c : Char} {d n : Nat}

theorem digitsValue_concat (ds : List Char) (c : Char) :
    digitsValue (ds ++ [c]) = 10 * digitsValue ds + (c.toNat - '0'.toNat) := by
  simp [digitsValue]

theorem exists_digitChar_of_isDigit (h : isDigit c = true) :
    ∃ d < 10, c = d.digitChar ∧ c.toNat - '0'.toNat = d := by
  simp only [isDigit, Bool.and_eq_true, decide_eq_true_eq, Char.le_def, UInt32.le_iff_toNat_le] at h
  have h0 : 48 ≤ c.toNat := h.1
  have h9 : c.toNat ≤ 57 := h.2
  have hvalue : ∀ d : Fin 10, (d : Nat).digitChar.toNat = d + 48 := by decide
  refine ⟨c.toNat - 48, by omega, ?_, rfl⟩
  have := hvalue ⟨c.toNat - 48, by omega⟩
  exact Char.toNat_inj.mp (by simp only at this; omega)

theorem toDigits_mul_add (hn : n ≠ 0) (hd : d < 10) :
    Nat.toDigits 10 (10 * n + d) = Nat.toDigits 10 n ++ [d.digitChar] := by
  rw [Nat.toDigits_eq_if (by decide), if_neg (by omega)]
  congr 3 <;> omega

/-- **Digits** are zeros in front of the decimal numeral of their value. -/
theorem exists_eq_zeros_append (hne : ds ≠ []) (hds : ∀ c ∈ ds, isDigit c = true) :
    ∃ k, ds = List.replicate k '0' ++ Nat.toDigits 10 (digitsValue ds) := by
  induction ds using List.reverseRecOn with
  | nil => contradiction
  | append_singleton ds c ih =>
    rw [List.forall_mem_append] at hds
    obtain ⟨d, hd, hc, hvalue⟩ :=
      exists_digitChar_of_isDigit (hds.2 c (List.mem_singleton_self c))
    rw [digitsValue_concat, hvalue]
    by_cases hzero : digitsValue ds = 0
    · -- All digits before the last one are zeros, and the last one is the numeral.
      have hzeros : ∃ k, ds = List.replicate k '0' := by
        by_cases hnil : ds = []
        · exact ⟨0, hnil⟩
        · obtain ⟨k, hk⟩ := ih hnil hds.1
          rw [hzero] at hk
          exact ⟨k + 1, by rw [hk, List.replicate_succ']; rfl⟩
      obtain ⟨k, hk⟩ := hzeros
      refine ⟨k, ?_⟩
      rw [hzero, Nat.mul_zero, Nat.zero_add, Nat.toDigits_of_lt_base hd, ← hc, ← hk]
    · have hnil : ds ≠ [] := fun h => hzero (h ▸ rfl)
      obtain ⟨k, hk⟩ := ih hnil hds.1
      refine ⟨k, ?_⟩
      rw [toDigits_mul_add hzero hd, ← List.append_assoc, ← hk, hc]

theorem toDigits_eq_of_head? (h : (Nat.toDigits 10 n).head? = some '0') :
    Nat.toDigits 10 n = ['0'] := by
  obtain ⟨rest, hrest⟩ := List.head?_eq_some_iff.mp h
  rw [hrest]
  by_contra hne
  have hnil : rest ≠ [] := fun h => hne (h ▸ rfl)
  have hvalue : digitsValue rest = n := by
    rw [← digitsValue_toDigits n, hrest]
    rfl
  obtain ⟨k, hk⟩ := exists_eq_zeros_append hnil fun c hc =>
    isDigit_of_mem_toDigits (hrest ▸ List.mem_cons_of_mem '0' hc)
  have hlength := congrArg List.length hk
  rw [hvalue, List.length_append, hrest, List.length_cons] at hlength
  omega

end Text

/-! ## Spellings -/

namespace Literal

open Text

/-- What names can hold: at least one character, and neither blanks nor parentheses. -/
def Lettered (name : String) : Prop :=
  name ≠ "" ∧ ∀ c ∈ name.toList, isBlank c = false ∧ c ≠ '(' ∧ c ≠ ')'

/-- The spellings of a tag: none for no tag, and in parentheses any digits of its value. -/
inductive TagText : Option Nat → List Char → Prop where
  | none : TagText none []
  | some {digits : List Char} (nonempty : digits ≠ []) (isDigit : ∀ c ∈ digits, isDigit c = true)
      (fits : Nat.ofDigitChars 10 digits 0 < 2 ^ 32) :
      TagText (some (Nat.ofDigitChars 10 digits 0)) ('(' :: (digits ++ [')']))

/-- The tilde of a negative literal. -/
def signText (positive : Bool) : List Char := if positive then [] else ['~']

/-- The spellings of a literal. A tilde in front is a negation, so the name of a positive literal
does not start with one. -/
structure Spells (l : Literal) (text : List Char) : Prop where
  lettered : Lettered l.name
  start : l.positive = true → l.name.toList.head? ≠ some '~'
  text_eq : ∃ tagText, TagText l.tag tagText ∧
    text = signText l.positive ++ (l.name.toList ++ tagText)

variable {l : Literal} {s text : List Char} {tag : Option Nat} {name : String} {n : Nat}

/-! ## Reading -/

theorem readDigits?_eq_some_iff : readDigits? s = some n ↔
    s ≠ [] ∧ (∀ c ∈ s, isDigit c = true) ∧ Nat.ofDigitChars 10 s 0 = n := by
  rw [readDigits?, Option.ite_none_right_eq_some, List.all_eq_true, and_assoc, Option.some.injEq]
  rfl

theorem parseTag_eq_ok_iff : parseTag s = .ok n ↔ TagText (some n) ('(' :: s) := by
  constructor
  · intro h
    unfold parseTag at h
    split at h
    · next digits hs =>
      split at h
      · contradiction
      · next tag hread =>
        split_ifs at h with hfits
        obtain ⟨hne, hdigits, hvalue⟩ := readDigits?_eq_some_iff.mp hread
        rw [← List.reverse_reverse s, hs, List.reverse_cons, ← Except.ok.inj h, ← hvalue]
        refine .some hne hdigits ?_
        simp only [Word.maxNat32] at hfits
        omega
    · contradiction
  · rintro (_ | @⟨digits, hne, hdigits, hfits⟩)
    have hread := readDigits?_eq_some_iff.mpr ⟨hne, hdigits, rfl⟩
    rw [parseTag, List.reverse_append, List.reverse_singleton, List.singleton_append]
    simp only [List.reverse_reverse, hread, Word.maxNat32]
    exact if_pos (by omega)

theorem parseName_eq_ok_iff : parseName s = .ok name ↔
    s ≠ [] ∧ (∀ c ∈ s, isBlank c = false ∧ c ≠ ')') ∧ s = name.toList := by
  have hany : (s.any fun c => isBlank c || c == ')') = true ↔
      ¬ ∀ c ∈ s, isBlank c = false ∧ c ≠ ')' := by
    simp [or_iff_not_imp_left]
  unfold parseName
  split_ifs with hnil hbad
  · simp [hnil]
  · simp [hany.mp hbad]
  · have hchars := not_not.mp (mt hany.mpr hbad)
    constructor
    · intro h
      rw [← Except.ok.inj h, String.toList_ofList]
      exact ⟨hnil, hchars, rfl⟩
    · rintro ⟨-, -, rfl⟩
      rw [String.ofList_toList]

theorem lettered_of_parseName (hopening : '(' ∉ s) (h : parseName s = .ok name) :
    Lettered name := by
  obtain ⟨hnil, hchars, rfl⟩ := parseName_eq_ok_iff.mp h
  refine ⟨by simpa using hnil, fun c hc => ⟨(hchars c hc).1, ?_, (hchars c hc).2⟩⟩
  rintro rfl
  exact hopening hc

theorem Lettered.parseName_eq_ok (h : Lettered name) : parseName name.toList = .ok name :=
  parseName_eq_ok_iff.mpr ⟨by simpa using h.1, fun c hc => ⟨(h.2 c hc).1, (h.2 c hc).2.2⟩, rfl⟩

theorem parseBody_eq_ok_iff {positive : Bool} : parseBody positive s = .ok l ↔
    l.positive = positive ∧ Lettered l.name ∧
      ∃ tagText, TagText l.tag tagText ∧ s = l.name.toList ++ tagText := by
  constructor
  · intro h
    unfold parseBody at h
    split at h
    · next hsplit =>
      obtain ⟨name, hname, h⟩ := bind_eq_ok.mp h
      obtain rfl := Except.ok.inj h
      have hlettered := lettered_of_parseName (not_mem_of_splitFirst_eq_none hsplit) hname
      refine ⟨rfl, hlettered, [], .none, ?_⟩
      rw [(parseName_eq_ok_iff.mp hname).2.2, List.append_nil]
    · next before after hsplit =>
      obtain ⟨tag, htag, h⟩ := bind_eq_ok.mp h
      obtain ⟨name, hname, h⟩ := bind_eq_ok.mp h
      obtain rfl := Except.ok.inj h
      refine ⟨rfl, lettered_of_parseName (not_mem_of_splitFirst hsplit) hname, '(' :: after,
        parseTag_eq_ok_iff.mp htag, ?_⟩
      rw [eq_append_of_splitFirst hsplit, (parseName_eq_ok_iff.mp hname).2.2]
  · obtain ⟨name, positive', tag⟩ := l
    rintro ⟨rfl, hname, tagText, htag, rfl⟩
    have hopening : '(' ∉ name.toList := fun hmem => (hname.2 _ hmem).2.1 rfl
    have hparse := hname.parseName_eq_ok
    cases tag with
    | none =>
      cases htag
      rw [List.append_nil, parseBody, splitFirst_eq_none hopening]
      simp only [hparse]
      rfl
    | some n =>
      obtain ⟨after, rfl⟩ : ∃ after, tagText = '(' :: after := by
        cases htag
        exact ⟨_, rfl⟩
      rw [parseBody, splitFirst_append hopening]
      simp only [parseTag_eq_ok_iff.mpr htag, hparse]
      rfl

/-- The first character is taken as a negation if it is a tilde. -/
theorem parseChars_eq_ok_iff : parseChars s = .ok l ↔ ∃ positive body,
    s = signText positive ++ body ∧ (positive = true → body.head? ≠ some '~') ∧
      parseBody positive body = .ok l := by
  unfold parseChars
  split
  · next body =>
    constructor
    · exact fun h => ⟨false, body, rfl, Bool.noConfusion, h⟩
    · rintro ⟨positive, body', heq, hstart, h⟩
      cases positive with
      | false => rwa [(List.cons.inj heq).2]
      | true =>
        obtain rfl : '~' :: body = body' := heq
        exact absurd rfl (hstart rfl)
  · next hother =>
    constructor
    · intro h
      refine ⟨true, s, rfl, fun _ hhead => ?_, h⟩
      obtain ⟨body, rfl⟩ := List.head?_eq_some_iff.mp hhead
      exact hother body rfl
    · rintro ⟨positive, body, heq, -, h⟩
      cases positive with
      | false => exact absurd heq (hother body)
      | true => rwa [show s = body from heq]

theorem head?_append_of_lettered (h : Lettered name) (s : List Char) :
    (name.toList ++ s).head? = name.toList.head? :=
  List.head?_append_of_ne_nil _ (by simpa using h.1)

/-- **A text is read as a literal** if it spells it. -/
theorem parse_eq_ok_iff {text : String} : parse text = .ok l ↔ l.Spells text.toList := by
  have hchars : parse text = .ok l ↔ parseChars text.toList = .ok l := by
    unfold parse
    split <;> simp [*]
  rw [hchars, parseChars_eq_ok_iff]
  simp only [parseBody_eq_ok_iff]
  constructor
  · rintro ⟨_, _, htext, hstart, rfl, hname, tagText, htag, rfl⟩
    rw [head?_append_of_lettered hname] at hstart
    exact ⟨hname, hstart, tagText, htag, htext⟩
  · rintro ⟨hname, hstart, tagText, htag, htext⟩
    rw [← head?_append_of_lettered hname tagText] at hstart
    exact ⟨_, _, htext, hstart, rfl, hname, tagText, htag, rfl⟩

theorem TagText.isBlank (h : TagText tag s) : ∀ c ∈ s, isBlank c = false := by
  cases h with
  | none => simp
  | some _ hdigits _ =>
    intro c hc
    rw [List.mem_cons, List.mem_append, List.mem_singleton] at hc
    rcases hc with rfl | hc | rfl
    · decide
    · exact isBlank_of_isDigit (hdigits c hc)
    · decide

theorem Spells.isBlank (h : l.Spells text) : ∀ c ∈ text, isBlank c = false := by
  obtain ⟨tagText, htag, rfl⟩ := h.text_eq
  intro c hc
  rw [List.mem_append, List.mem_append] at hc
  rcases hc with hc | hc | hc
  · unfold signText at hc
    split_ifs at hc
    · contradiction
    · rw [List.mem_singleton.mp hc]
      decide
  · exact (h.lettered.2 c hc).1
  · exact htag.isBlank c hc

/-! ## Writing -/

theorem toList_render (l : Literal) : l.render.toList =
    (if l.positive then [] else ['~']) ++ (l.name.toList ++ (renderTag l.tag).toList) := by
  rw [render, String.toList_append, String.toList_append, List.append_assoc]
  split_ifs <;> rfl

theorem toList_renderTag_some (n : Nat) :
    (renderTag (some n)).toList = '(' :: (Nat.toDigits 10 n ++ [')']) := by
  simp [renderTag, Nat.repr]

theorem tagText_renderTag (h : ∀ n ∈ tag, n < 2 ^ 32) : TagText tag (renderTag tag).toList := by
  cases tag with
  | none => exact .none
  | some n =>
    have hdigits : ∀ c ∈ Nat.toDigits 10 n, isDigit c = true := fun c => isDigit_of_mem_toDigits
    have htag := TagText.some Nat.toDigits_ne_nil hdigits (by simpa using h n rfl)
    rwa [Nat.ofDigitChars_ten_toDigits, ← toList_renderTag_some] at htag

theorem TagText.lt (h : TagText tag s) : ∀ n ∈ tag, n < 2 ^ 32 := by
  cases h with
  | none => simp
  | some _ _ hfits => simpa using hfits

/-- Spellings of a tag differ in leading zeros, of which the one that is written has none. -/
theorem TagText.eq_or_length_lt (h : TagText tag s) :
    s = (Literal.renderTag tag).toList ∨ (Literal.renderTag tag).toList.length < s.length := by
  cases h with
  | none => exact .inl rfl
  | @some digits hne hdigits _ =>
    obtain ⟨k, hk⟩ := exists_eq_zeros_append hne hdigits
    have hnumeral : Nat.toDigits 10 (Nat.ofDigitChars 10 digits 0) =
        Nat.toDigits 10 (digitsValue digits) := rfl
    rw [toList_renderTag_some, hnumeral]
    cases k with
    | zero =>
      rw [List.replicate_zero, List.nil_append] at hk
      exact .inl (by rw [← hk])
    | succ k =>
      have hlength := congrArg List.length hk
      simp only [List.length_append, List.length_replicate] at hlength
      refine .inr ?_
      simp only [List.length_cons, List.length_append]
      omega

theorem Spells.render (h : l.Spells text) : l.Spells l.render.toList := by
  obtain ⟨tagText, htag, -⟩ := h.text_eq
  exact ⟨h.lettered, h.start, _, tagText_renderTag htag.lt, toList_render l⟩

/-- **The shortest spelling** is the one that is written. -/
theorem Spells.eq_or_length_lt (h : l.Spells text) :
    text = l.render.toList ∨ l.render.toList.length < text.length := by
  obtain ⟨tagText, htag, rfl⟩ := h.text_eq
  rw [show l.render.toList = signText l.positive ++ _ from toList_render l]
  refine htag.eq_or_length_lt.imp (fun heq => by rw [← heq]) fun hlt => ?_
  simp only [List.length_append]
  omega

/-- **Reading literals.** Of all spellings of a literal, the one that is written is the shortest. -/
theorem parse_spelling (text : String) (l : Literal) :
    (parse text = .ok l ↔ l.Spells text.toList) ∧
      (parse text = .ok l → parse l.render = .ok l ∧
        (∀ other, parse other = .ok l → other = l.render ∨ l.render.length < other.length) ∧
        ∀ n ∈ l.tag, ∃ digits, l.render.toList =
            signText l.positive ++ (l.name.toList ++ '(' :: (digits ++ [')'])) ∧
          (digits.head? = some '0' → digits = ['0'])) := by
  refine ⟨parse_eq_ok_iff, fun h => ⟨?_, fun other hother => ?_, fun n hn => ?_⟩⟩
  · exact parse_eq_ok_iff.mpr (parse_eq_ok_iff.mp h).render
  · exact (parse_eq_ok_iff.mp hother).eq_or_length_lt.imp_left fun heq =>
      String.toList_injective heq
  · refine ⟨Nat.toDigits 10 n, ?_, toDigits_eq_of_head?⟩
    rw [← toList_renderTag_some, ← Option.mem_def.mp hn]
    exact toList_render l

/-- Two tildes, of which the second belongs to the name, and a tag with leading zeros. -/
theorem parse_spelling_zeros :
    let l : Literal := ⟨"~x", false, some 7⟩
    parse "~~x(007)" = .ok l ∧ l.Spells "~~x(007)".toList ∧ parse l.render = .ok l ∧
      ∀ other, parse other = .ok l → other = l.render ∨ l.render.length < other.length := by
  intro l
  have h : parse "~~x(007)" = .ok l := by decide
  obtain ⟨hspells, hwritten⟩ := parse_spelling "~~x(007)" l
  exact ⟨h, hspells.mp h, (hwritten h).1, (hwritten h).2.1⟩

end Literal

end CellSat
