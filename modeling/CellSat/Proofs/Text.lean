import Mathlib
import CellSat.Text.Number
/-!
# Texts of names and numbers

* `Text.splitFirst_eq_none`, `Text.splitFirst_append`, `Text.eq_append_of_splitFirst`,
  `Text.not_mem_of_splitFirst`: cutting a text at a character;
* `Text.pieces_of_forall`, `Text.pieces_append`, `Text.exists_mem_pieces`: cutting it at all of
  them;
* `Text.readNatUpTo?_toDigits`, `Text.readNatUpTo?_toString_eq_some_iff`: a decimal numeral reads
  back as its number;
* `Text.isDigit_of_readNatUpTo?`: what is read as a number;
* `Text.padStart_hex_injective`: padded hexadecimal numerals of different numbers differ.
-/

namespace CellSat.Text

/-! ## Cutting -/

theorem splitFirst_eq_none {c : Char} {s : List Char} (h : c ∉ s) : splitFirst c s = none := by
  induction s with
  | nil => rfl
  | cons d s ih =>
    rw [List.mem_cons, not_or] at h
    rw [splitFirst, if_neg (Ne.symm h.1), ih h.2]
    rfl

theorem splitFirst_append {c : Char} {s : List Char} (h : c ∉ s) (t : List Char) :
    splitFirst c (s ++ c :: t) = some (s, t) := by
  induction s with
  | nil => simp [splitFirst]
  | cons d s ih =>
    rw [List.mem_cons, not_or] at h
    rw [List.cons_append, splitFirst, if_neg (Ne.symm h.1), ih h.2]
    rfl

theorem eq_append_of_splitFirst {c : Char} {s a b : List Char} (h : splitFirst c s = some (a, b)) :
    s = a ++ c :: b := by
  induction s generalizing a with
  | nil => simp [splitFirst] at h
  | cons d s ih =>
    rw [splitFirst] at h
    split_ifs at h with hd
    · obtain ⟨rfl, rfl⟩ := Prod.mk.inj (Option.some.inj h)
      rw [hd, List.nil_append]
    · obtain ⟨⟨a', b'⟩, hs, heq⟩ := Option.map_eq_some_iff.mp h
      obtain ⟨rfl, rfl⟩ := Prod.mk.inj heq
      rw [ih hs, List.cons_append]

theorem not_mem_of_splitFirst_eq_none {c : Char} {s : List Char} (h : splitFirst c s = none) :
    c ∉ s := by
  fun_induction splitFirst c s with
  | case1 => simp
  | case2 s => contradiction
  | case3 d s hd ih =>
    rw [Option.map_eq_none_iff] at h
    simpa [Ne.symm hd] using ih h

theorem not_mem_of_splitFirst {c : Char} {s a b : List Char} (h : splitFirst c s = some (a, b)) :
    c ∉ a := by
  fun_induction splitFirst c s generalizing a with
  | case1 => contradiction
  | case2 s =>
    obtain ⟨rfl, -⟩ := Prod.mk.inj (Option.some.inj h)
    simp
  | case3 d s hd ih =>
    obtain ⟨⟨a', b'⟩, hs, heq⟩ := Option.map_eq_some_iff.mp h
    obtain ⟨rfl, rfl⟩ := Prod.mk.inj heq
    simpa [Ne.symm hd] using ih hs

theorem dropStart?_append (p s : List Char) : dropStart? p (p ++ s) = some s := by
  induction p with
  | nil => rfl
  | cons c p ih => rw [List.cons_append, dropStart?, if_pos rfl, ih]

theorem eq_append_of_dropStart? {p s r : List Char} (h : dropStart? p s = some r) : s = p ++ r := by
  fun_induction dropStart? p s with
  | case1 s => exact Option.some.inj h
  | case2 => contradiction
  | case3 c p s ih => rw [ih h, List.cons_append]
  | case4 => contradiction

theorem pieces_of_forall {p : Char → Bool} {s : List Char} (h : ∀ c ∈ s, p c = false) :
    pieces p s = [s] := by
  induction s with
  | nil => rfl
  | cons c s ih =>
    obtain ⟨hc, hs⟩ := List.forall_mem_cons.mp h
    simp [pieces, hc, ih hs]

theorem pieces_append {p : Char → Bool} {s : List Char} (h : ∀ c ∈ s, p c = false) {c : Char}
    (hc : p c = true) (r : List Char) : pieces p (s ++ c :: r) = s :: pieces p r := by
  induction s with
  | nil => simp [pieces, hc]
  | cons d s ih =>
    obtain ⟨hd, hs⟩ := List.forall_mem_cons.mp h
    simp [pieces, hd, ih hs]

theorem exists_mem_pieces {p : Char → Bool} {s : List Char} {c : Char} (hc : c ∈ s)
    (hp : p c = false) : ∃ w ∈ pieces p s, c ∈ w := by
  fun_induction pieces p s with
  | case1 => simp at hc
  | case2 d s hd ih =>
    rcases List.mem_cons.mp hc with rfl | hc
    · simp [hd] at hp
    · obtain ⟨w, hw, hcw⟩ := ih hc
      exact ⟨w, List.mem_cons_of_mem _ hw, hcw⟩
  | case3 d s hd hnil ih =>
    rcases List.mem_cons.mp hc with rfl | hc
    · simp
    · simp [hnil] at ih
      exact absurd hc ih
  | case4 d s hd w ws hws ih =>
    rcases List.mem_cons.mp hc with rfl | hc
    · simp
    · obtain ⟨w', hw', hcw⟩ := ih hc
      rw [hws] at hw'
      rcases List.mem_cons.mp hw' with rfl | hw'
      · exact ⟨_, List.mem_cons_self, List.mem_cons_of_mem _ hcw⟩
      · exact ⟨w', List.mem_cons_of_mem _ hw', hcw⟩

/-! ## Decimal numerals -/

@[simp] theorem digitsValue_toDigits (n : Nat) : digitsValue (Nat.toDigits 10 n) = n :=
  Nat.ofDigitChars_ten_toDigits

theorem isDigit_of_mem_toDigits {c : Char} {n : Nat} (h : c ∈ Nat.toDigits 10 n) :
    isDigit c = true := by
  have hc := Nat.isDigit_of_mem_toDigits (by decide) (by decide) h
  simp only [Char.isDigit, Bool.and_eq_true, decide_eq_true_eq] at hc
  simp only [isDigit, Bool.and_eq_true, decide_eq_true_eq]
  exact hc

theorem readDigits?_toDigits (n : Nat) : readDigits? (Nat.toDigits 10 n) = some n := by
  rw [readDigits?, if_pos, digitsValue_toDigits]
  exact ⟨Nat.toDigits_ne_nil, List.all_eq_true.mpr fun c hc => isDigit_of_mem_toDigits hc⟩

theorem readNat?_toDigits (n : Nat) : readNat? (Nat.toDigits 10 n) = some n := by
  have h := readDigits?_toDigits n
  revert h
  cases hd : Nat.toDigits 10 n with
  | nil => exact absurd hd Nat.toDigits_ne_nil
  | cons c s =>
    intro h
    have hc : isDigit c = true := isDigit_of_mem_toDigits (hd ▸ List.mem_cons_self)
    rw [readNat?]
    · exact h
    · rintro s' heq
      rw [(List.cons.inj heq).1] at hc
      exact absurd hc (by decide)

theorem readNatUpTo?_toDigits {n limit : Nat} (h : n ≤ limit) :
    readNatUpTo? limit (Nat.toDigits 10 n) = some n := by
  rw [readNatUpTo?, readNat?_toDigits]
  simp [h]

theorem isDigit_of_readNatUpTo? {limit n : Nat} {s : List Char}
    (h : readNatUpTo? limit s = some n) : ∀ c ∈ s, c = '+' ∨ isDigit c = true := by
  have hdigits : ∀ {s : List Char} {n : Nat}, readDigits? s = some n →
      ∀ c ∈ s, isDigit c = true := by
    intro s n hs
    rw [readDigits?] at hs
    split_ifs at hs with hall
    exact List.all_eq_true.mp hall.2
  have hread := (Option.filter_eq_some_iff.mp h).1
  unfold readNat? at hread
  split at hread
  · exact List.forall_mem_cons.mpr ⟨.inl rfl, fun c hc => .inr (hdigits hread c hc)⟩
  · exact fun c hc => .inr (hdigits hread c hc)

theorem toList_toString_nat (n : Nat) : (toString n).toList = Nat.toDigits 10 n := by
  show (Nat.repr n).toList = _
  rw [Nat.repr, String.toList_ofList]

theorem toList_toString_of_nonneg {x : Int} (h : 0 ≤ x) :
    (toString x).toList = Nat.toDigits 10 x.toNat := by
  obtain ⟨k, rfl⟩ := Int.eq_ofNat_of_zero_le h
  exact toList_toString_nat k

theorem toList_toString_negSucc (k : Nat) :
    (toString (Int.negSucc k)).toList = '-' :: Nat.toDigits 10 (k + 1) := by
  show ("-" ++ Nat.repr (k + 1)).toList = _
  simp [Nat.repr]

theorem mem_toString_int {c : Char} {x : Int} (h : c ∈ (toString x).toList) :
    c = '-' ∨ isDigit c = true := by
  cases x with
  | ofNat k =>
    have hlist := toList_toString_of_nonneg (Int.natCast_nonneg k)
    exact .inr (isDigit_of_mem_toDigits (hlist ▸ h))
  | negSucc k =>
    rw [toList_toString_negSucc] at h
    exact (List.mem_cons.mp h).imp_right isDigit_of_mem_toDigits

theorem readNatUpTo?_toString_eq_some_iff {limit k : Nat} {x : Int} :
    readNatUpTo? limit (toString x).toList = some k ↔ x = k ∧ k ≤ limit := by
  cases x with
  | ofNat n =>
    have hlist : (toString (Int.ofNat n)).toList = Nat.toDigits 10 n :=
      toList_toString_of_nonneg (Int.natCast_nonneg n)
    rw [hlist, readNatUpTo?, readNat?_toDigits, Option.filter_eq_some_iff, Option.some.injEq,
      Int.ofNat_eq_natCast, Int.natCast_inj]
    simp
  | negSucc n =>
    have hread : readNat? (toString (Int.negSucc n)).toList = none := by
      rw [toList_toString_negSucc]
      rfl
    have hne : Int.negSucc n ≠ (k : Int) := by omega
    rw [readNatUpTo?, hread, Option.filter_none]
    simp [hne]

/-! ## Hexadecimal numerals -/

theorem digitValue?_digitChar {d : Nat} (h : d < 16) : digitValue? d.digitChar = some d := by
  have : ∀ d : Fin 16, digitValue? (d : Nat).digitChar = some (d : Nat) := by decide
  exact this ⟨d, h⟩

theorem readBaseFrom?_append (base value : Nat) (s t : List Char) :
    readBaseFrom? base value (s ++ t) =
      (readBaseFrom? base value s).bind fun v => readBaseFrom? base v t := by
  fun_induction readBaseFrom? base value s with
  | case1 => rfl
  | case2 value c s h => simp [readBaseFrom?, h]
  | case3 value c s d h hd ih => simp [readBaseFrom?, h, hd, ih]
  | case4 value c s d h hd => simp [readBaseFrom?, h, hd]

theorem readBaseFrom?_digitChar {base value d : Nat} (hb : base ≤ 16) (hd : d < base) :
    readBaseFrom? base value [d.digitChar] = some (base * value + d) := by
  simp [readBaseFrom?, digitValue?_digitChar (Nat.lt_of_lt_of_le hd hb), hd]

theorem readBaseFrom?_toDigits {base : Nat} (h₁ : 1 < base) (h₂ : base ≤ 16) (n : Nat) :
    readBaseFrom? base 0 (Nat.toDigits base n) = some n := by
  induction n using Nat.strong_induction_on with
  | h n ih =>
    rw [Nat.toDigits_eq_if h₁]
    split_ifs with h
    · rw [readBaseFrom?_digitChar h₂ h, Nat.mul_zero, Nat.zero_add]
    · have hlt : n / base < n := Nat.div_lt_self (by omega) h₁
      rw [readBaseFrom?_append, ih _ hlt, Option.bind_some,
        readBaseFrom?_digitChar h₂ (Nat.mod_lt n (by omega)), Nat.div_add_mod]

theorem readBaseFrom?_zeros {base : Nat} (hb : 0 < base) (k : Nat) (s : List Char) :
    readBaseFrom? base 0 (List.replicate k '0' ++ s) = readBaseFrom? base 0 s := by
  induction k with
  | zero => rfl
  | succ k ih =>
    have hzero : digitValue? '0' = some 0 := by decide
    simp only [List.replicate_succ, List.cons_append, readBaseFrom?, hzero, if_pos hb]
    simpa using ih

theorem readBaseFrom?_padStart_hex (width n : Nat) :
    readBaseFrom? 16 0 (padStart width '0' (hex n)).toList = some n := by
  rw [padStart, String.toList_append, String.toList_ofList, readBaseFrom?_zeros (by decide), hex,
    String.toList_ofList, readBaseFrom?_toDigits (by decide) (by decide)]

theorem digitValue?_ne_none {base value n : Nat} {s : List Char}
    (h : readBaseFrom? base value s = some n) : ∀ c ∈ s, digitValue? c ≠ none := by
  fun_induction readBaseFrom? base value s with
  | case1 => simp
  | case2 => contradiction
  | case3 value c s d hc hd ih => exact List.forall_mem_cons.mpr ⟨by simp [hc], ih h⟩
  | case4 => contradiction

/-- **Padded hexadecimal numerals** of different numbers are different. -/
theorem padStart_hex_injective (width : Nat) :
    Function.Injective fun n => padStart width '0' (hex n) := by
  intro m n h
  have hread := congrArg (fun s : String => readBaseFrom? 16 0 s.toList) h
  simp only [readBaseFrom?_padStart_hex] at hread
  exact Option.some.inj hread

end CellSat.Text
