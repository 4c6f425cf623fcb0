import Mathlib
import CellSat.Failure
/-!
# Computations that may fail

* `bind_eq_ok`, `mapM_eq_ok`, `mapM_eq_ok_map`, `mem_of_mapM_eq_ok`, `eq_map_of_mapM_eq_ok`: the
  results of steps in a row, and of a list of steps;
* `bind_eq_error`, `mapM_eq_error`, `foldlM_eq_error`: where steps in a row fail first;
* `Word.eq_of_within`, `Word.eq_of_div`, `Word.eq_of_mod` and the like: a step of the machine that
  has a result has the exact one;
* `Word.within_eq_ok`, `Word.div_eq_ok`, `Word.mod_eq_ok` and the like: it has a result if that
  fits;
* `Word.OkOrOverflow`: it has the exact result or overflows;
* `Word.Takes`: it has the exact result if there are enough numbers of 32 bits.
-/

namespace CellSat

variable {ε α β : Type}

theorem bind_eq_ok {x : Except ε α} {f : α → Except ε β} {b : β} :
    x >>= f = .ok b ↔ ∃ a, x = .ok a ∧ f a = .ok b := by
  cases x with
  | error e => simp [bind, Except.bind]
  | ok a => simp [bind, Except.bind]

theorem mapM_eq_ok {f : α → Except ε β} {R : α → β → Prop} {l : List α}
    (h : ∀ a ∈ l, ∃ b, f a = .ok b ∧ R a b) : ∃ bs, l.mapM f = .ok bs ∧ List.Forall₂ R l bs := by
  induction l with
  | nil => exact ⟨[], rfl, .nil⟩
  | cons a l ih =>
    obtain ⟨b, hb, hab⟩ := h a List.mem_cons_self
    obtain ⟨bs, hbs, hl⟩ := ih fun c hc => h c (List.mem_cons_of_mem a hc)
    refine ⟨b :: bs, ?_, .cons hab hl⟩
    rw [List.mapM_cons, hb, hbs]
    rfl

theorem mapM_eq_ok_map {f : α → Except ε β} {g : α → β} {l : List α}
    (h : ∀ a ∈ l, f a = .ok (g a)) : l.mapM f = .ok (l.map g) := by
  induction l with
  | nil => rfl
  | cons a l ih =>
    rw [List.forall_mem_cons] at h
    rw [List.mapM_cons, h.1, ih h.2]
    rfl

theorem mem_of_mapM_eq_ok {f : α → Except ε β} {l : List α} {bs : List β} (h : l.mapM f = .ok bs)
    {b : β} : b ∈ bs ↔ ∃ a ∈ l, f a = .ok b := by
  induction l generalizing bs with
  | nil =>
    obtain rfl : [] = bs := Except.ok.inj h
    simp
  | cons a l ih =>
    rw [List.mapM_cons] at h
    obtain ⟨c, hc, h⟩ := bind_eq_ok.mp h
    obtain ⟨cs, hcs, h⟩ := bind_eq_ok.mp h
    obtain rfl : c :: cs = bs := Except.ok.inj h
    simp [ih hcs, hc, eq_comm]

theorem exists_of_mapM_eq_ok {f : α → Except ε β} {l : List α} {bs : List β}
    (h : l.mapM f = .ok bs) {a : α} (ha : a ∈ l) : ∃ b ∈ bs, f a = .ok b := by
  induction l generalizing bs with
  | nil => simp at ha
  | cons c l ih =>
    rw [List.mapM_cons] at h
    obtain ⟨b, hb, h⟩ := bind_eq_ok.mp h
    obtain ⟨bs', hbs', h⟩ := bind_eq_ok.mp h
    obtain rfl : b :: bs' = bs := Except.ok.inj h
    rcases List.mem_cons.mp ha with rfl | ha
    · exact ⟨b, List.mem_cons_self, hb⟩
    · obtain ⟨b', hb', hab⟩ := ih hbs' ha
      exact ⟨b', List.mem_cons_of_mem b hb', hab⟩

theorem eq_map_of_mapM_eq_ok {f : α → Except ε β} {g : α → β} {l : List α}
    {bs : List β} (hg : ∀ a ∈ l, ∀ b, f a = .ok b → b = g a) (h : l.mapM f = .ok bs) :
    bs = l.map g := by
  induction l generalizing bs with
  | nil => exact (Except.ok.inj h).symm
  | cons a l ih =>
    rw [List.mapM_cons] at h
    obtain ⟨b, hb, h⟩ := bind_eq_ok.mp h
    obtain ⟨bs', hbs', h⟩ := bind_eq_ok.mp h
    obtain ⟨ha, hl⟩ := List.forall_mem_cons.mp hg
    rw [← Except.ok.inj h, ha b hb, ih hl hbs', List.map_cons]

theorem map_eq_error {x : Except ε α} {f : α → β} {e : ε} : x.map f = .error e ↔ x = .error e := by
  cases x <;> simp [Except.map]

theorem exists_map_eq_ok {x : Except ε α} {f : α → β} :
    (∃ b, x.map f = .ok b) ↔ ∃ a, x = .ok a := by
  cases x <;> simp [Except.map]

theorem bind_eq_error {x : Except ε α} {f : α → Except ε β} {e : ε} :
    x >>= f = .error e ↔ x = .error e ∨ ∃ a, x = .ok a ∧ f a = .error e := by
  cases x <;> simp [bind, Except.bind]

theorem mapM_eq_error {f : α → Except ε β} {l : List α} {e : ε} (h : l.mapM f = .error e) :
    ∃ a ∈ l, f a = .error e := by
  induction l with
  | nil => contradiction
  | cons a l ih =>
    rw [List.mapM_cons] at h
    rcases bind_eq_error.mp h with ha | ⟨b, -, h⟩
    · exact ⟨a, List.mem_cons_self, ha⟩
    · rcases bind_eq_error.mp h with hl | ⟨bs, -, h⟩
      · obtain ⟨c, hc, hfails⟩ := ih hl
        exact ⟨c, List.mem_cons_of_mem a hc, hfails⟩
      · contradiction

theorem foldlM_eq_error {f : β → α → Except ε β} {l : List α} {b : β} {e : ε} :
    l.foldlM f b = .error e ↔ ∃ before a after c,
      l = before ++ a :: after ∧ before.foldlM f b = .ok c ∧ f c a = .error e := by
  induction l generalizing b with
  | nil => simp [pure, Except.pure]
  | cons a l ih =>
    rw [List.foldlM_cons, bind_eq_error]
    constructor
    · rintro (ha | ⟨c, hc, h⟩)
      · exact ⟨[], a, l, b, rfl, rfl, ha⟩
      · obtain ⟨before, x, after, d, rfl, hd, hx⟩ := ih.mp h
        refine ⟨a :: before, x, after, d, rfl, ?_, hx⟩
        rw [List.foldlM_cons, hc]
        exact hd
    · rintro ⟨before, x, after, d, hl, hd, hx⟩
      cases before with
      | nil =>
        obtain ⟨rfl, rfl⟩ := List.cons.inj hl
        obtain rfl : b = d := Except.ok.inj hd
        exact .inl hx
      | cons y before =>
        obtain ⟨rfl, rfl⟩ := List.cons.inj hl
        rw [List.foldlM_cons] at hd
        obtain ⟨c, hc, hd⟩ := bind_eq_ok.mp hd
        exact .inr ⟨c, hc, ih.mpr ⟨before, x, after, d, rfl, hd, hx⟩⟩

theorem Checked.toResult_eq_ok {x : Checked α} {a : α} : x.toResult = .ok a ↔ x = .ok a := by
  cases x <;> simp [toResult]

namespace Word

theorem eq_of_within {steps : List Int} {a b : α} (h : within steps a = .ok b) : b = a := by
  rw [within] at h
  split_ifs at h
  exact (Except.ok.inj h).symm

theorem eq_of_int64 {x y : Int} (h : int64 x = .ok y) : y = x := by
  rw [int64] at h
  split_ifs at h
  exact (Except.ok.inj h).symm

theorem bounds_of_within {steps : List Int} {a b : α} (h : within steps a = .ok b) :
    ∀ x ∈ steps, minInt64 ≤ x ∧ x ≤ maxInt64 := by
  rw [within] at h
  split_ifs at h with hsteps
  simpa using hsteps

theorem bounds_of_int64 {x y : Int} (h : int64 x = .ok y) : minInt64 ≤ x ∧ x ≤ maxInt64 := by
  rw [int64] at h
  split_ifs at h with hx
  exact hx

theorem eq_of_int32 {x y : Int} (h : int32 x = .ok y) : y = x := by
  rw [int32] at h
  split_ifs at h
  exact (Except.ok.inj h).symm

theorem eq_of_nat64 {x y : Nat} (h : nat64 x = .ok y) : y = x := by
  rw [nat64] at h
  split_ifs at h
  exact (Except.ok.inj h).symm

theorem eq_of_div {x y z : Int} (h : div x y = .ok z) : z = x / y := by
  rw [div] at h
  split_ifs at h
  exact eq_of_int64 h

theorem eq_of_mod {x y z : Int} (h : mod x y = .ok z) : z = x % y := by
  rw [mod] at h
  split_ifs at h
  obtain ⟨_, -, h⟩ := bind_eq_ok.mp h
  exact (Except.ok.inj h).symm

theorem int64_eq_ok {x : Int} (h : -2 ^ 63 ≤ x) (h' : x < 2 ^ 63) : int64 x = .ok x := by
  rw [int64, minInt64, maxInt64, if_pos]
  omega

theorem nat64_eq_ok {n : Nat} (h : n ≤ maxNat64) : nat64 n = .ok n := if_pos h

theorem within_eq_ok {steps : List Int} (h : ∀ x ∈ steps, -2 ^ 63 ≤ x ∧ x < 2 ^ 63)
    (a : α) : within steps a = .ok a := by
  rw [within, minInt64, maxInt64, if_pos]
  rw [List.all_eq_true]
  intro x hx
  have := h x hx
  simp only [Bool.and_eq_true, decide_eq_true_eq]
  omega

theorem ediv_bounds {x y b : Int} (hy : 0 < y) (hb : 0 ≤ b) (h : -b ≤ x) (h' : x < b) :
    -b ≤ x / y ∧ x / y < b := by
  constructor
  · refine (Int.le_ediv_iff_mul_le hy).mpr (le_trans ?_ h)
    nlinarith
  · refine (Int.ediv_lt_iff_lt_mul hy).mpr (h'.trans_le ?_)
    nlinarith

theorem div_eq_ok {x y : Int} (hy : 0 < y) (h : -2 ^ 63 ≤ x) (h' : x < 2 ^ 63) :
    div x y = .ok (x / y) := by
  obtain ⟨hq, hq'⟩ := ediv_bounds hy (by norm_num) h h'
  rw [div, if_neg hy.ne', int64_eq_ok hq hq']

theorem mod_eq_ok {x y : Int} (hy : 0 < y) (h : -2 ^ 63 ≤ x) (h' : x < 2 ^ 63) :
    mod x y = .ok (x % y) := by
  obtain ⟨hq, hq'⟩ := ediv_bounds hy (by norm_num) h h'
  rw [mod, if_neg hy.ne', int64_eq_ok hq hq']
  rfl

/-! ### Steps that fail by overflow only -/

/-- A step has the given result, unless a value on the way does not fit. -/
def OkOrOverflow (x : Checked α) (a : α) : Prop := x = .ok a ∨ x = .error .overflow

theorem OkOrOverflow.ok (a : α) : OkOrOverflow (.ok a) a := .inl rfl

theorem OkOrOverflow.bind {x : Checked α} {a : α} {f : α → Checked β} {b : β}
    (hx : OkOrOverflow x a) (hf : OkOrOverflow (f a) b) : OkOrOverflow (x >>= f) b := by
  rcases hx with rfl | rfl
  · exact hf
  · exact .inr rfl

theorem okOrOverflow_within (steps : List Int) (a : α) : OkOrOverflow (within steps a) a := by
  rw [within]
  split_ifs
  · exact .inl rfl
  · exact .inr rfl

theorem okOrOverflow_int64 (x : Int) : OkOrOverflow (int64 x) x := by
  rw [int64]
  split_ifs
  · exact .inl rfl
  · exact .inr rfl

theorem nat64_bind_eq_error {n : Nat} {f : Nat → Checked α} (h : f n = .error .overflow) :
    nat64 n >>= f = .error .overflow := by
  rw [nat64]
  split_ifs
  · exact h
  · rfl

theorem okOrOverflow_div {y : Int} (hy : 0 < y) (x : Int) : OkOrOverflow (div x y) (x / y) := by
  rw [div, if_neg hy.ne']
  exact okOrOverflow_int64 _

theorem okOrOverflow_mod {y : Int} (hy : 0 < y) (x : Int) : OkOrOverflow (mod x y) (x % y) := by
  rw [mod, if_neg hy.ne']
  exact (okOrOverflow_int64 _).bind (.ok _)

/-! ### Steps that take numbers in turn -/

/-- A step that takes the numbers after `first` up to `last` has the given result if these have 32
bits, and else overflows. -/
def Takes (first last : Nat) (x : Checked α) (a : α) : Prop :=
  x = if last ≤ max first maxNat32 then .ok a else .error .overflow

namespace Takes

variable {first middle last : Nat} {x : Checked α} {a : α}

theorem ok (first : Nat) (a : α) : Takes first first (.ok a) a := (if_pos (le_max_left _ _)).symm

theorem bind {f : α → Checked β} {b : β} (hx : Takes first middle x a)
    (hf : Takes middle last (f a) b) (hfirst : first ≤ middle) (hlast : middle ≤ last) :
    Takes first last (x >>= f) b := by
  rw [Takes] at hx hf ⊢
  by_cases hroom : middle ≤ max first maxNat32
  · rw [hx, if_pos hroom]
    show f a = _
    rw [hf]
    exact if_congr (by omega) rfl rfl
  · rw [hx, if_neg hroom, if_neg (by omega)]
    rfl

theorem eq_of_ok {b : α} (h : Takes first last x a) (hok : x = .ok b) : b = a := by
  rw [Takes, hok] at h
  split_ifs at h
  exact Except.ok.inj h

theorem eq_ite (h : Takes first last x a) (hfirst : first ≤ maxNat32) :
    x = if last ≤ maxNat32 then .ok a else .error .overflow := by
  rwa [Takes, max_eq_right hfirst] at h

theorem le_of_ok {b : α} (h : Takes first last x a) (hfirst : first ≤ maxNat32)
    (hok : x = .ok b) : last ≤ maxNat32 := by
  rw [h.eq_ite hfirst] at hok
  split_ifs at hok with hlast
  exact hlast

end Takes

theorem takes_nat32 (n : Nat) : Takes n (n + 1) (nat32 (n + 1)) (n + 1) := by
  rw [Takes, nat32]
  exact if_congr (by omega) rfl rfl

end Word

end CellSat
