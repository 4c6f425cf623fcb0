import Mathlib
import CellSat.Counter.Adder
import CellSat.Proofs.Tag.Bits
import CellSat.Proofs.Text
/-!
# What a network of adders does to its wires

A network is followed as a multiset of wires with their levels. One adder takes three wires of a
level, or two and the false wire, and gives back a sum on the same level and a carry on the next.

* `Network.Adds`: the wires before and after a list of adders;
* `Adds.weigh_le`: if no adder loses weight, the network loses none;
* `evaluate`, `Adds.exact_evaluate`: adders evaluated in order keep the weight exactly;
* `Adds.not_taken`: what is left at the end was not taken by any adder;
* `rounds_adds`, `forall_length_rounds`: rounds of adders, and that they end;
* `build_map`: the shape of a network does not depend on the literals that are counted;
* **`countP_le_spelled_outputs`**: the outputs spell at least the number of true literals;
* **`spelled_evaluate`**: with exact adders they spell this number;
* **`exists_spelled_outputs`**, **`exists_map_outputs`**: they can spell it, and with only false
  literals they can spell anything.
-/

namespace CellSat

/-! ## Temporaries -/

namespace Temporary

theorem literal_injective {m n : Nat} (h : literal m = literal n) : m = n := by
  have hname := congrArg (fun l : Literal => l.name.toList) h
  simp only [literal, String.toList_append, List.append_cancel_right_eq,
    List.append_cancel_left_eq, String.toList_inj] at hname
  exact Text.padStart_hex_injective 3 hname

theorem zero_ne_literal (n : Nat) : Literal.zero ≠ literal n := by
  intro h
  have hname := congrArg (fun l : Literal => l.name.toList) h
  simp [literal, Literal.zero, Literal.zeroName] at hname

end Temporary

/-- The outputs of an adder weigh at least as much as its inputs. -/
def Adder.Keeps (u : Literal → Int) (a : Adder) : Prop :=
  u a.first + u a.second + u a.third ≤ 2 * u a.carry + u a.sum

/-- The outputs of an adder weigh as much as its inputs. -/
def Adder.Exact (u : Literal → Int) (a : Adder) : Prop :=
  u a.first + u a.second + u a.third = 2 * u a.carry + u a.sum

/-- The values of wires after an adder has driven its outputs: the sum and the carry are the binary
digits of the number of its true inputs. -/
def Adder.drive (a : Adder) (u : Literal → Bool) : Literal → Bool :=
  Function.update (Function.update u a.sum (u a.first ^^ u a.second ^^ u a.third)) a.carry
    (u a.first && u a.second || u a.first && u a.third || u a.second && u a.third)

namespace Network

/-- The temporaries up to a number and all other literals. -/
def Old (issued : Nat) (l : Literal) : Prop := ∀ k, issued < k → l ≠ Temporary.literal k

theorem Old.mono {issued issued' : Nat} {l : Literal} (h : Old issued l) (hle : issued ≤ issued') :
    Old issued' l := fun k hk => h k (Nat.lt_of_le_of_lt hle hk)

theorem old_literal {issued k : Nat} (h : k ≤ issued) : Old issued (Temporary.literal k) := by
  intro m hm heq
  have := Temporary.literal_injective heq
  omega

/-! ## Wires and adders -/

/-- Adders that drive the temporaries after `issued` turn the first wires into the second ones. Each
wire comes with its level. -/
inductive Adds : Nat → Multiset (Nat × Literal) → List Adder → Multiset (Nat × Literal) → Prop
  | done (issued : Nat) (s : Multiset (Nat × Literal)) : Adds issued s [] s
  | full {issued level : Nat} {x y z : Literal} {s t : Multiset (Nat × Literal)}
      {adders : List Adder}
      (h : Adds (issued + 2) ((level, Temporary.literal (issued + 1)) ::ₘ
        (level + 1, Temporary.literal (issued + 2)) ::ₘ s) adders t) :
      Adds issued ((level, x) ::ₘ (level, y) ::ₘ (level, z) ::ₘ s)
        (⟨Temporary.literal (issued + 1), Temporary.literal (issued + 2), x, y, z⟩ :: adders) t
  | half {issued level : Nat} {x y : Literal} {s t : Multiset (Nat × Literal)} {adders : List Adder}
      (h : Adds (issued + 2) ((level, Temporary.literal (issued + 1)) ::ₘ
        (level + 1, Temporary.literal (issued + 2)) ::ₘ s) adders t) :
      Adds issued ((level, x) ::ₘ (level, y) ::ₘ s)
        (⟨Temporary.literal (issued + 1), Temporary.literal (issued + 2), x, y, .zero⟩ :: adders) t

variable {issued : Nat} {s t : Multiset (Nat × Literal)} {adders : List Adder}

namespace Adds

theorem add_right (h : Adds issued s adders t) (u : Multiset (Nat × Literal)) :
    Adds issued (s + u) adders (t + u) := by
  induction h with
  | done issued s => exact done issued (s + u)
  | full h ih =>
    simp only [Multiset.cons_add] at ih ⊢
    exact full ih
  | half h ih =>
    simp only [Multiset.cons_add] at ih ⊢
    exact half ih

theorem trans {more : List Adder} {u : Multiset (Nat × Literal)} (h : Adds issued s adders t)
    (h' : Adds (issued + 2 * adders.length) t more u) : Adds issued s (adders ++ more) u := by
  induction h with
  | done issued s => exact h'
  | @full issued level x y z s t adders h ih =>
    refine full (ih ?_)
    rwa [show issued + 2 + 2 * adders.length = issued + 2 * (adders.length + 1) by omega]
  | @half issued level x y s t adders h ih =>
    refine half (ih ?_)
    rwa [show issued + 2 + 2 * adders.length = issued + 2 * (adders.length + 1) by omega]

/-- A wire at the end was there before or is driven by one of the adders. -/
theorem mem_or (h : Adds issued s adders t) {p : Nat × Literal} (hp : p ∈ t) :
    p ∈ s ∨ ∃ k, issued < k ∧ k ≤ issued + 2 * adders.length ∧ p.2 = Temporary.literal k := by
  induction h with
  | done issued s => exact Or.inl hp
  | @full issued level x y z s t adders h ih | @half issued level x y s t adders h ih =>
    rcases ih hp with hmem | ⟨k, hk, hk', hp⟩
    · rw [Multiset.mem_cons, Multiset.mem_cons] at hmem
      rcases hmem with rfl | rfl | hmem
      · exact Or.inr ⟨issued + 1, by simp, by rw [List.length_cons]; omega, rfl⟩
      · exact Or.inr ⟨issued + 2, by simp, by rw [List.length_cons]; omega, rfl⟩
      · exact Or.inl (by simp [hmem])
    · exact Or.inr ⟨k, by omega, by rw [List.length_cons]; omega, hp⟩

end Adds

theorem forall_after {P : Literal → Prop} {level : Nat} (hsum : P (Temporary.literal (issued + 1)))
    (hcarry : P (Temporary.literal (issued + 2))) (hs : ∀ p ∈ s, P p.2) :
    ∀ p ∈ (level, Temporary.literal (issued + 1)) ::ₘ
      (level + 1, Temporary.literal (issued + 2)) ::ₘ s, P p.2 := by
  simp only [Multiset.mem_cons, forall_eq_or_imp]
  exact ⟨hsum, hcarry, hs⟩

theorem Adds.forall_adders (h : Adds issued s adders t) {P : Literal → Prop} (hs : ∀ p ∈ s, P p.2)
    (hliteral : ∀ k, issued < k → k ≤ issued + 2 * adders.length → P (Temporary.literal k))
    {a : Adder} (ha : a ∈ adders) :
    P a.first ∧ P a.second ∧ (P a.third ∨ a.third = .zero) ∧
      (∃ k, issued < k ∧ k ≤ issued + 2 * adders.length ∧ a.sum = Temporary.literal k) ∧
      ∃ k, issued < k ∧ k ≤ issued + 2 * adders.length ∧ a.carry = Temporary.literal k := by
  induction h with
  | done issued s => simp at ha
  | @full issued level x y z s t adders h ih | @half issued level x y s t adders h ih =>
    have hrest : ∀ p ∈ s, P p.2 := fun p hp => hs p (by simp [hp])
    simp only [Multiset.mem_cons, forall_eq_or_imp] at hs
    rw [List.length_cons] at hliteral ⊢
    rcases List.mem_cons.mp ha with rfl | ha
    · refine ⟨by simp [hs], by simp [hs], by simp [hs], ?_, ?_⟩
      · exact ⟨issued + 1, by omega, by omega, rfl⟩
      · exact ⟨issued + 2, by omega, by omega, rfl⟩
    · have hsum := hliteral (issued + 1) (by omega) (by omega)
      have hcarry := hliteral (issued + 2) (by omega) (by omega)
      obtain ⟨hfirst, hsecond, hthird, ⟨k, hk, hk', hsum⟩, m, hm, hm', hcarry⟩ :=
        ih (forall_after hsum hcarry hrest)
          (fun k hk hk' => hliteral k (by omega) (by omega)) ha
      exact ⟨hfirst, hsecond, hthird, ⟨k, by omega, by omega, hsum⟩, m, by omega, by omega, hcarry⟩

/-! ## Weights -/

/-- The sum of the values of wires, where a level counts twice the one below it. -/
def weigh (u : Literal → Int) (s : Multiset (Nat × Literal)) : Int :=
  (s.map fun p => 2 ^ p.1 * u p.2).sum

@[simp] theorem weigh_cons (u : Literal → Int) (p : Nat × Literal) (s : Multiset (Nat × Literal)) :
    weigh u (p ::ₘ s) = 2 ^ p.1 * u p.2 + weigh u s := by
  simp [weigh]

@[simp] theorem weigh_add (u : Literal → Int) (s t : Multiset (Nat × Literal)) :
    weigh u (s + t) = weigh u s + weigh u t := by
  simp [weigh]

/-- If no adder loses weight, the network loses none. -/
theorem Adds.weigh_le (h : Adds issued s adders t) {u : Literal → Int} (hzero : u .zero = 0)
    (hu : ∀ a ∈ adders, a.Keeps u) : weigh u s ≤ weigh u t := by
  induction h with
  | done issued s => exact le_refl _
  | @full issued level x y z s t adders h ih =>
    rw [List.forall_mem_cons] at hu
    refine le_trans ?_ (ih hu.2)
    have := mul_le_mul_of_nonneg_left hu.1 (show (0 : Int) ≤ 2 ^ level by positivity)
    simp only [weigh_cons, pow_succ]
    linarith
  | @half issued level x y s t adders h ih =>
    rw [List.forall_mem_cons] at hu
    refine le_trans ?_ (ih hu.2)
    have := mul_le_mul_of_nonneg_left hu.1 (show (0 : Int) ≤ 2 ^ level by positivity)
    simp only [weigh_cons, pow_succ, hzero] at this ⊢
    linarith

theorem Adds.weigh_eq (h : Adds issued s adders t) {u : Literal → Int} (hzero : u .zero = 0)
    (hu : ∀ a ∈ adders, a.Exact u) : weigh u s = weigh u t := by
  refine le_antisymm (h.weigh_le hzero fun a ha => (hu a ha).le) ?_
  -- The opposite values are kept as well.
  have hneg := h.weigh_le (u := fun l => -u l) (by simp [hzero]) fun a ha => by
    have := hu a ha
    simp only [Adder.Exact, Adder.Keeps] at this ⊢
    linarith
  simpa [weigh, Multiset.sum_map_neg'] using hneg

/-! ## Values of wires -/

/-- The truth value of a wire as a number. -/
def value (u : Literal → Bool) (l : Literal) : Int := (u l).toNat

/-- The values of wires after adders have driven their outputs, one adder after the other. -/
def evaluate (adders : List Adder) (u : Literal → Bool) : Literal → Bool :=
  adders.foldl (fun u a => a.drive u) u

theorem old_zero : Old issued .zero := fun k _ => Temporary.zero_ne_literal k

theorem old_after {level : Nat} (hs : ∀ p ∈ s, Old issued p.2) :
    ∀ p ∈ (level, Temporary.literal (issued + 1)) ::ₘ
      (level + 1, Temporary.literal (issued + 2)) ::ₘ s, Old (issued + 2) p.2 :=
  forall_after (old_literal (by omega)) (old_literal (by omega))
    fun p hp => (hs p hp).mono (by omega)

section Drive

variable {a : Adder} (hsum : a.sum = Temporary.literal (issued + 1))
  (hcarry : a.carry = Temporary.literal (issued + 2))

include hsum hcarry

theorem drive_of_old {l : Literal} (hl : Old issued l) (u : Literal → Bool) :
    a.drive u l = u l := by
  rw [Adder.drive, hsum, hcarry, Function.update_of_ne (hl _ (by omega)),
    Function.update_of_ne (hl _ (by omega))]

variable (hfirst : Old issued a.first) (hsecond : Old issued a.second)
  (hthird : Old issued a.third)

include hfirst hsecond hthird

/-- An adder keeps the weight of inputs that it does not drive. -/
theorem exact_drive (u : Literal → Bool) : a.Exact (value (a.drive u)) := by
  have hne : a.sum ≠ a.carry := by
    rw [hsum, hcarry]
    exact old_literal (le_refl _) _ (by omega)
  simp only [Adder.Exact, value, drive_of_old hsum hcarry hfirst, drive_of_old hsum hcarry hsecond,
    drive_of_old hsum hcarry hthird]
  simp only [Adder.drive, Function.update_self, Function.update_of_ne hne]
  cases u a.first <;> cases u a.second <;> cases u a.third <;> rfl

end Drive

theorem Adds.evaluate_of_old (h : Adds issued s adders t) (u : Literal → Bool) {l : Literal}
    (hl : Old issued l) : evaluate adders u l = u l := by
  induction h generalizing u with
  | done issued s => rfl
  | full h ih | half h ih => exact (ih _ (hl.mono (by omega))).trans (drive_of_old rfl rfl hl u)

theorem Adds.exact_evaluate_cons (h : Adds (issued + 2) s adders t) {a : Adder}
    (hsum : a.sum = Temporary.literal (issued + 1))
    (hcarry : a.carry = Temporary.literal (issued + 2)) (hfirst : Old issued a.first)
    (hsecond : Old issued a.second) (hthird : Old issued a.third) (u : Literal → Bool) :
    a.Exact (value (evaluate (a :: adders) u)) := by
  have hkept : ∀ l, Old (issued + 2) l →
      value (evaluate (a :: adders) u) l = value (a.drive u) l := fun l hl =>
    congrArg (fun b : Bool => (b.toNat : Int)) (h.evaluate_of_old _ hl)
  have hexact := exact_drive hsum hcarry hfirst hsecond hthird u
  have hsum' : Old (issued + 2) a.sum := hsum ▸ old_literal (by omega)
  have hcarry' : Old (issued + 2) a.carry := hcarry ▸ old_literal (by omega)
  simp only [Adder.Exact] at hexact ⊢
  rwa [hkept _ (hfirst.mono (by omega)), hkept _ (hsecond.mono (by omega)),
    hkept _ (hthird.mono (by omega)), hkept _ hsum', hkept _ hcarry']

theorem Adds.exact_evaluate (h : Adds issued s adders t) (hs : ∀ p ∈ s, Old issued p.2)
    (u : Literal → Bool) : ∀ a ∈ adders, a.Exact (value (evaluate adders u)) := by
  induction h generalizing u with
  | done issued s => simp
  | full h ih =>
    simp only [Multiset.mem_cons, forall_eq_or_imp] at hs
    obtain ⟨hx, hy, hz, hs⟩ := hs
    exact List.forall_mem_cons.mpr ⟨h.exact_evaluate_cons rfl rfl hx hy hz u, ih (old_after hs) _⟩
  | half h ih =>
    simp only [Multiset.mem_cons, forall_eq_or_imp] at hs
    obtain ⟨hx, hy, hs⟩ := hs
    exact List.forall_mem_cons.mpr
      ⟨h.exact_evaluate_cons rfl rfl hx hy old_zero u, ih (old_after hs) _⟩

theorem Adds.ne_of_not_mem (h : Adds issued s adders t) {x : Literal} (hx : Old issued x)
    (hnot : ∀ p ∈ s, p.2 ≠ x) {p : Nat × Literal} (hp : p ∈ t) : x ≠ p.2 := by
  rcases h.mem_or hp with hp | ⟨k, hk, -, hp⟩
  · exact (hnot p hp).symm
  · exact hp ▸ hx k hk

theorem nodup_after {level : Nat} (hs : ∀ p ∈ s, Old issued p.2) (hnodup : (s.map Prod.snd).Nodup) :
    (((level, Temporary.literal (issued + 1)) ::ₘ
      (level + 1, Temporary.literal (issued + 2)) ::ₘ s).map Prod.snd).Nodup := by
  have hnot : ∀ k, issued < k → Temporary.literal k ∉ s.map Prod.snd := by
    rintro k hk hmem
    obtain ⟨p, hp, heq⟩ := Multiset.mem_map.mp hmem
    exact hs p hp k hk heq
  have hne : Temporary.literal (issued + 1) ≠ Temporary.literal (issued + 2) :=
    old_literal (le_refl _) _ (by omega)
  simp only [Multiset.map_cons, Multiset.nodup_cons, Multiset.mem_cons]
  exact ⟨by simp [hne, hnot], by simp [hnot], hnodup⟩

theorem ne_after {level : Nat} {x : Literal} (hx : Old issued x) (hnot : ∀ p ∈ s, p.2 ≠ x) :
    ∀ p ∈ (level, Temporary.literal (issued + 1)) ::ₘ
      (level + 1, Temporary.literal (issued + 2)) ::ₘ s, p.2 ≠ x :=
  @forall_after _ _ (· ≠ x) _ (hx _ (by omega)).symm (hx _ (by omega)).symm hnot

theorem Adds.nodup (h : Adds issued s adders t) (hs : ∀ p ∈ s, Old issued p.2)
    (hnodup : (s.map Prod.snd).Nodup) : (t.map Prod.snd).Nodup := by
  induction h with
  | done issued s => exact hnodup
  | full h ih =>
    simp only [Multiset.mem_cons, forall_eq_or_imp] at hs
    simp only [Multiset.map_cons, Multiset.nodup_cons] at hnodup
    exact ih (old_after hs.2.2.2) (nodup_after hs.2.2.2 hnodup.2.2.2)
  | half h ih =>
    simp only [Multiset.mem_cons, forall_eq_or_imp] at hs
    simp only [Multiset.map_cons, Multiset.nodup_cons] at hnodup
    exact ih (old_after hs.2.2) (nodup_after hs.2.2 hnodup.2.2)

/-- No wire at the end was taken by an adder, if the wires before are different. -/
theorem Adds.not_taken (h : Adds issued s adders t) (hs : ∀ p ∈ s, Old issued p.2)
    (hzero : ∀ p ∈ s, p.2 ≠ .zero) (hnodup : (s.map Prod.snd).Nodup) {p : Nat × Literal}
    (hp : p ∈ t) {a : Adder} (ha : a ∈ adders) :
    a.first ≠ p.2 ∧ a.second ≠ p.2 ∧ a.third ≠ p.2 := by
  induction h with
  | done issued s => simp at ha
  | @full issued level x y z s t adders h ih =>
    simp only [Multiset.mem_cons, forall_eq_or_imp] at hs hzero
    obtain ⟨hx, hy, hz, hs⟩ := hs
    simp only [Multiset.map_cons, Multiset.nodup_cons, Multiset.mem_cons, not_or,
      Multiset.mem_map, not_exists, not_and] at hnodup
    obtain ⟨⟨-, -, hxs⟩, ⟨-, hys⟩, hzs, hnodup⟩ := hnodup
    rcases List.mem_cons.mp ha with rfl | ha
    · exact ⟨h.ne_of_not_mem (hx.mono (by omega)) (ne_after hx hxs) hp,
        h.ne_of_not_mem (hy.mono (by omega)) (ne_after hy hys) hp,
        h.ne_of_not_mem (hz.mono (by omega)) (ne_after hz hzs) hp⟩
    · exact ih (old_after hs) (ne_after old_zero hzero.2.2.2)
        (nodup_after hs hnodup) hp ha
  | @half issued level x y s t adders h ih =>
    simp only [Multiset.mem_cons, forall_eq_or_imp] at hs hzero
    obtain ⟨hx, hy, hs⟩ := hs
    simp only [Multiset.map_cons, Multiset.nodup_cons, Multiset.mem_cons, not_or,
      Multiset.mem_map, not_exists, not_and] at hnodup
    obtain ⟨⟨-, hxs⟩, hys, hnodup⟩ := hnodup
    rcases List.mem_cons.mp ha with rfl | ha
    · exact ⟨h.ne_of_not_mem (hx.mono (by omega)) (ne_after hx hxs) hp,
        h.ne_of_not_mem (hy.mono (by omega)) (ne_after hy hys) hp,
        h.ne_of_not_mem old_zero (ne_after old_zero hzero.2.2) hp⟩
    · exact ih (old_after hs) (ne_after old_zero hzero.2.2)
        (nodup_after hs hnodup) hp ha

/-! ## Rounds -/

/-- Wires on one level. -/
def wiresAt (level : Nat) (wires : List Literal) : Multiset (Nat × Literal) :=
  ↑(wires.map (Prod.mk level))

@[simp] theorem wiresAt_nil (level : Nat) : wiresAt level [] = 0 := rfl

@[simp] theorem wiresAt_cons (level : Nat) (x : Literal) (wires : List Literal) :
    wiresAt level (x :: wires) = (level, x) ::ₘ wiresAt level wires := rfl

@[simp] theorem wiresAt_append (level : Nat) (wires more : List Literal) :
    wiresAt level (wires ++ more) = wiresAt level wires + wiresAt level more := by
  simp [wiresAt]

theorem mem_wiresAt {level : Nat} {wires : List Literal} {p : Nat × Literal} :
    p ∈ wiresAt level wires ↔ p.1 = level ∧ p.2 ∈ wires := by
  obtain ⟨i, l⟩ := p
  simp [wiresAt, eq_comm, and_comm]

theorem map_snd_wiresAt (level : Nat) (wires : List Literal) :
    (wiresAt level wires).map Prod.snd = ↑wires := by
  simp [wiresAt, Function.comp_def]

/-- The wires of levels, from the level with a given number on. -/
def placed : Nat → List (List Literal) → Multiset (Nat × Literal)
  | _, [] => 0
  | level, wires :: levels => wiresAt level wires + placed (level + 1) levels

theorem pad_triple (a b c : Literal) (wires : List Literal) :
    pad (a :: b :: c :: wires) = a :: b :: c :: pad wires := by
  have hmod : (a :: b :: c :: wires).length % 3 = wires.length % 3 := by
    simp only [List.length_cons]
    omega
  simp only [pad, hmod]
  split_ifs <;> rfl

/-- One level: sums stay on it and carries go to the next one. -/
theorem addTriples_adds (level issued : Nat) (wires : List Literal) :
    Adds issued (wiresAt level wires) (addTriples issued (pad wires)).1
      (wiresAt level ((addTriples issued (pad wires)).1.map (·.sum)) +
        wiresAt (level + 1) ((addTriples issued (pad wires)).1.map (·.carry)) +
        wiresAt level (addTriples issued (pad wires)).2) := by
  match wires with
  | [] => exact Adds.done issued 0
  | [a] => simpa [pad, addTriples] using Adds.done issued {(level, a)}
  | [a, b] =>
    have hdone := Adds.done (issued + 2) ((level, Temporary.literal (issued + 1)) ::ₘ
      (level + 1, Temporary.literal (issued + 2)) ::ₘ 0)
    simpa [pad, addTriples] using Adds.half hdone
  | a :: b :: c :: wires =>
    rw [pad_triple]
    simp only [addTriples, List.map_cons, wiresAt_cons, Multiset.cons_add, Multiset.add_cons]
    have ih := (addTriples_adds level (issued + 2) wires).add_right
      ((level, Temporary.literal (issued + 1)) ::ₘ
        (level + 1, Temporary.literal (issued + 2)) ::ₘ 0)
    simp only [Multiset.add_cons, add_zero] at ih
    refine Adds.full ?_
    rwa [Multiset.cons_swap (level + 1, Temporary.literal (issued + 2))]

/-- One round, where carries are on the lowest level already. -/
theorem roundFrom_adds (level issued : Nat) (carries : List Literal)
    (levels : List (List Literal)) :
    Adds issued (wiresAt level carries + placed level levels) (roundFrom issued carries levels).1
      (placed level (roundFrom issued carries levels).2) := by
  induction levels generalizing level issued carries with
  | nil =>
    have hnext : placed level (roundFrom issued carries []).2 = wiresAt level carries := by
      by_cases hcarries : carries = [] <;> simp [roundFrom, hcarries, placed]
    rw [hnext]
    rw [placed, add_zero]
    exact Adds.done issued (wiresAt level carries)
  | cons wires levels ih =>
    simp only [roundFrom, placed, wiresAt_append]
    have hlevel := addTriples_adds level issued wires
    generalize addTriples issued (pad wires) = triples at hlevel ⊢
    obtain ⟨adders, rest⟩ := triples
    have hrest := ih (level + 1) (issued + 2 * adders.length) (adders.map (·.carry))
    -- The level is followed by the levels above it, and each leaves the wires of the other alone.
    have hlevel := hlevel.add_right (wiresAt level carries + placed (level + 1) levels)
    have hrest := hrest.add_right
      (wiresAt level carries + wiresAt level (adders.map (·.sum)) + wiresAt level rest)
    have hmiddle : wiresAt level (adders.map (·.sum)) + wiresAt (level + 1) (adders.map (·.carry)) +
        wiresAt level rest + (wiresAt level carries + placed (level + 1) levels) =
        wiresAt (level + 1) (adders.map (·.carry)) + placed (level + 1) levels +
          (wiresAt level carries + wiresAt level (adders.map (·.sum)) + wiresAt level rest) := by
      abel
    rw [hmiddle] at hlevel
    convert hlevel.trans hrest using 1 <;> abel

theorem rounds_adds (fuel issued : Nat) (levels : List (List Literal)) :
    Adds issued (placed 0 levels) (rounds fuel issued levels).1
      (placed 0 (rounds fuel issued levels).2) := by
  induction fuel generalizing issued levels with
  | zero => exact Adds.done issued _
  | succ fuel ih =>
    rw [rounds]
    split_ifs with hmore
    · have hround := roundFrom_adds 0 issued [] levels
      rw [wiresAt_nil, zero_add] at hround
      exact hround.trans (ih _ _)
    · exact Adds.done issued _

/-! ## The end of the rounds -/

theorem length_addTriples (issued : Nat) (wires : List Literal) :
    2 * (addTriples issued (pad wires)).1.length + (addTriples issued (pad wires)).2.length ≤
        wires.length ∧
      wires.length ≤
        3 * (addTriples issued (pad wires)).1.length + (addTriples issued (pad wires)).2.length ∧
      (addTriples issued (pad wires)).2.length ≤ 1 := by
  match wires with
  | [] | [a] | [a, b] => simp [pad, addTriples]
  | a :: b :: c :: wires =>
    have ih := length_addTriples (issued + 2) wires
    rw [pad_triple]
    simp only [addTriples, List.length_cons]
    omega

/-- The number of wires. -/
def wireCount (levels : List (List Literal)) : Nat := (levels.map List.length).sum

/-- How far wires can still move up, if there is room for a given number of levels. -/
def room : Nat → List (List Literal) → Nat
  | _, [] => 0
  | height, wires :: levels => height * wires.length + room (height - 1) levels

theorem wireCount_roundFrom (issued : Nat) (carries : List Literal) (levels : List (List Literal)) :
    wireCount (roundFrom issued carries levels).2 ≤ carries.length + wireCount levels := by
  induction levels generalizing issued carries with
  | nil => by_cases hcarries : carries = [] <;> simp [roundFrom, hcarries, wireCount]
  | cons wires levels ih =>
    have hlevel := length_addTriples issued wires
    have ih := ih (issued + 2 * (addTriples issued (pad wires)).1.length)
      ((addTriples issued (pad wires)).1.map (·.carry))
    simp only [roundFrom, wireCount, List.map_cons, List.sum_cons, List.length_append,
      List.length_map] at ih ⊢
    omega

theorem ne_nil_of_mem_roundFrom {issued : Nat} {carries : List Literal}
    {levels : List (List Literal)} (hlevels : ∀ wires ∈ levels, wires ≠ []) :
    ∀ wires ∈ (roundFrom issued carries levels).2, wires ≠ [] := by
  induction levels generalizing issued carries with
  | nil => by_cases hcarries : carries = [] <;> simp [roundFrom, hcarries]
  | cons wires levels ih =>
    rw [List.forall_mem_cons] at hlevels
    simp only [roundFrom, List.forall_mem_cons]
    refine ⟨fun hnil => hlevels.1 (List.eq_nil_of_length_eq_zero ?_), ih hlevels.2⟩
    have hlevel := length_addTriples issued wires
    have := congrArg List.length hnil
    simp only [List.length_append, List.length_map, List.length_nil] at this
    omega

theorem length_le_wireCount {levels : List (List Literal)}
    (hlevels : ∀ wires ∈ levels, wires ≠ []) : levels.length ≤ wireCount levels := by
  induction levels with
  | nil => simp
  | cons wires levels ih =>
    rw [List.forall_mem_cons] at hlevels
    have := ih hlevels.2
    have := List.length_pos_iff.mpr hlevels.1
    simp only [wireCount, List.map_cons, List.sum_cons, List.length_cons] at *
    omega

/-- Each adder moves a wire up. -/
theorem room_roundFrom (issued : Nat) (carries : List Literal) {levels : List (List Literal)}
    {height : Nat} (hheight : levels.length ≤ height) :
    room height (roundFrom issued carries levels).2 + (roundFrom issued carries levels).1.length ≤
      height * carries.length + room height levels := by
  induction levels generalizing issued carries height with
  | nil => by_cases hcarries : carries = [] <;> simp [roundFrom, hcarries, room]
  | cons wires levels ih =>
    obtain ⟨height, rfl⟩ : ∃ k, height = k + 1 := ⟨height - 1, by simp at hheight; omega⟩
    have hlevel := length_addTriples issued wires
    simp only [roundFrom, room]
    generalize addTriples issued (pad wires) = triples at hlevel ⊢
    obtain ⟨adders, rest⟩ := triples
    have ih := @ih (issued + 2 * adders.length) (adders.map (·.carry)) height
      (by simpa using hheight)
    have hmul := Nat.mul_le_mul_left (height + 1) hlevel.1
    simp only [List.length_append, List.length_map, Nat.add_sub_cancel, Nat.mul_add] at *
    have : (height + 1) * (2 * adders.length) = height * adders.length + adders.length +
        (height + 1) * adders.length := by ring
    omega

theorem exists_adder_of_roundFrom {issued : Nat} {carries : List Literal}
    {levels : List (List Literal)} (h : ∃ wires ∈ levels, 1 < wires.length) :
    0 < (roundFrom issued carries levels).1.length := by
  induction levels generalizing issued carries with
  | nil => simp at h
  | cons wires levels ih =>
    simp only [roundFrom, List.length_append]
    rw [List.exists_mem_cons_iff] at h
    rcases h with h | h
    · have := length_addTriples issued wires
      omega
    · have := @ih (issued + 2 * (addTriples issued (pad wires)).1.length)
        ((addTriples issued (pad wires)).1.map (·.carry)) h
      omega

theorem wireCount_le_room {levels : List (List Literal)} {height : Nat}
    (hheight : levels.length ≤ height) : wireCount levels ≤ room height levels := by
  induction levels generalizing height with
  | nil => simp [wireCount]
  | cons wires levels ih =>
    obtain ⟨height, rfl⟩ : ∃ k, height = k + 1 := ⟨height - 1, by simp at hheight; omega⟩
    have ih := @ih height (by simpa using hheight)
    simp only [wireCount, List.map_cons, List.sum_cons, room, Nat.add_sub_cancel] at *
    have : (height + 1) * wires.length = height * wires.length + wires.length := by ring
    omega

/-- **The rounds end** with one wire on each level. -/
theorem forall_length_rounds {fuel issued height : Nat} {levels : List (List Literal)}
    (hlevels : ∀ wires ∈ levels, wires ≠ []) (hcount : wireCount levels ≤ height)
    (hfuel : room height levels ≤ fuel) :
    ∀ wires ∈ (rounds fuel issued levels).2, wires.length = 1 := by
  induction fuel generalizing issued levels with
  | zero =>
    have := length_le_wireCount hlevels
    have := wireCount_le_room (Nat.le_trans this hcount)
    have hnil : levels = [] := List.eq_nil_of_length_eq_zero (by omega)
    simp [hnil, rounds]
  | succ fuel ih =>
    rw [rounds]
    split_ifs with hmore
    · have hcount' := wireCount_roundFrom issued [] levels
      have hroom := room_roundFrom issued [] (Nat.le_trans (length_le_wireCount hlevels) hcount)
      have hadder : 0 < (roundFrom issued [] levels).1.length :=
        exists_adder_of_roundFrom (by simpa using hmore)
      simp only [List.length_nil, Nat.mul_zero, Nat.zero_add] at hcount' hroom
      exact ih (ne_nil_of_mem_roundFrom hlevels) (Nat.le_trans hcount' hcount)
        (by simp only [round]; omega)
    · intro wires hwires
      have hpos := List.length_pos_iff.mpr (hlevels wires hwires)
      have hle : ¬ 1 < wires.length := fun hlt =>
        hmore (List.any_eq_true.mpr ⟨wires, hwires, by simpa using hlt⟩)
      omega

/-! ## Other literals -/

/-- The adder with other literals as inputs and outputs. -/
def mapAdder (f : Literal → Literal) (a : Adder) : Adder :=
  ⟨f a.sum, f a.carry, f a.first, f a.second, f a.third⟩

section Map

variable {f : Literal → Literal} {d : Nat} (hzero : f .zero = .zero)
  (hliteral : ∀ k, f (Temporary.literal k) = Temporary.literal (k + d))

include hzero in
theorem pad_map (wires : List Literal) : pad (wires.map f) = (pad wires).map f := by
  simp only [pad, List.length_map]
  split_ifs <;> simp [hzero]

include hliteral in
theorem addTriples_map (issued : Nat) (wires : List Literal) :
    addTriples (issued + d) (wires.map f) =
      ((addTriples issued wires).1.map (mapAdder f), (addTriples issued wires).2.map f) := by
  match wires with
  | [] | [a] | [a, b] => rfl
  | a :: b :: c :: wires =>
    simp only [List.map_cons, addTriples, Nat.add_right_comm _ d,
      addTriples_map (issued + 2) wires, mapAdder, hliteral]

include hzero hliteral in
theorem roundFrom_map (issued : Nat) (carries : List Literal) (levels : List (List Literal)) :
    roundFrom (issued + d) (carries.map f) (levels.map (List.map f)) =
      ((roundFrom issued carries levels).1.map (mapAdder f),
        (roundFrom issued carries levels).2.map (List.map f)) := by
  induction levels generalizing issued carries with
  | nil => by_cases hcarries : carries = [] <;> simp [roundFrom, hcarries]
  | cons wires levels ih =>
    simp only [List.map_cons, roundFrom, pad_map hzero, addTriples_map hliteral, List.length_map,
      List.map_append, List.map_map, Function.comp_def, Nat.add_right_comm _ d]
    have ih := ih (issued + 2 * (addTriples issued (pad wires)).1.length)
      ((addTriples issued (pad wires)).1.map (·.carry))
    rw [List.map_map] at ih
    simp only [Function.comp_def] at ih
    simp only [mapAdder, ih]

include hzero hliteral in
theorem rounds_map (fuel issued : Nat) (levels : List (List Literal)) :
    rounds fuel (issued + d) (levels.map (List.map f)) =
      ((rounds fuel issued levels).1.map (mapAdder f),
        (rounds fuel issued levels).2.map (List.map f)) := by
  induction fuel generalizing issued levels with
  | zero => rfl
  | succ fuel ih =>
    have hround := roundFrom_map hzero hliteral issued [] levels
    rw [List.map_nil] at hround
    simp only [rounds, List.any_map, Function.comp_def, List.length_map, round, hround,
      Nat.add_right_comm _ d, ih]
    split_ifs <;> simp

include hzero hliteral in
/-- **The shape of a network** depends neither on what is counted nor on what was issued before. -/
theorem build_map (issued : Nat) (literals : List Literal) :
    build (issued + d) (literals.map f) =
      ((build issued literals).1.map (mapAdder f), (build issued literals).2.map f) := by
  by_cases hnil : literals = []
  · simp [build, hnil]
  · have hrounds := rounds_map hzero hliteral (literals.length * literals.length) issued [literals]
    rw [List.map_singleton] at hrounds
    simp only [build, List.map_eq_nil_iff, hnil, if_false, List.length_map, hrounds,
      List.filterMap_map, List.map_filterMap, Function.comp_def, List.head?_map]

end Map

/-! ## Outputs -/

theorem eq_map_singleton {levels : List (List Literal)} (h : ∀ wires ∈ levels, wires.length = 1) :
    levels = (levels.filterMap List.head?).map fun l => [l] := by
  induction levels with
  | nil => rfl
  | cons wires levels ih =>
    rw [List.forall_mem_cons] at h
    obtain ⟨l, rfl⟩ := List.length_eq_one_iff.mp h.1
    rw [List.filterMap_cons, List.head?_cons, List.map_cons, ← ih h.2]

/-- The rounds of a network end with its outputs, one on each level. -/
theorem rounds_eq_build (issued : Nat) {literals : List Literal} (h : literals ≠ []) :
    rounds (literals.length * literals.length) issued [literals] =
      ((build issued literals).1, (build issued literals).2.map fun l => [l]) := by
  have hend := @forall_length_rounds (literals.length * literals.length) issued literals.length
    [literals] (by simpa using h) (by simp [wireCount]) (by simp [room])
  simp only [build, if_neg h]
  exact Prod.ext rfl (eq_map_singleton hend)

theorem build_adds (issued : Nat) {literals : List Literal} (h : literals ≠ []) :
    Adds issued (wiresAt 0 literals) (build issued literals).1
      (placed 0 ((build issued literals).2.map fun l => [l])) := by
  have hadds := rounds_adds (literals.length * literals.length) issued [literals]
  rw [rounds_eq_build issued h] at hadds
  simpa [placed] using hadds

theorem weigh_placed (u : Literal → Bool) (outputs : List Literal) (level : Nat) :
    weigh (value u) (placed level (outputs.map fun l => [l])) =
      2 ^ level * (Tag.spelled (outputs.map u) : Int) := by
  induction outputs generalizing level with
  | nil => simp [placed, weigh, Tag.spelled]
  | cons l outputs ih =>
    simp only [List.map_cons, placed, wiresAt_cons, wiresAt_nil, weigh_add, weigh_cons, ih,
      Tag.spelled, value, pow_succ]
    simp [weigh]
    ring

theorem weigh_wiresAt_zero (u : Literal → Bool) (literals : List Literal) :
    weigh (value u) (wiresAt 0 literals) = (literals.countP u : Int) := by
  induction literals with
  | nil => simp [weigh]
  | cons l literals ih =>
    rw [wiresAt_cons, weigh_cons, ih, List.countP_cons]
    cases h : u l <;> simp [value, h, add_comm]

theorem mem_placed {outputs : List Literal} {l : Literal} {i level : Nat} :
    (i, l) ∈ placed level (outputs.map fun l => [l]) ↔
      ∃ k, outputs[k]? = some l ∧ i = level + k := by
  induction outputs generalizing level with
  | nil => simp [placed]
  | cons o outputs ih =>
    simp only [List.map_cons, placed, wiresAt_cons, wiresAt_nil, Multiset.mem_add,
      Multiset.mem_cons, Multiset.notMem_zero, or_false, Prod.mk.injEq, ih]
    constructor
    · rintro (⟨rfl, rfl⟩ | ⟨k, hk, rfl⟩)
      · exact ⟨0, by simp, rfl⟩
      · exact ⟨k + 1, by simpa using hk, by omega⟩
    · rintro ⟨_ | k, hk, rfl⟩
      · exact Or.inl ⟨rfl, by simpa using hk.symm⟩
      · exact Or.inr ⟨k, by simpa using hk, by omega⟩

theorem map_snd_placed (outputs : List Literal) (level : Nat) :
    (placed level (outputs.map fun l => [l])).map Prod.snd = ↑outputs := by
  induction outputs generalizing level with
  | nil => rfl
  | cons o outputs ih => simp [placed, ih]

/-- If no adder loses weight, the outputs spell at least the number of true literals. -/
theorem countP_le_spelled_outputs (issued : Nat) {literals : List Literal} (h : literals ≠ [])
    {u : Literal → Bool} (hzero : u .zero = false)
    (hu : ∀ a ∈ (build issued literals).1, a.Keeps (value u)) :
    literals.countP u ≤ Tag.spelled ((build issued literals).2.map u) := by
  have hle := (build_adds issued h).weigh_le (by simp [value, hzero]) hu
  rw [weigh_wiresAt_zero, weigh_placed, pow_zero, one_mul] at hle
  exact_mod_cast hle

theorem spelled_evaluate (issued : Nat) {literals : List Literal} (h : literals ≠ [])
    (hold : ∀ l ∈ literals, Old issued l) {u : Literal → Bool} (hzero : u .zero = false) :
    Tag.spelled ((build issued literals).2.map (evaluate (build issued literals).1 u)) =
      literals.countP u := by
  have hadds := build_adds issued h
  have hexact := hadds.exact_evaluate (fun p hp => hold p.2 (mem_wiresAt.mp hp).2) u
  have hweigh := hadds.weigh_eq (by simp [value, hadds.evaluate_of_old u old_zero, hzero]) hexact
  rw [weigh_wiresAt_zero, weigh_placed, pow_zero, one_mul] at hweigh
  have hcount : literals.countP (evaluate (build issued literals).1 u) = literals.countP u :=
    List.countP_congr fun l hl => by rw [hadds.evaluate_of_old u (hold l hl)]
  rw [hcount] at hweigh
  exact_mod_cast hweigh.symm

/-! ## Positions -/

/-- A literal that stands for a place in a list, different from all that networks use. -/
def position (i : Nat) : Literal := { name := "", tag := some i }

/-- The places of a list of given length. -/
def positions (n : Nat) : List Literal := (List.range n).map position

theorem position_injective : Function.Injective position := fun i j h => by
  simpa [position] using h

theorem position_ne_literal (i k : Nat) : position i ≠ Temporary.literal k := fun h => by
  simpa [position, Temporary.literal] using congrArg Literal.tag h

theorem old_position (i : Nat) : Old issued (position i) := fun k _ => position_ne_literal i k

theorem position_ne_zero (i : Nat) : position i ≠ .zero := fun h => by
  simpa [position, Literal.zero] using congrArg Literal.tag h

theorem mem_wiresAt_positions {n : Nat} {p : Nat × Literal} :
    p ∈ wiresAt 0 (positions n) ↔ p.1 = 0 ∧ ∃ i < n, p.2 = position i := by
  simp [mem_wiresAt, positions, eq_comm]

variable {n : Nat}

theorem positions_ne_nil (hn : n ≠ 0) : positions n ≠ [] := by
  simpa [positions] using hn

theorem old_of_mem_positions {p : Nat × Literal} (hp : p ∈ wiresAt 0 (positions n)) :
    Old issued p.2 := by
  obtain ⟨-, i, -, hi⟩ := mem_wiresAt_positions.mp hp
  exact hi ▸ old_position i

theorem exists_spelled_outputs (issued : Nat) (hn : n ≠ 0) (b : Nat → Bool) :
    ∃ v : Literal → Bool, (∀ i, v (position i) = b i) ∧
      (∀ a ∈ (build issued (positions n)).1, a.Keeps (value v)) ∧
      Tag.spelled ((build issued (positions n)).2.map v) = (List.range n).countP b := by
  have hadds := build_adds issued (positions_ne_nil hn)
  have hexact := hadds.exact_evaluate (fun p => old_of_mem_positions) fun l => l.tag.elim false b
  refine ⟨_, fun i => hadds.evaluate_of_old _ (old_position i), fun a ha => (hexact a ha).le, ?_⟩
  have hold : ∀ l ∈ positions n, Old issued l := fun l hl =>
    @old_of_mem_positions issued n (0, l) (mem_wiresAt.mpr ⟨rfl, hl⟩)
  rw [spelled_evaluate issued (positions_ne_nil hn) hold rfl, positions, List.countP_map]
  rfl

theorem countP_pair {i j : Nat} (hi : i < n) (hj : j < n) (hne : i ≠ j) :
    (List.range n).countP (fun k => k == i || k == j) = 2 := by
  have hperm : ((List.range n).filter fun k => k == i || k == j).Perm [i, j] := by
    refine (List.perm_ext_iff_of_nodup (List.nodup_range.filter _) (by simp [hne])).mpr fun k => ?_
    simp only [List.mem_filter, List.mem_range, Bool.or_eq_true, beq_iff_eq, List.mem_cons,
      List.not_mem_nil, or_false]
    omega
  rw [List.countP_eq_length_filter, hperm.length_eq, List.length_cons, List.length_singleton]

theorem outputs_ne_nil (issued : Nat) (hn : n ≠ 0) : (build issued (positions n)).2 ≠ [] := by
  intro hnil
  obtain ⟨v, -, -, hspelled⟩ := exists_spelled_outputs issued hn fun _ => true
  simp only [hnil, List.map_nil, Tag.spelled, List.countP_true, List.length_range] at hspelled
  omega

theorem exists_literal_of_mem_outputs (issued : Nat) (hn : 2 ≤ n) {l : Literal}
    (hl : l ∈ (build issued (positions n)).2) : ∃ k, l = Temporary.literal k := by
  obtain ⟨i, hi⟩ := List.mem_iff_getElem?.mp hl
  have hpos : n ≠ 0 := by omega
  have hplaced := mem_placed.mpr ⟨i, hi, (Nat.zero_add i).symm⟩
  rcases (build_adds issued (positions_ne_nil hpos)).mem_or hplaced with hp | ⟨k, -, -, hk⟩
  · -- The lowest output would be one of the places. With this and another place true the outputs
    -- would spell 2, which is even.
    obtain ⟨hzero, j, hj, rfl⟩ := mem_wiresAt_positions.mp hp
    obtain rfl : i = 0 := hzero
    obtain ⟨j', hj', hjj'⟩ : ∃ j' < n, j ≠ j' := by
      by_cases h : j = 0
      · exact ⟨1, by omega, by omega⟩
      · exact ⟨0, by omega, h⟩
    obtain ⟨v, hv, -, hspelled⟩ :=
      exists_spelled_outputs issued hpos fun k => k == j || k == j'
    rw [countP_pair hj hj' hjj'] at hspelled
    obtain ⟨rest, hrest⟩ : ∃ rest, (build issued (positions n)).2 = position j :: rest := by
      rw [← List.head?_eq_getElem?, List.head?_eq_some_iff] at hi
      exact hi
    rw [hrest, List.map_cons, Tag.spelled, hv j] at hspelled
    simp only [beq_self_eq_true, Bool.true_or, Bool.toNat_true] at hspelled
    omega
  · exact ⟨k, hk⟩

theorem nodup_wiresAt_positions : ((wiresAt 0 (positions n)).map Prod.snd).Nodup := by
  rw [map_snd_wiresAt, Multiset.coe_nodup]
  exact List.nodup_range.map position_injective

theorem nodup_outputs (issued : Nat) (hn : n ≠ 0) : (build issued (positions n)).2.Nodup := by
  have := (build_adds issued (positions_ne_nil hn)).nodup (fun p => old_of_mem_positions)
    nodup_wiresAt_positions
  rwa [map_snd_placed, Multiset.coe_nodup] at this

theorem outputs_not_taken (issued : Nat) (hn : n ≠ 0) {l : Literal}
    (hl : l ∈ (build issued (positions n)).2) {a : Adder}
    (ha : a ∈ (build issued (positions n)).1) : a.first ≠ l ∧ a.second ≠ l ∧ a.third ≠ l := by
  obtain ⟨i, hi⟩ := List.mem_iff_getElem?.mp hl
  refine (build_adds issued (positions_ne_nil hn)).not_taken (fun p => old_of_mem_positions)
    (fun p hp => ?_) nodup_wiresAt_positions (mem_placed.mpr ⟨i, hi, (Nat.zero_add i).symm⟩) ha
  obtain ⟨-, j, -, hj⟩ := mem_wiresAt_positions.mp hp
  exact hj ▸ position_ne_zero j

/-- The outputs can have any values if all places are false. -/
theorem exists_map_outputs (issued : Nat) (hn : 2 ≤ n) {bits : List Bool}
    (hbits : bits.length = (build issued (positions n)).2.length) :
    ∃ v : Literal → Bool, (∀ i, v (position i) = false) ∧
      (∀ a ∈ (build issued (positions n)).1, a.Keeps (value v)) ∧
      (build issued (positions n)).2.map v = bits := by
  have hpos : n ≠ 0 := by omega
  let v : Literal → Bool := fun l => (bits[(build issued (positions n)).2.idxOf l]?).getD false
  have hother : ∀ l, l ∉ (build issued (positions n)).2 → v l = false := fun l hl => by
    simp only [v, List.idxOf_eq_length hl, ← hbits, List.getElem?_length, Option.getD_none]
  refine ⟨v, fun i => hother _ fun h => ?_, fun a ha => ?_, ?_⟩
  · obtain ⟨k, hk⟩ := exists_literal_of_mem_outputs issued hn h
    exact position_ne_literal i k hk
  · have hfirst : v a.first = false := hother _ fun h => (outputs_not_taken issued hpos h ha).1 rfl
    have hsecond : v a.second = false :=
      hother _ fun h => (outputs_not_taken issued hpos h ha).2.1 rfl
    have hthird : v a.third = false :=
      hother _ fun h => (outputs_not_taken issued hpos h ha).2.2 rfl
    simp only [Adder.Keeps, value, hfirst, hsecond, hthird, Bool.toNat_false]
    omega
  · refine List.ext_getElem (by simp [hbits]) fun i h₁ h₂ => ?_
    simp [v, (nodup_outputs issued hpos).idxOf_getElem, h₂]

end Network

end CellSat
