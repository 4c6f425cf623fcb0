import Mathlib
import CellSat.Proofs.Counter.Freshness
/-!
# Networks as circuits that count

The network of a list of literals is a circuit: its adders can be evaluated in order, each wire is
used once, and the rounds that make it come to an end. Its outputs are the binary digits of the
number of true literals.

* `Network.Runs`, `Network.runs_rounds`: rounds without a bound on their number;
* `Adds.flatMap_outputs`, `Adds.mem_inputs`, `Adds.inputs_add`: what adders drive, where their
  inputs come from, and that no wire is used twice;
* `Network.IsCounter`: a circuit that counts literals;
* **`Network.build_isCounter`**: the network of a list of literals counts them.
-/

namespace CellSat

namespace Adder

/-- The wires that an adder takes. -/
def inputs (a : Adder) : List Literal := [a.first, a.second, a.third]

/-- The wires that an adder drives. -/
def outputs (a : Adder) : List Literal := [a.sum, a.carry]

end Adder

namespace Network

/-! ## Rounds without a bound on their number -/

/-- Rounds from given levels on, as long as some level holds more than one wire: their adders, and
the levels at the end. -/
inductive Runs : Nat → List (List Literal) → List Adder → List (List Literal) → Prop
  | done {issued : Nat} {levels : List (List Literal)} (h : ∀ wires ∈ levels, wires.length ≤ 1) :
      Runs issued levels [] levels
  | next {issued : Nat} {levels last : List (List Literal)} {more : List Adder}
      (h : ∃ wires ∈ levels, 1 < wires.length)
      (hrest : Runs (issued + 2 * (round issued levels).1.length) (round issued levels).2 more
        last) :
      Runs issued levels ((round issued levels).1 ++ more) last

theorem runs_rounds {fuel issued : Nat} {levels : List (List Literal)}
    (hend : ∀ wires ∈ (rounds fuel issued levels).2, wires.length ≤ 1) :
    Runs issued levels (rounds fuel issued levels).1 (rounds fuel issued levels).2 := by
  induction fuel generalizing issued levels with
  | zero => exact .done hend
  | succ fuel ih =>
    rw [rounds] at hend ⊢
    split_ifs at hend ⊢ with hmore
    · exact .next (by simpa using hmore) (ih hend)
    · exact .done hend

theorem build_runs (issued : Nat) {literals : List Literal} (h : literals ≠ []) :
    Runs issued [literals] (build issued literals).1
      ((build issued literals).2.map fun l => [l]) := by
  have hruns := @runs_rounds (literals.length * literals.length) issued [literals]
  rw [rounds_eq_build issued h] at hruns
  exact hruns (by simp)

/-! ## The wires of a circuit -/

variable {issued : Nat} {s t : Multiset (Nat × Literal)} {adders : List Adder}

theorem Adds.flatMap_outputs (h : Adds issued s adders t) :
    adders.flatMap Adder.outputs =
      (List.range' (issued + 1) (2 * adders.length)).map Temporary.literal := by
  induction h with
  | done issued s => rfl
  | full h ih | half h ih =>
    rw [List.flatMap_cons, ih, List.length_cons, Nat.mul_succ, List.range'_succ, List.range'_succ]
    rfl

/-- An input of an adder is there from the beginning, or driven by an earlier adder, or padding. -/
theorem Adds.mem_inputs (h : Adds issued s adders t) {before after : List Adder} {a : Adder}
    (hadders : adders = before ++ a :: after) {l : Literal} (hl : l ∈ a.inputs) :
    l = .zero ∨ (∃ p ∈ s, p.2 = l) ∨ l ∈ before.flatMap Adder.outputs := by
  induction h generalizing before with
  | done issued s => simp at hadders
  | @full issued level x y z s t adders h ih | @half issued level x y s t adders h ih =>
    cases before with
    | nil =>
      obtain ⟨rfl, -⟩ := List.cons.inj hadders
      simp only [Adder.inputs, List.mem_cons, List.not_mem_nil, or_false] at hl
      rcases hl with rfl | rfl | rfl <;> simp
    | cons b before =>
      rw [List.cons_append] at hadders
      obtain ⟨rfl, htail⟩ := List.cons.inj hadders
      rw [List.flatMap_cons, List.mem_append]
      rcases ih htail with hzero | ⟨p, hp, rfl⟩ | hearlier
      · exact .inl hzero
      · rw [Multiset.mem_cons, Multiset.mem_cons] at hp
        rcases hp with rfl | rfl | hp
        · exact .inr (.inr (.inl (by simp [Adder.outputs])))
        · exact .inr (.inr (.inl (by simp [Adder.outputs])))
        · exact .inr (.inl ⟨p, by simp [hp], rfl⟩)
      · exact .inr (.inr (.inr hearlier))

/-- Each wire is used once. -/
theorem Adds.inputs_add (h : Adds issued s adders t) (hzero : ∀ p ∈ s, p.2 ≠ .zero) :
    ((adders.flatMap Adder.inputs).filter (· ≠ .zero) : Multiset Literal) + t.map Prod.snd =
      s.map Prod.snd + (adders.flatMap Adder.outputs : List Literal) := by
  induction h with
  | done issued s => simp
  | @full issued level x y z s t adders h ih | @half issued level x y s t adders h ih =>
    have hrest : ∀ p ∈ s, p.2 ≠ .zero := fun p hp => hzero p (by simp [hp])
    simp only [Multiset.mem_cons, forall_eq_or_imp] at hzero
    rw [List.flatMap_cons, List.filter_append, ← Multiset.coe_add, add_assoc,
      ih (ne_after old_zero hrest), List.flatMap_cons, ← Multiset.coe_add]
    simp [Adder.inputs, Adder.outputs, hzero, ← Multiset.cons_coe]

/-! ## Counters -/

/-- Adders and outputs that count literals. -/
structure IsCounter (issued : Nat) (literals : List Literal) (adders : List Adder)
    (outputs : List Literal) : Prop where
  /-- The rounds come to an end, and then each level holds one wire, its output. -/
  ends : Runs issued [literals] adders (outputs.map fun l => [l])
  /-- The adders drive the next temporaries, two each. -/
  drives : adders.flatMap Adder.outputs =
    (List.range' (issued + 1) (2 * adders.length)).map Temporary.literal
  /-- No two wires that adders drive have the same name. -/
  nodup : ((adders.flatMap Adder.outputs).map Literal.name).Nodup
  /-- They are named neither like a literal nor like the false wire nor like an older temporary. -/
  fresh : ∀ l ∈ adders.flatMap Adder.outputs, l.name ≠ Literal.zeroName ∧
    (∀ l' ∈ literals, l.name ≠ l'.name) ∧ ∀ k ≤ issued, l.name ≠ (Temporary.literal k).name
  /-- An input of an adder is the false wire, a literal or an output of an earlier adder. -/
  ordered : ∀ before a after, adders = before ++ a :: after → ∀ l ∈ a.inputs,
    l = .zero ∨ l ∈ literals ∨ l ∈ before.flatMap Adder.outputs
  /-- Each place of the list and each wire that is driven is one input of one adder, or an output
  of the circuit. -/
  once : ((adders.flatMap Adder.inputs).filter (· ≠ .zero) ++ outputs).Perm
    (literals ++ adders.flatMap Adder.outputs)
  /-- Evaluated in order, the adders make the outputs the digits of the number of true places. -/
  counts : ∀ u : Literal → Bool, u .zero = false →
    ∑ i : Fin outputs.length, 2 ^ i.val * (evaluate adders u outputs[i]).toNat = literals.countP u
  /-- There are enough outputs for the number of literals. -/
  length_lt : literals.length < 2 ^ outputs.length

theorem old_of_not_named {l : Literal} (h : ¬ Temporary.Named l.name) : Old issued l :=
  fun k _ hl => h ⟨k, (congrArg Literal.name hl).symm⟩

theorem ne_zero_of_name {l : Literal} (h : l.name ≠ Literal.zeroName) : l ≠ .zero :=
  fun hl => h (congrArg Literal.name hl)

/-- **The network of a list of literals counts them.** They may be repeated and negated. -/
theorem build_isCounter (issued : Nat) {literals : List Literal} (hne : literals ≠ [])
    (hnamed : ∀ l ∈ literals, ¬ Temporary.Named l.name)
    (hzeroName : ∀ l ∈ literals, l.name ≠ Literal.zeroName) :
    (issued ≤ Word.maxNat32 → build32 issued literals =
        if issued + 2 * (build issued literals).1.length ≤ Word.maxNat32
          then .ok (build issued literals) else .error .overflow) ∧
      IsCounter issued literals (build issued literals).1 (build issued literals).2 := by
  refine ⟨(takes_build32 issued literals).eq_ite, ?_⟩
  have hadds := build_adds issued hne
  have hdrives := hadds.flatMap_outputs
  have hold : ∀ l ∈ literals, Old issued l := fun l hl => old_of_not_named (hnamed l hl)
  have hzero : ∀ l ∈ literals, l ≠ .zero := fun l hl => ne_zero_of_name (hzeroName l hl)
  constructor
  case ends => exact build_runs issued hne
  case drives => exact hdrives
  case nodup =>
    rw [hdrives, List.map_map]
    exact (List.nodup_range' 1).map fun k m hkm => Temporary.name_injective hkm
  case fresh =>
    intro l hl
    rw [hdrives, List.mem_map] at hl
    obtain ⟨k, hk, rfl⟩ := hl
    refine ⟨Temporary.name_ne_zeroName k, fun l' hl' hname => ?_, fun m hm hname => ?_⟩
    · exact hnamed l' hl' ⟨k, hname⟩
    · have := Temporary.name_injective hname
      have := (List.mem_range'_1.mp hk).1
      omega
  case ordered =>
    intro before a after hadders l hl
    rcases hadds.mem_inputs hadders hl with hl | ⟨p, hp, rfl⟩ | hl
    · exact .inl hl
    · exact .inr (.inl (mem_wiresAt.mp hp).2)
    · exact .inr (.inr hl)
  case once =>
    have hwires := hadds.inputs_add fun p hp => hzero p.2 (mem_wiresAt.mp hp).2
    rwa [map_snd_placed, map_snd_wiresAt, Multiset.coe_add, Multiset.coe_add,
      Multiset.coe_eq_coe] at hwires
  case counts =>
    intro u hfalse
    rw [← Tag.spelled_map_eq_sum, spelled_evaluate issued hne hold hfalse]
  case length_lt =>
    -- With all literals true the outputs spell their number.
    have hall : literals.countP (· ≠ .zero) = literals.length :=
      List.countP_eq_length.mpr fun l hl => by simpa using hzero l hl
    have hlt := Tag.spelled_lt
      ((build issued literals).2.map (evaluate (build issued literals).1 (· ≠ .zero)))
    rwa [spelled_evaluate issued hne hold (by simp), hall, List.length_map] at hlt

/-- Four places hold three literals, and the temporaries 17, 19 and 20 count them. -/
theorem build_isCounter_repeated :
    let literals : List Literal :=
      [{ name := "a" }, { name := "b", positive := false }, { name := "a" }, { name := "c" }]
    let network := build 14 literals
    build32 14 literals = .ok network ∧ network.2 = [17, 19, 20].map Temporary.literal ∧
      IsCounter 14 literals network.1 network.2 ∧
      ∑ i : Fin network.2.length, 2 ^ i.val *
        (evaluate network.1 (fun l => l.name = "a" ∨ l.name = "c") network.2[i]).toNat = 3 := by
  intro literals network
  have hordinary : ∀ l ∈ literals, l.IsOrdinary := by decide +kernel
  obtain ⟨hbuild, hcounter⟩ := build_isCounter 14 (by decide)
    (fun l hl => Temporary.not_named_of_isOrdinary (hordinary l hl)) fun l hl => (hordinary l hl).2
  refine ⟨(hbuild (by decide)).trans (if_pos (by decide +kernel)), by decide +kernel, hcounter, ?_⟩
  exact hcounter.counts _ (by decide)

end Network

end CellSat
