import Mathlib
import CellSat.Proofs.Grid.Room
import CellSat.Proofs.Plane.Direction
/-!
# Paths on flat grids

Where cells are identified by shifts only, a path leads to a place that depends on the numbers of
its steps and not on their order. Each step folds the cell and closes the circle of generations on
its own, yet what is reached is the fold of the sum of all steps, with one stride for each period.

* `Folding.IsFlat`: the foldings that identify cells by shifts only;
* `Cell.travelled`, `Clock.journey`: the sum of the steps of a path, with strides and without;
* `Lattice.exists_neighbor?`: one step, and what it leaves of the journey;
* `Lattice.exists_follow?`: the whole path, exact;
* `Lattice.okOrOverflow_follow64?`, `Lattice.follow64?_eq_ok`: the path in machine words;
* **`Lattice.follow_flat`**: where paths on flat grids lead;
* `Lattice.follow_overflows`: a step that leaves the range of machine words.
-/

namespace CellSat

/-- A folding that identifies cells by shifts only. -/
def Folding.IsFlat : Folding → Prop
  | torus .. | bounded .. | strip .. => True
  | tessellated _ => False

theorem Folding.IsFlat.ne_tessellated {f : Folding} (h : f.IsFlat) (t : Tessellation) :
    f ≠ tessellated t := by
  rintro rfl
  exact h

/-! ## Folds in machine words -/

namespace Folding

variable {f : Folding} {p : Cell}

theorem okOrOverflow_fold64 (hf : f.Sized) (p : Cell) :
    Word.OkOrOverflow (f.fold64 p) (f.fold p) := by
  cases f with
  | torus m n s =>
    exact (Word.okOrOverflow_mod hf.rows_pos _).bind ((Word.okOrOverflow_div hf.rows_pos _).bind
      ((Word.okOrOverflow_int64 _).bind ((Word.okOrOverflow_int64 _).bind
        ((Word.okOrOverflow_mod hf.columns_pos _).bind (.ok _)))))
  | bounded m n => exact .ok _
  | strip m n => exact (Word.okOrOverflow_mod hf.columns_pos _).bind (.ok _)
  | tessellated t => exact Tessellation.okOrOverflow_foldBy64 hf.tessellation p _

theorem fold64_of_isOpen (hf : f.Sized) (hopen : f.IsOpen) (hp : p.Fits) :
    f.fold64 p = .ok (f.fold p) := by
  obtain ⟨-, -, hcolumn, hcolumn'⟩ := hp
  cases f with
  | bounded m n => rfl
  | strip m n =>
    have hn : 0 < n := hf.columns_pos
    rw [fold64, Word.mod_eq_ok hn hcolumn hcolumn']
    rfl
  | torus m n s => exact hopen.elim
  | tessellated t => exact hopen.elim

theorem within_of_isRepresentative (hf : f.Sized) (hs : f.Small) (hclosed : ¬ f.IsOpen)
    (hp : f.IsRepresentative p) : p.Within (2 ^ 30) := by
  obtain ⟨hrows, hcolumns, -⟩ := hs
  cases f with
  | torus m n s =>
    simp only [rows, columns, IsRepresentative, Cell.Within] at *
    omega
  | tessellated t =>
    have hbounds := Tessellation.bounds_of_isRepresentative hf.tessellation hp
    simp only [rows, columns, Cell.Within] at *
    omega
  | bounded m n => exact absurd trivial hclosed
  | strip m n => exact absurd trivial hclosed

end Folding

/-! ## Sums of steps -/

namespace Cell

/-- The sum of the steps of a path, by how often each symbol occurs. -/
def travelled (path : List String) : Cell :=
  ⟨path.count "S" + path.count "SE" + path.count "SW" -
      (path.count "N" + path.count "NE" + path.count "NW"),
    path.count "E" + path.count "NE" + path.count "SE" -
      (path.count "W" + path.count "NW" + path.count "SW")⟩

/-- A step that is taken several times. -/
def times (k : Int) (d : Cell) : Cell := ⟨k * d.row, k * d.column⟩

theorem shift_assoc (p d e : Cell) : (p.shift d).shift e = p.shift (d.shift e) := by
  simp only [shift, Cell.mk.injEq]
  omega

theorem travelled_nil : travelled [] = ⟨0, 0⟩ := by
  simp [travelled]

theorem travelled_next (path : List String) : travelled (Symbol.next :: path) = travelled path := by
  simp [travelled, Symbol.next]

theorem travelled_cons {symbol : String} {d : Cell} (h : displacement? symbol = some d)
    (path : List String) : travelled (symbol :: path) = d.shift (travelled path) := by
  unfold displacement? at h
  split at h <;> cases h <;>
    simp only [travelled, shift, List.count_cons, Cell.mk.injEq] <;> simp <;> omega

theorem displacement?_of_mem {symbol : String} (h : symbol ∈ Symbol.neighbors) :
    symbol = Symbol.next ∨ symbol ≠ Symbol.next ∧ ∃ d, displacement? symbol = some d := by
  simp only [Symbol.neighbors, List.mem_cons, List.not_mem_nil, or_false] at h
  rcases h with rfl | rfl | rfl | rfl | rfl | rfl | rfl | rfl | rfl
  all_goals first
    | exact .inl rfl
    | exact .inr ⟨by decide, _, rfl⟩

end Cell

namespace Clock

variable (c : Clock)

/-- The sum of the steps of a path from a generation on, with a stride for each period that
ends. -/
def journey (t : Int) (path : List String) : Cell :=
  (Cell.travelled path).shift (Cell.times ((t + path.count Symbol.next) / c.period) c.stride)

variable {c} {t : Int} {path : List String}

theorem journey_nil (h₀ : 0 ≤ t) (h₁ : t < c.period) : c.journey t [] = ⟨0, 0⟩ := by
  simp [journey, Cell.travelled_nil, Cell.times, Cell.shift, Int.ediv_eq_zero_of_lt h₀ h₁]

theorem journey_cons {symbol : String} {d : Cell} (hd : Cell.displacement? symbol = some d)
    (hne : symbol ≠ Symbol.next) : c.journey t (symbol :: path) = d.shift (c.journey t path) := by
  rw [journey, journey, Cell.travelled_cons hd, Cell.shift_assoc, List.count_cons_of_ne hne]

theorem journey_next (path : List String) :
    c.journey t (Symbol.next :: path) = c.journey (t + 1) path := by
  rw [journey, journey, Cell.travelled_next, List.count_cons_self]
  congr 3
  push_cast
  ring

theorem journey_period (hpos : 0 < c.period) (path : List String) :
    c.journey c.period path = c.stride.shift (c.journey 0 path) := by
  have hturn : (c.period + path.count Symbol.next) / c.period =
      1 + (0 + path.count Symbol.next) / c.period := by
    rw [zero_add, Int.add_ediv_of_dvd_left (dvd_refl _), Int.ediv_self hpos.ne']
  rw [journey, journey, hturn]
  simp only [Cell.times, Cell.shift, Cell.mk.injEq]
  constructor <;> ring

end Clock

namespace Lattice

variable {lattice : Lattice} {n : Node} {path : List String}

/-! ## Exact paths -/

/-- **One step** leaves the journey of the rest of the path. -/
theorem exists_neighbor? (hl : lattice.Proper) (h₀ : 0 ≤ n.generation)
    (h₁ : n.generation < lattice.clock.period) {symbol : String}
    (hsymbol : symbol ∈ Symbol.neighbors) :
    ∃ v t, lattice.neighbor? symbol n = some (lattice.node (n.cell.shift v) t) ∧
      (v = lattice.clock.stride ∨ v.Within 1) ∧
      0 ≤ t ∧ t < lattice.clock.period ∧ ∀ path : List String,
        lattice.clock.journey n.generation (symbol :: path) =
          v.shift (lattice.clock.journey t path) ∧
        (n.generation + (symbol :: path).count Symbol.next) % lattice.clock.period =
          (t + path.count Symbol.next) % lattice.clock.period := by
  have hpos := hl.period_pos
  rcases Cell.displacement?_of_mem hsymbol with rfl | ⟨hne, d, hd⟩
  · by_cases hend : n.generation + 1 = lattice.clock.period
    · refine ⟨lattice.clock.stride, 0, ?_, .inl rfl, le_rfl, hpos, fun path => ⟨?_, ?_⟩⟩
      · rw [neighbor?, if_pos rfl, Clock.adjust, if_pos hend]
        rfl
      · rw [Clock.journey_next, hend, Clock.journey_period hpos]
      · have hturn : n.generation + ((path.count Symbol.next + 1 : Nat) : Int) =
            lattice.clock.period + path.count Symbol.next := by omega
        rw [List.count_cons_self, hturn, zero_add, Int.add_emod_left]
    · refine ⟨⟨0, 0⟩, n.generation + 1, ?_, .inr (by simp [Cell.Within]), by omega, by omega,
        fun path => ⟨?_, ?_⟩⟩
      · rw [neighbor?, if_pos rfl, Clock.adjust, if_neg hend, Cell.shift_zero]
      · rw [Clock.journey_next]
        simp [Cell.shift]
      · rw [List.count_cons_self]
        congr 1
        push_cast
        ring
  · refine ⟨d, n.generation, ?_, .inr (displacement_within hd), h₀, h₁,
      fun path => ⟨Clock.journey_cons hd hne, ?_⟩⟩
    · rw [neighbor?, if_neg hne, hd]
      rfl
    · rw [List.count_cons_of_ne hne]

/-- **A path** leads to the fold of the sum of its steps. -/
theorem exists_follow? (hflat : lattice.folding.IsFlat) (hl : lattice.Proper)
    (hfixed : (lattice.folding.fold n.cell).cell = n.cell) (h₀ : 0 ≤ n.generation)
    (h₁ : n.generation < lattice.clock.period)
    (hpath : ∀ symbol ∈ path, symbol ∈ Symbol.neighbors) :
    ∃ m, lattice.follow? n path = some m ∧
      m.cell = (lattice.folding.fold
        (n.cell.shift (lattice.clock.journey n.generation path))).cell ∧
      m.generation = (n.generation + path.count Symbol.next) % lattice.clock.period := by
  induction path generalizing n with
  | nil =>
    refine ⟨n, rfl, ?_, ?_⟩
    · rw [Clock.journey_nil h₀ h₁, Cell.shift_zero, hfixed]
    · simp [Int.emod_eq_of_lt h₀ h₁]
  | cons symbol path ih =>
    obtain ⟨hsymbol, hpath⟩ := List.forall_mem_cons.mp hpath
    obtain ⟨v, t, hstep, -, ht₀, ht₁, hrest⟩ := exists_neighbor? hl h₀ h₁ hsymbol
    obtain ⟨hjourney, hcount⟩ := hrest path
    have hfixed' : (lattice.folding.fold (lattice.node (n.cell.shift v) t).cell).cell =
        (lattice.node (n.cell.shift v) t).cell := by
      rw [node, Folding.fold_fold hl.sized]
    obtain ⟨m, hm, hcell, hgeneration⟩ := ih hfixed' ht₀ ht₁ hpath
    refine ⟨m, ?_, ?_, hgeneration.trans hcount.symm⟩
    · rw [follow?, hstep]
      exact hm
    · rw [hcell, hjourney, ← Cell.shift_assoc]
      exact Folding.fold_shift_fold hl.sized hflat.ne_tessellated (n.cell.shift v) _

/-! ## Paths in machine words -/

section Overflow

variable (hl : lattice.Proper)

include hl

theorem okOrOverflow_node64 (p : Cell) (t : Int) :
    Word.OkOrOverflow (lattice.node64 p t) (lattice.node p t) :=
  (Folding.okOrOverflow_fold64 hl.sized p).bind (.ok _)

theorem okOrOverflow_neighbor64? (symbol : String) (n : Node) :
    Word.OkOrOverflow (lattice.neighbor64? symbol n) (lattice.neighbor? symbol n) := by
  rw [neighbor64?, neighbor?]
  split_ifs
  · have hadjust : Word.OkOrOverflow (lattice.clock.adjust64 n.cell (n.generation + 1))
        (lattice.clock.adjust n.cell (n.generation + 1)) := by
      rw [Clock.adjust64, Clock.adjust]
      split_ifs
      · exact (Word.okOrOverflow_within _ _).bind (.ok _)
      · exact .ok _
    exact (Word.okOrOverflow_int64 _).bind
      (hadjust.bind ((okOrOverflow_node64 hl _ _).bind (.ok _)))
  · cases Cell.displacement? symbol with
    | none => exact .ok _
    | some d =>
      exact (Word.okOrOverflow_within _ _).bind ((okOrOverflow_node64 hl _ _).bind (.ok _))

theorem okOrOverflow_follow64? (n : Node) (path : List String) :
    Word.OkOrOverflow (lattice.follow64? n path) (lattice.follow? n path) := by
  induction path generalizing n with
  | nil => exact .ok _
  | cons symbol path ih =>
    rw [follow64?, follow?]
    refine (okOrOverflow_neighbor64? hl symbol n).bind ?_
    cases lattice.neighbor? symbol n with
    | none => exact .ok _
    | some m => exact ih m

end Overflow

section Room

variable (hl : lattice.Proper) (hs : lattice.Small)

include hl hs

theorem fold64_shift_eq_ok {p : Cell} (hrep : lattice.folding.IsRepresentative p)
    (hroom : lattice.folding.IsOpen → p.Within (2 ^ 62 - 2 ^ 30)) {v : Cell}
    (hv : v.Within (2 ^ 30)) : (p.shift v).Fits ∧
      lattice.folding.fold64 (p.shift v) = .ok (lattice.folding.fold (p.shift v)) := by
  by_cases hopen : lattice.folding.IsOpen
  · have hfits := ((hroom hopen).shift hv).fits (by norm_num)
    exact ⟨hfits, Folding.fold64_of_isOpen hl.sized hopen hfits⟩
  · have hp := Folding.within_of_isRepresentative hl.sized hs.folding hopen hrep
    have hwithin := (hp.shift hv).mono (show 2 ^ 30 + 2 ^ 30 ≤ 2 ^ 32 by norm_num)
    exact ⟨hwithin.fits (by norm_num), Folding.fold64_eq_ok hl.sized hs.folding hwithin⟩

/-- **A path fits** on a small lattice, if a start next to a dead region leaves room for it. -/
theorem follow64?_eq_ok (hrep : lattice.folding.IsRepresentative n.cell) (h₀ : 0 ≤ n.generation)
    (h₁ : n.generation < lattice.clock.period)
    (hroom : lattice.folding.IsOpen → n.cell.Within (2 ^ 62 - 2 ^ 30 * path.length))
    (hpath : ∀ symbol ∈ path, symbol ∈ Symbol.neighbors) :
    lattice.follow64? n path = .ok (lattice.follow? n path) := by
  induction path generalizing n with
  | nil => rfl
  | cons symbol path ih =>
    obtain ⟨hsymbol, hpath⟩ := List.forall_mem_cons.mp hpath
    obtain ⟨v, t, hstep, hv, ht₀, ht₁, -⟩ := exists_neighbor? hl h₀ h₁ hsymbol
    have hlength : ((symbol :: path).length : Int) = path.length + 1 := by simp
    rw [hlength] at hroom
    have hwithin : v.Within (2 ^ 30) := by
      rcases hv with rfl | hv
      · exact hs.shift_within
      · exact hv.mono (by norm_num)
    have hstep64 := neighbor64?_of_fold64 hs h₀ h₁ (fun w hw =>
      fold64_shift_eq_ok hl hs hrep (fun hopen => (hroom hopen).mono (by omega)) hw) symbol
    rw [follow64?, follow?, hstep64, hstep]
    refine ih (Folding.isRepresentative_fold hl.sized _) ht₀ ht₁ (fun hopen => ?_) hpath
    have hcell := hroom hopen
    -- The bound is not negative, so that it leaves room for a representative.
    have hbound : 2 ^ 30 ≤ (2 : Int) ^ 62 - 2 ^ 30 * path.length := by
      simp only [Cell.Within] at hcell
      omega
    exact Folding.fold_within hl.sized hs.folding hbound ((hcell.shift hwithin).mono (by omega))

end Room

/-- **Paths on flat grids** depend on the sum of their steps, and on the periods that end. -/
theorem follow_flat (hflat : lattice.folding.IsFlat) (hl : lattice.Proper)
    (hfixed : (lattice.folding.fold n.cell).cell = n.cell) (h₀ : 0 ≤ n.generation)
    (h₁ : n.generation < lattice.clock.period)
    (hpath : ∀ symbol ∈ path, symbol ∈ Symbol.neighbors) :
    ∃ m : Node,
      m.cell = (lattice.folding.fold
        (n.cell.shift (lattice.clock.journey n.generation path))).cell ∧
      m.generation = (n.generation + path.count Symbol.next) % lattice.clock.period ∧
      Word.OkOrOverflow (lattice.follow64? n path) (some m) ∧
      (lattice.Small →
        (lattice.folding.IsOpen → n.cell.Within (2 ^ 62 - 2 ^ 30 * path.length)) →
          lattice.follow64? n path = .ok (some m)) := by
  obtain ⟨m, hm, hcell, hgeneration⟩ := exists_follow? hflat hl hfixed h₀ h₁ hpath
  have hrep := Folding.isRepresentative_fold hl.sized n.cell
  rw [hfixed] at hrep
  refine ⟨m, hcell, hgeneration, ?_, fun hs hroom => ?_⟩
  · rw [← hm]
    exact okOrOverflow_follow64? hl n path
  · rw [← hm]
    exact follow64?_eq_ok hl hs hrep h₀ h₁ hroom hpath

/-- A path that leaves through the last row, the last column and, twice, the last generation. -/
theorem follow_flat_sheared :
    let lattice : Lattice := ⟨.torus 3 4 1, ⟨2, 1, -2⟩⟩
    let n : Node := { cell := ⟨2, 3⟩, generation := 1 }
    let path := ["S", "G", "NE", "G", "G", "E"]
    (lattice.folding.fold n.cell).cell = n.cell ∧
      ∃ m : Node, m.cell = ⟨1, 2⟩ ∧ m.generation = 0 ∧
        lattice.follow64? n path = .ok (some m) := by
  intro lattice n path
  have hfixed : (lattice.folding.fold n.cell).cell = n.cell := by decide
  have hl : lattice.Proper := ⟨⟨by decide, by decide⟩, by decide⟩
  have hs : lattice.Small :=
    ⟨⟨by decide, by decide, fun _ _ _ h => by cases h; decide⟩, by decide, by decide, by decide⟩
  obtain ⟨m, hcell, hgeneration, -, hfollow⟩ := @follow_flat lattice n path trivial hl hfixed
    (by decide) (by decide) (by decide)
  exact ⟨hfixed, m, hcell.trans (by decide), hgeneration.trans (by decide),
    hfollow hs fun hopen => hopen.elim⟩

/-- With a large shift the fold of the next row is not reached in machine words. -/
theorem follow_overflows :
    let lattice : Lattice := { folding := .torus 2 2 (2 ^ 63 - 1) }
    let n : Node := { cell := ⟨1, 1⟩ }
    lattice.folding.IsFlat ∧ lattice.Proper ∧ (lattice.folding.fold n.cell).cell = n.cell ∧
      lattice.follow? n ["S"] = some { cell := ⟨0, 0⟩ } ∧
      lattice.follow64? n ["S"] = .error .overflow :=
  ⟨trivial, ⟨⟨by decide, by decide⟩, by decide⟩, by decide, by decide, by decide⟩

end Lattice

end CellSat
