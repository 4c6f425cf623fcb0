import Mathlib
import CellSat.Proofs.Cnf.Answer
import CellSat.Proofs.Cnf.Exchange
import CellSat.Proofs.Template.Names
/-!
# The lines of an inflated template

The disjunctions of an inflated template are its instances, and the clause that pins the false wire
if that wire is used. Its comments are those of the template, and headings.

* `Clause.exists_image_of_mem`, `Clause.comments_expandSymmetry`: a list under symmetries;
* `Template.Instance`: the instances of a template on a grid;
* **`Template.mem_inflateGrid64`**: the disjunctions of an inflated template;
* `Template.comments_inflateGrid64`: its comments.
-/

namespace CellSat

/-! ## Symmetries -/

namespace Clause

variable {basis : List Permutation} {cs cs' : List Clause} {d : Disjunction}

theorem expandSymmetry_comment {text : String}
    (h : expandSymmetry basis (.comment text :: cs) = .ok cs') :
    ∃ rest, expandSymmetry basis cs = .ok rest ∧ cs' = .comment text :: rest := by
  obtain ⟨rest, hrest, h⟩ := bind_eq_ok.mp h
  exact ⟨rest, hrest, (Except.ok.inj h).symm⟩

theorem expandSymmetry_disjunction
    (h : expandSymmetry basis (.disjunction d :: cs) = .ok cs') :
    ∃ images rest, Orbit.images basis d = .ok images ∧ expandSymmetry basis cs = .ok rest ∧
      cs' = images.map .disjunction ++ rest := by
  obtain ⟨images, himages, h⟩ := bind_eq_ok.mp h
  obtain ⟨rest, hrest, h⟩ := bind_eq_ok.mp h
  exact ⟨images, rest, himages, hrest, (Except.ok.inj h).symm⟩

theorem exists_image_of_mem (h : expandSymmetry basis cs = .ok cs') (hd : d ∈ disjunctions cs') :
    ∃ c ∈ disjunctions cs, Orbit.Image (basis.map Permutation.inverse) c d := by
  induction cs generalizing cs' with
  | nil =>
    obtain rfl := Except.ok.inj h
    contradiction
  | cons line cs ih =>
    cases line with
    | comment text =>
      obtain ⟨rest, hrest, rfl⟩ := expandSymmetry_comment h
      exact ih hrest hd
    | disjunction c =>
      obtain ⟨images, rest, himages, hrest, rfl⟩ := expandSymmetry_disjunction h
      rw [disjunctions_append, disjunctions_map] at hd
      rcases List.mem_append.mp hd with hd | hd
      · rcases Orbit.images_cases basis c with ⟨herror, -⟩ | ⟨ds, hok, -, -, hds, -⟩
        · rw [himages] at herror
          contradiction
        · obtain rfl := Except.ok.inj (himages.symm.trans hok)
          exact ⟨c, List.mem_cons_self, hds d hd⟩
      · obtain ⟨c', hc', himage⟩ := ih hrest hd
        exact ⟨c', List.mem_cons_of_mem _ hc', himage⟩

theorem comments_expandSymmetry (h : expandSymmetry basis cs = .ok cs') :
    comments cs' = comments cs := by
  induction cs generalizing cs' with
  | nil => rw [← Except.ok.inj h]
  | cons line cs ih =>
    cases line with
    | comment text =>
      obtain ⟨rest, hrest, rfl⟩ := expandSymmetry_comment h
      rw [comments_comment, comments_comment, ih hrest]
    | disjunction d =>
      obtain ⟨images, rest, -, hrest, rfl⟩ := expandSymmetry_disjunction h
      rw [comments_append, comments_map, List.nil_append, comments_disjunction, ih hrest]

end Clause

theorem Orbit.Image.length_eq {maps : List Permutation} {c d : Disjunction} (h : Image maps c d) :
    d.length = c.length := by
  induction h with
  | refl => rfl
  | tail _ hstep ih =>
    obtain ⟨p, -, rfl⟩ := hstep
    rw [Permutation.onDisjunction, List.length_map, ih]

/-! ## Instances -/

namespace Template

variable {lattice : Lattice} {grid : List Node} {template cs : List Clause} {turn : Turn}
  {consequent : Option String} {ss : List Substitution} {c d : Disjunction}

/-- The instances of a template under some substitutions. -/
def Instance (template : List Clause) (ss : List Substitution) (turn : Turn) (d : Disjunction) :
    Prop :=
  ∃ c ∈ Clause.disjunctions template, d ∈ instances c turn ss

/-- The false wire is used, in an instance or by a symbol. -/
def UsesZero (template : List Clause) (ss : List Substitution) (turn : Turn) : Prop :=
  (∃ e, Instance template ss turn e ∧ ∃ l ∈ e, l.name = Literal.zeroName) ∨
    ∃ s ∈ ss, ∃ e ∈ s, e.2.name = Literal.zeroName

theorem eq_of_instantiate? {s : Substitution} (h : instantiate? c turn s = some d) :
    d = c.map (s.apply turn) := by
  rw [instantiate?] at h
  split_ifs at h
  exact (Option.some.inj h).symm

theorem instantiate?_eq_some {s : Substitution}
    (h : Literal.zero ∉ c.map (s.apply turn) ∨ Literal.zero.negate ∉ c.map (s.apply turn)) :
    instantiate? c turn s = some (c.map (s.apply turn)) := by
  rw [instantiate?, if_neg]
  simpa only [Bool.and_eq_true, List.contains_iff_mem, not_and_or] using h

theorem not_instance_nil : ¬ Instance [] ss turn d := by
  rintro ⟨c, hc, -⟩
  contradiction

theorem instance_cons : Instance (.disjunction c :: template) ss turn d ↔
    d ∈ instances c turn ss ∨ Instance template ss turn d := by
  simp [Instance]

theorem mem_flatMap_inflateLine :
    d ∈ Clause.disjunctions ((template.map (inflateLine ss consequent turn)).flatMap (·.1)) ↔
      Instance template ss turn d := by
  induction template with
  | nil => exact iff_of_false (by simp) not_instance_nil
  | cons line template ih =>
    rw [List.map_cons, List.flatMap_cons, Clause.disjunctions_append, List.mem_append, ih]
    cases line with
    | comment text => exact or_iff_right (by simp [inflateLine])
    | disjunction c => simp [inflateLine, heading, instance_cons]

theorem any_inflateLine : (template.map (inflateLine ss consequent turn)).any (·.2) = true ↔
    ∃ e, Instance template ss turn e ∧ ∃ l ∈ e, l.name = Literal.zeroName := by
  induction template with
  | nil => simp [not_instance_nil]
  | cons line template ih =>
    rw [List.map_cons, List.any_cons, Bool.or_eq_true, ih]
    cases line with
    | comment text => exact or_iff_right (by simp [inflateLine])
    | disjunction c =>
      simp only [inflateLine, mentionsZero, instance_cons, List.any_eq_true, beq_iff_eq,
        or_and_right, exists_or]

theorem mem_append_pin {b : Bool} :
    d ∈ Clause.disjunctions (if b = true then cs ++ [pin] else cs) ↔
      d ∈ Clause.disjunctions cs ∨ d = [Literal.zero.negate] ∧ b = true := by
  cases b <;> simp [pin, Clause.unit]

theorem mem_inflate : d ∈ Clause.disjunctions (inflate template ss consequent turn) ↔
    Instance template ss turn d ∨ d = [Literal.zero.negate] ∧
      ∃ e, Instance template ss turn e ∧ ∃ l ∈ e, l.name = Literal.zeroName := by
  have hany : (template.map (inflateLine ss consequent turn)).any (·.2) = true ↔ _ :=
    any_inflateLine
  rw [inflate, Clause.disjunctions_append, List.mem_append, mem_flatMap_inflateLine, ← hany]
  refine or_congr_right ?_
  split_ifs with hmentions
  · simp [pin, Clause.unit, hmentions]
  · simp [hmentions]

/-- **The disjunctions of an inflated template**: its instances, and the pin of the false wire. -/
theorem mem_inflateGrid64 (h : inflateGrid64 lattice grid template consequent turn = .ok cs) :
    ∃ ss, grid.mapM (lattice.substitution64 (helpers template)) = .ok ss ∧
      ∀ d, d ∈ Clause.disjunctions cs ↔ Instance template ss turn d ∨
        d = [Literal.zero.negate] ∧ UsesZero template ss turn := by
  obtain ⟨ss, hss, h⟩ := bind_eq_ok.mp h
  refine ⟨ss, hss, fun d => ?_⟩
  have hsymbol : ((ss.any fun s => s.any fun e => e.2.name == Literal.zeroName) = true ↔
      ∃ s ∈ ss, ∃ e ∈ s, e.2.name = Literal.zeroName) := by
    simp only [List.any_eq_true, beq_iff_eq]
  obtain rfl := Except.ok.inj h
  rw [mem_append_pin, Bool.and_eq_true, hsymbol, bne_iff_ne, mem_inflate, UsesZero, or_assoc,
    ← and_or_left]
  refine ⟨fun hd => hd.imp_right fun hd => ⟨hd.1, hd.2.imp_right And.left⟩, ?_⟩
  rintro (hd | ⟨rfl, hmentions | hsymbol⟩)
  · exact .inl hd
  · exact .inr ⟨rfl, .inl hmentions⟩
  · -- The pin is the last line already, or it is added.
    by_cases hlast : (inflate template ss consequent turn).getLast? = some pin
    · have hpin : [Literal.zero.negate] ∈
          Clause.disjunctions (inflate template ss consequent turn) :=
        Clause.mem_disjunctions.mpr (List.mem_of_getLast? hlast)
      exact (mem_inflate.mp hpin).imp_right fun hpin => ⟨rfl, .inl hpin.2⟩
    · exact .inr ⟨rfl, .inr ⟨hsymbol, hlast⟩⟩

theorem comments_append_pin {b : Bool} :
    Clause.comments (if b = true then cs ++ [pin] else cs) = Clause.comments cs := by
  cases b <;> simp [pin, Clause.unit, Clause.comments, Clause.comment?]

theorem comments_inflate : Clause.comments (inflate template ss consequent turn) =
    Clause.comments ((template.map (inflateLine ss consequent turn)).flatMap (·.1)) := by
  rw [inflate, Clause.comments_append]
  split_ifs
  · simp [pin, Clause.unit, Clause.comments, Clause.comment?]
  · exact List.append_nil _

/-- **The comments of an inflated template**, among them its clauses as headings. -/
theorem comments_inflateGrid64 (h : inflateGrid64 lattice grid template consequent turn = .ok cs)
    {text : String} (htext : text ∈ Clause.comments cs) :
    text ∈ Clause.comments template ∨ ∃ c ∈ Clause.disjunctions template,
      text = "Template: " ++ Clause.renderDisjunction c consequent := by
  obtain ⟨ss, -, h⟩ := bind_eq_ok.mp h
  obtain rfl := Except.ok.inj h
  rw [comments_append_pin, comments_inflate, Clause.mem_comments, List.mem_flatMap] at htext
  obtain ⟨_, hlines, htext⟩ := htext
  obtain ⟨line, hline, rfl⟩ := List.mem_map.mp hlines
  cases line with
  | comment text' =>
    obtain rfl := Clause.comment.inj (List.mem_singleton.mp htext)
    exact .inl (Clause.mem_comments.mpr hline)
  | disjunction c =>
    rcases List.mem_cons.mp htext with heq | hmem
    · exact .inr ⟨c, Clause.mem_disjunctions.mpr hline, Clause.comment.inj heq⟩
    · obtain ⟨d, -, heq⟩ := List.mem_map.mp hmem
      contradiction

end Template

end CellSat
