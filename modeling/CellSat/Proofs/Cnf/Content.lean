import Mathlib
import CellSat.Proofs.Cnf.Answer
import CellSat.Proofs.Cnf.Imitation
/-!
# What a formula holds

The clauses of a formula are the disjunctions of its list in bits. Each of them is a set, which
stands at its first occurrence, and only if it may fail. Nothing but the number of variables keeps
a list from having a formula.

* `Disjunction.kept`, `Clause.disjunctions_minimize`: the disjunctions that are kept;
* `Disjunction.kept_append`: disjunctions that are new and may fail are all kept;
* `Formula.clauses_of_compile`, `Formula.variableCount_of_compile`: the clauses and the variables of
  a formula;
* `Formula.compile_cases`: when there is a formula;
* **`Formula.content_compile`**: comments have no influence on the table and the clauses.
-/

namespace CellSat

/-! ## Disjunctions that are kept -/

theorem eraseDups_of_nodup {α : Type} [BEq α] [LawfulBEq α] {l : List α} (h : l.Nodup) :
    l.eraseDups = l := by
  induction l with
  | nil => rfl
  | cons a l ih =>
    obtain ⟨ha, hl⟩ := List.nodup_cons.mp h
    have hfilter : l.filter (fun b => !b == a) = l :=
      List.filter_eq_self.mpr fun b hb => by simpa using fun heq : b = a => ha (heq ▸ hb)
    rw [List.eraseDups_cons, hfilter, ih hl]

theorem length_of_mapM_eq_ok {ε α β : Type} {f : α → Except ε β} {l : List α} {bs : List β}
    (h : l.mapM f = .ok bs) : bs.length = l.length := by
  induction l generalizing bs with
  | nil =>
    obtain rfl : [] = bs := Except.ok.inj h
    rfl
  | cons a l ih =>
    rw [List.mapM_cons] at h
    obtain ⟨b, -, h⟩ := bind_eq_ok.mp h
    obtain ⟨bs', hbs', h⟩ := bind_eq_ok.mp h
    rw [← Except.ok.inj h, List.length_cons, List.length_cons, ih hbs']

theorem Literal.toSet_eq_nil {d : Disjunction} : toSet d = [] ↔ d = [] := by
  simp only [List.eq_nil_iff_forall_not_mem, mem_toSet]

namespace Disjunction

theorem boolean_of_nil {ds : List Disjunction} (h : ∀ d ∈ ds, d = []) : Boolean ds :=
  fun d hd _ hl => absurd (h d hd ▸ hl) List.not_mem_nil

/-- The disjunctions that may fail, as sets, each at its first occurrence. -/
def kept (ds : List Disjunction) : List Disjunction :=
  ((ds.map Literal.toSet).filter fun d => !isAlwaysTrue d).eraseDups

theorem mem_kept {ds : List Disjunction} {d : Disjunction} :
    d ∈ kept ds ↔ (∃ e ∈ ds, Literal.toSet e = d) ∧ d.isAlwaysTrue = false := by
  simp [kept, List.mem_eraseDups]

theorem kept_append {ds es : List Disjunction}
    (hfails : ∀ e ∈ es, isAlwaysTrue (Literal.toSet e) = false)
    (hnodup : (es.map Literal.toSet).Nodup)
    (hnew : ∀ d ∈ ds, ∀ e ∈ es, Literal.toSet d ≠ Literal.toSet e) :
    kept (ds ++ es) = kept ds ++ es.map Literal.toSet := by
  have hkept : (es.map Literal.toSet).filter (fun d => !isAlwaysTrue d) = es.map Literal.toSet := by
    rw [List.filter_eq_self, List.forall_mem_map]
    exact fun e he => by rw [hfails e he]; rfl
  have hremove : (es.map Literal.toSet).removeAll
      ((ds.map Literal.toSet).filter fun d => !isAlwaysTrue d) = es.map Literal.toSet := by
    rw [List.removeAll, List.filter_eq_self, List.forall_mem_map]
    intro e he
    simp only [List.elem_eq_contains, Bool.not_eq_true', List.contains_eq_mem,
      decide_eq_false_iff_not]
    intro hmem
    obtain ⟨d, hd, heq⟩ := List.mem_map.mp (List.mem_of_mem_filter hmem)
    exact hnew d hd e he heq
  rw [kept, List.map_append, List.filter_append, List.eraseDups_append, hkept, hremove,
    eraseDups_of_nodup hnodup, kept]

end Disjunction

namespace Clause

theorem disjunctions_minimizeFrom (seen : Std.HashSet Disjunction) (cs : List Clause) :
    disjunctions (minimizeFrom seen cs) = (((disjunctions cs).map Literal.toSet).filter fun d =>
      !Disjunction.isAlwaysTrue d && !seen.contains d).eraseDups := by
  fun_induction minimizeFrom seen cs with
  | case1 => rfl
  | case2 seen text cs ih => exact ih
  | case3 seen d cs set hskip ih =>
    rw [disjunctions_disjunction, List.map_cons, List.filter_cons_of_neg, ih]
    rcases Bool.or_eq_true _ _ ▸ hskip with h | h
    · simp [set, h]
    · simp [set, h]
  | case4 seen d cs set hskip ih =>
    rw [disjunctions_disjunction, disjunctions_disjunction, List.map_cons, List.filter_cons_of_pos,
      List.eraseDups_cons, ih, List.filter_filter]
    · congr 3
      funext e
      rw [Std.HashSet.contains_insert, BEq.comm, Bool.not_or, Bool.and_left_comm]
    · simpa [set, and_comm] using hskip

/-- **Minimizing** a list keeps the disjunctions that may fail, as sets, each once. -/
theorem disjunctions_minimize (cs : List Clause) :
    disjunctions (minimize cs) = Disjunction.kept (disjunctions cs) := by
  simp [minimize, disjunctions_minimizeFrom, Disjunction.kept]

end Clause

/-! ## The formula of a list -/

namespace Formula

open SymbolTable

variable {cs cs' es : List Clause} {f g : Formula}

theorem clauses_of_encodeLines {t : SymbolTable} {lines : List FormulaLine}
    (h : cs.mapM (encodeLine t) = .ok lines) :
    (Clause.disjunctions cs).mapM (fun d => d.mapM (encodeLiteral t)) =
      .ok (lines.filterMap FormulaLine.clause?) := by
  induction cs generalizing lines with
  | nil =>
    obtain rfl := Except.ok.inj h
    rfl
  | cons c cs ih =>
    rw [List.mapM_cons] at h
    obtain ⟨line, hline, h⟩ := bind_eq_ok.mp h
    obtain ⟨rest, hrest, h⟩ := bind_eq_ok.mp h
    obtain rfl := Except.ok.inj h
    cases c with
    | comment text =>
      obtain rfl := Except.ok.inj hline
      rw [Clause.disjunctions_comment, ih hrest]
      rfl
    | disjunction d =>
      obtain ⟨numbers, hnumbers, hline⟩ := bind_eq_ok.mp hline
      obtain rfl := Except.ok.inj hline
      rw [Clause.disjunctions_disjunction, List.mapM_cons, hnumbers, ih hrest]
      rfl

/-- The clauses of a formula are the numbered disjunctions that are kept of its list in bits. -/
theorem clauses_of_compile (hf : compile cs = .ok f) (hes : Clause.expandTags cs = .ok es) :
    (Disjunction.kept (Clause.disjunctions es)).mapM (fun d => d.mapM (encodeLiteral f.symbols)) =
      .ok f.clauses := by
  obtain ⟨es', hes', -, -, hlines⟩ := exists_of_compile hf
  obtain rfl := Except.ok.inj (hes.symm.trans hes')
  rw [← Clause.disjunctions_minimize]
  exact clauses_of_encodeLines hlines

theorem clauseCount_of_compile (hf : compile cs = .ok f) (hes : Clause.expandTags cs = .ok es) :
    f.clauseCount = (Disjunction.kept (Clause.disjunctions es)).length :=
  length_of_mapM_eq_ok (clauses_of_compile hf hes)

theorem size_ofNames_variableNames (es : List Clause) :
    (ofNames (Clause.variableNames es)).size = (Clause.variableNames es).length := by
  refine le_antisymm (size_ofNames_le _) ?_
  rw [(numbers_ofNames _).size]
  exact ((nodup_sortedSet _).subperm fun name => mem_sortedSet.mpr).length_le

theorem variableCount_of_compile (hf : compile cs = .ok f) (hes : Clause.expandTags cs = .ok es) :
    f.variableCount = (Clause.variableNames es).length := by
  rw [variableCount, symbols_of_compile hf hes, size_ofNames_variableNames]

/-- **A list has a formula** exactly if the numbers of its variables in bits fit in 32 bits. -/
theorem compile_cases (hes : Clause.expandTags cs = .ok es) :
    (Clause.variableNames es).length < 2 ^ 31 ∧ (∃ f, compile cs = .ok f) ∨
      2 ^ 31 ≤ (Clause.variableNames es).length ∧ compile cs = .error (.fault .overflow) := by
  obtain ⟨es', hes', hbool, -⟩ := Clause.expandTags_writes cs
  obtain rfl := Except.ok.inj (hes.symm.trans hes')
  by_cases hsize : (Clause.variableNames es).length < 2 ^ 31
  · obtain ⟨f, hf, -⟩ := compile_of_expandTags hes hbool hsize
    exact .inl ⟨hsize, f, hf⟩
  · have hword : Word.int32 (ofNames (Clause.variableNames es)).size = .error .overflow := by
      rw [size_ofNames_variableNames, Word.int32, if_neg]
      simp only [Word.maxInt32]
      omega
    have hsymbols : ofNames32 (Clause.variableNames es) = .error .overflow := by
      rw [ofNames32, hword]
      rfl
    refine .inr ⟨by omega, ?_⟩
    rw [compile, hes]
    change (Checked.toResult (ofNames32 (Clause.variableNames es)) >>= _) = _
    rw [hsymbols]
    rfl

/-- What solvers and decoders use of a formula: its table and its clauses. -/
def content (f : Formula) : SymbolTable × List (List Int) := (f.symbols, f.clauses)

theorem clauses_eq_of_compile {es' : List Clause} (hf : compile cs = .ok f)
    (hes : Clause.expandTags cs = .ok es) (hg : compile cs' = .ok g)
    (hes' : Clause.expandTags cs' = .ok es')
    (h : Clause.disjunctions es' = Clause.disjunctions es) : g.content = f.content := by
  have hsymbols : g.symbols = f.symbols := by
    rw [symbols_of_compile hf hes, symbols_of_compile hg hes', Clause.variableNames, h,
      Clause.variableNames]
  have hclauses := clauses_of_compile hg hes'
  rw [h, hsymbols, clauses_of_compile hf hes] at hclauses
  rw [content, content, hsymbols, Except.ok.inj hclauses]

theorem compile_map_eq {α : Type} {P : Formula → α} {es' : List Clause}
    (hes : Clause.expandTags cs = .ok es) (hes' : Clause.expandTags cs' = .ok es')
    (hnames : Clause.variableNames es' = Clause.variableNames es)
    (h : ∀ f g, compile cs = .ok f → compile cs' = .ok g → P g = P f) :
    (compile cs').map P = (compile cs).map P := by
  have hcases := compile_cases hes'
  rw [hnames] at hcases
  rcases compile_cases hes with ⟨hsize, f, hf⟩ | ⟨hsize, hf⟩
  · obtain ⟨-, g, hg⟩ := hcases.resolve_right fun hlarge => by omega
    have heq := h f g hf hg
    rw [hf, hg]
    exact congrArg Except.ok heq
  · obtain ⟨-, hg⟩ := hcases.resolve_left fun hsmall => by omega
    rw [hf, hg]

theorem content_compile (h : Clause.disjunctions cs' = Clause.disjunctions cs) :
    (compile cs').map content = (compile cs).map content := by
  obtain ⟨es, hes, -⟩ := Clause.expandTags_writes cs
  obtain ⟨es', hes', -⟩ := Clause.expandTags_writes cs'
  have hdisjunctions := Clause.disjunctions_of_expandTags h hes hes'
  have hnames : Clause.variableNames es' = Clause.variableNames es := by
    rw [Clause.variableNames, hdisjunctions, Clause.variableNames]
  exact compile_map_eq hes hes' hnames fun f g hf hg =>
    clauses_eq_of_compile hf hes hg hes' hdisjunctions

theorem symbols_compile (hcs : Disjunction.Boolean (Clause.disjunctions cs))
    (hcs' : Disjunction.Boolean (Clause.disjunctions cs'))
    (h : Clause.variableNames cs' = Clause.variableNames cs) :
    (compile cs').map symbols = (compile cs).map symbols := by
  have hes := Clause.expandTags_of_boolean hcs
  have hes' := Clause.expandTags_of_boolean hcs'
  refine compile_map_eq hes hes' h fun f g hf hg => ?_
  rw [symbols_of_compile hf hes, symbols_of_compile hg hes', h]

theorem exists_compile_of_nil (h : ∀ d ∈ Clause.disjunctions cs, d = []) :
    ∃ f, compile cs = .ok f := by
  have hnames : Clause.variableNames cs = [] := by
    rw [List.eq_nil_iff_forall_not_mem]
    intro name hname
    obtain ⟨d, hd, l, hl, -⟩ := Clause.mem_variableNames.mp hname
    exact absurd (h d hd ▸ hl) List.not_mem_nil
  have hcases := compile_cases (Clause.expandTags_of_boolean (Disjunction.boolean_of_nil h))
  rw [hnames] at hcases
  exact (hcases.resolve_right fun hlarge => by simp at hlarge).2

theorem nil_mem_clauses (hcs : Disjunction.Boolean (Clause.disjunctions cs))
    (hf : compile cs = .ok f) : [] ∈ f.clauses ↔ [] ∈ Clause.disjunctions cs := by
  rw [mem_clauses_iff hf (Clause.expandTags_of_boolean hcs), Clause.disjunctions_minimize]
  constructor
  · rintro ⟨d, hd, hnumbers⟩
    obtain ⟨⟨e, he, rfl⟩, -⟩ := Disjunction.mem_kept.mp hd
    have hset : Literal.toSet e = [] :=
      List.eq_nil_of_length_eq_zero (length_of_mapM_eq_ok hnumbers).symm
    rwa [Literal.toSet_eq_nil.mp hset] at he
  · intro hmem
    exact ⟨[], Disjunction.mem_kept.mpr ⟨⟨[], hmem, Literal.toSet_eq_nil.mpr rfl⟩, rfl⟩, rfl⟩

end Formula

end CellSat
