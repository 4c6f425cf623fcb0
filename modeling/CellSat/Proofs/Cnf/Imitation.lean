import Mathlib
import CellSat.Clause.Text
import CellSat.Proofs.Cnf.Exchange
/-!
# Comments that look like names

The comments of a list are written into the text of its formula after the names, with the same mark
in front. A comment that looks like the line of a name is read as one and overrides what the table
said of its number, so that an answer may be decoded differently with comments and without them.

* `Clause.legible_of_read`: what the comments and the names of a list that was read are like;
* `Formula.exists_bare`: the formula of a list without its comments;
* `Formula.read_write_of_legible`: the table in the text of a formula;
* `Assignment.target_eq_of_decode`: an answer of one number tells what that number stands for;
* `Assignment.load_enter_iff`: when entries that are added to a table have no influence on decoding;
* **`Formula.load_bare_iff`**: comments have no influence on decoding exactly if those that look
  like names have numbers of 32 bits, and the last one with a number gives it a name that stands for
  the same as its name in the table.
-/

namespace CellSat

/-! ## Lists that were read -/

namespace Text

variable {c : Char} {s : List Char}

theorem mem_of_mem_trim (h : c ∈ trim s) : c ∈ s := by
  rw [trim, trimEnd, List.mem_reverse] at h
  have hstart := List.mem_reverse.mp ((List.dropWhile_suffix isBlank).subset h)
  exact (List.dropWhile_suffix isBlank).subset hstart

theorem not_suffix_trim (hc : isBlank c = true) (s : List Char) : ¬ [c] <:+ trim s := by
  intro h
  rw [trim, trimEnd, ← List.reverse_prefix, List.reverse_reverse] at h
  obtain ⟨rest, hrest⟩ := h
  have hhead := List.head?_dropWhile_not isBlank (trimStart s).reverse
  rw [← hrest] at hhead
  simp [hc] at hhead

end Text

namespace Clause

open SymbolTable

variable {cs es : List Clause} {d : Disjunction} {ws : List String} {content : Content}

theorem commentText_suffix (line : List Char) : commentText line <:+ line := by
  have hdrop : ∀ p s : List Char, (Text.dropStart? p s).getD s <:+ s := by
    intro p s
    cases h : Text.dropStart? p s with
    | none => exact List.suffix_refl s
    | some r => exact ⟨p, (Text.eq_append_of_dropStart? h).symm⟩
  exact (hdrop _ _).trans (hdrop _ _)

theorem legible_of_parseWords (h : parseWords ws = .ok d) : ∀ l ∈ d, Legible l.name := by
  intro l hl
  obtain ⟨w, -, hw⟩ := (mem_of_mapM_eq_ok h).mp hl
  exact (Literal.legible_of_parse hw).2

theorem legible_of_parseDisjunction (h : parseDisjunction ws = .ok d) :
    ∀ l ∈ d, Legible l.name := by
  unfold parseDisjunction at h
  split at h
  · split_ifs at h
    · obtain ⟨first, hfirst, h⟩ := bind_eq_ok.mp h
      obtain ⟨body, hbody, h⟩ := bind_eq_ok.mp h
      obtain rfl := Except.ok.inj h
      rw [List.forall_mem_cons, List.forall_mem_map]
      exact ⟨(Literal.legible_of_parse hfirst).2, legible_of_parseWords hbody⟩
    · exact legible_of_parseWords h
  · exact legible_of_parseWords h

theorem parseLine_cases {line : String} {c : Clause} (h : parseLine line = .ok c) :
    (∃ s, c = .comment (String.ofList s) ∧ s <:+ Text.trim line.toList) ∨
      ∃ d, c = .disjunction d ∧ ∀ l ∈ d, Legible l.name := by
  unfold parseLine at h
  simp only at h
  split at h
  · exact .inl ⟨[], (Except.ok.inj h).symm, List.nil_suffix⟩
  · exact .inl ⟨_, (Except.ok.inj h).symm, commentText_suffix _⟩
  · cases hd : parseDisjunction ((Text.words (Text.trim line.toList)).map String.ofList) with
    | error failure => simp [hd, Except.map] at h
    | ok d =>
      rw [hd] at h
      exact .inr ⟨d, (Except.ok.inj h).symm, legible_of_parseDisjunction hd⟩

/-- **Lists that were read** have comments of one line, and names without blanks. -/
theorem legible_of_read (h : read content = .ok cs) :
    (∀ text ∈ comments cs, '\n' ∉ text.toList ∧ ¬ ['\r'] <:+ text.toList) ∧
      ∀ name ∈ variableNames cs, Legible name := by
  have hcases : ∀ c ∈ cs, ∃ line, '\n' ∉ line.toList ∧ parseLine line = .ok c := by
    intro c hc
    obtain ⟨line, hline, hparse⟩ := (mem_of_mapM_eq_ok h).mp hc
    obtain ⟨text, htext, hparse⟩ := bind_eq_ok.mp hparse
    cases line with
    | error cause => contradiction
    | ok other =>
      obtain rfl : other = text := Except.ok.inj htext
      exact ⟨other, Content.not_mem_lines hline, hparse⟩
  constructor
  · intro text htext
    obtain ⟨line, hbreak, hparse⟩ := hcases _ (mem_comments.mp htext)
    rcases parseLine_cases hparse with ⟨s, hs, hsuffix⟩ | ⟨d, hd, -⟩
    · obtain rfl := Clause.comment.inj hs
      rw [String.toList_ofList]
      exact ⟨fun hmem => hbreak (Text.mem_of_mem_trim (hsuffix.subset hmem)),
        fun hreturn => Text.not_suffix_trim (by decide) _ (hreturn.trans hsuffix)⟩
    · contradiction
  · intro name hname
    obtain ⟨d, hd, l, hl, rfl⟩ := mem_variableNames.mp hname
    obtain ⟨line, -, hparse⟩ := hcases (.disjunction d) (by
      obtain ⟨c, hc, hcd⟩ := List.mem_filterMap.mp hd
      cases c with
      | comment text => contradiction
      | disjunction e => exact Option.some.inj hcd ▸ hc)
    rcases parseLine_cases hparse with ⟨s, hs, -⟩ | ⟨e, he, hlegible⟩
    · contradiction
    · exact hlegible l (Clause.disjunction.inj he ▸ hl)

/-! ## Lists without comments -/

theorem disjunctions_of_replaceTags {max : MaxTags} (h : replaceTags max cs = .ok es) :
    ∃ parts, (disjunctions cs).mapM (Tag.anyOf max) = .ok parts ∧
      disjunctions es = parts.flatten := by
  induction cs generalizing es with
  | nil =>
    obtain rfl := Except.ok.inj h
    exact ⟨[], rfl, rfl⟩
  | cons c cs ih =>
    cases c with
    | comment text =>
      obtain ⟨rest, hrest, h⟩ := bind_eq_ok.mp h
      obtain rfl := Except.ok.inj h
      rw [disjunctions_comment, disjunctions_comment]
      exact ih hrest
    | disjunction d =>
      obtain ⟨clauses, hclauses, h⟩ := bind_eq_ok.mp h
      obtain ⟨rest, hrest, h⟩ := bind_eq_ok.mp h
      obtain rfl := Except.ok.inj h
      obtain ⟨parts, hparts, hflatten⟩ := ih hrest
      refine ⟨clauses :: parts, ?_, ?_⟩
      · rw [disjunctions_disjunction, List.mapM_cons, hclauses, hparts]
        rfl
      · rw [disjunctions_append, disjunctions_map, hflatten, List.flatten_cons]

theorem disjunctions_of_expandTags {cs' es' : List Clause}
    (hcs : disjunctions cs' = disjunctions cs) (h : expandTags cs = .ok es)
    (h' : expandTags cs' = .ok es') : disjunctions es' = disjunctions es := by
  have hmax : Tag.maxOfClauses cs' = Tag.maxOfClauses cs := by
    rw [Tag.maxOfClauses, hcs, Tag.maxOfClauses]
  unfold expandTags at h h'
  simp only [hmax] at h h'
  split_ifs at h h'
  · rw [← Except.ok.inj h, ← Except.ok.inj h', hcs]
  · obtain ⟨expanded, hexpanded, h⟩ := bind_eq_ok.mp h
    obtain ⟨bounds, hbounds, h⟩ := bind_eq_ok.mp h
    obtain ⟨expanded', hexpanded', h'⟩ := bind_eq_ok.mp h'
    obtain ⟨bounds', hbounds', h'⟩ := bind_eq_ok.mp h'
    obtain ⟨parts, hparts, hflatten⟩ := disjunctions_of_replaceTags hexpanded
    obtain ⟨parts', hparts', hflatten'⟩ := disjunctions_of_replaceTags hexpanded'
    rw [hcs, hparts] at hparts'
    rw [hbounds] at hbounds'
    rw [← Except.ok.inj h, ← Except.ok.inj h', disjunctions_append, disjunctions_append, hflatten,
      hflatten', Except.ok.inj hparts', Except.ok.inj hbounds']

end Clause

namespace Formula

open SymbolTable

variable {cs : List Clause} {content : Content} {f g : Formula}

theorem exists_bare (hf : compile cs = .ok f) :
    ∃ g, compile ((Clause.disjunctions cs).map .disjunction) = .ok g ∧ g.symbols = f.symbols := by
  obtain ⟨es, hes, hsymbols, hsize, -⟩ := exists_of_compile hf
  obtain ⟨es', hes', hbool, -⟩ :=
    Clause.expandTags_writes ((Clause.disjunctions cs).map .disjunction)
  have hnames : Clause.variableNames es' = Clause.variableNames es := by
    unfold Clause.variableNames
    rw [Clause.disjunctions_of_expandTags (Clause.disjunctions_map _) hes hes']
  have hlength : (Clause.variableNames es').length ≤ f.variableCount := by
    rw [hnames, variableCount, hsymbols, (numbers_ofNames _).size]
    exact ((nodup_sortedSet _).subperm fun name => mem_sortedSet.mpr).length_le
  obtain ⟨g, hg, hgsymbols, -⟩ := compile_of_expandTags hes' hbool (hlength.trans_lt hsize)
  exact ⟨g, hg, by rw [hgsymbols, hnames, hsymbols]⟩

theorem asRead_comment {text : String} (h : ¬ ['\r'] <:+ text.toList) :
    Text.asRead ("c " ++ text) = "c " ++ text := by
  apply String.toList_injective
  rw [toList_asRead_comment, Text.dropReturn_eq_self h, String.toList_append]

/-- The names and numbers in those comments that look like lines of names. -/
def imitations (cs : List Clause) : Result (List (String × Int)) :=
  entriesOf ((Clause.comments cs).map fun text => "c " ++ text)

/-- **The table in the text of a formula** whose list was read. -/
theorem read_write_of_legible
    (hnames : ∀ name ∈ Clause.variableNames cs, Legible name)
    (hcomments : ∀ text ∈ Clause.comments cs, '\n' ∉ text.toList ∧ ¬ ['\r'] <:+ text.toList)
    (hf : compile cs = .ok f) : SymbolTable.read (.text f.write) =
      (imitations cs).map (enter (enter {} (f.symbols.toList.filterMap shownEntry))) := by
  obtain ⟨more, hmore, htag⟩ := comments_of_compile hf
  have hbound : ∀ text ∈ more, readLine (Text.asRead ("c " ++ text)) = .ok none := by
    intro text htext
    rw [htag text htext]
    exact readLine_comment (by decide)
  have hself : ∀ text ∈ Clause.comments cs, Text.asRead ("c " ++ text) = "c " ++ text :=
    fun text htext => asRead_comment (hcomments text htext).2
  have hentries : entriesOf (f.comments.map fun text => Text.asRead ("c " ++ text)) =
      imitations cs := by
    rw [hmore, List.map_append, entriesOf_append, List.map_congr_left hself, imitations,
      entriesOf_of_none (List.forall_mem_map.mpr hbound)]
    cases entriesOf ((Clause.comments cs).map fun text => "c " ++ text) with
    | error failure => rfl
    | ok entries => simp [bind, Except.bind, pure, Except.pure]
  rw [read_write, hentries]
  · intro e he
    obtain ⟨hbits, hrange⟩ := mem_symbols_of_compile hf he
    exact ⟨legible_of_variableInBits hnames hbits, hrange⟩
  · intro text htext
    rw [hmore, List.mem_append] at htext
    rcases htext with htext | htext
    · exact (hcomments text htext).1
    · rw [htag text htext]
      decide

theorem read_write_bare (hnames : ∀ name ∈ Clause.variableNames cs, Legible name)
    (hg : compile ((Clause.disjunctions cs).map .disjunction) = .ok g) :
    SymbolTable.read (.text g.write) =
      .ok (enter {} (g.symbols.toList.filterMap shownEntry)) := by
  have hsame : Clause.variableNames ((Clause.disjunctions cs).map .disjunction) =
      Clause.variableNames cs := by
    unfold Clause.variableNames
    rw [Clause.disjunctions_map]
  rw [read_write_of_legible (hsame ▸ hnames) (by simp) hg, imitations, Clause.comments_map]
  rfl

end Formula

/-! ## What an answer of one number tells -/

namespace Assignment

variable {t u : SymbolTable} {i : Int}

theorem decode_of_name? (h1 : 1 ≤ i) (hmax : i ≤ Word.maxInt32) {name : String}
    (hname : t.name? i = some name) :
    decode t [i] = (target name).map fun e => [(e.1, updated ∅ true e)] := by
  have habs : (i.natAbs : Int) = i := Int.natAbs_of_nonneg (by omega)
  have hpos : decide (0 < i) = true := decide_eq_true (by omega)
  rw [decode, decodeFrom_cons (by omega) (by rwa [habs]), decodeNamed_eq, hpos]
  cases target name with
  | error failure => rfl
  | ok e => rfl

theorem decode_of_name?_none (h1 : 1 ≤ i) (hmax : i ≤ Word.maxInt32) (hname : t.name? i = none) :
    decode t [i] = .error (.unknownVariable i.natAbs) := by
  have hfits : Word.int32 (i.natAbs : Int) = .ok i := by
    rw [Int.natAbs_of_nonneg (by omega), Word.int32, if_pos]
    simp only [Word.minInt32]
    omega
  rw [decode, decodeFrom, hfits]
  simp only [bind, Except.bind, liftM, monadLift, MonadLift.monadLift, Checked.toResult, hname]
  rfl

theorem updated_injective {d e : String × Option Nat}
    (h : (d.1, updated ∅ true d) = (e.1, updated ∅ true e)) : d = e := by
  obtain ⟨x, m⟩ := d
  obtain ⟨y, n⟩ := e
  obtain ⟨rfl, hvalue⟩ := Prod.mk.inj h
  cases m <;> cases n <;> simp_all [updated]

/-- **An answer of one number** tells what that number stands for. -/
theorem target_eq_of_decode (h1 : 1 ≤ i) (hmax : i ≤ Word.maxInt32) {name : String}
    (hname : t.name? i = some name) (h : decode t [i] = decode u [i]) :
    (u.name? i).map target = some (target name) := by
  rw [decode_of_name? h1 hmax hname] at h
  cases hother : u.name? i with
  | none =>
    rw [decode_of_name?_none h1 hmax hother] at h
    unfold target at h
    split at h
    · contradiction
    · split at h
      · exact absurd (Except.error.inj h) (by simp)
      · contradiction
  | some other =>
    rw [decode_of_name? h1 hmax hother] at h
    rw [Option.map_some, Option.some.injEq]
    cases ha : target name with
    | error failure =>
      cases hb : target other with
      | error failure' =>
        rw [ha, hb] at h
        exact congrArg _ (Except.error.inj h).symm
      | ok e =>
        rw [ha, hb] at h
        contradiction
    | ok d =>
      cases hb : target other with
      | error failure =>
        rw [ha, hb] at h
        contradiction
      | ok e =>
        rw [ha, hb] at h
        exact congrArg _ (updated_injective (List.cons.inj (Except.ok.inj h)).1).symm

theorem zero_not_mem_of_readLines {lines : List (Except FileError String)} {numbers : List Int}
    (h : readLines lines = .ok numbers) : 0 ∉ numbers := by
  induction lines generalizing numbers with
  | nil =>
    obtain rfl := Except.ok.inj h
    simp
  | cons line lines ih =>
    obtain ⟨text, -, h⟩ := bind_eq_ok.mp h
    obtain ⟨first, hfirst, h⟩ := bind_eq_ok.mp h
    obtain ⟨rest, hrest, h⟩ := bind_eq_ok.mp h
    obtain rfl := Except.ok.inj h
    rw [List.mem_append, not_or]
    refine ⟨?_, ih hrest⟩
    unfold readLine at hfirst
    split at hfirst
    · obtain ⟨all, -, hfirst⟩ := bind_eq_ok.mp hfirst
      obtain rfl := Except.ok.inj hfirst
      simp
    · obtain rfl := Except.ok.inj hfirst
      simp

/-! ## Entries that are added to a table -/

section Added

variable {cnf bare : Content} {base : SymbolTable} (hbare : SymbolTable.read bare = .ok base)

include hbare

/-- **Added entries.** The last one with a number must stand for what that number stood for. -/
theorem load_enter_iff {entries : List (String × Int)}
    (hcnf : SymbolTable.read cnf = .ok (base.enter entries))
    (hmax : ∀ e ∈ entries, e.2 ≤ Word.maxInt32) :
    (∀ answer, load cnf answer = load bare answer) ↔
      ∀ i name, 1 ≤ i → entries.reverse.find? (fun e => e.2 == i) = some (name, i) →
        (base.name? i).map target = some (target name) := by
  simp only [load_eq hcnf, load_eq hbare]
  constructor
  -- The answer that holds one number shows what an entry has changed.
  · intro h i name h1 hfind
    have hi : i ≤ Word.maxInt32 := hmax _ (List.mem_reverse.mp (List.mem_of_find?_eq_some hfind))
    have hsingle : ∀ n ∈ [i], n ≠ 0 ∧ n.natAbs < 2 ^ 31 := by
      simp only [Word.maxInt32] at hi
      rw [List.forall_mem_singleton]
      omega
    have hdecode := h (.text (write (some [i])))
    rw [read_write hsingle] at hdecode
    refine target_eq_of_decode h1 hi ?_ hdecode
    rw [SymbolTable.name?_enter, hfind]
    rfl
  · intro hlast answer
    cases hanswer : read answer with
    | error failure => rfl
    | ok numbers =>
      refine decode_congr fun n hn => ?_
      have h0 : n ≠ 0 := fun h => zero_not_mem_of_readLines hanswer (h ▸ hn)
      rw [SymbolTable.name?_enter]
      cases hfind : entries.reverse.find? fun e => e.2 == (n.natAbs : Int) with
      | none => rfl
      | some e =>
        obtain ⟨name, i⟩ := e
        obtain rfl : i = n.natAbs := by simpa using List.find?_some hfind
        exact (hlast _ name (by omega) hfind).symm

theorem exists_load_ne {failure : Failure} (hcnf : SymbolTable.read cnf = .error failure) :
    ∃ answer, load cnf answer ≠ load bare answer := by
  refine ⟨.text (write (some [])), ?_⟩
  rw [load_eq hbare, read_write (by simp), load, hcnf]
  rintro ⟨⟩

end Added

end Assignment

/-! ## Comments as entries -/

namespace Formula

open SymbolTable

variable {cs : List Clause} {content : Content} {f g : Formula}

/-- **Influence of comments on decoding.** They have none unless they look like lines of names. -/
theorem load_bare_iff (hread : Clause.read content = .ok cs) (hf : compile cs = .ok f) :
    ∃ g t, compile ((Clause.disjunctions cs).map .disjunction) = .ok g ∧
      SymbolTable.read (.text g.write) = .ok t ∧
      ((∀ answer, Assignment.load (.text f.write) answer =
          Assignment.load (.text g.write) answer) ↔
        ∃ entries, imitations cs = .ok entries ∧
          ∀ i name, 1 ≤ i → entries.reverse.find? (fun e => e.2 == i) = some (name, i) →
            (t.name? i).map Assignment.target = some (Assignment.target name)) ∧
      ((∀ text ∈ Clause.comments cs, ¬ "variable ".toList <+: text.toList) →
        ∀ answer, Assignment.load (.text f.write) answer =
          Assignment.load (.text g.write) answer) := by
  obtain ⟨hcomments, hnames⟩ := Clause.legible_of_read hread
  obtain ⟨g, hg, hsymbols⟩ := exists_bare hf
  let base := enter {} (f.symbols.toList.filterMap shownEntry)
  have htable : SymbolTable.read (.text f.write) = (imitations cs).map (enter base) :=
    read_write_of_legible hnames hcomments hf
  have hbare : SymbolTable.read (.text g.write) = .ok base := by
    rw [read_write_bare hnames hg, hsymbols]
  refine ⟨g, base, hg, hbare, ?_, fun hstart => ?_⟩
  · cases hentries : imitations cs with
    | error failure =>
      rw [hentries] at htable
      obtain ⟨answer, hne⟩ := Assignment.exists_load_ne hbare htable
      exact iff_of_false (fun h => hne (h answer)) (by simp)
    | ok entries =>
      rw [hentries] at htable
      simp only [Except.ok.injEq, exists_eq_left']
      exact Assignment.load_enter_iff hbare htable fun e he => le_of_mem_entriesOf hentries he
  · have hnone : imitations cs = .ok [] := by
      refine entriesOf_of_none (List.forall_mem_map.mpr fun text htext => ?_)
      rw [← asRead_comment (hcomments text htext).2, readLine_comment (hstart text htext)]
    rw [hnone] at htable
    exact (Assignment.load_enter_iff hbare htable (by simp)).mpr (by simp)

/-- A comment that repeats a line of the table has no influence. -/
theorem load_bare_repeated :
    ∃ cs f g, Clause.read (.text "# variable a: 1\na b") = .ok cs ∧ compile cs = .ok f ∧
      compile ((Clause.disjunctions cs).map .disjunction) = .ok g ∧
      ∀ answer, Assignment.load (.text f.write) answer =
        Assignment.load (.text g.write) answer := by
  have hread : Clause.read (.text "# variable a: 1\na b") =
      .ok [.comment "variable a: 1", .disjunction [{ name := "a" }, { name := "b" }]] := by cbv
  have hes : Clause.expandTags
      [.comment "variable a: 1", .disjunction [{ name := "a" }, { name := "b" }]] =
      .ok [.comment "variable a: 1", .disjunction [{ name := "a" }, { name := "b" }]] := by cbv
  have hnames : Clause.variableNames
      [.comment "variable a: 1", .disjunction [{ name := "a" }, { name := "b" }]] =
      ["a", "b"] := by cbv
  obtain ⟨f, hf, -⟩ := compile_writes fun es hes' => by
    rw [← Except.ok.inj (hes.symm.trans hes'), hnames]
    decide
  obtain ⟨g, t, hg, ht, hiff, -⟩ := load_bare_iff hread hf
  refine ⟨_, f, g, hread, hf, hg, hiff.mpr ⟨[("a", 1)], by cbv, fun i name _ hfind => ?_⟩⟩
  have htable := read_write_bare (Clause.legible_of_read hread).2 hg
  rw [ht, symbols_of_compile hg (by cbv)] at htable
  obtain ⟨rfl, rfl⟩ : name = "a" ∧ i = 1 := by
    simpa using List.mem_of_find?_eq_some hfind
  rw [Except.ok.inj htable]
  cbv

/-- A comment that gives the number of `a` to `b`. -/
theorem load_overridden :
    ∃ cs f g, Clause.read (.text "# variable b: 1\na") = .ok cs ∧ compile cs = .ok f ∧
      compile ((Clause.disjunctions cs).map .disjunction) = .ok g ∧
      Assignment.load (.text f.write) (.text "s SATISFIABLE\nv 1 0\n") =
        .ok [("b", .truth true)] ∧
      Assignment.load (.text g.write) (.text "s SATISFIABLE\nv 1 0\n") =
        .ok [("a", .truth true)] := by
  have hread : Clause.read (.text "# variable b: 1\na") =
      .ok [.comment "variable b: 1", .disjunction [{ name := "a" }]] := by cbv
  have hes : Clause.expandTags [.comment "variable b: 1", .disjunction [{ name := "a" }]] =
      .ok [.comment "variable b: 1", .disjunction [{ name := "a" }]] := by cbv
  have hnames : Clause.variableNames
      [.comment "variable b: 1", .disjunction [{ name := "a" }]] = ["a"] := by cbv
  obtain ⟨hcomments, hlegible⟩ := Clause.legible_of_read hread
  obtain ⟨f, hf, -⟩ := compile_writes fun es hes' => by
    rw [← Except.ok.inj (hes.symm.trans hes'), hnames]
    decide
  obtain ⟨g, hg, hsymbols⟩ := exists_bare hf
  have hnumbers := symbols_of_compile hf hes
  rw [hnames] at hnumbers
  have htable := read_write_of_legible hlegible hcomments hf
  have hbare := read_write_bare hlegible hg
  have himitations : imitations [.comment "variable b: 1", .disjunction [{ name := "a" }]] =
      .ok [("b", 1)] := by cbv
  have hanswer : Assignment.read (.text "s SATISFIABLE\nv 1 0\n") = .ok [1] := by cbv
  rw [himitations, hnumbers] at htable
  rw [hsymbols, hnumbers] at hbare
  refine ⟨_, f, g, hread, hf, hg, ?_, ?_⟩
  · rw [Assignment.load_eq htable, hanswer]
    cbv
  · rw [Assignment.load_eq hbare, hanswer]
    cbv

end Formula

end CellSat
