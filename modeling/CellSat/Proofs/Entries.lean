import Mathlib
import CellSat.Entries
/-!
# Tables of symbols

* `Entries.lookup_ofList`: of several entries of a key the last one counts;
* `Entries.mem_of_mem_ofList`: a table has no other entries;
* `Entries.ofList_perm`: a table of entries with different keys has just these entries.
-/

namespace CellSat

namespace Entries

variable {α : Type}

theorem lookup_cons (key k : String) (value : α) (table : Entries α) :
    List.lookup k ((key, value) :: table) = if k = key then some value else table.lookup k := by
  rw [List.lookup_cons]
  by_cases h : k = key
  · simp [h]
  · simp [h, beq_false_of_ne h]

theorem lookup_insert (key k : String) (value : α) (table : Entries α) :
    (insert key value table).lookup k = if k = key then some value else table.lookup k := by
  fun_induction insert key value table with
  | case1 => rw [lookup_cons]
  | case2 key' value' rest _ => rw [lookup_cons]
  | case3 key' value' rest heq =>
    rw [lookup_cons, lookup_cons, Std.LawfulEqCmp.eq_of_compare heq]
    split_ifs <;> rfl
  | case4 key' value' rest hgt ih =>
    have hne : key' ≠ key := by
      rintro rfl
      simp at hgt
    rw [lookup_cons, lookup_cons, ih]
    by_cases hk : k = key'
    · rw [if_pos hk, if_pos hk, if_neg (hk ▸ hne)]
    · rw [if_neg hk, if_neg hk]

theorem lookup_foldl_insert (k : String) (l : List (String × α)) (table : Entries α) :
    (l.foldl (fun table e => insert e.1 e.2 table) table).lookup k =
      (l.reverse.lookup k).or (table.lookup k) := by
  induction l generalizing table with
  | nil => rfl
  | cons e l ih =>
    rw [List.foldl_cons, ih, List.reverse_cons, List.lookup_append, Option.or_assoc]
    congr 1
    rw [lookup_insert, lookup_cons]
    split_ifs <;> rfl

theorem lookup_ofList (k : String) (l : List (String × α)) :
    (ofList l).lookup k = l.reverse.lookup k := by
  rw [ofList, lookup_foldl_insert]
  exact Option.or_none

theorem lookup_filterMap (f : String → Option α) (k : String) (keys : List String) :
    (keys.filterMap fun key => (f key).map fun value => (key, value)).lookup k =
      if k ∈ keys then f k else none := by
  induction keys with
  | nil => rfl
  | cons key keys ih =>
    cases hf : f key with
    | none =>
      rw [List.filterMap_cons_none (by rw [hf]; rfl), ih]
      by_cases hk : k = key
      · simp [hk, hf]
      · simp [hk]
    | some value =>
      rw [List.filterMap_cons_some (by rw [hf]; rfl), lookup_cons, ih]
      by_cases hk : k = key
      · simp [hk, hf]
      · simp [hk]

theorem lookup_map (f : String → α) (k : String) (keys : List String) :
    (keys.map fun key => (key, f key)).lookup k = if k ∈ keys then some (f k) else none := by
  have h := lookup_filterMap (fun key => some (f key)) k keys
  simp only [Option.map_some] at h
  rwa [List.filterMap_eq_map'] at h

theorem insert_perm (key : String) (value : α) (table : Entries α)
    (h : key ∉ table.map Prod.fst) : (insert key value table).Perm ((key, value) :: table) := by
  fun_induction insert key value table with
  | case1 => exact .refl _
  | case2 key' value' rest _ => exact .refl _
  | case3 key' value' rest heq =>
    rw [Std.LawfulEqCmp.eq_of_compare heq] at h
    exact absurd List.mem_cons_self h
  | case4 key' value' rest _ ih =>
    rw [List.map_cons, List.mem_cons, not_or] at h
    exact ((ih h.2).cons _).trans (.swap _ _ _)

theorem foldl_insert_perm (l : List (String × α)) (table : Entries α)
    (h : ((l ++ table).map Prod.fst).Nodup) :
    (l.foldl (fun table e => insert e.1 e.2 table) table).Perm (l ++ table) := by
  induction l generalizing table with
  | nil => exact .refl _
  | cons e l ih =>
    rw [List.cons_append, List.map_cons, List.nodup_cons] at h
    have hnew : e.1 ∉ table.map Prod.fst := by
      intro he
      exact h.1 (by rw [List.map_append]; exact List.mem_append_right _ he)
    -- The entry moves to its place in the table, so the list of all entries is only permuted.
    have hmoved : (l ++ insert e.1 e.2 table).Perm (e :: l ++ table) :=
      ((insert_perm e.1 e.2 table hnew).append_left l).trans List.perm_middle
    refine (ih _ ?_).trans hmoved
    rw [(hmoved.map Prod.fst).nodup_iff, List.cons_append, List.map_cons, List.nodup_cons]
    exact h

theorem ofList_perm {l : List (String × α)} (h : (l.map Prod.fst).Nodup) :
    (ofList l).Perm l := by
  have hperm := foldl_insert_perm l [] (by rwa [List.append_nil])
  rwa [List.append_nil] at hperm

theorem mem_of_mem_insert {key : String} {value : α} {table : Entries α} {e : String × α}
    (h : e ∈ insert key value table) : e = (key, value) ∨ e ∈ table := by
  fun_induction insert key value table with
  | case1 => simpa using h
  | case2 key' value' rest _ => exact List.mem_cons.mp h
  | case3 key' value' rest _ =>
    exact (List.mem_cons.mp h).imp_right (List.mem_cons_of_mem _)
  | case4 key' value' rest _ ih =>
    rcases List.mem_cons.mp h with rfl | h
    · exact .inr List.mem_cons_self
    · exact (ih h).imp_right (List.mem_cons_of_mem _)

theorem mem_of_mem_foldl_insert {l : List (String × α)} {table : Entries α} {e : String × α}
    (h : e ∈ l.foldl (fun table e => insert e.1 e.2 table) table) : e ∈ l ∨ e ∈ table := by
  induction l generalizing table with
  | nil => exact .inr h
  | cons x l ih =>
    rcases ih h with h | h
    · exact .inl (List.mem_cons_of_mem x h)
    · rcases mem_of_mem_insert h with rfl | h
      · exact .inl List.mem_cons_self
      · exact .inr h

theorem mem_of_mem_ofList {l : List (String × α)} {e : String × α} (h : e ∈ ofList l) : e ∈ l :=
  (mem_of_mem_foldl_insert h).resolve_right List.not_mem_nil

theorem mem_of_lookup {table : Entries α} {key : String} {value : α}
    (h : table.lookup key = some value) : (key, value) ∈ table := by
  obtain ⟨before, after, rfl, -⟩ := List.lookup_eq_some_iff.mp h
  exact List.mem_append_right _ List.mem_cons_self

theorem lookup_eq_some_iff {table : Entries α} (h : (table.map Prod.fst).Nodup) {key : String}
    {value : α} : table.lookup key = some value ↔ (key, value) ∈ table := by
  induction table with
  | nil => simp
  | cons e table ih =>
    rw [List.map_cons, List.nodup_cons] at h
    obtain ⟨k, v⟩ := e
    rw [lookup_cons, List.mem_cons, Prod.mk.injEq, ← ih h.2]
    by_cases hk : key = k
    · rw [if_pos hk, Option.some.injEq]
      constructor
      · intro hv
        exact .inl ⟨hk, hv.symm⟩
      · rintro (hv | hv)
        · exact hv.2.symm
        · rw [ih h.2, hk] at hv
          exact absurd (List.mem_map_of_mem (f := Prod.fst) hv) h.1
    · rw [if_neg hk, or_iff_right (fun hv => hk hv.1)]

end Entries

end CellSat
