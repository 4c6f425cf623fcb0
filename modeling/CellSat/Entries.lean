/-!
# Entries in order

Small tables keyed by symbols, as association lists in increasing order of their keys.

* `Entries.insert`: add an entry in its place, or replace the one of its key;
* `Entries.ofList`: a table from a list, of which the last entry of a key counts;
* looking up is `List.lookup`.
-/

namespace CellSat

/-- A table in increasing order of its keys. -/
abbrev Entries (α : Type) := List (String × α)

namespace Entries

variable {α : Type}

/-- Add an entry in its place, replacing an entry of the same key. -/
def insert (key : String) (value : α) : Entries α → Entries α
  | [] => [(key, value)]
  | (k, v) :: rest =>
    match compare key k with
    | .lt => (key, value) :: (k, v) :: rest
    | .eq => (key, value) :: rest
    | .gt => (k, v) :: insert key value rest

/-- The table with the given entries, of which the last one of a key counts. -/
def ofList (entries : List (String × α)) : Entries α :=
  entries.foldl (fun table e => insert e.1 e.2 table) []

end Entries

end CellSat
