import Stowage.Fault

/-!
# Tables

A table holds entries addressed by the position at which they were added.  It only grows, so a
position once handed out stays valid.

* `Table.fetch`, `Table.replace` — access that faults outside the table.
* `Table.append` — adds an entry and returns its position.
* `Table.renderWith` — the text of a table, `[5, -6]`.
-/

set_option autoImplicit false

namespace Stowage

/-- Entries addressed by the position at which they were added. -/
abbrev Table (α : Type) := Array α

namespace Table

variable {α : Type}

/-- The position that the next entry receives. -/
def nextKey (t : Table α) : Nat := t.size

def keys (t : Table α) : List Nat := List.range t.size

/-- Adds an entry; returns its position. -/
def append (t : Table α) (a : α) : Nat × Table α := (t.nextKey, t.push a)

/-- The entry at a position; faults outside the table. -/
def fetch (t : Table α) (i : Nat) : Except Fault α :=
  match t[i]? with
  | some a => .ok a
  | none => .error .outOfRange

/-- Overwrites the entry at a position; faults outside the table. -/
def replace (t : Table α) (i : Nat) (a : α) : Except Fault (Table α) :=
  if h : i < t.size then .ok (t.set i a h) else .error .outOfRange

/-- The table of the first `n` entries, all of them if there are fewer. -/
def firstEntries (t : Table α) (n : Nat) : Table α := t.extract 0 n

/-- The entries in brackets, separated by a comma and a space. -/
def renderWith (render : α → String) (t : Table α) : String :=
  "[" ++ ", ".intercalate (t.toList.map render) ++ "]"

end Table

end Stowage
