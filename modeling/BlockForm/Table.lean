/-!
# BlockForm.Table — named entries in the order they were made

A table maps texts to values, each text once, and lists its entries in the order of their first insertion.
An entry keeps its position for the life of the table, so a position serves as a handle.
-/

namespace BlockForm

/-- Entries with distinct names, in insertion order. -/
structure Table (α : Type) where
  entries : List (String × α)
  nodup : (entries.map Prod.fst).Nodup

namespace Table

variable {α : Type}

/-- The table without entries. -/
def empty : Table α := ⟨[], List.nodup_nil⟩

instance : Inhabited (Table α) := ⟨empty⟩

/-- The names in insertion order. -/
def keys (t : Table α) : List String := t.entries.map Prod.fst

/-- The values in insertion order. -/
def values (t : Table α) : List α := t.entries.map Prod.snd

/-- The number of entries. -/
def size (t : Table α) : Nat := t.entries.length

/-- There is no entry. -/
def isEmpty (t : Table α) : Bool := t.entries.isEmpty

/-- The value under a name. -/
def get? (t : Table α) (key : String) : Option α :=
  (t.entries.find? fun e => e.1 == key).map Prod.snd

/-- There is an entry under the name. -/
def contains (t : Table α) (key : String) : Bool := t.keys.contains key

/-- The position of a name. -/
def indexOf? (t : Table α) (key : String) : Option Nat := t.keys.idxOf? key

/-- The value at a position. -/
def at? (t : Table α) (i : Nat) : Option α := t.entries[i]?.map Prod.snd

/-- The entries with the value under `key` replaced. -/
def replaced (key : String) (value : α) (entries : List (String × α)) : List (String × α) :=
  entries.map fun e => if e.1 = key then (key, value) else e

theorem map_fst_replaced (key : String) (value : α) (entries : List (String × α)) :
    (replaced key value entries).map Prod.fst = entries.map Prod.fst := by
  simp only [replaced, List.map_map]
  refine List.map_congr_left fun e _ => ?_
  simp only [Function.comp_apply]
  split
  · next h => exact h.symm
  · rfl

/-- Puts a value under a name: in place if the name is there, at the end otherwise. -/
def insert (t : Table α) (key : String) (value : α) : Table α :=
  if h : key ∈ t.keys then
    ⟨replaced key value t.entries, by rw [map_fst_replaced]; exact t.nodup⟩
  else
    ⟨t.entries ++ [(key, value)], by
      rw [List.map_append, List.nodup_append]
      refine ⟨t.nodup, by simp, ?_⟩
      intro a ha b hb hab
      simp only [List.map_cons, List.map_nil, List.mem_singleton] at hb
      subst hb hab
      exact h ha⟩

end Table

end BlockForm
