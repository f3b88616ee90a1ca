/-!
# Insertion-ordered tables

A `Table` maps keys to values and remembers the order in which keys first came in.  Writing to a key
that is present keeps its place; a key that is erased and written again goes to the end.
-/

namespace ProgramDependence

/-- A finite map that lists its entries in the order of first insertion. -/
structure Table (κ β : Type) where
  entries : List (κ × β) := []

namespace Table

variable {κ β γ : Type}

instance : Inhabited (Table κ β) := ⟨⟨[]⟩⟩

def keys (t : Table κ β) : List κ :=
  t.entries.map (·.1)

def values (t : Table κ β) : List β :=
  t.entries.map (·.2)

def size (t : Table κ β) : Nat :=
  t.entries.length

/-- Apply a function to every value; keys and order stay. -/
def map (f : β → γ) (t : Table κ β) : Table κ γ :=
  ⟨t.entries.map fun e => (e.1, f e.2)⟩

variable [DecidableEq κ]

def find? (t : Table κ β) (k : κ) : Option β :=
  (t.entries.find? fun e => e.1 = k).map (·.2)

def contains (t : Table κ β) (k : κ) : Bool :=
  t.entries.any fun e => e.1 = k

/-- Change the value of a key; an absent key changes nothing. -/
def modify (t : Table κ β) (k : κ) (f : β → β) : Table κ β :=
  ⟨t.entries.map fun e => if e.1 = k then (e.1, f e.2) else e⟩

/-- Write a value: in place for a present key, at the end for a new one. -/
def insert (t : Table κ β) (k : κ) (v : β) : Table κ β :=
  if t.contains k then t.modify k (fun _ => v) else ⟨t.entries ++ [(k, v)]⟩

/-- Remove a key; an absent key changes nothing. -/
def erase (t : Table κ β) (k : κ) : Table κ β :=
  ⟨t.entries.filter fun e => e.1 ≠ k⟩

@[simp] theorem keys_modify (t : Table κ β) (k : κ) (f : β → β) : (t.modify k f).keys = t.keys := by
  simp only [keys, modify, List.map_map]
  refine List.map_congr_left fun e _ => ?_
  by_cases h : e.1 = k <;> simp [h]

theorem contains_iff (t : Table κ β) (k : κ) : t.contains k = true ↔ k ∈ t.keys := by
  simp [contains, keys]

/-- Writing to a present key keeps the list of keys, a new key goes to its end. -/
theorem keys_insert (t : Table κ β) (k : κ) (v : β) :
    (t.insert k v).keys = if k ∈ t.keys then t.keys else t.keys ++ [k] := by
  by_cases h : t.contains k = true
  · simp [insert, h, (contains_iff t k).1 h]
  · have hk : k ∉ t.keys := fun hm => h ((contains_iff t k).2 hm)
    rw [insert, if_neg h, if_neg hk]
    simp [keys]

end Table

end ProgramDependence
