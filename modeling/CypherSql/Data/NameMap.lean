import CypherSql.Data.NameSet

/-!
Finite maps from names, kept in ascending order of the names, so that equal maps are equal values.
-/

namespace CypherSql

/-- A finite map from names to values of a type. -/
structure NameMap (β : Type) where
  entries : List (String × β)
  ordered : entries.Pairwise (fun left right => left.1 < right.1)
  deriving DecidableEq

/-- Puts an entry at its place in an ascending list, or in the place of the one with its name. -/
def insertEntry {β : Type} (name : String) (value : β) : List (String × β) → List (String × β)
  | [] => [(name, value)]
  | (other, old) :: rest =>
      if name = other then (name, value) :: rest
      else if name < other then (name, value) :: (other, old) :: rest
      else (other, old) :: insertEntry name value rest

/-- Every entry after an insertion is the inserted one or was there before. -/
theorem mem_of_mem_insertEntry {β : Type} {name : String} {value : β} {x : String × β}
    {entries : List (String × β)} (h : x ∈ insertEntry name value entries)
    : x = (name, value) ∨ x ∈ entries := by
  induction entries with
  | nil => simpa [insertEntry] using h
  | cons entry rest ih =>
    obtain ⟨other, old⟩ := entry
    simp only [insertEntry] at h
    split at h
    · rcases List.mem_cons.1 h with h | h
      · exact .inl h
      · exact .inr (List.mem_cons_of_mem _ h)
    · split at h
      · exact List.mem_cons.1 h
      · rcases List.mem_cons.1 h with h | h
        · exact .inr (h ▸ List.mem_cons_self)
        · rcases ih h with h | h
          · exact .inl h
          · exact .inr (List.mem_cons_of_mem _ h)

/-- Insertion keeps the ascending order, by induction over the place of the entry. -/
theorem insertEntry_ordered {β : Type} {name : String} {value : β} {entries : List (String × β)}
    (h : entries.Pairwise (fun left right => left.1 < right.1))
    : (insertEntry name value entries).Pairwise (fun left right => left.1 < right.1) := by
  induction entries with
  | nil => simp [insertEntry]
  | cons entry rest ih =>
    obtain ⟨other, old⟩ := entry
    obtain ⟨hother, hrest⟩ := List.pairwise_cons.1 h
    simp only [insertEntry]
    split
    · rename_i heq
      subst heq
      exact List.pairwise_cons.2 ⟨hother, hrest⟩
    · split
      · rename_i hlt
        refine List.pairwise_cons.2 ⟨?_, h⟩
        intro x hx
        rcases List.mem_cons.1 hx with rfl | hx
        · exact hlt
        · exact String.lt_trans hlt (hother x hx)
      · rename_i hne hnlt
        refine List.pairwise_cons.2 ⟨?_, ih hrest⟩
        intro x hx
        rcases mem_of_mem_insertEntry hx with rfl | hx
        · exact name_lt_of_not_lt hne hnlt
        · exact hother x hx

namespace NameMap

variable {β γ : Type}

/-- The map without entries. -/
def empty : NameMap β := ⟨[], .nil⟩

instance : EmptyCollection (NameMap β) := ⟨empty⟩

instance : Inhabited (NameMap β) := ⟨empty⟩

/-- The value of a name. -/
def get? (map : NameMap β) (name : String) : Option β :=
  map.entries.lookup name

/-- The map with a value for a name, in place of the one it may have had. -/
def insert (map : NameMap β) (name : String) (value : β) : NameMap β :=
  ⟨insertEntry name value map.entries, insertEntry_ordered map.ordered⟩

/-- The map without a name. -/
def erase (map : NameMap β) (name : String) : NameMap β :=
  ⟨map.entries.filter (·.1 != name), map.ordered.filter _⟩

/-- The map with each value replaced. -/
def mapValues (map : NameMap β) (f : β → γ) : NameMap γ :=
  ⟨map.entries.map fun entry => (entry.1, f entry.2), List.pairwise_map.2 map.ordered⟩

/-- The entries of a list as a map; the last entry of a name counts. -/
def ofList (entries : List (String × β)) : NameMap β :=
  entries.foldl (fun map entry => map.insert entry.1 entry.2) empty

/-- The names in ascending order. -/
def keys (map : NameMap β) : List String :=
  map.entries.map (·.1)

/-- The values in the order of their names. -/
def values (map : NameMap β) : List β :=
  map.entries.map (·.2)

/-- The number of entries. -/
def size (map : NameMap β) : Nat :=
  map.entries.length

/-- There is no entry. -/
def isEmpty (map : NameMap β) : Bool :=
  map.entries.isEmpty

/-- The map with the value of a name changed, if it has one. -/
def modify (map : NameMap β) (name : String) (f : β → β) : NameMap β :=
  match map.get? name with
  | some value => map.insert name (f value)
  | none => map

end NameMap

end CypherSql
