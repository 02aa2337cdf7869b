import CypherSql.Data.NameMap

/-! Laws of the ordered name sets and name maps: what is a member, and what a lookup finds after
each update.
-/

namespace CypherSql

namespace NameSet

@[simp]
theorem not_mem_empty (name : String) : ¬ name ∈ (∅ : NameSet) :=
  List.not_mem_nil

@[simp]
theorem mem_names {set : NameSet} {name : String} : name ∈ set.names ↔ name ∈ set :=
  Iff.rfl

@[simp]
theorem mem_ofList {names : List String} {name : String} : name ∈ ofList names ↔ name ∈ names := by
  have member : name ∈ ofList names ↔ name ∈ names ∨ name ∈ (∅ : NameSet) := mem_insertAll
  simpa using member

@[simp]
theorem mem_union {left right : NameSet} {name : String}
    : name ∈ left.union right ↔ name ∈ left ∨ name ∈ right := by
  rw [union, mem_insertAll, mem_names, or_comm]

/-- The members of a union over a list are those of the start and of each part, by induction over
the list.
-/
theorem mem_foldl_union {α : Type} {part : α → NameSet} {items : List α} {start : NameSet}
    {name : String}
    : name ∈ items.foldl (fun seen item => seen.union (part item)) start
      ↔ name ∈ start ∨ ∃ item ∈ items, name ∈ part item := by
  induction items generalizing start with
  | nil => simp
  | cons item rest ih => simp [ih, or_assoc]

/-- The names of a set are pairwise different, because they ascend strictly. -/
theorem names_nodup (set : NameSet) : set.names.Nodup := by
  refine List.Pairwise.imp ?_ set.ordered
  intro left right less same
  exact String.lt_irrefl _ (same ▸ less)

/-- Erasing a name that is not there changes nothing. -/
theorem erase_of_not_mem {set : NameSet} {name : String} (absent : name ∉ set)
    : set.erase name = set := by
  obtain ⟨names, ordered⟩ := set
  simp only [erase, NameSet.mk.injEq, List.filter_eq_self]
  intro other member
  simp only [bne_iff_ne, ne_eq]
  intro same
  exact absent (same ▸ member)

/-- A name after all others is put at the end, by induction over the others. -/
theorem insertName_of_last {name : String} {names : List String}
    (last : ∀ other ∈ names, other < name)
    : insertName name names = names ++ [name] := by
  induction names with
  | nil => rfl
  | cons other names ih =>
      rw [List.forall_mem_cons] at last
      have before := last.1
      rw [insertName, if_neg (String.ne_of_lt before).symm,
        if_neg (String.lt_asymm before), ih last.2, List.cons_append]

/-- Names that ascend behind those of a set are put at its end, by induction over them. -/
theorem names_insertAll {set : NameSet} {names : List String}
    (ordered : (set.names ++ names).Pairwise (· < ·))
    : (set.insertAll names).names = set.names ++ names := by
  induction names generalizing set with
  | nil => exact (List.append_nil _).symm
  | cons name names ih =>
      have before : ∀ other ∈ set.names, other < name := fun other member =>
        (List.pairwise_append.mp ordered).2.2 other member name List.mem_cons_self
      have last : (set.insert name).names = set.names ++ [name] := insertName_of_last before
      rw [List.append_cons, ← last] at ordered ⊢
      exact ih ordered

/-- A set has the names that it is made of in ascending order. -/
theorem ofList_names (set : NameSet) : ofList set.names = set := by
  have same : (ofList set.names).names = set.names := names_insertAll set.ordered
  cases set
  cases made : ofList _
  rw [made] at same
  cases same
  rfl

end NameSet

/-- What is looked up is an entry. -/
theorem mem_of_lookup {α β : Type} [BEq α] [LawfulBEq α] {entries : List (α × β)}
    {key : α} {value : β}
    (found : entries.lookup key = some value)
    : (key, value) ∈ entries := by
  obtain ⟨before, after, split, -⟩ := List.lookup_eq_some_iff.mp found
  simp [split]

theorem lookup_cons_entry {β : Type} {name key : String} {value : β} {rest : List (String × β)}
    : ((key, value) :: rest).lookup name = if name = key then some value else rest.lookup name := by
  rw [List.lookup_cons]
  by_cases same : name = key
  · simp [same]
  · simp [same, beq_eq_false_iff_ne.mpr same]

/-- A lookup after an insertion finds the new value under its name and the old ones elsewhere, by
induction over the place of the entry.
-/
theorem lookup_insertEntry {β : Type} {name other : String} {value : β}
    {entries : List (String × β)}
    : (insertEntry name value entries).lookup other
      = if other = name then some value else entries.lookup other := by
  induction entries with
  | nil => simp [insertEntry, lookup_cons_entry]
  | cons entry rest ih =>
      obtain ⟨key, old⟩ := entry
      simp only [insertEntry]
      split
      · rename_i same
        subst same
        by_cases found : other = name <;> simp [lookup_cons_entry, found]
      · rename_i different
        split
        · simp [lookup_cons_entry]
        · simp only [lookup_cons_entry, ih]
          by_cases found : other = name
          · subst found
            simp [different]
          · simp [found]

namespace NameMap

variable {β γ : Type}

@[simp]
theorem get?_empty (name : String) : (∅ : NameMap β).get? name = none :=
  rfl

theorem get?_insert (map : NameMap β) (name other : String) (value : β)
    : (map.insert name value).get? other = if other = name then some value else map.get? other :=
  lookup_insertEntry

@[simp]
theorem get?_insert_self (map : NameMap β) (name : String) (value : β)
    : (map.insert name value).get? name = some value := by
  simp [get?_insert]

theorem get?_erase (map : NameMap β) (name other : String)
    : (map.erase name).get? other = if other = name then none else map.get? other := by
  obtain ⟨entries, ordered⟩ := map
  simp only [get?, erase]
  clear ordered
  induction entries with
  | nil => simp
  | cons entry rest ih =>
      obtain ⟨key, value⟩ := entry
      by_cases same : key = name
      · subst same
        have skipped : ((key, value) :: rest).filter (·.1 != key) = rest.filter (·.1 != key) := by
          simp
        rw [skipped, ih, lookup_cons_entry]
        by_cases found : other = key <;> simp [found]
      · have kept : ((key, value) :: rest).filter (·.1 != name)
            = (key, value) :: rest.filter (·.1 != name) := by
          simp [same]
        rw [kept, lookup_cons_entry, lookup_cons_entry, ih]
        by_cases found : other = key
        · subst found
          simp [same]
        · simp [found]

theorem get?_mapValues (map : NameMap β) (f : β → γ) (name : String)
    : (map.mapValues f).get? name = (map.get? name).map f := by
  obtain ⟨entries, ordered⟩ := map
  simp only [get?, mapValues]
  clear ordered
  induction entries with
  | nil => rfl
  | cons entry rest ih =>
      obtain ⟨key, value⟩ := entry
      simp only [List.map_cons, lookup_cons_entry, ih]
      split <;> rfl

theorem get?_modify (map : NameMap β) (name other : String) (f : β → β)
    : (map.modify name f).get? other
      = if other = name then (map.get? name).map f else map.get? other := by
  unfold modify
  cases found : map.get? name with
  | none =>
      by_cases same : other = name
      · simp [same, found]
      · simp [same]
  | some value => simp [get?_insert]

/-- The keys of a map are pairwise different, because they ascend strictly. -/
theorem keys_nodup (map : NameMap β) : map.keys.Nodup := by
  refine List.pairwise_map.mpr (map.ordered.imp ?_)
  intro left right less same
  exact String.lt_irrefl _ (same ▸ less)

/-- The names that have a value are the keys. -/
theorem mem_keys {map : NameMap β} {name : String} : name ∈ map.keys ↔ (map.get? name).isSome := by
  simp only [keys, get?, List.mem_map, List.lookup_isSome_iff, Prod.exists, exists_and_right,
    exists_eq_right, beq_iff_eq]
  constructor
  · rintro ⟨value, member⟩
    exact ⟨name, ⟨value, member⟩, rfl⟩
  · rintro ⟨key, ⟨value, member⟩, same⟩
    exact ⟨value, same ▸ member⟩

/-- An entry of a map is what a lookup of its name finds, because no other entry has the name. -/
theorem mem_entries {map : NameMap β} {name : String} {value : β}
    : (name, value) ∈ map.entries ↔ map.get? name = some value := by
  obtain ⟨entries, ordered⟩ := map
  simp only [get?]
  induction entries with
  | nil => simp
  | cons entry rest ih =>
      obtain ⟨key, old⟩ := entry
      obtain ⟨above, orderedRest⟩ := List.pairwise_cons.mp ordered
      by_cases found : name = key
      · subst found
        have absent : (name, value) ∉ rest :=
          fun member => String.lt_irrefl _ (above (name, value) member)
        simp [absent, eq_comm]
      · simp [lookup_cons_entry, found, ih orderedRest]

/-- An entry that a map has already changes nothing, by induction over the entries. -/
theorem insert_eq_self {map : NameMap β} {name : String} {value : β}
    (found : map.get? name = some value)
    : map.insert name value = map := by
  have same : insertEntry name value map.entries = map.entries := by
    obtain ⟨entries, ordered⟩ := map
    replace found := mem_entries.mpr found
    induction entries with
    | nil => cases found
    | cons entry rest ih =>
        obtain ⟨key, old⟩ := entry
        obtain ⟨above, orderedRest⟩ := List.pairwise_cons.mp ordered
        rcases List.mem_cons.mp found with first | later
        · obtain ⟨rfl, rfl⟩ := Prod.mk.inj first
          simp [insertEntry]
        · have before := above (name, value) later
          simp only [insertEntry, if_neg (String.ne_of_lt before).symm,
            if_neg (String.lt_asymm before), ih orderedRest later]
  cases map
  simp only [insert, same]

/-- The values of a map are what lookups find. -/
theorem mem_values {map : NameMap β} {value : β}
    : value ∈ map.values ↔ ∃ name, map.get? name = some value := by
  simp only [values, List.mem_map, Prod.exists, exists_eq_right, mem_entries]

/-- A list of different names that all have values is no longer than the map. -/
theorem length_le_size {map : NameMap β} {names : List String} (distinct : names.Nodup)
    (present : ∀ name ∈ names, (map.get? name).isSome)
    : names.length ≤ map.size := by
  have included : names ⊆ map.keys := fun name member => mem_keys.mpr (present name member)
  simpa [keys, size] using distinct.length_le_of_subset included

/-- Maps with the same names are of the same size. -/
theorem size_eq {map : NameMap β} {other : NameMap γ}
    (same : ∀ name, (map.get? name).isSome = (other.get? name).isSome)
    : map.size = other.size := by
  have fewer : map.keys.length ≤ other.size :=
    length_le_size map.keys_nodup fun name member => same name ▸ mem_keys.mp member
  have more : other.keys.length ≤ map.size :=
    length_le_size other.keys_nodup fun name member => same name ▸ mem_keys.mp member
  simp only [keys, List.length_map] at fewer more
  exact Nat.le_antisymm fewer more

/-- An entry after all others is put at the end, by induction over the others. -/
theorem insertEntry_of_last {name : String} {value : β} {entries : List (String × β)}
    (last : ∀ entry ∈ entries, entry.1 < name)
    : insertEntry name value entries = entries ++ [(name, value)] := by
  induction entries with
  | nil => rfl
  | cons entry entries ih =>
      rw [List.forall_mem_cons] at last
      have before := last.1
      rw [insertEntry, if_neg (String.ne_of_lt before).symm,
        if_neg (String.lt_asymm before), ih last.2, List.cons_append]

/-- Entries that ascend behind those of a map are put at its end, by induction over them. -/
theorem entries_foldl {map : NameMap β} {entries : List (String × β)}
    (ordered : (map.entries ++ entries).Pairwise fun left right => left.1 < right.1)
    : (entries.foldl (fun map entry => map.insert entry.1 entry.2) map).entries
      = map.entries ++ entries := by
  induction entries generalizing map with
  | nil => exact (List.append_nil _).symm
  | cons entry entries ih =>
      have before : ∀ other ∈ map.entries, other.1 < entry.1 := fun other member =>
        (List.pairwise_append.mp ordered).2.2 other member entry List.mem_cons_self
      have last : (map.insert entry.1 entry.2).entries = map.entries ++ [entry] :=
        insertEntry_of_last before
      rw [List.append_cons, ← last] at ordered ⊢
      exact ih ordered

/-- A map has the entries that it is made of in ascending order. -/
theorem ofList_entries (map : NameMap β) : ofList map.entries = map := by
  have same : (ofList map.entries).entries = map.entries := entries_foldl map.ordered
  cases map
  cases made : ofList _
  rw [made] at same
  cases same
  rfl

end NameMap

end CypherSql
