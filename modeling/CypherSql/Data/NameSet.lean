/-!
Finite sets of names, kept in ascending order, so that equal sets are equal values. Names compare
by code points, which is also the order of their UTF-8 bytes.
-/

namespace CypherSql

/-- A finite set of names. -/
structure NameSet where
  names : List String
  ordered : names.Pairwise (· < ·)
  deriving DecidableEq

/-- Of two different names that are not in one order, the other order holds. -/
theorem name_lt_of_not_lt {a b : String} (ne : a ≠ b) (h : ¬ a < b) : b < a := by
  by_cases hba : b < a
  · exact hba
  · exact absurd (String.le_antisymm (String.not_lt.1 hba) (String.not_lt.1 h)) ne

/-- Puts a name at its place in an ascending list, unless it is there. -/
def insertName (a : String) : List String → List String
  | [] => [a]
  | b :: bs => if a = b then b :: bs else if a < b then a :: b :: bs else b :: insertName a bs

/-- The inserted name is a member, besides those that were before. -/
@[simp]
theorem mem_insertName {a x : String} {names : List String}
    : x ∈ insertName a names ↔ x = a ∨ x ∈ names := by
  induction names with
  | nil => simp [insertName]
  | cons b bs ih =>
    simp only [insertName]
    split
    · simp_all
    · split
      · simp
      · simp only [List.mem_cons, ih]
        constructor
        · rintro (h | h | h) <;> simp [h]
        · rintro (h | h | h) <;> simp [h]

/-- Insertion keeps the ascending order, by induction over the place of the name. -/
theorem insertName_ordered {a : String} {names : List String} (h : names.Pairwise (· < ·))
    : (insertName a names).Pairwise (· < ·) := by
  induction names with
  | nil => simp [insertName]
  | cons b bs ih =>
    obtain ⟨hb, hbs⟩ := List.pairwise_cons.1 h
    simp only [insertName]
    split
    · exact h
    · split
      · rename_i hab
        refine List.pairwise_cons.2 ⟨?_, h⟩
        intro x hx
        rcases List.mem_cons.1 hx with rfl | hx
        · exact hab
        · exact String.lt_trans hab (hb x hx)
      · rename_i hne hnlt
        refine List.pairwise_cons.2 ⟨?_, ih hbs⟩
        intro x hx
        rcases mem_insertName.1 hx with rfl | hx
        · exact name_lt_of_not_lt hne hnlt
        · exact hb x hx

namespace NameSet

/-- The set without names. -/
def empty : NameSet := ⟨[], .nil⟩

instance : EmptyCollection NameSet := ⟨empty⟩

instance : Inhabited NameSet := ⟨empty⟩

instance : Membership String NameSet := ⟨fun set name => name ∈ set.names⟩

instance (name : String) (set : NameSet) : Decidable (name ∈ set) :=
  inferInstanceAs (Decidable (name ∈ set.names))

/-- The set with one more name. -/
def insert (set : NameSet) (name : String) : NameSet :=
  ⟨insertName name set.names, insertName_ordered set.ordered⟩

/-- The set without a name. -/
def erase (set : NameSet) (name : String) : NameSet :=
  ⟨set.names.filter (· != name), set.ordered.filter _⟩

/-- The set with the names of a list added to it. -/
def insertAll (set : NameSet) (names : List String) : NameSet :=
  names.foldl insert set

/-- The names of a list as a set. -/
def ofList (names : List String) : NameSet :=
  empty.insertAll names

/-- The names of either set. -/
def union (left right : NameSet) : NameSet :=
  left.insertAll right.names

/-- There is no name in the set. -/
def isEmpty (set : NameSet) : Bool :=
  set.names.isEmpty

/-- Every name of the first set is in the second. -/
def subset (left right : NameSet) : Bool :=
  left.names.all (· ∈ right)

/-- Membership in the set after an insertion. -/
@[simp]
theorem mem_insert {set : NameSet} {name x : String}
    : x ∈ set.insert name ↔ x = name ∨ x ∈ set :=
  mem_insertName

/-- Membership in the set after a removal. -/
@[simp]
theorem mem_erase {set : NameSet} {name x : String}
    : x ∈ set.erase name ↔ x ∈ set ∧ x ≠ name := by
  change x ∈ set.names.filter (· != name) ↔ x ∈ set.names ∧ x ≠ name
  simp

/-- Membership after several insertions. -/
@[simp]
theorem mem_insertAll {set : NameSet} {names : List String} {x : String}
    : x ∈ set.insertAll names ↔ x ∈ names ∨ x ∈ set := by
  induction names generalizing set with
  | nil => simp [insertAll]
  | cons a as ih =>
    rw [insertAll, List.foldl_cons, ← insertAll, ih]
    simp only [mem_insert, List.mem_cons]
    constructor
    · rintro (h | h | h) <;> simp [h]
    · rintro ((h | h) | h) <;> simp [h]

end NameSet

end CypherSql
