import CypherSql.Data.NameMap

/-!
Unique names, and the names that are visible at a place of a query.
-/

namespace CypherSql.Plan

/-- The names handed out so far, and the number of the next subquery. -/
structure Naming where
  used : NameSet
  nextSubquery : Nat
  deriving DecidableEq

/-- The first number from a start on, within a number of steps, whose candidate is not taken. -/
def firstFree (taken : NameSet) (candidate : Nat → String) : Nat → Nat → Nat
  | 0, n => n
  | steps + 1, n =>
      if candidate n ∈ taken then firstFree taken candidate steps (n + 1) else n

/-- The first number from a start on whose candidate is not taken. Where the candidates differ from
each other, one more of them than there are taken names is enough to find one.
-/
def freeNumber (taken : NameSet) (candidate : Nat → String) (start : Nat) : Nat :=
  firstFree taken candidate (taken.names.length + 1) start

namespace Naming

/-- No name is handed out. -/
def initial : Naming := ⟨∅, 0⟩

instance : Inhabited Naming := ⟨initial⟩

/-- The base itself, or the base with the least number that makes it a new name. -/
def fresh (naming : Naming) (base : String) : String × Naming :=
  let numbered (n : Nat) : String := base ++ "_" ++ toString n
  let name :=
    if base ∈ naming.used then numbered (freeNumber naming.used numbered 1) else base
  (name, { naming with used := naming.used.insert name })

/-- The next name of a subquery that is new. -/
def freshSubquery (naming : Naming) : String × Naming :=
  let numbered (n : Nat) : String := "with_" ++ toString n
  let n := freeNumber naming.used numbered naming.nextSubquery
  (numbered n, { used := naming.used.insert (numbered n), nextSubquery := n + 1 })

end Naming

/-- The visible names with the ids they stand for, in the order of their declaration. -/
structure Visible where
  entries : List (String × String)
  deriving DecidableEq, Repr

namespace Visible

/-- Nothing is visible. -/
def none : Visible := ⟨[]⟩

instance : Inhabited Visible := ⟨none⟩

/-- The id that a name stands for. -/
def get? (visible : Visible) (name : String) : Option String :=
  visible.entries.lookup name

/-- Gives a name an id: in the place of its earlier one, or after all others. -/
def bindEntry (name id : String) : List (String × String) → List (String × String)
  | [] => [(name, id)]
  | (other, old) :: rest =>
      if other = name then (name, id) :: rest else (other, old) :: bindEntry name id rest

/-- The visible names with an id for one of them. -/
def insert (visible : Visible) (name id : String) : Visible :=
  ⟨bindEntry name id visible.entries⟩

/-- The visible names with those of others over them. -/
def insertAll (visible others : Visible) : Visible :=
  others.entries.foldl (fun visible (name, id) => visible.insert name id) visible

end Visible

end CypherSql.Plan
