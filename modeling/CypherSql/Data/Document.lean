import CypherSql.Data.NameMap

/-!
Values of data documents, and reading the typed fields that a program expects from the values of a
data format.
-/

namespace CypherSql

/-- Values of a data format from which typed values are read. Reading runs in a monad of the format
and is refused where a value is not of the type that is asked for.
-/
class Readable (ν : Type) (m : outParam (Type → Type)) where
  /-- No value of the type. -/
  refuse {α : Type} : m α
  /-- The value as a text. -/
  text : ν → m String
  /-- The value as a number from zero up to a bound. -/
  number : Nat → ν → m Nat
  /-- The value as a truth value. -/
  boolean : ν → m Bool
  /-- The value as a list. -/
  list : ν → m (List ν)
  /-- The value as a record. -/
  record : ν → m (List (String × ν))
  /-- The fields of a record in a given order. A field may not be given twice, and others than the
  given ones are ignored.
  -/
  fields : List String → ν → m (List (Option ν))
  /-- The value as a name from a fixed choice. -/
  choice {α : Type} : List (String × α) → ν → m α
  /-- The value, unless it stands for an absent one. -/
  present? : ν → m (Option ν)

namespace Readable

variable {ν : Type} {m : Type → Type} [Monad m] [Readable ν m] {α : Type}

/-- The value as a list of values of a type. -/
def listOf (read : ν → m α) (value : ν) : m (List α) := do
  (← list value).mapM read

/-- The value as a list of texts. -/
def texts (value : ν) : m (List String) :=
  listOf text value

/-- The value as a map of texts; the last entry of a name counts. -/
def textMap (value : ν) : m (NameMap String) := do
  let entries ← (← record value).mapM fun (name, value) => do
    return (name, ← text value)
  return .ofList entries

/-- The value as an optional one. -/
def optional (read : ν → m α) (value : ν) : m (Option α) := do
  match ← present? value with
  | none => return none
  | some value => return some (← read value)

/-- A field that has to be given. -/
def required (read : ν → m α) : Option ν → m α
  | none => refuse ν
  | some value => read value

/-- A field that has a value where it is not given. -/
def withDefault (default : α) (read : ν → m α) : Option ν → m α
  | none => return default
  | some value => read value

end Readable

/-- The entries of the given names in their order, each of which may be there only once. -/
def uniqueEntries? {α : Type} (names : List String) (entries : List (String × α))
    : Option (List (Option α)) :=
  names.mapM fun name =>
    match entries.filter (·.1 == name) with
    | [] => some none
    | [(_, value)] => some (some value)
    | _ => none

/-- A value of a document. One that is well formed, but denotes no value of any type, is unreadable
and can only be passed over.
-/
inductive Document where
  | null
  | boolean (value : Bool)
  | integer (value : Int)
  | fraction (written : String)
  | text (value : String)
  | list (items : List Document)
  | record (entries : List (String × Document))
  | unreadable
  deriving Repr, BEq

namespace Document

instance : Inhabited Document := ⟨.null⟩

/-- The value as a text. -/
def text? : Document → Option String
  | .text value => some value
  | _ => none

/-- The value as a number from zero up to a bound. -/
def number? (bound : Nat) : Document → Option Nat
  | .integer value => if 0 ≤ value ∧ value ≤ bound then some value.toNat else none
  | _ => none

/-- The value as a truth value. -/
def boolean? : Document → Option Bool
  | .boolean value => some value
  | _ => none

/-- The value as a list. -/
def list? : Document → Option (List Document)
  | .list items => some items
  | _ => none

/-- The value as a record. -/
def record? : Document → Option (List (String × Document))
  | .record entries => some entries
  | _ => none

/-- The value as a name from a fixed choice, or as a record of that name alone with null in it. -/
def choice? {α : Type} (choices : List (String × α)) : Document → Option α
  | .text value => choices.lookup value
  | .record [(name, .null)] => choices.lookup name
  | _ => none

/-- The fields of a record in a given order. A list gives them by position and may leave out the
last ones.
-/
def fields? (names : List String) : Document → Option (List (Option Document))
  | .record entries => uniqueEntries? names entries
  | .list items =>
      if items.length ≤ names.length then
        some (items.map some ++ List.replicate (names.length - items.length) none)
      else none
  | _ => none

/-- The value, unless it is null. -/
def present? : Document → Option Document
  | .null => none
  | document => some document

instance : Readable Document Option where
  refuse := none
  text := text?
  number := number?
  boolean := boolean?
  list := list?
  record := record?
  fields := fields?
  choice := choice?
  present? document := some document.present?

end Document

end CypherSql
