import CypherSql.Data.Yaml.Value
import CypherSql.Expansion

/-!
The settings of the compiler, read from environment variables or a YAML file, and their limits.
-/

namespace CypherSql

/-- The settings of the compiler. Lowering the variants side by side changes no result. -/
structure Settings where
  maxHops : Nat
  maxVariants : Nat
  parallel : Bool
  unionDistinct : Bool
  deriving DecidableEq, Repr

/-- Why a text is no value of a setting. -/
inductive ValueFault where
  | empty
  | invalidDigit
  | tooLarge
  | noTruthValue
  deriving DecidableEq, Repr

/-- The wording of a fault. -/
def ValueFault.message : ValueFault → String
  | .empty => "cannot parse integer from empty string"
  | .invalidDigit => "invalid digit found in string"
  | .tooLarge => "number too large to fit in target type"
  | .noTruthValue => "provided string was not `true` or `false`"

/-- A setting whose value is out of its range. -/
inductive RangeFault where
  | hops
  | variants
  deriving DecidableEq, Repr

namespace RangeFault

/-- The name of the setting. -/
def field : RangeFault → String
  | .hops => "max_expansion_hops"
  | .variants => "max_expansion_variants"

/-- The wording of a fault. -/
def message : RangeFault → String
  | .hops => "Max expansion hops must be between 1 and 32"
  | .variants => "Max expansion variants must be between 1 and 4096"

end RangeFault

/-- Why there are no settings. -/
inductive SettingsError where
  | unreadableValue (name value : String) (fault : ValueFault)
  | unreadableFile
  | malformedFile
  | outOfRange (faults : List RangeFault)
  deriving DecidableEq, Repr

/-- The wording of an error. -/
def SettingsError.message : SettingsError → String
  | .unreadableValue name value fault =>
      "Parse error for " ++ name ++ ": " ++ value ++ " - " ++ fault.message
  | .unreadableFile => "Parse error for yaml_file: file read failed"
  | .malformedFile => "Parse error for yaml_content"
  | .outOfRange faults =>
      "Validation error: " ++
        String.intercalate "\n" (faults.map fun fault => fault.field ++ ": " ++ fault.message)

/-- The number that digits denote, read from the left up to the first character that is no digit
or the first prefix above a bound.
-/
def boundedValue (bound : Nat) (value : Nat) : List Char → Except ValueFault Nat
  | [] => .ok value
  | c :: rest =>
      match digitValue? 10 c with
      | none => .error .invalidDigit
      | some digit =>
          if bound < 10 * value + digit then .error .tooLarge
          else boundedValue bound (10 * value + digit) rest

/-- The number that a text denotes: digits, with an optional plus sign before them. -/
def readNumber (bound : Nat) (text : String) : Except ValueFault Nat :=
  match text.toList with
  | [] => .error .empty
  | ['+'] => .error .invalidDigit
  | '+' :: digits => boundedValue bound 0 digits
  | digits => boundedValue bound 0 digits

/-- The truth value that a text denotes. -/
def readBoolean (text : String) : Except ValueFault Bool :=
  if text = "true" then .ok true
  else if text = "false" then .ok false
  else .error .noTruthValue

/-- The value of a variable, or a default where it is not set. -/
def readVariable {α : Type} (lookup : String → Option String) (name : String) (default : α)
    (read : String → Except ValueFault α) : Except SettingsError α :=
  match lookup name with
  | none => .ok default
  | some text =>
      match read text with
      | .ok value => .ok value
      | .error fault => .error (.unreadableValue name text fault)

namespace Settings

/-- The settings where nothing is set. -/
def default : Settings :=
  { maxHops := 8, maxVariants := 256, parallel := true, unionDistinct := false }

instance : Inhabited Settings := ⟨default⟩

/-- The limits of expansion. -/
def limits (settings : Settings) : Expansion.Limits :=
  { maxHops := settings.maxHops, maxVariants := settings.maxVariants }

/-- The settings that are out of their ranges. -/
def faults (settings : Settings) : List RangeFault :=
  (if 1 ≤ settings.maxHops ∧ settings.maxHops ≤ 32 then [] else [.hops]) ++
    if 1 ≤ settings.maxVariants ∧ settings.maxVariants ≤ 4096 then [] else [.variants]

/-- The settings, if all are in their ranges. -/
def validated (settings : Settings) : Except SettingsError Settings :=
  if settings.faults.isEmpty then .ok settings else .error (.outOfRange settings.faults)

/-- The variables that settings are read from. -/
def variableNames : List String :=
  ["GTOPSQL_MAX_EXPANSION_HOPS", "GTOPSQL_MAX_EXPANSION_VARIANTS", "GTOPSQL_PARALLEL_LOWERING",
    "GTOPSQL_UNION_DISTINCT"]

/-- The settings that variables give, if they are valid. -/
def ofVariables (lookup : String → Option String) : Except SettingsError Settings := do
  let maxHops ← readVariable lookup "GTOPSQL_MAX_EXPANSION_HOPS" default.maxHops
    (readNumber Number.largestWord32)
  let maxVariants ← readVariable lookup "GTOPSQL_MAX_EXPANSION_VARIANTS" default.maxVariants
    (readNumber Number.largestWord64)
  let parallel ← readVariable lookup "GTOPSQL_PARALLEL_LOWERING" default.parallel readBoolean
  let unionDistinct ← readVariable lookup "GTOPSQL_UNION_DISTINCT" default.unionDistinct
    readBoolean
  validated { maxHops, maxVariants, parallel, unionDistinct }

/-- The value as settings. -/
def read {ν : Type} {m : Type → Type} [Monad m] [Readable ν m] (value : ν) : m Settings := do
  let names := ["max_expansion_hops", "max_expansion_variants", "parallel_lowering",
    "union_distinct"]
  match ← Readable.fields names value with
  | [hops, variants, parallel, unionDistinct] =>
      return {
        maxHops := ← Readable.withDefault default.maxHops
          (Readable.number Number.largestWord32) hops
        maxVariants := ← Readable.withDefault default.maxVariants
          (Readable.number Number.largestWord64) variants
        parallel := ← Readable.withDefault default.parallel Readable.boolean parallel
        unionDistinct := ← Readable.withDefault default.unionDistinct Readable.boolean
          unionDistinct }
  | _ => Readable.refuse ν

/-- The settings in a YAML file with given contents, if they are valid; a file that is not there
has none.
-/
def ofFile (contents : Option String) : Except SettingsError Settings :=
  match contents with
  | none => .error .unreadableFile
  | some contents =>
      match Yaml.read? Settings.read contents with
      | some settings => settings.validated
      | none => .error .malformedFile

end Settings

end CypherSql
