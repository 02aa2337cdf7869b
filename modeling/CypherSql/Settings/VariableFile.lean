import CypherSql.Data.NameMap
import CypherSql.Text.Blank
import CypherSql.Text.Letter
import CypherSql.Text.Word

/-!
Files of variables: lines `NAME=value` with comments, quotes and references to other variables.
-/

namespace CypherSql.VariableFile

open Text

/-- What a value is being read as: its bare or quoted characters, the character after a backslash,
the name of a variable after `$` or between braces, or the blanks after its end.
-/
inductive Mode where
  | bare
  | single
  | double
  | escape (inQuotes : Bool)
  | name (inQuotes : Bool) (read : List Char)
  | braced (inQuotes : Bool) (read : List Char)
  | ended
  deriving DecidableEq, Repr

/-- The mode after something that stands inside double quotes or outside all quotes. -/
def Mode.after (inQuotes : Bool) : Mode :=
  if inQuotes then .double else .bare

/-- The character that an escaped one stands for. -/
def escaped? (c : Char) : Option Char :=
  if c = 'n' then some '\n'
  else if c ∈ ['\\', '\'', '"', '$', ' '] then some c
  else none

/-- The value of the variable of a name, or nothing. -/
def valueOf (known : NameMap String) (name : List Char) : List Char :=
  ((known.get? (String.ofList name)).getD "").toList

/-- The value that characters denote, or `none` where they are malformed. -/
def value? (known : NameMap String) : Mode → List Char → Option (List Char)
  | .bare, [] => some []
  | .ended, [] => some []
  | .escape false, [] => some []
  | .name false read, [] => some (valueOf known read)
  | _, [] => none
  | .ended, c :: rest =>
      if c = ' ' ∨ c = '\t' then value? known .ended rest
      else if c = '#' then some []
      else none
  | .escape inQuotes, c :: rest => do
      let c ← escaped? c
      let rest ← value? known (.after inQuotes) rest
      return c :: rest
  | .single, c :: rest =>
      if c = '\'' then value? known .bare rest
      else (value? known .single rest).map (c :: ·)
  | .name inQuotes read, c :: rest =>
      if isLetter c || isNumeral c then value? known (.name inQuotes (read ++ [c])) rest
      else if c = '\x7b' ∧ read.isEmpty then value? known (.braced inQuotes []) rest
      else if c = '$' then
        (value? known (.name inQuotes []) rest).map (valueOf known read ++ ·)
      else
        (value? known (.after inQuotes) rest).map (valueOf known read ++ c :: ·)
  | .braced inQuotes read, c :: rest =>
      if c = '\x7d' then
        (value? known (.after inQuotes) rest).map (valueOf known read ++ ·)
      else value? known (.braced inQuotes (read ++ [c])) rest
  | .double, c :: rest =>
      if c = '$' then value? known (.name true []) rest
      else if c = '"' then value? known .bare rest
      else if c = '\\' then value? known (.escape true) rest
      else (value? known .double rest).map (c :: ·)
  | .bare, c :: rest =>
      if c = '$' then value? known (.name false []) rest
      else if c = '\'' then value? known .single rest
      else if c = '"' then value? known .double rest
      else if c = '\\' then value? known (.escape false) rest
      else if c = ' ' ∨ c = '\t' then value? known .ended rest
      else (value? known .bare rest).map (c :: ·)

/-- The character can stand in the name of a variable. -/
def isNameChar (c : Char) : Bool :=
  c.isAlphanum || c = '_' || c = '.'

/-- The name at the start of a line, and what follows it and its blanks. -/
def name? (line : List Char) : Option (String × List Char) :=
  match line with
  | [] => none
  | c :: _ =>
      if c.isAlpha || c = '_' then
        some (String.ofList (line.takeWhile isNameChar),
          (line.dropWhile isNameChar).dropWhile isBlank)
      else none

/-- The name that a line gives a value, and what follows the equals sign and its blanks. The word
`export` may stand before the name.
-/
def target? (line : List Char) : Option (String × List Char) := do
  let (name, rest) ← name? line
  match rest with
  | '=' :: rest => return (name, rest.dropWhile isBlank)
  | _ =>
      if name = "export" then
        match ← name? rest with
        | (name, '=' :: rest) => return (name, rest.dropWhile isBlank)
        | _ => none
      else none

/-- The line is empty or a comment. -/
def isSkipped (line : List Char) : Bool :=
  line.isEmpty || line.head? = some '#'

/-- The variable that a line sets, or `none` where it is malformed. -/
def assignment? (known : NameMap String) (line : List Char) : Option (String × String) := do
  let (name, rest) ← target? line
  if isSkipped rest then return (name, "")
  else
    let value ← value? known .bare rest
    return (name, String.ofList value)

/-- Where a line stands, as far as its end and its comment depend on it: outside of quotes, right
behind a single blank there, in one of the quotes, or behind a backslash.
-/
inductive Quoting where
  | outside
  | blank
  | escape
  | double
  | doubleEscape
  | single
  | singleEscape
  deriving DecidableEq, Repr

namespace Quoting

/-- Where a line stands outside of quotes behind a character that is no blank. -/
def opened (c : Char) : Quoting :=
  if c = '\\' then .escape
  else if c = '"' then .double
  else if c = '\'' then .single
  else .outside

/-- Where a line stands behind a character. -/
def step (c : Char) : Quoting → Quoting
  | .outside => if isBlank c && c ≠ '\n' && c ≠ '\r' then .blank else opened c
  | .blank => opened c
  | .escape => .outside
  | .double => if c = '\\' then .doubleEscape else if c = '"' then .outside else .double
  | .doubleEscape => .double
  | .single => if c = '\\' then .singleEscape else if c = '\'' then .outside else .single
  | .singleEscape => .single

end Quoting

/-- The part of a line before its comment, and where the line stands at its end. A comment starts
behind a single blank and ends the line.
-/
def uncommented (quoting : Quoting) : List Char → List Char × Quoting
  | [] => ([], quoting)
  | c :: rest =>
      if quoting = .blank ∧ c = '#' then ([], .outside)
      else
        let (part, ending) := uncommented (quoting.step c) rest
        (c :: part, ending)

/-- The variables with those that lines set, up to the first malformed line. A line goes on with
the next one until it ends outside of quotes. A variable that is set already keeps its value.
-/
def load (known : NameMap String) (begun : List Char) (quoting : Quoting)
    : List (List Char) → NameMap String
  | [] => known
  | line :: rest =>
      if ((begun ++ line).dropWhile isBlank).head? = some '#' then load known [] .outside rest
      else
        match uncommented quoting line with
        | (part, .outside) =>
            let line := trim (begun ++ part)
            if isSkipped line then load known [] .outside rest
            else
              match assignment? known line with
              | none => known
              | some (name, value) =>
                  if (known.get? name).isSome then load known [] .outside rest
                  else load (known.insert name value) [] .outside rest
        | (part, quoting) => load known (begun ++ part) quoting rest

/-- The lines of a text with their line feeds. -/
def lines : List Char → List (List Char)
  | [] => []
  | c :: rest =>
      if c = '\n' then ['\n'] :: lines rest
      else
        match lines rest with
        | [] => [[c]]
        | line :: more => (c :: line) :: more

/-- The text without a byte order mark at its start. -/
def withoutMark : List Char → List Char
  | '\ufeff' :: rest => rest
  | text => text

/-- The variables with those that a file sets. -/
def extend (known : NameMap String) (contents : String) : NameMap String :=
  load known [] .outside (lines (withoutMark contents.toList))

end CypherSql.VariableFile
