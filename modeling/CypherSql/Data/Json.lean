import CypherSql.Data.Document
import CypherSql.Number.Digits

/-!
JSON texts of documents: a reader and two printers, one on a single line and one with two blanks of
indentation.
-/

namespace CypherSql.Json

/-- The blanks between the parts of a JSON text. -/
def isSpace (c : Char) : Bool :=
  c = ' ' || c = '\t' || c = '\r' || c = '\n'

/-- The text without the blanks at its start. -/
def skip (s : List Char) : List Char :=
  s.dropWhile isSpace

/-- The code unit that four hexadecimal digits denote, and the rest. -/
def codeUnit? : List Char → Option (Nat × List Char)
  | a :: b :: c :: d :: rest => (digitsValue? 16 [a, b, c, d]).map (·, rest)
  | _ => none

/-- The character that the code units after `\u` denote, and the rest. A leading surrogate needs a
trailing one after it; alone each of them denotes no character.
-/
def escapedUnit? (s : List Char) : Option (Option Char × List Char) := do
  let (unit, rest) ← codeUnit? s
  if unit < 0xd800 ∨ 0xdfff < unit then return (some (Char.ofNat unit), rest)
  if 0xdc00 ≤ unit then return (none, rest)
  match rest with
  | '\\' :: 'u' :: more =>
      let (trailing, after) ← codeUnit? more
      if trailing < 0xdc00 ∨ 0xdfff < trailing then return (none, rest)
      let code := 0x10000 + (unit - 0xd800) * 0x400 + (trailing - 0xdc00)
      return (some (Char.ofNat code), after)
  | _ => return (none, rest)

/-- The character that the text after a backslash denotes, if it denotes one, and the rest. -/
def escaped? : List Char → Option (Option Char × List Char)
  | '"' :: rest => some ('"', rest)
  | '\\' :: rest => some ('\\', rest)
  | '/' :: rest => some ('/', rest)
  | 'b' :: rest => some ('\x08', rest)
  | 'f' :: rest => some ('\x0c', rest)
  | 'n' :: rest => some ('\n', rest)
  | 'r' :: rest => some ('\r', rest)
  | 't' :: rest => some ('\t', rest)
  | 'u' :: rest => escapedUnit? rest
  | _ => none

/-- The characters up to the closing quote, if all of them denote one, and the rest, within a number
of steps.
-/
def stringWithin : Nat → List Char → Option (Option (List Char) × List Char)
  | 0, _ => none
  | n + 1, s =>
      match s with
      | [] => none
      | '"' :: rest => some (some [], rest)
      | '\\' :: rest => do
          let (c, rest) ← escaped? rest
          let (cs, rest) ← stringWithin n rest
          return (c.bind fun c => cs.map (c :: ·), rest)
      | c :: rest =>
          if c.toNat < 0x20 then none
          else do
            let (cs, rest) ← stringWithin n rest
            return (cs.map (c :: ·), rest)

/-- The text after an opening quote, if it denotes one, and the rest. -/
def string? (s : List Char) : Option (Option String × List Char) :=
  (stringWithin s.length s).map fun (cs, rest) => (cs.map String.ofList, rest)

/-- The fraction and the exponent of a number, and the rest. -/
def numberTail? (s : List Char) : Option (List Char × List Char) := do
  let (fraction, s) ←
    match s with
    | '.' :: rest =>
        match rest.span Char.isDigit with
        | ([], _) => none
        | (ds, rest) => some ('.' :: ds, rest)
    | _ => some ([], s)
  match s with
  | e :: rest =>
      if e = 'e' ∨ e = 'E' then
        let (sign, rest) :=
          match rest with
          | '+' :: rest => (['+'], rest)
          | '-' :: rest => (['-'], rest)
          | _ => ([], rest)
        match rest.span Char.isDigit with
        | ([], _) => none
        | (ds, rest) => some (fraction ++ e :: sign ++ ds, rest)
      else some (fraction, s)
  | [] => some (fraction, s)

/-- The whole part of a number: no zero before another digit. -/
def wholePart? (s : List Char) : Option (List Char × List Char) :=
  match s.span Char.isDigit with
  | ([], _) => none
  | ('0' :: _ :: _, _) => none
  | (ds, rest) => some (ds, rest)

/-- A number without a fraction and an exponent is an integer, if it fits into 64 bits. -/
def numberOf (negative : Bool) (whole tail : List Char) : Document :=
  let magnitude := (digitsValue? 10 whole).getD 0
  let written := String.ofList ((if negative then ['-'] else []) ++ whole ++ tail)
  if !tail.isEmpty then .fraction written
  else if negative then
    if 0 < magnitude ∧ magnitude ≤ Number.largestSigned64 + 1 then .integer (-magnitude)
    else .fraction written
  else if magnitude ≤ Number.largestWord64 then .integer magnitude
  else .fraction written

/-- A number, and the rest. -/
def number? (s : List Char) : Option (Document × List Char) := do
  let (negative, s) :=
    match s with
    | '-' :: rest => (true, rest)
    | _ => (false, s)
  let (whole, s) ← wholePart? s
  let (tail, s) ← numberTail? s
  return (numberOf negative whole tail, s)

/-- A text, if there is one. -/
def textOf : Option String → Document
  | some value => .text value
  | none => .unreadable

/-- A record, if all its names are texts. -/
def recordOf (entries : List (Option String × Document)) : Document :=
  match entries.mapM fun (name, value) => name.map (·, value) with
  | some entries => .record entries
  | none => .unreadable

/-- The rest after a given word. -/
def word? (word : String) (s : List Char) : Option (List Char) :=
  if word.toList.isPrefixOf s then some (s.drop word.length) else none

mutual

/-- A value, and the rest, within a number of steps. -/
def valueWithin : Nat → List Char → Option (Document × List Char)
  | 0, _ => none
  | n + 1, s =>
      match skip s with
      | 'n' :: rest => (word? "ull" rest).map (.null, ·)
      | 't' :: rest => (word? "rue" rest).map (.boolean true, ·)
      | 'f' :: rest => (word? "alse" rest).map (.boolean false, ·)
      | '"' :: rest => (string? rest).map fun (value, rest) => (textOf value, rest)
      | '[' :: rest =>
          match skip rest with
          | ']' :: rest => some (.list [], rest)
          | rest => do
              let (items, rest) ← itemsWithin n rest
              return (.list items, rest)
      | '\x7b' :: rest =>
          match skip rest with
          | '\x7d' :: rest => some (.record [], rest)
          | rest => do
              let (entries, rest) ← entriesWithin n rest
              return (recordOf entries, rest)
      | s => number? s

/-- The items of a list up to its closing bracket, and the rest. -/
def itemsWithin : Nat → List Char → Option (List Document × List Char)
  | 0, _ => none
  | n + 1, s => do
      let (item, rest) ← valueWithin n s
      match skip rest with
      | ',' :: rest =>
          let (items, rest) ← itemsWithin n rest
          return (item :: items, rest)
      | ']' :: rest => return ([item], rest)
      | _ => none

/-- The entries of a record up to its closing brace, and the rest. -/
def entriesWithin : Nat → List Char → Option (List (Option String × Document) × List Char)
  | 0, _ => none
  | n + 1, s => do
      let (name, rest) ←
        match skip s with
        | '"' :: rest => string? rest
        | _ => none
      match skip rest with
      | ':' :: rest =>
          let (value, rest) ← valueWithin n rest
          match skip rest with
          | ',' :: rest =>
              let (entries, rest) ← entriesWithin n rest
              return ((name, value) :: entries, rest)
          | '\x7d' :: rest => return ([(name, value)], rest)
          | _ => none
      | _ => none

end

/-- Reads a JSON text; nothing but blanks may follow the value. -/
def read? (source : String) : Option Document :=
  let s := source.toList
  match valueWithin (2 * s.length + 1) s with
  | some (document, rest) => if (skip rest).isEmpty then some document else none
  | none => none

/-- The two hexadecimal digits of a small number. -/
def hexPair (n : Nat) : List Char :=
  [Nat.digitChar (n / 16), Nat.digitChar (n % 16)]

/-- One character of a JSON string. -/
def quotedChar (c : Char) : List Char :=
  if c = '"' then ['\\', '"']
  else if c = '\\' then ['\\', '\\']
  else if c = '\n' then ['\\', 'n']
  else if c = '\r' then ['\\', 'r']
  else if c = '\t' then ['\\', 't']
  else if c = '\x08' then ['\\', 'b']
  else if c = '\x0c' then ['\\', 'f']
  else if c.toNat < 0x20 then ['\\', 'u', '0', '0'] ++ hexPair c.toNat
  else [c]

/-- A text as a JSON string. -/
def quoted (s : String) : String :=
  String.ofList ('"' :: s.toList.flatMap quotedChar ++ ['"'])

/-- A scalar as JSON; lists and records are not scalars. -/
def scalar : Document → String
  | .null => "null"
  | .boolean value => if value then "true" else "false"
  | .integer value => toString value
  | .fraction written => written
  | .text value => quoted value
  | .list _ => "[]"
  | .record _ => "\x7b\x7d"
  | .unreadable => "null"

mutual

/-- The document on a single line. -/
def compact : Document → String
  | .list items => "[" ++ String.intercalate "," (compactItems items) ++ "]"
  | .record entries => "\x7b" ++ String.intercalate "," (compactEntries entries) ++ "\x7d"
  | document => scalar document

/-- The items of a list, each on a single line. -/
def compactItems : List Document → List String
  | [] => []
  | item :: items => compact item :: compactItems items

/-- The entries of a record, each on a single line. -/
def compactEntries : List (String × Document) → List String
  | [] => []
  | (name, value) :: entries => (quoted name ++ ":" ++ compact value) :: compactEntries entries

end

/-- The blanks before a line at a depth. -/
def indentation (depth : Nat) : String :=
  String.ofList (List.replicate (2 * depth) ' ')

/-- Parts between brackets, each on a line of its own. -/
def block (depth : Nat) (opening closing : String) (parts : List String) : String :=
  if parts.isEmpty then opening ++ closing
  else
    let lines := parts.map (indentation (depth + 1) ++ ·)
    opening ++ "\n" ++ String.intercalate ",\n" lines ++ "\n" ++ indentation depth ++ closing

mutual

/-- The document on several lines, from a depth on. -/
def prettyAt (depth : Nat) : Document → String
  | .list items => block depth "[" "]" (prettyItems (depth + 1) items)
  | .record entries => block depth "\x7b" "\x7d" (prettyEntries (depth + 1) entries)
  | document => scalar document

/-- The items of a list at a depth. -/
def prettyItems (depth : Nat) : List Document → List String
  | [] => []
  | item :: items => prettyAt depth item :: prettyItems depth items

/-- The entries of a record at a depth. -/
def prettyEntries (depth : Nat) : List (String × Document) → List String
  | [] => []
  | (name, value) :: entries =>
      (quoted name ++ ": " ++ prettyAt depth value) :: prettyEntries depth entries

end

/-- The document on several lines with two blanks of indentation. -/
def pretty (document : Document) : String :=
  prettyAt 0 document

end CypherSql.Json
