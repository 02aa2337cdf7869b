import CypherSql.Cypher.Reply
import CypherSql.Number.Digits
import CypherSql.Text.Word

/-!
The smallest readable parts of a query: blanks, keywords, names and quoted texts.
-/

namespace CypherSql.Cypher

open Text

/-- The blanks of the language: space, tab, carriage return and line feed. -/
def isSpace (c : Char) : Bool :=
  c = ' ' || c = '\t' || c = '\r' || c = '\n'

/-- Skips blanks; never rejects. -/
def blanks : Parser Unit :=
  fun s => .ok () (s.dropWhile isSpace)

/-- A parser with blanks allowed on both sides. -/
def padded {α : Type} (p : Parser α) : Parser α := do
  blanks
  let a ← p
  blanks
  pure a

/-- One given character. -/
def char (c : Char) : Parser Unit :=
  fun s =>
    match s with
    | d :: rest => if d = c then .ok () rest else .rejected (.here s .unexpected)
    | [] => .rejected (.here s .unexpected)

/-- One given text, which is not empty. -/
def literally (text : String) : Parser Unit :=
  fun s =>
    if text.toList.isPrefixOf s then .ok () (s.drop text.length)
    else .rejected (.here s .unexpected)

/-- One character or more from a class. -/
def run1 (holds : Char → Bool) : Parser (List Char) :=
  fun s =>
    match s.span holds with
    | ([], _) => .rejected (.here s .unexpected)
    | (taken, rest) => .ok taken rest

/-- Any number of characters from a class. -/
def run (holds : Char → Bool) : Parser (List Char) :=
  fun s => .ok (s.takeWhile holds) (s.dropWhile holds)

/-- The lower-case form of a character as far as it is an ASCII letter: besides the ASCII capitals,
the Kelvin sign has one.
-/
def foldCase (c : Char) : Char :=
  if c = '\u212a' then 'k' else c.toLower

/-- The source agrees with a word as far as both go, without regard to case. -/
def agrees : List Char → List Char → Bool
  | w :: word, c :: rest => foldCase w == foldCase c && agrees word rest
  | _, _ => true

/-- The number of bytes of a text in UTF-8. -/
def byteSize (cs : List Char) : Nat :=
  cs.foldl (fun size c => size + c.utf8Size) 0

/-- The source after a number of bytes. -/
def dropBytes : Nat → List Char → List Char
  | 0, s => s
  | _, [] => []
  | n + 1, c :: rest => dropBytes (n + 1 - c.utf8Size) rest

/-- A word of the language without regard to case. Both sides are compared as far as they go, and
then as many bytes are taken as the word has.
-/
def wordLiterally (word : String) : Parser Unit :=
  fun s =>
    if agrees word.toList s && word.utf8ByteSize ≤ byteSize (s.take word.length) then
      .ok () (dropBytes word.utf8ByteSize s)
    else .rejected (.here s .unexpected)

/-- Rejects where a word goes on. -/
def wordEnd : Parser Unit :=
  fun s =>
    match s with
    | c :: _ => if isWordChar c then .rejected (.here s .unexpected) else .ok () s
    | [] => .ok () s

/-- A keyword with blanks around it, which is not just the start of a longer word. -/
def keyword (word : String) : Parser Unit :=
  padded do
    wordLiterally word
    wordEnd

/-- A keyword that stands for a value. -/
def keywordAs {α : Type} (word : String) (a : α) : Parser α := do
  keyword word
  pure a

/-- A character with blanks around it. -/
def mark (c : Char) : Parser Unit :=
  padded (char c)

/-- Words that are no variable names unless they are quoted. -/
def reservedWords : List String :=
  ["MATCH", "OPTIONAL", "WHERE", "WITH", "RETURN", "ORDER", "BY", "SKIP", "LIMIT", "AS", "AND",
    "OR", "XOR", "NOT", "IN", "IS", "NULL", "TRUE", "FALSE", "DISTINCT", "ASC", "DESC",
    "ASCENDING", "DESCENDING", "STARTS", "ENDS", "CONTAINS", "UNION"]

/-- The word is reserved, without regard to the case of ASCII letters. -/
def isReserved (word : List Char) : Bool :=
  reservedWords.any fun reserved => reserved.toList == word.map Char.toUpper

/-- A bare name: a word that does not open with a numeral. -/
def bareName : Parser (List Char) := do
  let start ← run1 isWordStart
  let more ← run isWordChar
  pure (start ++ more)

/-- The text up to the next backquote, which has to follow. -/
def untilBackquote : Parser (List Char) :=
  fun s =>
    if s.contains '`' then .ok (s.takeWhile (· != '`')) (s.dropWhile (· != '`'))
    else .rejected (.here s .unexpected)

/-- A name between backquotes, which may be any text. -/
def quotedName : Parser (List Char) := do
  char '`'
  let name ← untilBackquote
  char '`'
  pure name

/-- A label, type, key or function name; reserved words are allowed. -/
def symbolicName : Parser (List Char) :=
  Parser.choice [quotedName, bareName]

/-- A label, type or key as a text. -/
def symbol : Parser String := do
  let name ← symbolicName
  pure (String.ofList name)

/-- A variable name; reserved words have to be quoted. -/
def identifier : Parser String := do
  let name ← Parser.choice [quotedName, bareName.satisfying fun name => !isReserved name]
  pure (String.ofList name)

/-- A sequence of ASCII digits. -/
def digits : Parser (List Char) :=
  run1 Char.isDigit

/-- The number that a sequence of ASCII digits denotes. -/
def decimalValue (ds : List Char) : Nat :=
  ds.foldl (fun n d => 10 * n + (d.toNat - '0'.toNat)) 0

/-- The number that the digits denote, if it is at most a bound. -/
def decimalUpTo (bound : Nat) (ds : List Char) : Option Nat :=
  if decimalValue ds ≤ bound then some (decimalValue ds) else none

/-- A hop count. -/
def hopCount : Parser Nat :=
  digits.reading (decimalUpTo Number.largestWord32)

/-- The characters that may follow a backslash in a string literal. -/
def isEscapable (c : Char) : Bool :=
  c = '\\' || c = '\'' || c = '"'

/-- Splits off the part of a string literal before its closing quote, or everything where none
follows. There is none if a backslash has no escapable character after it.
-/
def quotedBody? (quote : Char) : List Char → Option (List Char × List Char)
  | [] => some ([], [])
  | '\\' :: c :: rest =>
      if isEscapable c then
        (quotedBody? quote rest).map fun (body, after) => ('\\' :: c :: body, after)
      else none
  | ['\\'] => none
  | c :: rest =>
      if c = quote then some ([], c :: rest)
      else (quotedBody? quote rest).map fun (body, after) => (c :: body, after)

/-- A string literal in a given quote, without its quotes and with its escapes in place. A body
that cannot be split off is taken for an empty one.
-/
def quotedText (quote : Char) : Parser String := do
  char quote
  let body ← fun s =>
    match quotedBody? quote s with
    | some (body, after) => .ok body after
    | none => .ok [] s
  char quote
  pure (String.ofList body)

/-- A string literal in single or double quotes. -/
def stringLiteral : Parser String :=
  Parser.choice [quotedText '\'', quotedText '"']

end CypherSql.Cypher
