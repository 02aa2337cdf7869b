import CypherSql.Data.Yaml.Scalar

/-!
The tokens of YAML sources: directives, tags and anchors are read here; collections and scalars are
put together by the lexer.
-/

namespace CypherSql.Yaml

/-- A tag, or a part of one, as the octets of its text. -/
abbrev Octets := List UInt8

/-- The octets of a text. -/
def octets (s : String) : Octets :=
  s.toUTF8.toList

/-- A token of a YAML source. The end of a block collection has no character of its own. -/
inductive Token where
  | version (major minor : Nat)
  | tagHandle (handle : String) (expansion : Octets)
  | documentStart
  | documentEnd
  | blockListStart
  | blockRecordStart
  | blockEnd
  | flowListStart
  | flowListEnd
  | flowRecordStart
  | flowRecordEnd
  | blockEntry
  | flowEntry
  | key
  | value
  | reference (name : String)
  | anchor (name : String)
  | tag (handle : String) (suffix : Octets)
  | scalar (style : Style) (text : String)
  deriving DecidableEq, Repr

/-- The token may not stand inside of a document. -/
def Token.isOutside : Token → Bool
  | .version _ _ => true
  | .tagHandle _ _ => true
  | .documentStart => true
  | .documentEnd => true
  | _ => false

/-- A number of at most nine digits, and the rest. -/
def versionNumber? (s : List Char) : Option (Nat × List Char) := do
  let digits := s.takeWhile Char.isDigit
  if 9 < digits.length then none
  return (← digitsValue? 10 digits, s.drop digits.length)

/-- The version that a directive gives, and the rest. -/
def version? (s : List Char) : Option (Token × List Char) := do
  let (major, s) ← versionNumber? (s.dropWhile isBlank)
  match s with
  | '.' :: s =>
      let (minor, s) ← versionNumber? s
      return (.version major minor, s)
  | _ => none

/-- The handle at the start of a tag, with a closing mark or without, and the rest. -/
def handle? : List Char → Option (String × List Char)
  | '!' :: s =>
      let name := s.takeWhile isNameChar
      match s.drop name.length with
      | '!' :: rest => some (String.ofList ('!' :: name ++ ['!']), rest)
      | rest => some (String.ofList ('!' :: name), rest)
  | _ => none

/-- An octet written as a percent sign and two hexadecimal digits, and the rest. -/
def octet? : List Char → Option (Nat × List Char)
  | '%' :: a :: b :: rest => (digitsValue? 16 [a, b]).map (·, rest)
  | _ => none

/-- Octets that go on with a character, and the rest. -/
def furtherOctets? : Nat → List Char → Option (Octets × List Char)
  | 0, s => some ([], s)
  | n + 1, s => do
      let (octet, s) ← octet? s
      if octet / 0x40 ≠ 2 then none
      let (more, s) ← furtherOctets? n s
      return (UInt8.ofNat octet :: more, s)

/-- The octets of a character, of which the first tells the number, and the rest. -/
def charOctets? (s : List Char) : Option (Octets × List Char) := do
  let (octet, s) ← octet? s
  let further ←
    if octet / 0x80 = 0 then some 0
    else if octet / 0x20 = 6 then some 1
    else if octet / 0x10 = 14 then some 2
    else if octet / 0x8 = 30 then some 3
    else none
  let (more, s) ← furtherOctets? further s
  return (UInt8.ofNat octet :: more, s)

/-- A character of a tag. The marks of flow collections belong only to those that brackets or a
directive delimit.
-/
def isTagChar (delimited : Bool) (c : Char) : Bool :=
  isNameChar c || ";/?:@&=+$.!~*'()%".toList.contains c ||
    (delimited && (c = ',' || c = '[' || c = ']'))

/-- The octets of a part of a tag, and the rest, within a number of steps. -/
def tagTextWithin (delimited : Bool) : Nat → List Char → Option (Octets × List Char)
  | 0, s => some ([], s)
  | n + 1, s =>
      match s with
      | [] => some ([], s)
      | c :: rest =>
          if !isTagChar delimited c then some ([], s)
          else do
            let (first, rest) ← if c = '%' then charOctets? s else some ([c.toUInt8], rest)
            let (more, rest) ← tagTextWithin delimited n rest
            return (first ++ more, rest)

/-- The octets up to the first one that is zero, which ends a tag. -/
def untilZero (octets : Octets) : Octets :=
  octets.takeWhile (· ≠ 0)

/-- The octets of a part of a tag that is not empty, and the rest. -/
def tagText? (delimited : Bool) (s : List Char) : Option (Octets × List Char) := do
  let (octets, rest) ← tagTextWithin delimited s.length s
  if octets.isEmpty then none else return (untilZero octets, rest)

/-- The handle of tags that a directive declares with what it stands for, and the rest. -/
def tagHandle? (s : List Char) : Option (Token × List Char) := do
  let (handle, s) ← handle? (s.dropWhile isBlank)
  if handle.toList.getLast? ≠ some '!' then none
  if !opensWith isBlank s then none
  let (expansion, s) ← tagText? true (s.dropWhile isBlank)
  if isSeparated s then return (.tagHandle handle expansion, s) else none

/-- The directive after a percent sign, and the rest of its line. -/
def directive? (s : List Char) : Option (Token × List Char) :=
  let name := s.takeWhile isNameChar
  let rest := s.drop name.length
  if !isSeparated rest then none
  else if name = "YAML".toList then version? rest
  else if name = "TAG".toList then tagHandle? rest
  else none

/-- The tag after its mark and an opening bracket, and the rest. -/
def delimitedTag? (s : List Char) : Option (Token × List Char) := do
  match ← tagText? true s with
  | (suffix, '>' :: rest) => return (.tag "" suffix, rest)
  | _ => none

/-- The tag at the start of a text, and the rest. A mark alone is a tag of its own. -/
def shortTag? (s : List Char) : Option (Token × List Char) := do
  let (handle, rest) ← handle? s
  if 1 < handle.length ∧ handle.toList.getLast? = some '!' then
    let (suffix, rest) ← tagText? false rest
    return (.tag handle suffix, rest)
  else
    let (more, rest) ← tagTextWithin false rest.length rest
    let suffix := untilZero (octets (handle.drop 1).toString ++ more)
    if suffix.isEmpty then return (.tag "" (octets "!"), rest)
    else return (.tag "!" suffix, rest)

/-- The tag at the start of a text, and the rest. In a flow collection a comma may end it. -/
def tag? (inFlow : Bool) (s : List Char) : Option (Token × List Char) := do
  let (token, rest) ←
    match s with
    | '!' :: '<' :: s => delimitedTag? s
    | _ => shortTag? s
  if isSeparated rest || (inFlow && opensWith (· = ',') rest) then return (token, rest) else none

/-- The name after the mark of an anchor or alias, and the rest. -/
def anchorName? (s : List Char) : Option (String × List Char) :=
  let name := s.takeWhile isNameChar
  let rest := s.drop name.length
  let delimiters := ['?', ':', ',', ']', '\x7d', '%', '@', '\x60']
  if !name.isEmpty && (isSeparated rest || opensWith delimiters.contains rest) then
    some (String.ofList name, rest)
  else none

end CypherSql.Yaml
