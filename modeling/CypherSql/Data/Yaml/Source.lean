/-!
The characters of YAML sources, and places in a source.
-/

namespace CypherSql.Yaml

/-- A blank inside a line. -/
def isBlank (c : Char) : Bool :=
  c = ' ' || c = '\t'

/-- A character that ends a line. -/
def isBreak (c : Char) : Bool :=
  c = '\n' || c = '\r' || c = '\u0085' || c = '\u2028' || c = '\u2029'

/-- A character that a source may hold: no control characters but tabs and line ends, and neither
of the last two code points of the basic plane.
-/
def isAllowed (c : Char) : Bool :=
  let code := c.toNat
  c = '\t' || c = '\n' || c = '\r' || c = '\u0085' || (0x20 ≤ code && code ≤ 0x7e) ||
    (0xa0 ≤ code && code ≤ 0xfffd) || 0x10000 ≤ code

/-- A character of the names of anchors, directives and tag handles. -/
def isNameChar (c : Char) : Bool :=
  c.isAlphanum || c = '_' || c = '-'

/-- A character with a meaning of its own between flow brackets. -/
def isFlowMark (c : Char) : Bool :=
  c = ',' || c = '[' || c = ']' || c = '\x7b' || c = '\x7d'

/-- The text starts with a character of a class. -/
def opensWith (p : Char → Bool) (s : List Char) : Bool :=
  s.head?.any p

/-- The text goes on with a blank or a line end, or it ends. -/
def isSeparated (s : List Char) : Bool :=
  s.isEmpty || opensWith (fun c => isBlank c || isBreak c) s

/-- The text opens with a mark of three characters that nothing is attached to. -/
def opensMark (mark : String) (s : List Char) : Bool :=
  mark.toList.isPrefixOf s && isSeparated (s.drop mark.length)

/-- What the line end at the start of a text stands for in a scalar: the separators of lines and of
paragraphs stand for themselves, all others for a line feed.
-/
def breakText : List Char → List Char
  | [] => []
  | c :: _ =>
      if c = '\u2028' ∨ c = '\u2029' then [c]
      else if isBreak c then ['\n']
      else []

/-- A place in a source: its line and column, how many characters are left, and those characters. -/
structure Cursor where
  line : Nat
  column : Nat
  left : Nat
  rest : List Char

namespace Cursor

/-- The start of a source. -/
def start (source : List Char) : Cursor :=
  ⟨0, 0, source.length, source⟩

/-- The place after a number of characters of the same line. -/
def forward (cursor : Cursor) (count : Nat) : Cursor :=
  { cursor with
    column := cursor.column + count
    left := cursor.left - count
    rest := cursor.rest.drop count }

/-- The place where a part of the same line ends, given the rest of the source behind it. -/
def upTo (cursor : Cursor) (rest : List Char) : Cursor :=
  cursor.forward (cursor.left - rest.length)

/-- The place after the characters of a class, which hold no line end. -/
def skipWhile (p : Char → Bool) (cursor : Cursor) : Cursor :=
  cursor.forward (cursor.rest.takeWhile p).length

/-- The place after a line end, of which a carriage return with a line feed is one. -/
def skipBreak (cursor : Cursor) : Cursor :=
  match cursor.rest with
  | '\r' :: '\n' :: rest => ⟨cursor.line + 1, 0, cursor.left - 2, rest⟩
  | c :: rest => if isBreak c then ⟨cursor.line + 1, 0, cursor.left - 1, rest⟩ else cursor
  | [] => cursor

/-- The next character is of a class. -/
def opensWith (p : Char → Bool) (cursor : Cursor) : Bool :=
  Yaml.opensWith p cursor.rest

/-- The place after a comment, if one starts here. -/
def skipComment (cursor : Cursor) : Cursor :=
  if cursor.opensWith (· = '#') then cursor.skipWhile (!isBreak ·) else cursor

/-- A document starts or ends here: a mark of three characters opens the line. -/
def atDocumentMark (cursor : Cursor) : Bool :=
  cursor.column = 0 && (opensMark "---" cursor.rest || opensMark "..." cursor.rest)

/-- The place behind the rest of a line that holds only blanks and a comment, or `none` where it
holds more.
-/
def skipLine? (cursor : Cursor) : Option Cursor :=
  let cursor := (cursor.skipWhile isBlank).skipComment
  if cursor.rest.isEmpty || cursor.opensWith isBreak then some cursor.skipBreak else none

/-- The next place that is neither blank nor in a comment, within a number of lines, and whether a
key may start there. Tabs are no indentation where a key may start; outside of flow collections
one may start on each new line. A byte order mark may open a line.
-/
def toTokenWithin (inFlow : Bool) : Nat → Bool → Cursor → Cursor × Bool
  | 0, keyAllowed, cursor => (cursor, keyAllowed)
  | n + 1, keyAllowed, cursor =>
      let cursor :=
        if cursor.column = 0 ∧ cursor.opensWith (· = '\ufeff') then cursor.forward 1 else cursor
      let tabs := inFlow || !keyAllowed
      let cursor := (cursor.skipWhile fun c => c = ' ' || (tabs && c = '\t')).skipComment
      if cursor.opensWith isBreak then
        toTokenWithin inFlow n (keyAllowed || !inFlow) cursor.skipBreak
      else (cursor, keyAllowed)

/-- The next place that is neither blank nor in a comment, and whether a key may start there. -/
def toToken (inFlow keyAllowed : Bool) (cursor : Cursor) : Cursor × Bool :=
  toTokenWithin inFlow (cursor.left + 1) keyAllowed cursor

end Cursor

end CypherSql.Yaml
