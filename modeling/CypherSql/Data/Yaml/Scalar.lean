import CypherSql.Data.Yaml.Source
import CypherSql.Number.Digits

/-!
The texts of YAML scalars: plain, quoted and block scalars.
-/

namespace CypherSql.Yaml

/-- How a scalar is written. -/
inductive Style where
  | plain
  | quoted
  | literal
  | folded
  deriving DecidableEq, Repr

/-- The blanks and line ends between two parts of a scalar: the blanks, as long as there is no line
end, whether there is one, what the first one stands for, and what all others stand for.
-/
structure Gap where
  blanks : List Char
  broken : Bool
  first : List Char
  more : List Char

namespace Gap

/-- Nothing. -/
def empty : Gap := ⟨[], false, [], []⟩

/-- A line end that stands for nothing. -/
def escapedBreak : Gap := ⟨[], true, [], []⟩

/-- What a gap stands for: blanks for themselves, a single line feed for a blank, and of more line
ends the first line feed for nothing.
-/
def text (gap : Gap) : List Char :=
  if !gap.broken then gap.blanks
  else if gap.first ≠ ['\n'] then gap.first ++ gap.more
  else if gap.more.isEmpty then [' ']
  else gap.more

/-- The gap with a blank behind it. -/
def addBlank (gap : Gap) (c : Char) : Gap :=
  if gap.broken then gap else { gap with blanks := gap.blanks ++ [c] }

/-- The gap with a line end behind it. -/
def addBreak (gap : Gap) (text : List Char) : Gap :=
  if gap.broken then { gap with more := gap.more ++ text } else ⟨[], true, text, []⟩

/-- The gap with all blanks and line ends behind it, within a number of steps. No tab may stand in
the indentation of a line.
-/
def scanWithin (indent : Nat) : Nat → Gap → Cursor → Option (Gap × Cursor)
  | 0, gap, cursor => some (gap, cursor)
  | n + 1, gap, cursor =>
      match cursor.rest with
      | [] => some (gap, cursor)
      | c :: _ =>
          if isBlank c then
            if gap.broken && cursor.column < indent && c = '\t' then none
            else scanWithin indent n (gap.addBlank c) (cursor.forward 1)
          else if isBreak c then
            scanWithin indent n (gap.addBreak (breakText cursor.rest)) cursor.skipBreak
          else some (gap, cursor)

/-- The gap with all blanks and line ends behind it. -/
def scan (indent : Nat) (gap : Gap) (cursor : Cursor) : Option (Gap × Cursor) :=
  scanWithin indent cursor.left gap cursor

end Gap

/-- The text may open a plain scalar. -/
def opensPlain (inFlow : Bool) : List Char → Bool
  | [] => false
  | c :: rest =>
      if c = '-' then !opensWith isBlank rest
      else if c = '?' ∨ c = ':' then !inFlow && !isSeparated rest
      else
        !(isBlank c || isBreak c || isFlowMark c || c = '#' || c = '&' || c = '*' || c = '!' ||
          c = '|' || c = '>' || c = '\'' || c = '"' || c = '%' || c = '@' || c = '\x60')

/-- The characters of a plain scalar up to the next blank, or `none` where a colon is attached to a
flow bracket.
-/
def plainWord? (inFlow : Bool) : List Char → Option (List Char)
  | [] => some []
  | c :: rest =>
      if isBlank c || isBreak c then some []
      else if inFlow && c = ':' && opensWith (fun c => isFlowMark c || c = '?') rest then none
      else if c = ':' && isSeparated rest then some []
      else if inFlow && isFlowMark c then some []
      else (plainWord? inFlow rest).map (c :: ·)

/-- The part of a plain scalar behind a gap, whether a line ended behind it, and the place after
it, within a number of steps. Outside of flow collections, lines that are not indented far enough
do not go on with it.
-/
def plainWithin (inFlow : Bool) (indent : Nat)
    : Nat → Gap → Cursor → Option (List Char × Bool × Cursor)
  | 0, gap, cursor => some ([], gap.broken, cursor)
  | n + 1, gap, cursor => do
      if cursor.atDocumentMark || cursor.opensWith (· = '#') then
        return ([], gap.broken, cursor)
      let word ← plainWord? inFlow cursor.rest
      if word.isEmpty then
        return ([], gap.broken, cursor)
      let (next, after) ← Gap.empty.scan indent (cursor.forward word.length)
      if !inFlow && after.column < indent then
        return (gap.text ++ word, next.broken, after)
      let (more, broken, after) ← plainWithin inFlow indent n next after
      return (gap.text ++ word ++ more, broken, after)

/-- A plain scalar, whether a line ended behind it, and the place after it. -/
def plain? (inFlow : Bool) (indent : Nat) (cursor : Cursor)
    : Option (List Char × Bool × Cursor) :=
  plainWithin inFlow indent (cursor.left + 1) .empty cursor

/-- The character that a given count of hexadecimal digits denotes, and the rest. -/
def hexEscape? (count : Nat) (s : List Char) : Option (Char × List Char) := do
  if s.length < count then none
  let value ← digitsValue? 16 (s.take count)
  if value.isValidChar then return (Char.ofNat value, s.drop count) else none

/-- The character that the text after a backslash denotes, and the rest. -/
def escaped? : List Char → Option (Char × List Char)
  | [] => none
  | c :: rest =>
      match c with
      | '0' => some ('\x00', rest)
      | 'a' => some ('\x07', rest)
      | 'b' => some ('\x08', rest)
      | 't' => some ('\t', rest)
      | '\t' => some ('\t', rest)
      | 'n' => some ('\n', rest)
      | 'v' => some ('\x0b', rest)
      | 'f' => some ('\x0c', rest)
      | 'r' => some ('\r', rest)
      | 'e' => some ('\x1b', rest)
      | ' ' => some (' ', rest)
      | '"' => some ('"', rest)
      | '/' => some ('/', rest)
      | '\\' => some ('\\', rest)
      | 'N' => some ('\u0085', rest)
      | '_' => some ('\u00a0', rest)
      | 'L' => some ('\u2028', rest)
      | 'P' => some ('\u2029', rest)
      | 'x' => hexEscape? 2 rest
      | 'u' => hexEscape? 4 rest
      | 'U' => hexEscape? 8 rest
      | _ => none

/-- The characters of a quoted scalar up to its closing quote, and the place after it, within a
number of steps. No document may start or end inside quotes.
-/
def quotedWithin (quote : Char) : Nat → Cursor → Option (List Char × Cursor)
  | 0, _ => none
  | n + 1, cursor =>
      if cursor.atDocumentMark then none
      else
        match cursor.rest with
        | [] => none
        | c :: rest =>
            if c = quote then
              if quote = '\'' ∧ opensWith (· = '\'') rest then do
                let (cs, after) ← quotedWithin quote n (cursor.forward 2)
                return ('\'' :: cs, after)
              else some ([], cursor.forward 1)
            else if c = '\\' ∧ quote = '"' then
              if opensWith isBreak rest then do
                let (gap, after) ← Gap.escapedBreak.scan 0 (cursor.forward 1).skipBreak
                let (cs, after) ← quotedWithin quote n after
                return (gap.text ++ cs, after)
              else do
                let (c, more) ← escaped? rest
                let (cs, after) ← quotedWithin quote n (cursor.upTo more)
                return (c :: cs, after)
            else if isBlank c || isBreak c then do
              let (gap, after) ← Gap.empty.scan 0 cursor
              let (cs, after) ← quotedWithin quote n after
              return (gap.text ++ cs, after)
            else do
              let (cs, after) ← quotedWithin quote n (cursor.forward 1)
              return (c :: cs, after)

/-- The scalar after an opening quote, and the place after it. -/
def quoted? (quote : Char) (cursor : Cursor) : Option (List Char × Cursor) :=
  quotedWithin quote cursor.left (cursor.forward 1)

/-- What becomes of the line ends behind a block scalar: they are all left out, or all but the
first, or kept.
-/
inductive Chomping where
  | strip
  | clip
  | keep
  deriving DecidableEq, Repr

/-- The chomping that a sign stands for. -/
def Chomping.ofSign? (c : Char) : Option Chomping :=
  if c = '+' then some .keep else if c = '-' then some .strip else none

/-- The indentation that a digit stands for, which is not zero. -/
def indentDigit? (c : Char) : Option Nat :=
  (digitValue? 10 c).filter (0 < ·)

/-- The chomping and the further indentation that the head of a block scalar gives, in either
order, and the rest. An indentation of zero stands for none given.
-/
def blockHead? (s : List Char) : Option (Chomping × Nat × List Char) :=
  let sign (s : List Char) : Chomping × List Char :=
    match s with
    | c :: rest =>
        match Chomping.ofSign? c with
        | some chomping => (chomping, rest)
        | none => (.clip, s)
    | [] => (.clip, s)
  match s with
  | [] => some (.clip, 0, [])
  | c :: rest =>
      if c.isDigit then do
        let indent ← indentDigit? c
        let (chomping, rest) := sign rest
        return (chomping, indent, rest)
      else
        match sign s with
        | (chomping, d :: rest) =>
            if chomping ≠ .clip ∧ d.isDigit then
              (indentDigit? d).map fun indent => (chomping, indent, rest)
            else some (chomping, 0, d :: rest)
        | (chomping, []) => some (chomping, 0, [])

/-- The line ends of empty lines, the farthest indentation found, and the place at the indentation
of the next line, within a number of steps. An indentation of zero is not known yet. No tab may
stand in the indentation.
-/
def blockGapWithin (indent : Nat)
    : Nat → Nat → Cursor → Option (List Char × Nat × Cursor)
  | 0, farthest, cursor => some ([], farthest, cursor)
  | n + 1, farthest, cursor =>
      let spaces := (cursor.rest.takeWhile (· = ' ')).length
      let cursor := cursor.forward
        (if indent = 0 then spaces else min spaces (indent - cursor.column))
      let farthest := max farthest cursor.column
      if (indent = 0 ∨ cursor.column < indent) ∧ cursor.opensWith (· = '\t') then none
      else if cursor.opensWith isBreak then do
        let (more, farthest, after) ← blockGapWithin indent n farthest cursor.skipBreak
        return (breakText cursor.rest ++ more, farthest, after)
      else some ([], farthest, cursor)

/-- The line ends of empty lines, the farthest indentation found, and the place at the indentation
of the next line.
-/
def blockGap? (indent : Nat) (cursor : Cursor) : Option (List Char × Nat × Cursor) :=
  blockGapWithin indent (cursor.left + 1) 0 cursor

/-- What stands before a line of a block scalar: the line end of the line before it, whether a
blank opened that one, and the line ends of empty lines.
-/
structure LineGap where
  first : List Char
  afterBlank : Bool
  more : List Char

/-- What a gap stands for before a line. In a folded scalar a line feed between two lines that no
blank opens is folded.
-/
def LineGap.text (style : Style) (gap : LineGap) (beforeBlank : Bool) : List Char :=
  if style = .folded ∧ gap.first = ['\n'] ∧ !gap.afterBlank ∧ !beforeBlank then
    (if gap.more.isEmpty then [' '] else gap.more)
  else gap.first ++ gap.more

/-- The lines of a block scalar with an indentation, the gap behind them, and the place after it,
within a number of lines.
-/
def blockLinesWithin (style : Style) (indent : Nat)
    : Nat → LineGap → Cursor → Option (List Char × LineGap × Cursor)
  | 0, gap, cursor => some ([], gap, cursor)
  | n + 1, gap, cursor =>
      if cursor.column = indent ∧ !cursor.rest.isEmpty then do
        let blank := cursor.opensWith isBlank
        let line := cursor.rest.takeWhile (!isBreak ·)
        let lineEnd := cursor.forward line.length
        let (more, _, after) ← blockGap? indent lineEnd.skipBreak
        let (lines, last, after) ←
          blockLinesWithin style indent n ⟨breakText lineEnd.rest, blank, more⟩ after
        return (gap.text style blank ++ line ++ lines, last, after)
      else some ([], gap, cursor)

/-- The block scalar after its indicator inside of collections with an indentation, and the place
after it.
-/
def block? (style : Style) (outer : Option Nat) (cursor : Cursor)
    : Option (List Char × Cursor) := do
  let (chomping, further, rest) ← blockHead? cursor.rest
  let start ← (cursor.upTo rest).skipLine?
  let given := if further = 0 then 0 else outer.getD 0 + further
  let (breaks, farthest, start) ← blockGap? given start
  let indent :=
    if given = 0 then max farthest (max 1 ((outer.map (· + 1)).getD 0)) else given
  let (lines, last, after) ←
    blockLinesWithin style indent (cursor.left + 1) ⟨[], false, breaks⟩ start
  let tail :=
    match chomping with
    | .strip => []
    | .clip => last.first
    | .keep => last.first ++ last.more
  return (lines ++ tail, after)

end CypherSql.Yaml
