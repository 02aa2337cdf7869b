import CypherSql.Category
import CypherSql.Number.Digits
import CypherSql.Text.Blank
import CypherSql.Text.Word

/-!
Variable-length relationships, written out. Before a query is parsed, each anonymous relationship
with a hop range in its text is replaced by chains of plain relationships, one text for each
combination of hop counts.
-/

namespace CypherSql.Expansion

open Text

/-- Why a query has no expansion. -/
inductive ExpansionError where
  | namedRelationship (pattern name : String)
  | hopCountOutOfRange (pattern : String)
  | zeroLength (pattern : String)
  | invalidRange (pattern : String)
  | tooManyVariants (variants limit : Nat)
  deriving DecidableEq, Repr

namespace ExpansionError

/-- The message for a relationship that is not supported. -/
def unsupportedMessage (pattern reason : String) : String :=
  "Unsupported variable-length relationship `" ++ pattern ++ "`: " ++ reason

/-- The wording of an error. -/
def message : ExpansionError → String
  | .namedRelationship pattern name =>
      unsupportedMessage pattern
        ("the relationship variable `" ++ name ++ "` would name a list of relationships")
  | .hopCountOutOfRange pattern => unsupportedMessage pattern "hop count out of range"
  | .zeroLength pattern => unsupportedMessage pattern "zero-length paths"
  | .invalidRange pattern =>
      "Invalid hop range in `" ++ pattern ++ "`: minimum exceeds maximum"
  | .tooManyVariants variants limit =>
      "Query expands into " ++ toString variants ++
        " fixed-length variants, more than the limit of " ++ toString limit

/-- Who has to act on the error. -/
def category : ExpansionError → Category
  | .namedRelationship _ _ => .unsupportedFeature
  | .hopCountOutOfRange _ => .unsupportedFeature
  | .zeroLength _ => .unsupportedFeature
  | .invalidRange _ => .userQuery
  | .tooManyVariants _ _ => .userQuery

end ExpansionError

/-- The limits of an expansion: the hop count that stands for an open bound, and the number of
texts that one query may have.
-/
structure Limits where
  maxHops : Nat
  maxVariants : Nat
  deriving DecidableEq, Repr

/-- A relationship with a hop range as it stands in the text. The upper bound is `none` where no
two points are written, and `some none` where no number follows them.
-/
structure Segment where
  pattern : List Char
  left : List Char
  name : Option (List Char)
  types : List Char
  least : Option (List Char)
  most : Option (Option (List Char))
  properties : Option (List Char)
  right : List Char
  deriving DecidableEq, Repr

/-- The text without the blanks at its start. -/
def skipBlanks (s : List Char) : List Char :=
  s.dropWhile isBlank

/-- The rest after a given text. -/
def after? (text : String) (s : List Char) : Option (List Char) :=
  if text.toList.isPrefixOf s then some (s.drop text.length) else none

/-- The character may open a name of ASCII letters, digits and underscores. -/
def isPlainStart (c : Char) : Bool :=
  c.isAlpha || c = '_'

/-- The character may stand inside such a name. -/
def isPlainChar (c : Char) : Bool :=
  c.isAlphanum || c = '_'

/-- The name at the start of the text, if there is one, and the rest. -/
def splitName (s : List Char) : Option (List Char) × List Char :=
  match s with
  | c :: _ => if isPlainStart c then (some (s.takeWhile isPlainChar), s.dropWhile isPlainChar)
      else (none, s)
  | [] => (none, s)

/-- The digits at the start of the text, if there are any, and the rest. -/
def splitDigits (s : List Char) : Option (List Char) × List Char :=
  match s.span isDecimalDigit with
  | ([], _) => (none, s)
  | (digits, rest) => (some digits, rest)

/-- The character may stand in the list of types. -/
def isTypeChar (c : Char) : Bool :=
  !(c = '*' || c = ']' || c = '\x7b')

/-- The list of types at the start of the text, which opens with a colon, and the rest. -/
def splitTypes (s : List Char) : List Char × List Char :=
  match s with
  | ':' :: rest => (':' :: rest.takeWhile isTypeChar, rest.dropWhile isTypeChar)
  | _ => ([], s)

/-- The upper bound at the start of the text, and the rest. -/
def splitUpperBound (s : List Char) : Option (Option (List Char)) × List Char :=
  match after? ".." s with
  | some rest =>
      let (digits, rest) := splitDigits (skipBlanks rest)
      (some digits, rest)
  | none => (none, s)

/-- The property map at the start of the text, if there is one, and the rest. There is no reading
where a map is not closed.
-/
def splitProperties? (s : List Char) : Option (Option (List Char) × List Char) :=
  match s with
  | '\x7b' :: rest =>
      match rest.dropWhile (· != '\x7d') with
      | '\x7d' :: more => some (some ('\x7b' :: rest.takeWhile (· != '\x7d') ++ ['\x7d']), more)
      | _ => none
  | _ => some (none, s)

/-- The left end of a relationship, up to its opening bracket, and the rest. -/
def splitLeftEnd? (s : List Char) : Option (List Char × List Char) :=
  match s with
  | '<' :: '-' :: '[' :: rest => some (['<', '-'], rest)
  | '-' :: '[' :: rest => some (['-'], rest)
  | _ => none

/-- The right end of a relationship, from its closing bracket on, and the rest. -/
def splitRightEnd? (s : List Char) : Option (List Char × List Char) :=
  match s with
  | ']' :: '-' :: '>' :: rest => some (['-', '>'], rest)
  | ']' :: '-' :: rest => some (['-'], rest)
  | _ => none

/-- A relationship with a hop range at the start of the text, and the rest. -/
def segment? (s : List Char) : Option (Segment × List Char) := do
  let (left, rest) ← splitLeftEnd? s
  let (name, rest) := splitName (skipBlanks rest)
  let (types, rest) := splitTypes (skipBlanks rest)
  let rest ← after? "*" (skipBlanks rest)
  let (least, rest) := splitDigits (skipBlanks rest)
  let (most, rest) := splitUpperBound (skipBlanks rest)
  let (properties, rest) ← splitProperties? (skipBlanks rest)
  let (right, rest) ← splitRightEnd? (skipBlanks rest)
  let pattern := s.take (s.length - rest.length)
  return ({ pattern, left, name, types, least, most, properties, right }, rest)

/-- A text cut at its relationships with a hop range: what stands before each of them, and what
follows the last.
-/
structure Cut where
  parts : List (List Char × Segment)
  tail : List Char

/-- The cut with one more character before it. -/
def Cut.cons (c : Char) (cut : Cut) : Cut :=
  match cut.parts with
  | [] => { cut with tail := c :: cut.tail }
  | (gap, segment) :: rest => { cut with parts := (c :: gap, segment) :: rest }

/-- Cuts a text from the left, within a number of steps. -/
def cutWithin : Nat → List Char → Cut
  | 0, s => ⟨[], s⟩
  | _, [] => ⟨[], []⟩
  | n + 1, c :: rest =>
      match segment? (c :: rest) with
      | some (segment, rest) =>
          let cut := cutWithin n rest
          { cut with parts := ([], segment) :: cut.parts }
      | none => (cutWithin n rest).cons c

/-- Cuts a text at its relationships with a hop range, from the left and without overlap. -/
def cut (s : List Char) : Cut :=
  cutWithin s.length s

/-- A relationship to write out: its text for one hop, and its bounds. -/
structure Chain where
  hop : List Char
  least : Nat
  most : Nat
  deriving DecidableEq, Repr

namespace Chain

/-- The hop counts in ascending order. -/
def counts (chain : Chain) : List Nat :=
  List.range' chain.least (chain.most + 1 - chain.least)

/-- A number of hops with anonymous nodes between them. -/
def written (chain : Chain) (count : Nat) : List Char :=
  List.intercalate ['(', ')'] (List.replicate count chain.hop)

end Chain

/-- The number that ASCII digits denote, if it is a hop count. -/
def hopCount? (digits : List Char) : Option Nat :=
  if digits.all Char.isDigit then
    let value := digits.foldl (fun n d => 10 * n + (d.toNat - '0'.toNat)) 0
    if value ≤ Number.largestWord32 then some value else none
  else none

namespace Segment

/-- The text of one hop. -/
def hop (segment : Segment) : List Char :=
  segment.left ++ '[' :: trimEnd segment.types ++
    (segment.properties.elim [] (' ' :: ·)) ++ ']' :: segment.right

/-- A bound that has to be a hop count where it is written. -/
def bound (segment : Segment) (digits : Option (List Char))
    : Except ExpansionError (Option Nat) :=
  match digits with
  | none => .ok none
  | some digits =>
      match hopCount? digits with
      | some count => .ok (some count)
      | none => .error (.hopCountOutOfRange (String.ofList segment.pattern))

/-- The bounds of the segment. A single number is both of them, and an open bound is one hop or
the given maximum.
-/
def bounds (maxHops : Nat) (least : Option Nat) (most : Option (Option Nat)) : Nat × Nat :=
  match least, most with
  | some count, none => (count, count)
  | none, none => (1, maxHops)
  | least, some most => (least.getD 1, most.getD maxHops)

/-- The segment as a chain to write out. -/
def chain (maxHops : Nat) (segment : Segment) : Except ExpansionError Chain := do
  let pattern := String.ofList segment.pattern
  if let some name := segment.name then
    throw (.namedRelationship pattern (String.ofList name))
  let least ← segment.bound segment.least
  let most ← segment.bound segment.most.join
  let (low, high) := bounds maxHops least (segment.most.map fun _ => most)
  if low = 0 then throw (.zeroLength pattern)
  if high < low then throw (.invalidRange pattern)
  return { hop := segment.hop, least := low, most := high }

end Segment

/-- The number of texts that the chains expand into. -/
def variantCount (chains : List Chain) : Nat :=
  (chains.map fun chain => chain.most + 1 - chain.least).foldl (· * ·) 1

/-- The texts with the chains written out, the hop count of the leftmost chain varying slowest. -/
def variants (tail : List Char) : List (List Char × Chain) → List (List Char)
  | [] => [tail]
  | (gap, chain) :: rest =>
      chain.counts.flatMap fun count =>
        (variants tail rest).map fun text => gap ++ chain.written count ++ text

/-- The parts of a cut with their segments as chains, from the left. -/
def chains (maxHops : Nat)
    : List (List Char × Segment) → Except ExpansionError (List (List Char × Chain))
  | [] => .ok []
  | (gap, segment) :: rest => do
      let chain ← segment.chain maxHops
      let more ← chains maxHops rest
      return (gap, chain) :: more

/-- The fixed-length texts of a query. -/
def expand (limits : Limits) (source : String) : Except ExpansionError (List String) := do
  let cut := cut source.toList
  let parts ← chains limits.maxHops cut.parts
  let count := variantCount (parts.map (·.2))
  if limits.maxVariants < count ∧ !parts.isEmpty then
    throw (.tooManyVariants (min count Number.largestWord64) limits.maxVariants)
  return (variants cut.tail parts).map String.ofList

end CypherSql.Expansion
