import CypherSql.Data.Yaml.Token

/-!
Cutting a YAML source into tokens. The indentation opens and closes block collections, and a node
turns out to be a key only at the colon behind it: its tokens are then put in where the node began.
-/

namespace CypherSql.Yaml

/-- A node that turns out to be a key if a colon follows it: the number of tokens before it and the
place where it began. It has to be a key where it stands at the indentation of a block collection.
-/
structure KeyStart where
  required : Bool
  position : Nat
  cursor : Cursor

/-- A key ends on its line and within 1024 characters. -/
def KeyStart.isStale (key : KeyStart) (cursor : Cursor) : Bool :=
  key.cursor.line < cursor.line || cursor.left + 1024 < key.cursor.left

/-- The tokens of a source up to a place: whether a key may start there, the columns of the open
block collections, the node that may be a key, the same for each open flow collection around it,
and the tokens with their number, the last one first.
-/
structure Lexer where
  cursor : Cursor
  keyAllowed : Bool
  indents : List Nat
  keyStart : Option KeyStart
  outer : List (Option KeyStart)
  count : Nat
  tokens : List Token

namespace Lexer

/-- The start of a source. -/
def start (source : List Char) : Lexer :=
  { cursor := .start source, keyAllowed := true, indents := [], keyStart := none, outer := [],
    count := 0, tokens := [] }

/-- The place is inside of a flow collection. -/
def inFlow (lexer : Lexer) : Bool :=
  !lexer.outer.isEmpty

/-- The least indentation of lines that go on with a scalar. -/
def scalarIndent (lexer : Lexer) : Nat :=
  (lexer.indents.head?.map (· + 1)).getD 0

/-- A token that ends at a place. -/
def push (lexer : Lexer) (token : Token) (after : Cursor) : Lexer :=
  { lexer with cursor := after, count := lexer.count + 1, tokens := token :: lexer.tokens }

/-- A token of a number of characters of the same line. -/
def pushMark (lexer : Lexer) (token : Token) (length : Nat) : Lexer :=
  lexer.push token (lexer.cursor.forward length)

/-- A token put in behind a number of others. -/
def insert (lexer : Lexer) (position : Nat) (token : Token) : Lexer :=
  let later := lexer.count - position
  { lexer with
    count := lexer.count + 1
    tokens := lexer.tokens.take later ++ token :: lexer.tokens.drop later }

/-- The next place that may hold a token. -/
def toToken (lexer : Lexer) : Lexer :=
  let (cursor, keyAllowed) := lexer.cursor.toToken lexer.inFlow lexer.keyAllowed
  { lexer with cursor, keyAllowed }

/-- No node may be a key any more; one that has to be a key is at fault. -/
def dropKey? (lexer : Lexer) : Option Lexer :=
  match lexer.keyStart with
  | some key => if key.required then none else some { lexer with keyStart := none }
  | none => some lexer

/-- The node, unless it is too long for a key; one that has to be a key is then at fault. -/
def freshKey? (cursor : Cursor) : Option KeyStart → Option (Option KeyStart)
  | some key =>
      if !key.isStale cursor then some (some key)
      else if key.required then none
      else some none
  | none => some none

/-- The nodes that are too long for keys are none any more. -/
def dropStaleKeys? (lexer : Lexer) : Option Lexer := do
  let keyStart ← freshKey? lexer.cursor lexer.keyStart
  let outer ← lexer.outer.mapM (freshKey? lexer.cursor)
  return { lexer with keyStart, outer }

/-- The node that starts here may be a key, if one may start here. -/
def saveKey? (lexer : Lexer) : Option Lexer :=
  if lexer.keyAllowed then do
    let required := !lexer.inFlow && lexer.indents.head? = some lexer.cursor.column
    let lexer ← lexer.dropKey?
    return { lexer with keyStart := some ⟨required, lexer.count, lexer.cursor⟩ }
  else some lexer

/-- The block collections of some columns end. -/
def closeBlocks (lexer : Lexer) (ends : Nat → Bool) : Lexer :=
  if lexer.inFlow then lexer
  else
    let closed := lexer.indents.takeWhile ends
    { lexer with
      indents := lexer.indents.drop closed.length
      count := lexer.count + closed.length
      tokens := List.replicate closed.length .blockEnd ++ lexer.tokens }

/-- The block collections that are indented farther than a column end. -/
def closeBlocksAfter (lexer : Lexer) (column : Nat) : Lexer :=
  lexer.closeBlocks (column < ·)

/-- All block collections end, and no key may start. -/
def closeDocument? (lexer : Lexer) : Option Lexer :=
  (lexer.closeBlocks fun _ => true).dropKey?.map ({ · with keyAllowed := false })

/-- A block collection starts at a column, behind a number of tokens, unless one is open there. -/
def openBlock (lexer : Lexer) (column position : Nat) (token : Token) : Lexer :=
  if lexer.inFlow || lexer.indents.head?.any (column ≤ ·) then lexer
  else { lexer.insert position token with indents := column :: lexer.indents }

/-- A block collection starts here, unless one is open at this column. -/
def openBlockHere (lexer : Lexer) (token : Token) : Lexer :=
  lexer.openBlock lexer.cursor.column lexer.count token

/-- A directive, up to the end of its line. -/
def directive? (lexer : Lexer) : Option Lexer := do
  let lexer ← lexer.closeDocument?
  let (token, rest) ← Yaml.directive? (lexer.cursor.rest.drop 1)
  return lexer.push token (← (lexer.cursor.upTo rest).skipLine?)

/-- The mark of a document's start or end. -/
def documentMark? (lexer : Lexer) (token : Token) : Option Lexer := do
  return (← lexer.closeDocument?).pushMark token 3

/-- The bracket that opens a flow collection. -/
def flowStart? (lexer : Lexer) (token : Token) : Option Lexer := do
  let lexer ← lexer.saveKey?
  return { lexer with
    keyAllowed := true, keyStart := none, outer := lexer.keyStart :: lexer.outer
  }.pushMark token 1

/-- The bracket that closes a flow collection. -/
def flowEnd? (lexer : Lexer) (token : Token) : Option Lexer := do
  let lexer ← lexer.dropKey?
  let lexer :=
    match lexer.outer with
    | keyStart :: outer => { lexer with keyStart, outer }
    | [] => lexer
  return { lexer with keyAllowed := false }.pushMark token 1

/-- The comma between the entries of a flow collection. -/
def flowEntry? (lexer : Lexer) : Option Lexer := do
  return { ← lexer.dropKey? with keyAllowed := true }.pushMark .flowEntry 1

/-- The dash of an entry of a block list. -/
def blockEntry? (lexer : Lexer) : Option Lexer := do
  if !lexer.inFlow && !lexer.keyAllowed then none
  let lexer ← (lexer.openBlockHere .blockListStart).dropKey?
  return { lexer with keyAllowed := true }.pushMark .blockEntry 1

/-- The question mark before a key. -/
def key? (lexer : Lexer) : Option Lexer := do
  if !lexer.inFlow && !lexer.keyAllowed then none
  let lexer ← (lexer.openBlockHere .blockRecordStart).dropKey?
  return { lexer with keyAllowed := !lexer.inFlow }.pushMark .key 1

/-- The colon before a value. The node before it becomes a key, if it may be one. -/
def value? (lexer : Lexer) : Option Lexer :=
  match lexer.keyStart with
  | some key =>
      let lexer := lexer.insert key.position .key
      let lexer := lexer.openBlock key.cursor.column key.position .blockRecordStart
      some ({ lexer with keyStart := none, keyAllowed := false }.pushMark .value 1)
  | none =>
      if !lexer.inFlow && !lexer.keyAllowed then none
      else
        let lexer := lexer.openBlockHere .blockRecordStart
        some ({ lexer with keyAllowed := !lexer.inFlow }.pushMark .value 1)

/-- A node of one token, which may be a key. -/
def node? (lexer : Lexer) (read : Lexer → Option (Token × Cursor)) : Option Lexer := do
  let lexer ← lexer.saveKey?
  let (token, after) ← read lexer
  return { lexer with keyAllowed := false }.push token after

/-- An anchor or an alias. -/
def anchor? (lexer : Lexer) (token : String → Token) : Option Lexer :=
  lexer.node? fun lexer => do
    let (name, rest) ← anchorName? (lexer.cursor.rest.drop 1)
    return (token name, lexer.cursor.upTo rest)

/-- A tag. -/
def tag? (lexer : Lexer) : Option Lexer :=
  lexer.node? fun lexer => do
    let (token, rest) ← Yaml.tag? lexer.inFlow lexer.cursor.rest
    return (token, lexer.cursor.upTo rest)

/-- A quoted scalar. -/
def quoted? (lexer : Lexer) (quote : Char) : Option Lexer :=
  lexer.node? fun lexer => do
    let (text, after) ← Yaml.quoted? quote lexer.cursor
    return (.scalar .quoted (String.ofList text), after)

/-- A plain scalar. A key may start behind it, if a line ended. -/
def plain? (lexer : Lexer) : Option Lexer := do
  let lexer ← lexer.saveKey?
  let (text, broken, after) ← Yaml.plain? lexer.inFlow lexer.scalarIndent lexer.cursor
  return { lexer with keyAllowed := broken }.push (.scalar .plain (String.ofList text)) after

/-- A block scalar, behind which a key may start. -/
def block? (lexer : Lexer) (style : Style) : Option Lexer := do
  let lexer ← lexer.dropKey?
  let (text, after) ← Yaml.block? style lexer.indents.head? (lexer.cursor.forward 1)
  return { lexer with keyAllowed := true }.push (.scalar style (String.ofList text)) after

/-- The token that starts with a character here. -/
def token? (lexer : Lexer) (c : Char) : Option Lexer :=
  let s := lexer.cursor.rest
  let opensLine := lexer.cursor.column = 0
  let separated := isSeparated (s.drop 1)
  if opensLine ∧ c = '%' then lexer.directive?
  else if opensLine ∧ opensMark "---" s then lexer.documentMark? .documentStart
  else if opensLine ∧ opensMark "..." s then lexer.documentMark? .documentEnd
  else if c = '[' then lexer.flowStart? .flowListStart
  else if c = '\x7b' then lexer.flowStart? .flowRecordStart
  else if c = ']' then lexer.flowEnd? .flowListEnd
  else if c = '\x7d' then lexer.flowEnd? .flowRecordEnd
  else if c = ',' then lexer.flowEntry?
  else if c = '-' ∧ separated then lexer.blockEntry?
  else if c = '?' ∧ (lexer.inFlow ∨ separated) then lexer.key?
  else if c = ':' ∧ (lexer.inFlow ∨ separated) then lexer.value?
  else if c = '*' then lexer.anchor? .reference
  else if c = '&' then lexer.anchor? .anchor
  else if c = '!' then lexer.tag?
  else if c = '|' ∧ !lexer.inFlow then lexer.block? .literal
  else if c = '>' ∧ !lexer.inFlow then lexer.block? .folded
  else if c = '\'' ∨ c = '"' then lexer.quoted? c
  else if opensPlain lexer.inFlow s then lexer.plain?
  else none

/-- All tokens of a source, within a number of them. -/
def finishWithin : Nat → Lexer → Option (List Token)
  | 0, _ => none
  | n + 1, lexer => do
      let lexer ← lexer.toToken.dropStaleKeys?
      let lexer := lexer.closeBlocksAfter lexer.cursor.column
      match lexer.cursor.rest with
      | [] => return (← lexer.closeDocument?).tokens.reverse
      | c :: _ => finishWithin n (← lexer.token? c)

end Lexer

/-- The tokens of a source. -/
def tokens? (source : List Char) : Option (List Token) :=
  if source.all isAllowed then
    (Lexer.start source).finishWithin (source.length + 1)
  else none

end CypherSql.Yaml
