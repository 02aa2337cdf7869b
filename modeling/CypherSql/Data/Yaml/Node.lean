import CypherSql.Data.Yaml.Token

/-!
The nodes of YAML documents, put together from tokens.
-/

namespace CypherSql.Yaml

/-- A node of a document. Anchors are numbered; an alias stands for the node with its number. The
tags of collections are left out, because they read the same with any tag.
-/
inductive Node where
  | reference (anchor : Nat)
  | anchored (anchor : Nat) (node : Node)
  | scalar (tag : Option Octets) (style : Style) (text : String)
  | list (items : List Node)
  | record (entries : List (Node × Node))
  deriving Repr

namespace Node

/-- The node that nothing stands for. -/
def empty : Node :=
  .scalar none .plain ""

instance : Inhabited Node := ⟨empty⟩

end Node

/-- A tag as its handle and suffix. -/
abbrev ShortTag := String × Octets

/-- What the handles of tags stand for. -/
abbrev TagHandles := List (String × Octets)

namespace TagHandles

/-- The handles that are known without a directive. -/
def default : TagHandles :=
  [("!", octets "!"), ("!!", octets "tag:yaml.org,2002:")]

/-- The tag of a handle and suffix. -/
def expand? (handles : TagHandles) (tag : ShortTag) : Option Octets :=
  if tag.1 = "" then some tag.2
  else (handles.lookup tag.1).map (· ++ tag.2)

end TagHandles

/-- The numbers of the anchors declared so far. -/
abbrev AnchorNumbers := List (String × Nat)

/-- The number of an anchor that is declared: the number of different names before it. A name that
is declared again gets a new number, which the next new name shares.
-/
def AnchorNumbers.declare (numbers : AnchorNumbers) (name : String) : Nat × AnchorNumbers :=
  (numbers.length, (name, numbers.length) :: numbers.filter (·.1 ≠ name))

/-- What stands before a node: the number of its anchor and its tag. -/
structure Properties where
  anchor : Option Nat
  tag : Option Octets

/-- The node with its properties. -/
def Properties.mark (properties : Properties) (node : Node) : Node :=
  match properties.anchor with
  | some anchor => .anchored anchor node
  | none => node

/-- The scalar with its properties. A tag that is only a mark makes no difference. -/
def Properties.scalar (properties : Properties) (style : Style) (text : String) : Node :=
  properties.mark (.scalar (properties.tag.filter (· ≠ octets "!")) style text)

/-- The empty scalar with its properties, if there are any. -/
def Properties.empty? (properties : Properties) : Option Node :=
  if properties.anchor.isNone && properties.tag.isNone then none
  else some (properties.mark (.scalar properties.tag .plain ""))

/-- Tokens with the numbers of anchors and aliases in place of their names. -/
structure Input where
  handles : TagHandles
  numbers : AnchorNumbers
  tokens : List Token

/-- A reader of tokens. -/
abbrev Parse := StateT Input Option

namespace Parse

/-- The next token. -/
def peek : Parse (Option Token) :=
  return (← get).tokens.head?

/-- Passes the next token. -/
def skip : Parse Unit :=
  modify fun input => { input with tokens := input.tokens.tail }

/-- Passes a token if it is next. -/
def accept (token : Token) : Parse Bool := do
  if (← peek) = some token then
    skip
    return true
  else return false

/-- Passes a token, which has to be next. -/
def expect (token : Token) : Parse Unit := do
  if !(← accept token) then failure

/-- The next token is one of some. -/
def opensWith (choices : List Token) : Parse Bool := do
  return (← peek).any choices.contains

/-- An anchor, if one is next. -/
def anchor : Parse (Option Nat) := do
  match ← peek with
  | some (.anchor name) =>
      skip
      let (number, numbers) := (← get).numbers.declare name
      modify ({ · with numbers })
      return some number
  | _ => return none

/-- A tag, if one is next. -/
def tag : Parse (Option Octets) := do
  match ← peek with
  | some (.tag handle suffix) =>
      skip
      match (← get).handles.expand? (handle, suffix) with
      | some tag => return some tag
      | none => failure
  | _ => return none

/-- The anchor and the tag of a node, in either order. -/
def properties : Parse Properties := do
  match ← anchor with
  | some number => return ⟨number, ← tag⟩
  | none =>
      let tag ← tag
      return ⟨← if tag.isSome then anchor else pure none, tag⟩

/-- An alias, if one is next; its anchor has to be declared before. -/
def reference : Parse (Option Node) := do
  match ← peek with
  | some (.reference name) =>
      skip
      match (← get).numbers.lookup name with
      | some number => return some (.reference number)
      | none => failure
  | _ => return none

/-- Where a node stands: inside of a flow collection or outside, and outside also as the key or the
value of a block record, where a list need not be indented.
-/
inductive Place where
  | flow
  | block
  | blockEntry
  deriving DecidableEq, Repr

mutual

/-- A node, within a number of steps. -/
def nodeWithin (place : Place) : Nat → Parse Node
  | 0 => failure
  | n + 1 => do
      match ← reference with
      | some node => return node
      | none =>
          let properties ← properties
          match ← peek with
          | some (.scalar style text) =>
              skip
              return properties.scalar style text
          | some .flowListStart =>
              skip
              return properties.mark (.list (← flowItemsWithin true n))
          | some .flowRecordStart =>
              skip
              return properties.mark (.record (← flowEntriesWithin true n))
          | next =>
              if place = .blockEntry ∧ next = some .blockEntry then
                return properties.mark (.list (← unindentedItemsWithin n))
              else if place ≠ .flow ∧ next = some .blockListStart then
                skip
                return properties.mark (.list (← blockItemsWithin n))
              else if place ≠ .flow ∧ next = some .blockRecordStart then
                skip
                return properties.mark (.record (← blockEntriesWithin n))
              else
                match properties.empty? with
                | some node => return node
                | none => failure

/-- A node, or the empty one before some tokens. -/
def nodeBeforeWithin (place : Place) (closing : List Token) : Nat → Parse Node
  | 0 => failure
  | n + 1 => do
      if ← opensWith closing then return .empty else nodeWithin place n

/-- The items of a block list up to its end. -/
def blockItemsWithin : Nat → Parse (List Node)
  | 0 => failure
  | n + 1 => do
      if ← accept .blockEnd then return []
      else
        expect .blockEntry
        let item ← nodeBeforeWithin .block [.blockEntry, .blockEnd] n
        return item :: (← blockItemsWithin n)

/-- The items of a block list that is not indented. -/
def unindentedItemsWithin : Nat → Parse (List Node)
  | 0 => failure
  | n + 1 => do
      if ← accept .blockEntry then
        let item ← nodeBeforeWithin .block [.blockEntry, .key, .value, .blockEnd] n
        return item :: (← unindentedItemsWithin n)
      else return []

/-- The entries of a block record up to its end. -/
def blockEntriesWithin : Nat → Parse (List (Node × Node))
  | 0 => failure
  | n + 1 => do
      if ← accept .blockEnd then return []
      else
        expect .key
        let key ← nodeBeforeWithin .blockEntry [.key, .value, .blockEnd] n
        let value ←
          if ← accept .value then nodeBeforeWithin .blockEntry [.key, .value, .blockEnd] n
          else pure .empty
        return (key, value) :: (← blockEntriesWithin n)

/-- The items of a flow list up to its end. An item may be a single entry of a record; where its
key is left out, the token behind the question mark is passed over.
-/
def flowItemsWithin (first : Bool) : Nat → Parse (List Node)
  | 0 => failure
  | n + 1 => do
      if ← accept .flowListEnd then return []
      else
        if !first then expect .flowEntry
        if ← accept .flowListEnd then return []
        else if ← accept .key then
          let key ←
            if ← opensWith [.value, .flowEntry, .flowListEnd] then do
              skip
              pure .empty
            else nodeWithin .flow n
          let value ←
            if ← accept .value then nodeBeforeWithin .flow [.flowEntry, .flowListEnd] n
            else pure .empty
          return .record [(key, value)] :: (← flowItemsWithin false n)
        else
          let item ← nodeWithin .flow n
          return item :: (← flowItemsWithin false n)

/-- The entries of a flow record up to its end. -/
def flowEntriesWithin (first : Bool) : Nat → Parse (List (Node × Node))
  | 0 => failure
  | n + 1 => do
      if ← accept .flowRecordEnd then return []
      else
        if !first then expect .flowEntry
        if ← accept .flowRecordEnd then return []
        else if ← accept .key then
          let key ← nodeBeforeWithin .flow [.value, .flowEntry, .flowRecordEnd] n
          let value ←
            if ← accept .value then nodeBeforeWithin .flow [.flowEntry, .flowRecordEnd] n
            else pure .empty
          return (key, value) :: (← flowEntriesWithin false n)
        else
          let key ← nodeWithin .flow n
          return (key, .empty) :: (← flowEntriesWithin false n)

end

/-- The directives before a document, of which the version may be given once and each handle of
tags once, within a number of them.
-/
def directivesWithin (handles : TagHandles) (versioned : Bool) : Nat → Parse Unit
  | 0 => failure
  | n + 1 => do
      match ← peek with
      | some (.version major minor) =>
          if versioned || major ≠ 1 || (minor ≠ 1 && minor ≠ 2) then failure
          skip
          directivesWithin handles true n
      | some (.tagHandle handle expansion) =>
          if (handles.lookup handle).isSome then failure
          skip
          directivesWithin ((handle, expansion) :: handles) versioned n
      | _ => modify ({ · with handles := handles ++ TagHandles.default })

/-- A document: a node, or directives and a mark before a node or nothing. A source without tokens
is an empty document.
-/
def document : Parse Node := do
  let steps := 3 * (← get).tokens.length + 3
  match ← peek with
  | none => return .empty
  | some token =>
      if token.isOutside && token ≠ .documentEnd then
        directivesWithin [] false steps
        expect .documentStart
        if (← peek).all Token.isOutside then return .empty
        else nodeWithin .block steps
      else nodeWithin .block steps

end Parse

/-- The root of the only document that tokens make up; marks of its end may follow it. -/
def node? (tokens : List Token) : Option Node := do
  let (node, input) ← Parse.document.run ⟨TagHandles.default, [], tokens⟩
  if input.tokens.all (· = .documentEnd) then return node else none

end CypherSql.Yaml
