import CypherSql.Cypher.QueryParser

/-! The canonical text of a query. Names stand in backquotes, functions are called as they were
written, and an operand stands in parentheses only where it binds looser than its place asks for.
-/

namespace CypherSql

/-- How tight an operator binds its operands: `OR`, `XOR`, `AND`, `NOT`, comparisons, sums,
products, powers, signs and property lookups have the levels from 0 to 9.
-/
def BinaryOp.level : BinaryOp → Nat
  | .or => 0
  | .xor => 1
  | .and => 2
  | .equal | .notEqual | .less | .greater | .lessEqual | .greaterEqual | .regexMatch | .isIn
  | .startsWith | .endsWith | .contains => 4
  | .addition | .subtraction => 5
  | .multiplication | .division | .modulo => 6
  | .power => 7

/-- The same for operators with one operand. -/
def UnaryOp.level : UnaryOp → Nat
  | .not => 3
  | .isNull | .isNotNull => 4
  | .negation => 8

/-- An operator as it is written. -/
def BinaryOp.sign : BinaryOp → String
  | .addition => "+"
  | .subtraction => "-"
  | .multiplication => "*"
  | .division => "/"
  | .modulo => "%"
  | .power => "^"
  | .equal => "="
  | .notEqual => "<>"
  | .less => "<"
  | .greater => ">"
  | .lessEqual => "<="
  | .greaterEqual => ">="
  | .regexMatch => "=~"
  | .and => "AND"
  | .or => "OR"
  | .xor => "XOR"
  | .isIn => "IN"
  | .startsWith => "STARTS WITH"
  | .endsWith => "ENDS WITH"
  | .contains => "CONTAINS"

namespace Cypher

/-- The level of an expression: that of its outermost operator. What has none binds as tight as a
lookup, except for a number with a sign.
-/
def Expr.level : Expr → Nat
  | .binary op _ _ => op.level
  | .unary op _ => op.level
  | .literal (.integer value) => if value < 0 then UnaryOp.negation.level else 9
  | _ => 9

/-- A name in backquotes. -/
def printName (name : String) : List Char :=
  '`' :: name.toList ++ ['`']

/-- A number in decimal digits. -/
def printNumber (value : Nat) : List Char :=
  Nat.toDigits 10 value

/-- A raw text holds a quote without a backslash before it. -/
def hasUnescaped (quote : Char) : List Char → Bool
  | '\\' :: _ :: rest => hasUnescaped quote rest
  | c :: rest => c == quote || hasUnescaped quote rest
  | [] => false

/-- The quote for a raw text: a single one unless the text holds that by itself. -/
def quoteFor (raw : List Char) : Char :=
  if hasUnescaped '\'' raw then '"' else '\''

/-- A literal. A number with a point has no canonical text. -/
def printLiteral : Literal → List Char
  | .integer value =>
      if value < 0 then '-' :: printNumber value.natAbs else printNumber value.natAbs
  | .real _ => []
  | .boolean true => "TRUE".toList
  | .boolean false => "FALSE".toList
  | .text raw => quoteFor raw.toList :: raw.toList ++ [quoteFor raw.toList]
  | .null => "NULL".toList

theorem printLiteral_integer (value : Int)
    : printLiteral (.integer value)
      = if value < 0 then '-' :: printNumber value.natAbs else printNumber value.natAbs :=
  rfl

theorem printLiteral_text (raw : String)
    : printLiteral (.text raw) = quoteFor raw.toList :: raw.toList ++ [quoteFor raw.toList] :=
  rfl

/-- Texts with commas between them. -/
def printList : List (List Char) → List Char
  | [] => []
  | first :: rest => first ++ rest.flatMap fun text => ',' :: ' ' :: text

/-- A text in parentheses where the level of its expression is too low. -/
def enclosed (least level : Nat) (text : List Char) : List Char :=
  if level < least then '(' :: text ++ [')'] else text

mutual

/-- The canonical text of an expression. -/
def Expr.print : Expr → List Char
  | .literal value => printLiteral value
  | .var name => printName name
  | .parameter name => '$' :: name.toList
  | .list items => '[' :: printList (printEach items) ++ [']']
  | .map entries => '\x7b' :: printList (printEntries entries) ++ ['\x7d']
  | .property base key => enclosed 9 base.level base.print ++ '.' :: printName key
  | .unary .not operand => "NOT".toList ++ ' ' :: enclosed 3 operand.level operand.print
  | .unary .negation operand => '-' :: enclosed 8 operand.level operand.print
  | .unary .isNull operand => enclosed 4 operand.level operand.print ++ ' ' :: "IS NULL".toList
  | .unary .isNotNull operand =>
      enclosed 4 operand.level operand.print ++ ' ' :: "IS NOT NULL".toList
  | .binary op left right =>
      enclosed op.level left.level left.print ++ ' ' :: op.sign.toList
        ++ ' ' :: enclosed (op.level + 1) right.level right.print
  | .call name distinct args =>
      name.toList ++ '(' :: (if distinct then "DISTINCT".toList ++ [' '] else [])
        ++ printList (printEach args) ++ [')']
  | .star => ['*']

/-- The texts of several expressions. -/
def printEach : List Expr → List (List Char)
  | [] => []
  | expr :: rest => expr.print :: printEach rest

/-- The texts of the entries of a map. -/
def printEntries : List (String × Expr) → List (List Char)
  | [] => []
  | (key, value) :: rest => (printName key ++ ':' :: value.print) :: printEntries rest

end

/-- The text of something that may be missing. -/
def printOption {α : Type} (print : α → List Char) : Option α → List Char
  | none => []
  | some value => print value

/-- A property map. -/
def printMap (entries : List (String × Expr)) : List Char :=
  '\x7b' :: printList (printEntries entries) ++ ['\x7d']

def NodePattern.print (node : NodePattern) : List Char :=
  '(' :: printOption printName node.name ++ node.labels.flatMap
    (fun label => ':' :: printName label)
    ++ printOption printMap node.properties ++ [')']

/-- The types of a relationship. -/
def printTypes : List String → List Char
  | [] => []
  | first :: rest => ':' :: printName first ++ rest.flatMap fun type => '|' :: printName type

def HopRange.print (range : HopRange) : List Char :=
  '*' :: printOption printNumber range.least ++ '.' :: '.' :: printOption printNumber range.most

/-- What stands between the brackets of a relationship. -/
def RelationshipPattern.printDetail (relationship : RelationshipPattern) : List Char :=
  '[' :: printOption printName relationship.name ++ printTypes relationship.types
    ++ printOption HopRange.print relationship.length
      ++ printOption printMap relationship.properties
    ++ [']']

def RelationshipPattern.print (relationship : RelationshipPattern) : List Char :=
  (if relationship.direction = .left then ['<', '-'] else ['-']) ++ relationship.printDetail
    ++ if relationship.direction = .right then ['-', '>'] else ['-']

def PathPattern.print (path : PathPattern) : List Char :=
  printOption (fun name => printName name ++ [' ', '=', ' ']) path.name ++ path.start.print
    ++ path.hops.flatMap fun hop => hop.1.print ++ hop.2.print

/-- A text after a keyword that follows something else. -/
def printAfter (word : String) (text : List Char) : List Char :=
  ' ' :: word.toList ++ ' ' :: text

/-- An expression after a keyword, if there is one. -/
def printPart (word : String) : Option Expr → List Char :=
  printOption fun expr => printAfter word expr.print

def MatchClause.print (clause : MatchClause) : List Char :=
  (if clause.optional then "OPTIONAL".toList ++ [' '] else []) ++ "MATCH".toList
    ++ ' ' :: printList (clause.patterns.map PathPattern.print)
      ++ printPart "WHERE" clause.condition

def ProjectionItem.print (item : ProjectionItem) : List Char :=
  item.expr.print ++ printOption (fun name => printAfter "AS" (printName name)) item.aliasName

def SortItem.print (item : SortItem) : List Char :=
  item.expr.print ++ if item.descending then ' ' :: "DESC".toList else []

/-- The sort keys of a projection, if there are any. -/
def printOrder : List SortItem → List Char
  | [] => []
  | items => printAfter "ORDER" ("BY".toList ++ ' ' :: printList (items.map SortItem.print))

def Projection.print (projection : Projection) : List Char :=
  (if projection.distinct then "DISTINCT".toList ++ [' '] else [])
    ++ printList (projection.items.map ProjectionItem.print) ++ printOrder projection.orderBy
    ++ printPart "SKIP" projection.skip ++ printPart "LIMIT" projection.limit

def Clause.print : Clause → List Char
  | .matching clause => clause.print
  | .withItems projection condition =>
      "WITH".toList ++ ' ' :: projection.print ++ printPart "WHERE" condition
  | .returnItems projection => "RETURN".toList ++ ' ' :: projection.print

/-- Clauses with blanks between them. -/
def printClauses : List Clause → List Char
  | [] => []
  | first :: rest => first.print ++ rest.flatMap fun clause => ' ' :: clause.print

/-- The canonical text of a query. -/
def Query.print (query : Query) : String :=
  String.ofList (printClauses query.clauses)

/-- The expression is a number with a point. -/
def Expr.isReal : Expr → Bool
  | .literal (.real _) => true
  | _ => false

/-- The expression is a call of a function that is named by a reserved word. -/
def Expr.callsReserved : Expr → Bool
  | .call name _ _ => isReserved name.toList
  | _ => false

/-- A text opens with the word `DISTINCT` and a point. -/
def opensDistinct (text : List Char) : Bool :=
  "distinct.".toList.isPrefixOf (text.map foldCase)

/-- The expression is a call without a `DISTINCT`, but the text of its arguments opens with that
word.
-/
def Expr.seemsDistinct : Expr → Bool
  | .call _ false args => opensDistinct (printList (printEach args))
  | _ => false

/-- The same for the items of a projection. -/
def Projection.seemsDistinct (projection : Projection) : Bool :=
  !projection.distinct && opensDistinct (printList (projection.items.map ProjectionItem.print))

def Clause.seemsDistinct : Clause → Bool
  | .matching _ => false
  | .withItems projection _ => projection.seemsDistinct
  | .returnItems projection => projection.seemsDistinct

/-- An item without the text that it was written as. -/
def ProjectionItem.unworded (item : ProjectionItem) : ProjectionItem :=
  { item with text := "" }

def Projection.unworded (projection : Projection) : Projection :=
  { projection with items := projection.items.map ProjectionItem.unworded }

def Clause.unworded : Clause → Clause
  | .matching clause => .matching clause
  | .withItems projection condition => .withItems projection.unworded condition
  | .returnItems projection => .returnItems projection.unworded

/-- A query without the texts that its items were written as. -/
def Query.unworded (query : Query) : Query :=
  ⟨query.clauses.map Clause.unworded⟩

end Cypher

end CypherSql
