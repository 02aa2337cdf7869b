import CypherSql.Cypher.Lexeme
import CypherSql.Cypher.Query

/-!
Expressions, from the loosest level to the tightest: `OR`, `XOR`, `AND`, `NOT`, comparisons, sums,
products, powers, signs, property lookups and atoms. Every level takes the parser of whole
expressions that its brackets hold; `expression` ties the knot by the length of the source.
-/

namespace CypherSql.Cypher

/-- Operands of one level with operators between them, grouped from the left. -/
def leftChain (op : Parser BinaryOp) (operand : Parser Expr) : Parser Expr := do
  let first ← operand
  Parser.iterate (fun left => do
    match ← op.optional with
    | none => pure none
    | some op =>
        let right ← operand
        pure (some (.binary op left right))) first

/-- A real literal: digits on both sides of a point. -/
def realLiteral : Parser Literal := do
  let whole ← digits
  char '.'
  let fraction ← digits
  pure (.real (Number.Binary64.ofDecimal (decimalValue (whole ++ fraction)) fraction.length))

/-- An integer literal of at most 63 bits. -/
def integerLiteral : Parser Literal := do
  let value ← digits.reading (decimalUpTo Number.largestSigned64)
  pure (.integer value)

/-- A literal. -/
def literal : Parser Expr := do
  let value ← Parser.choice [
    realLiteral,
    integerLiteral,
    do
      let raw ← stringLiteral
      pure (.text raw),
    keywordAs "TRUE" (.boolean true),
    keywordAs "FALSE" (.boolean false),
    keywordAs "NULL" .null]
  pure (.literal value)

/-- A parameter: a dollar sign and a word. -/
def parameter : Parser Expr := do
  char '$'
  let name ← run1 Text.isWordChar
  pure (.parameter (String.ofList name))

/-- A function name: symbolic names with points between them, as written. -/
def functionName : Parser String := do
  let name ← Parser.consumed do
    let _ ← symbolicName
    Parser.many do
      char '.'
      symbolicName
  pure (String.ofList name)

/-- A function call. The only argument may be `*`. -/
def functionCall (expr : Parser Expr) : Parser Expr := do
  let name ← functionName
  mark '('
  let distinct ← (keyword "DISTINCT").optional
  let args ← Parser.choice [
    do
      mark '*'
      pure [.star],
    Parser.separated (mark ',') expr]
  mark ')'
  pure (.call name distinct.isSome args)

/-- A list literal. -/
def listLiteral (expr : Parser Expr) : Parser Expr := do
  mark '['
  let items ← Parser.separated (mark ',') expr
  mark ']'
  pure (.list items)

/-- An entry of a map literal. -/
def mapEntry (expr : Parser Expr) : Parser (String × Expr) := do
  let key ← padded symbol
  char ':'
  let value ← expr
  pure (key, value)

/-- The entries of a map literal, or of the property map of a pattern. -/
def mapLiteral (expr : Parser Expr) : Parser (List (String × Expr)) := do
  mark '\x7b'
  let entries ← Parser.separated (mark ',') (mapEntry expr)
  mark '\x7d'
  pure entries

/-- An expression in parentheses. -/
def parenthesized (expr : Parser Expr) : Parser Expr := do
  mark '('
  let inner ← expr
  mark ')'
  pure inner

/-- An expression without operators. -/
def atom (expr : Parser Expr) : Parser Expr :=
  Parser.choice [
    literal,
    parameter,
    functionCall expr,
    listLiteral expr,
    do
      let entries ← mapLiteral expr
      pure (.map entries),
    parenthesized expr,
    do
      let name ← identifier
      pure (.var name)]

/-- An atom with property lookups after it. -/
def lookups (expr : Parser Expr) : Parser Expr := do
  let base ← padded (atom expr)
  let looked ← Parser.iterate (fun base => do
    let key ← Parser.optional do
      char '.'
      symbol
    pure (key.map (Expr.property base))) base
  blanks
  pure looked

/-- A minus sign before an operand; before a number it becomes part of the literal. -/
def negate : Expr → Expr
  | .literal value =>
      match value.negated? with
      | some negated => .literal negated
      | none => .unary .negation (.literal value)
  | operand => .unary .negation operand

/-- Signs before property lookups, at most a number of them. -/
def signedWithin (expr : Parser Expr) : Nat → Parser Expr
  | 0 => Parser.reject
  | n + 1 => Parser.choice [
      do
        mark '-'
        let operand ← signedWithin expr n
        pure (negate operand),
      do
        mark '+'
        signedWithin expr n,
      lookups expr]

/-- Signs before property lookups. -/
def signed (expr : Parser Expr) : Parser Expr :=
  fun s => signedWithin expr (s.length + 1) s

/-- An operator written as one character with blanks around it. -/
def markAs (c : Char) (op : BinaryOp) : Parser BinaryOp := do
  char c
  pure op

/-- Powers, grouped from the left. -/
def powers (expr : Parser Expr) : Parser Expr :=
  leftChain (padded (markAs '^' .power)) (signed expr)

/-- Products, quotients and remainders. -/
def products (expr : Parser Expr) : Parser Expr :=
  leftChain
    (padded (Parser.choice
      [markAs '*' .multiplication, markAs '/' .division, markAs '%' .modulo]))
    (powers expr)

/-- Sums and differences. -/
def sums (expr : Parser Expr) : Parser Expr :=
  leftChain (padded (Parser.choice [markAs '+' .addition, markAs '-' .subtraction]))
    (products expr)

/-- An operator written as a given text. -/
def signAs (text : String) (op : BinaryOp) : Parser BinaryOp := do
  literally text
  pure op

/-- A comparison sign. -/
def comparisonSign : Parser BinaryOp :=
  padded (Parser.choice [
    signAs ">=" .greaterEqual,
    signAs "<=" .lessEqual,
    signAs "<>" .notEqual,
    signAs "!=" .notEqual,
    signAs "=~" .regexMatch,
    signAs ">" .greater,
    signAs "<" .less,
    signAs "=" .equal])

/-- A comparison written in words. -/
def comparisonWords : Parser BinaryOp :=
  Parser.choice [
    do
      keyword "STARTS"
      keywordAs "WITH" .startsWith,
    do
      keyword "ENDS"
      keywordAs "WITH" .endsWith,
    keywordAs "CONTAINS" .contains,
    keywordAs "IN" .isIn]

/-- A test against null, written after its operand. -/
def nullTest : Parser UnaryOp :=
  Parser.choice [
    do
      keyword "IS"
      keyword "NOT"
      keywordAs "NULL" .isNotNull,
    do
      keyword "IS"
      keywordAs "NULL" .isNull]

/-- Comparisons and tests against null, grouped from the left. -/
def comparisons (expr : Parser Expr) : Parser Expr := do
  let first ← sums expr
  Parser.iterate (fun left => do
    match ← nullTest.optional with
    | some test => pure (some (.unary test left))
    | none =>
        match ← (Parser.choice [comparisonSign, comparisonWords]).optional with
        | none => pure none
        | some op =>
            let right ← sums expr
            pure (some (.binary op left right))) first

/-- Negations before comparisons, at most a number of them. -/
def negationsWithin (expr : Parser Expr) : Nat → Parser Expr
  | 0 => Parser.reject
  | n + 1 => Parser.choice [
      do
        keyword "NOT"
        let operand ← negationsWithin expr n
        pure (.unary .not operand),
      comparisons expr]

/-- Negations before comparisons. -/
def negations (expr : Parser Expr) : Parser Expr :=
  fun s => negationsWithin expr (s.length + 1) s

/-- Conjunctions. -/
def conjunctions (expr : Parser Expr) : Parser Expr :=
  leftChain (keywordAs "AND" .and) (negations expr)

/-- Exclusive disjunctions. -/
def exclusions (expr : Parser Expr) : Parser Expr :=
  leftChain (keywordAs "XOR" .xor) (conjunctions expr)

/-- Disjunctions, the loosest level. -/
def disjunctions (expr : Parser Expr) : Parser Expr :=
  leftChain (keywordAs "OR" .or) (exclusions expr)

/-- Expressions with at most a number of brackets inside each other. -/
def expressionWithin : Nat → Parser Expr
  | 0 => Parser.reject
  | n + 1 => disjunctions (expressionWithin n)

/-- An expression. Every bracket consumes a character, so the length of the source bounds their
nesting.
-/
def expression : Parser Expr :=
  fun s => expressionWithin (s.length + 1) s

end CypherSql.Cypher
