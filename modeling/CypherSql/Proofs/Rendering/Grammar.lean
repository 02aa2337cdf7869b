import CypherSql.Proofs.Rendering.Lexemes

/-! The grammar of SQL expressions. Operators have layers from loose to tight: `OR` 0, `AND` 1,
`NOT` 2, comparisons 3, concatenation 4, sums 5, products 6, a minus sign 7; what stands by itself
has layer 8. An operand of a comparison is no comparison, and the operators of the other layers
between operands group from the left.
-/

namespace CypherSql.Sql

/-- An operator between two operands, also those that stand around the pattern of a `LIKE`. -/
inductive Connective where
  | operator (op : Operator)
  | concat
  | like
  deriving DecidableEq, Repr

/-- An operator before its operand. -/
inductive Sign where
  | not
  | minus
  deriving DecidableEq, Repr

/-- An expression of SQL as the operators it consists of, without any parentheses. -/
inductive OperatorTree where
  | leaf (lexeme : Lexeme)
  | signed (sign : Sign) (operand : OperatorTree)
  | joined (op : Connective) (left right : OperatorTree)
  | nullTest (negated : Bool) (operand : OperatorTree)
  | member (operand : OperatorTree) (items : List OperatorTree)
  | anyOf (operand array : OperatorTree)
  | array (items : List OperatorTree)
  | call (function : String) (distinct : Bool) (args : List OperatorTree)
  | cast (args : List OperatorTree) (type : List String)
  deriving Repr

/-- The lexeme of an operator that is written as a symbol. -/
def Operator.lexeme (op : Operator) : Lexeme :=
  match op with
  | .or | .and => .word op.symbol
  | _ => .mark op.symbol

namespace Connective

/-- The layer of an operator between two operands. -/
def layer : Connective → Nat
  | .operator .or => 0
  | .operator .and => 1
  | .operator .equal | .operator .notEqual | .operator .less | .operator .greater
  | .operator .lessEqual | .operator .greaterEqual | .operator .regexMatch | .like => 3
  | .concat => 4
  | .operator .plus | .operator .minus => 5
  | .operator .times | .operator .divide | .operator .modulo => 6

theorem layer_le (op : Connective) : op.layer ≤ 8 := by
  rcases op with op | _ | _
  · cases op <;> decide
  · decide
  · decide

/-- The lexeme of an operator between two operands. -/
def lexeme : Connective → Lexeme
  | .operator op => op.lexeme
  | .concat => .mark "||"
  | .like => .word "LIKE"

/-- The layer that the left operand needs: its own operator may be the same, except for comparisons.
-/
def leftLayer (op : Connective) : Nat :=
  if op.layer = 3 then 4 else op.layer

/-- The layer that the right operand needs. -/
def rightLayer (op : Connective) : Nat :=
  op.layer + 1

end Connective

namespace Sign

/-- The layer of an operator before its operand. -/
def layer : Sign → Nat
  | .not => 2
  | .minus => 7

theorem layer_le (sign : Sign) : sign.layer ≤ 8 := by
  cases sign <;> decide

/-- The lexeme of an operator before its operand. -/
def lexeme : Sign → Lexeme
  | .not => .word "NOT"
  | .minus => .mark "-"

/-- The layer that the operand needs: `NOT` can be repeated, a minus sign cannot. -/
def operandLayer : Sign → Nat
  | .not => 2
  | .minus => 8

end Sign

/-- The layer of the outermost operator. -/
def OperatorTree.layer : OperatorTree → Nat
  | .signed sign _ => sign.layer
  | .joined op _ _ => op.layer
  | .nullTest _ _ | .member _ _ | .anyOf _ _ => 3
  | .leaf _ | .array _ | .call _ _ _ | .cast _ _ => 8

/-- The words that are values by themselves. -/
def constantWords : List String :=
  ["TRUE", "FALSE", "NULL", "inf"]

/-- The words that are no names of functions. -/
def reservedWords : List String :=
  ["OR", "AND", "NOT", "LIKE", "IN", "IS", "ANY", "AS", "DISTINCT", "CAST"]

/-- The lexeme is an operand by itself. -/
def Lexeme.isLeaf : Lexeme → Bool
  | .text _ | .number _ | .parameter _ | .column _ _ => true
  | .word letters => letters ∈ constantWords
  | .mark sign => sign = "*"

/-- The lexemes with commas between them. -/
def commaLexemes (parts : List (List Lexeme)) : List Lexeme :=
  List.intercalate [.mark ","] parts

/-- The lexemes of a name in front of others in parentheses. -/
def callLexemes (name : String) (args : List Lexeme) : List Lexeme :=
  .word name :: .mark "(" :: (args ++ [.mark ")"])

/-- The lexemes of the keyword that leaves equal rows out, where asked. -/
def distinctLexemes (distinct : Bool) : List Lexeme :=
  if distinct then [.word "DISTINCT"] else []

/-- A tree that lexemes are read as where an operand of a layer is asked for. The items of a list
are pairs of their lexemes and their tree.
-/
inductive Derives : Nat → List Lexeme → OperatorTree → Prop
  | looser {layer tighter lexemes tree} (tight : layer ≤ tighter)
    (inner : Derives tighter lexemes tree)
    : Derives layer lexemes tree
  | leaf {lexeme} (isLeaf : lexeme.isLeaf) : Derives 8 [lexeme] (.leaf lexeme)
  | enclosed {lexemes tree} (inner : Derives 0 lexemes tree)
    : Derives 8 (.mark "(" :: (lexemes ++ [.mark ")"])) tree
  | array {items : List (List Lexeme × OperatorTree)}
    (inner : ∀ item ∈ items, Derives 0 item.1 item.2)
    : Derives 8 (.word "ARRAY" :: .mark "[" :: (commaLexemes (items.map Prod.fst) ++ [.mark "]"]))
        (.array (items.map Prod.snd))
  | call {function : String} {distinct : Bool} {args : List (List Lexeme × OperatorTree)}
    (free : function ∉ reservedWords) (inner : ∀ arg ∈ args, Derives 0 arg.1 arg.2)
    : Derives 8
        (callLexemes function (distinctLexemes distinct ++ commaLexemes (args.map Prod.fst)))
        (.call function distinct (args.map Prod.snd))
  | cast {args : List (List Lexeme × OperatorTree)} (type : List String)
    (inner : ∀ arg ∈ args, Derives 0 arg.1 arg.2)
    : Derives 8
      (callLexemes "CAST" (commaLexemes (args.map Prod.fst) ++ .word "AS" :: type.map .word))
        (.cast (args.map Prod.snd) type)
  | signed {lexemes tree} (sign : Sign) (inner : Derives sign.operandLayer lexemes tree)
    : Derives sign.layer (sign.lexeme :: lexemes) (.signed sign tree)
  | joined {first second left right} (op : Connective) (onLeft : Derives op.leftLayer first left)
    (onRight : Derives op.rightLayer second right)
    : Derives op.layer (first ++ op.lexeme :: second) (.joined op left right)
  | isNull {lexemes tree} (inner : Derives 4 lexemes tree)
    : Derives 3 (lexemes ++ [.word "IS", .word "NULL"]) (.nullTest false tree)
  | isNotNull {lexemes tree} (inner : Derives 4 lexemes tree)
    : Derives 3 (lexemes ++ [.word "IS", .word "NOT", .word "NULL"]) (.nullTest true tree)
  | member {lexemes tree} {items : List (List Lexeme × OperatorTree)}
    (operand : Derives 4 lexemes tree)
    (inner : ∀ item ∈ items, Derives 0 item.1 item.2)
    : Derives 3 (lexemes ++ callLexemes "IN" (commaLexemes (items.map Prod.fst)))
        (.member tree (items.map Prod.snd))
  | anyOf {first second left right} (operand : Derives 4 first left)
    (inner : Derives 0 second right)
    : Derives 3 (first ++ .mark "=" :: callLexemes "ANY" second) (.anyOf left right)

/-- How many brackets are opened. -/
def opened (lexemes : List Lexeme) : Nat :=
  lexemes.countP fun lexeme => lexeme = .mark "(" ∨ lexeme = .mark "["

namespace OperatorTree

/-- The parentheses that a tree needs around it where an operand of a layer is asked for. -/
def enclosing (layer : Nat) (tree : OperatorTree) : Nat :=
  if tree.layer < layer then 1 else 0

mutual

/-- The brackets that a tree needs inside. -/
def inside : OperatorTree → Nat
  | .leaf _ => 0
  | .signed sign operand => operand.inside + operand.enclosing sign.operandLayer
  | .joined op left right =>
      left.inside + left.enclosing op.leftLayer + (right.inside + right.enclosing op.rightLayer)
  | .nullTest _ operand => operand.inside + operand.enclosing 4
  | .member operand items => operand.inside + operand.enclosing 4 + 1 + insideAll items
  | .anyOf operand values => operand.inside + operand.enclosing 4 + 1 + values.inside
  | .array items => 1 + insideAll items
  | .call _ _ args => 1 + insideAll args
  | .cast args _ => 1 + insideAll args

/-- The brackets that several trees need inside. -/
def insideAll : List OperatorTree → Nat
  | [] => 0
  | tree :: trees => tree.inside + insideAll trees

end

end OperatorTree

@[simp]
theorem opened_nil : opened [] = 0 :=
  rfl

@[simp]
theorem opened_append (first second : List Lexeme)
    : opened (first ++ second) = opened first + opened second :=
  List.countP_append

theorem opened_cons (lexeme : Lexeme) (lexemes : List Lexeme)
    : opened (lexeme :: lexemes) = opened [lexeme] + opened lexemes :=
  opened_append [lexeme] lexemes

@[simp]
theorem opened_other {lexeme : Lexeme} (noParenthesis : lexeme ≠ .mark "(")
    (noBracket : lexeme ≠ .mark "[") (lexemes : List Lexeme)
    : opened (lexeme :: lexemes) = opened lexemes :=
  List.countP_cons_of_neg (by simp [noParenthesis, noBracket])

@[simp]
theorem opened_word (letters : String) (lexemes : List Lexeme)
    : opened (.word letters :: lexemes) = opened lexemes :=
  List.countP_cons_of_neg (by simp)

theorem opened_words (words : List String) : opened (words.map .word) = 0 := by
  induction words with
  | nil => rfl
  | cons word words ih => rw [List.map_cons, opened_word, ih]

@[simp]
theorem opened_bracket (lexemes : List Lexeme)
    : opened (.mark "(" :: lexemes) = 1 + opened lexemes :=
  opened_cons _ _

@[simp]
theorem opened_call (name : String) (args : List Lexeme)
    : opened (callLexemes name args) = 1 + opened args := by
  rw [callLexemes, opened_word, opened_bracket, opened_append]
  rfl

@[simp]
theorem opened_connective (op : Connective) (lexemes : List Lexeme)
    : opened (op.lexeme :: lexemes) = opened lexemes := by
  have none : opened [op.lexeme] = 0 := by
    rcases op with op | _ | _
    · cases op <;> decide
    · decide
    · decide
  rw [opened_cons, none, Nat.zero_add]

@[simp]
theorem opened_sign (sign : Sign) (lexemes : List Lexeme)
    : opened (sign.lexeme :: lexemes) = opened lexemes := by
  have none : opened [sign.lexeme] = 0 := by cases sign <;> decide
  rw [opened_cons, none, Nat.zero_add]

@[simp]
theorem opened_distinct (distinct : Bool) : opened (distinctLexemes distinct) = 0 := by
  cases distinct <;> rfl

theorem commaLexemes_cons_cons (first second : List Lexeme) (rest : List (List Lexeme))
    : commaLexemes (first :: second :: rest)
      = first ++ .mark "," :: commaLexemes (second :: rest) := by
  simp [commaLexemes, List.intercalate]

@[simp]
theorem opened_commas (parts : List (List Lexeme))
    : opened (commaLexemes parts) = opened parts.flatten := by
  induction parts with
  | nil => rfl
  | cons first rest ih =>
      cases rest with
      | nil => simp [commaLexemes, List.intercalate]
      | cons second rest =>
          have comma : opened [.mark ","] = 0 := rfl
          rw [commaLexemes_cons_cons, opened_append, opened_cons, comma, ih, Nat.zero_add,
            ← opened_append]
          rfl

namespace OperatorTree

theorem enclosing_mono {tree : OperatorTree} {layer tighter : Nat} (tight : layer ≤ tighter)
    : tree.enclosing layer ≤ tree.enclosing tighter := by
  unfold enclosing
  split <;> split <;> omega

theorem enclosing_eq_zero {tree : OperatorTree} {layer : Nat} (binds : layer ≤ tree.layer)
    : tree.enclosing layer = 0 :=
  if_neg (Nat.not_lt_of_le binds)

theorem layer_le (tree : OperatorTree) : tree.layer ≤ 8 := by
  cases tree
  case signed sign operand => exact sign.layer_le
  case joined op left right => exact op.layer_le
  all_goals exact Nat.le_of_ble_eq_true rfl

/-- A tree needs no parentheses where an operand of its own layer is asked for. -/
theorem le_of_inside_le {tree : OperatorTree} {layer count : Nat} (own : tree.layer = layer)
    (fits : tree.inside ≤ count)
    : tree.inside + tree.enclosing layer ≤ count := by
  rwa [enclosing_eq_zero (Nat.le_of_eq own.symm)]

theorem enclosing_le_one (tree : OperatorTree) (layer : Nat) : tree.enclosing layer ≤ 1 := by
  unfold enclosing
  split <;> omega

end OperatorTree

/-- The trees of items need the brackets that the items open, if each needs those that it opens. -/
theorem insideAll_le {items : List (List Lexeme × OperatorTree)}
    (each : ∀ item ∈ items, item.2.inside + item.2.enclosing 0 ≤ opened item.1)
    : OperatorTree.insideAll (items.map Prod.snd) ≤ opened (commaLexemes (items.map Prod.fst)) := by
  rw [opened_commas]
  induction items with
  | nil => exact Nat.le_refl 0
  | cons item items ih =>
      have first := each item List.mem_cons_self
      have rest := ih fun other member => each other (List.mem_cons_of_mem _ member)
      simp only [List.map_cons, List.flatten_cons, opened_append, OperatorTree.insideAll]
      omega

/-- Lexemes that are read as a tree open the brackets that it needs, by the rules. -/
theorem Derives.inside_le {layer : Nat} {lexemes : List Lexeme} {tree : OperatorTree}
    (derives : Derives layer lexemes tree)
    : tree.inside + tree.enclosing layer ≤ opened lexemes := by
  induction derives with
  | looser tight inner ih =>
      exact Nat.le_trans (Nat.add_le_add_left (OperatorTree.enclosing_mono tight) _) ih
  | leaf isLeaf => exact Nat.zero_le _
  | @enclosed lexemes tree inner ih =>
      -- The written bracket is one more, and no tree needs more than one around it.
      have one := tree.enclosing_le_one 8
      rw [opened_bracket, opened_append]
      omega
  | array inner ih =>
      have items := insideAll_le ih
      have bracket : opened [.mark "["] = 1 := rfl
      refine OperatorTree.le_of_inside_le rfl ?_
      rw [OperatorTree.inside, opened_word, opened_cons, bracket, opened_append]
      omega
  | call free inner ih =>
      have args := insideAll_le ih
      refine OperatorTree.le_of_inside_le rfl ?_
      rw [OperatorTree.inside, opened_call, opened_append, opened_distinct]
      omega
  | cast type inner ih =>
      have args := insideAll_le ih
      refine OperatorTree.le_of_inside_le rfl ?_
      rw [OperatorTree.inside, opened_call, opened_append, opened_word, opened_words]
      omega
  | signed sign inner ih =>
      refine OperatorTree.le_of_inside_le rfl ?_
      rw [OperatorTree.inside, opened_sign]
      exact ih
  | joined op onLeft onRight ihLeft ihRight =>
      refine OperatorTree.le_of_inside_le rfl ?_
      rw [OperatorTree.inside, opened_append, opened_connective]
      omega
  | isNull inner ih =>
      refine OperatorTree.le_of_inside_le rfl ?_
      rw [OperatorTree.inside, opened_append]
      omega
  | isNotNull inner ih =>
      refine OperatorTree.le_of_inside_le rfl ?_
      rw [OperatorTree.inside, opened_append]
      omega
  | member operand inner ihOperand ih =>
      have items := insideAll_le ih
      refine OperatorTree.le_of_inside_le rfl ?_
      rw [OperatorTree.inside, opened_append, opened_call]
      omega
  | anyOf operand inner ihOperand ih =>
      have equals : opened [.mark "="] = 0 := rfl
      refine OperatorTree.le_of_inside_le rfl ?_
      rw [OperatorTree.inside, opened_append, opened_cons, equals, opened_call]
      omega

end CypherSql.Sql
