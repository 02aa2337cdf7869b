import CypherSql.Data.NameMap
import CypherSql.Function
import CypherSql.Literal
import CypherSql.Operator

/-!
Expressions whose variables are resolved: every reference is the id of a variable, so that no later
step looks a name up again.
-/

namespace CypherSql.Plan

/-- The id of a variable: a name that no other variable of the query has. -/
abbrev VarId := String

/-- A resolved expression. A column stands for a physical column of the table of a variable. -/
inductive Expr where
  | literal (value : Literal)
  | star
  | parameter (name : String)
  | var (id : VarId)
  | column (id : VarId) (name : String)
  | property (base : Expr) (key : String)
  | unary (op : UnaryOp) (operand : Expr)
  | binary (op : BinaryOp) (left right : Expr)
  | list (items : List Expr)
  | map (entries : List (String × Expr))
  | aggregate (function : Aggregate) (distinct : Bool) (args : List Expr)
  | call (name : String) (args : List Expr)
  deriving Repr

instance : Inhabited Expr := ⟨.star⟩

namespace Expr

mutual

/-- Both expressions are built alike. -/
def same : Expr → Expr → Bool
  | .literal a, .literal b => a = b
  | .star, .star => true
  | .parameter a, .parameter b => a = b
  | .var a, .var b => a = b
  | .column a m, .column b n => a = b && m = n
  | .property a k, .property b l => a.same b && k = l
  | .unary o a, .unary p b => o = p && a.same b
  | .binary o a c, .binary p b d => o = p && a.same b && c.same d
  | .list a, .list b => sameAll a b
  | .map a, .map b => sameEntries a b
  | .aggregate f d a, .aggregate g e b => f = g && d = e && sameAll a b
  | .call m a, .call n b => m = n && sameAll a b
  | _, _ => false

/-- Both lists hold expressions that are built alike. -/
def sameAll : List Expr → List Expr → Bool
  | [], [] => true
  | a :: as, b :: bs => a.same b && sameAll as bs
  | _, _ => false

/-- Both lists hold the same keys with expressions that are built alike. -/
def sameEntries : List (String × Expr) → List (String × Expr) → Bool
  | [], [] => true
  | (k, a) :: as, (l, b) :: bs => k = l && a.same b && sameEntries as bs
  | _, _ => false

end

mutual

/-- Expressions are built alike exactly when they are equal. -/
theorem same_iff : ∀ (a b : Expr), a.same b = true ↔ a = b
  | .literal _, b => by cases b <;> simp [same]
  | .star, b => by cases b <;> simp [same]
  | .parameter _, b => by cases b <;> simp [same]
  | .var _, b => by cases b <;> simp [same]
  | .column _ _, b => by cases b <;> simp [same]
  | .property a _, b => by cases b <;> simp [same, same_iff a]
  | .unary _ a, b => by cases b <;> simp [same, same_iff a]
  | .binary _ a c, b => by cases b <;> simp [same, same_iff a, same_iff c, and_assoc]
  | .list a, b => by cases b <;> simp [same, sameAll_iff a]
  | .map a, b => by cases b <;> simp [same, sameEntries_iff a]
  | .aggregate _ _ a, b => by cases b <;> simp [same, sameAll_iff a, and_assoc]
  | .call _ a, b => by cases b <;> simp [same, sameAll_iff a]

/-- The same for lists of expressions. -/
theorem sameAll_iff : ∀ (a b : List Expr), sameAll a b = true ↔ a = b
  | [], b => by cases b <;> simp [sameAll]
  | a :: as, b => by cases b <;> simp [sameAll, same_iff a, sameAll_iff as]

/-- The same for lists of entries. -/
theorem sameEntries_iff : ∀ (a b : List (String × Expr)), sameEntries a b = true ↔ a = b
  | [], b => by cases b <;> simp [sameEntries]
  | (_, a) :: as, b => by
      cases b <;> simp [sameEntries, same_iff a, sameEntries_iff as, Prod.ext_iff]

end

instance : DecidableEq Expr :=
  fun a b => decidable_of_iff _ (same_iff a b)

mutual

/-- The expressions inside an expression with itself in front, before those inside its parts. -/
def parts : Expr → List Expr
  | .literal value => [.literal value]
  | .star => [.star]
  | .parameter name => [.parameter name]
  | .var id => [.var id]
  | .column id name => [.column id name]
  | .property base key => .property base key :: base.parts
  | .unary op operand => .unary op operand :: operand.parts
  | .binary op left right => .binary op left right :: (left.parts ++ right.parts)
  | .list items => .list items :: partsAll items
  | .map entries => .map entries :: partsEntries entries
  | .aggregate function distinct args => .aggregate function distinct args :: partsAll args
  | .call name args => .call name args :: partsAll args

/-- The parts of several expressions. -/
def partsAll : List Expr → List Expr
  | [] => []
  | e :: es => e.parts ++ partsAll es

/-- The parts of the values of several entries. -/
def partsEntries : List (String × Expr) → List Expr
  | [] => []
  | (_, e) :: es => e.parts ++ partsEntries es

end

/-- The variable that an expression refers to by itself, if it does. -/
def reference? : Expr → Option VarId
  | .var id => some id
  | .column id _ => some id
  | _ => none

/-- The variables that the expression refers to. -/
def references (expr : Expr) : NameSet :=
  .ofList (expr.parts.filterMap reference?)

/-- The expression is a call of an aggregate function. -/
def isAggregate : Expr → Bool
  | .aggregate _ _ _ => true
  | _ => false

/-- Some part of the expression is a call of an aggregate function. -/
def hasAggregate (expr : Expr) : Bool :=
  expr.parts.any isAggregate

mutual

/-- The expression is a literal, or a list or map of constants. -/
def isConstant : Expr → Bool
  | .literal _ => true
  | .list items => allConstant items
  | .map entries => allConstantEntries entries
  | _ => false

/-- All expressions are constants. -/
def allConstant : List Expr → Bool
  | [] => true
  | e :: es => e.isConstant && allConstant es

/-- The values of all entries are constants. -/
def allConstantEntries : List (String × Expr) → Bool
  | [] => true
  | (_, e) :: es => e.isConstant && allConstantEntries es

end

/-- The conditions that the expression joins by `AND`. -/
def conjuncts : Expr → List Expr
  | .binary .and left right => left.conjuncts ++ right.conjuncts
  | expr => [expr]

/-- The conditions joined by `AND` from the left, if there are any. -/
def conjoin : List Expr → Option Expr
  | [] => none
  | e :: es => some (es.foldl (.binary .and) e)

/-- The equation of two expressions. -/
def equals (left right : Expr) : Expr :=
  .binary .equal left right

mutual

/-- The expression with every part replaced, inner parts before outer ones. -/
def mapPartsM {m : Type → Type} [Monad m] (f : Expr → m Expr) : Expr → m Expr
  | .property base key => do f (.property (← base.mapPartsM f) key)
  | .unary op operand => do f (.unary op (← operand.mapPartsM f))
  | .binary op left right => do
      let left ← left.mapPartsM f
      let right ← right.mapPartsM f
      f (.binary op left right)
  | .list items => do f (.list (← mapAllPartsM f items))
  | .map entries => do f (.map (← mapEntryPartsM f entries))
  | .aggregate function distinct args => do
      f (.aggregate function distinct (← mapAllPartsM f args))
  | .call name args => do f (.call name (← mapAllPartsM f args))
  | .literal value => f (.literal value)
  | .star => f .star
  | .parameter name => f (.parameter name)
  | .var id => f (.var id)
  | .column id name => f (.column id name)

/-- Several expressions with every part replaced. -/
def mapAllPartsM {m : Type → Type} [Monad m] (f : Expr → m Expr) : List Expr → m (List Expr)
  | [] => pure []
  | e :: es => do
      let e ← e.mapPartsM f
      let es ← mapAllPartsM f es
      pure (e :: es)

/-- Several entries with every part of their values replaced. -/
def mapEntryPartsM {m : Type → Type} [Monad m] (f : Expr → m Expr)
    : List (String × Expr) → m (List (String × Expr))
  | [] => pure []
  | (key, e) :: es => do
      let e ← e.mapPartsM f
      let es ← mapEntryPartsM f es
      pure ((key, e) :: es)

end

/-- The expression with every part replaced, inner parts before outer ones. -/
def mapParts (f : Expr → Expr) (expr : Expr) : Expr :=
  Id.run (expr.mapPartsM fun part => pure (f part))

/-- The expressions are equal as values: both zeros of a real literal are one value. -/
def equalValue (left right : Expr) : Bool :=
  let forget : Expr → Expr := fun
    | .literal value => .literal value.unsignedZero
    | part => part
  left.mapParts forget = right.mapParts forget

end Expr

/-- A literal as it is shown in messages, without any escapes. -/
def literalText : Literal → String
  | .integer value => toString value
  | .real value => value.text
  | .boolean value => if value then "true" else "false"
  | .text value => "'" ++ value ++ "'"
  | .null => "null"

namespace Expr

mutual

/-- The expression as it is shown in messages. -/
def text : Expr → String
  | .literal value => literalText value
  | .star => "*"
  | .parameter name => "$" ++ name
  | .var id => id
  | .column id name => id ++ "#" ++ name
  | .property base key => base.text ++ "." ++ key
  | .unary op operand => op.name ++ "(" ++ operand.text ++ ")"
  | .binary op left right => op.name ++ "(" ++ left.text ++ ", " ++ right.text ++ ")"
  | .list items => "[" ++ String.intercalate ", " (texts items) ++ "]"
  | .map entries => "\x7b" ++ String.intercalate ", " (entryTexts entries) ++ "\x7d"
  | .aggregate function distinct args =>
      function.name ++ "(" ++ (if distinct then "DISTINCT " else "") ++
        String.intercalate ", " (texts args) ++ ")"
  | .call name args => name ++ "(" ++ String.intercalate ", " (texts args) ++ ")"

/-- Several expressions as they are shown in messages. -/
def texts : List Expr → List String
  | [] => []
  | e :: es => e.text :: texts es

/-- Several entries as they are shown in messages. -/
def entryTexts : List (String × Expr) → List String
  | [] => []
  | (key, e) :: es => (key ++ ": " ++ e.text) :: entryTexts es

end

end Expr

end CypherSql.Plan
