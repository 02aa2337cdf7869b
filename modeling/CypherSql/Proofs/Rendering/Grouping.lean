import CypherSql.Proofs.Rendering.Comments
import CypherSql.Proofs.Rendering.Reader

/-! The operators of an expression and what its text is read as. The text is read as the operators
of the expression exactly if each operand that stands without parentheses binds as tight as its
place asks.
-/

namespace CypherSql.Sql

/-- A literal by itself. A number with a minus sign is that sign before its magnitude. -/
def literalTree (value : Literal) : OperatorTree :=
  if value.isNegative then .signed .minus (.leaf (valueLexeme value.opposite))
  else .leaf (valueLexeme value)

/-- A function of single values applied to arguments: a call, or a cast to a type. -/
def functionTree (function : ScalarFunction) (args : List OperatorTree) : OperatorTree :=
  if function.isCast then .cast args (nameWords function.sqlName)
  else .call function.sqlName false args

namespace LikePlace

/-- The text that stands for any characters in a pattern. -/
def wildcard : OperatorTree :=
  .leaf (.text "%")

/-- The pattern that looks for a text at a place. -/
def tree (sought : OperatorTree) : LikePlace → OperatorTree
  | .start => .joined .concat sought wildcard
  | .finish => .joined .concat wildcard sought
  | .anywhere => .joined .concat (.joined .concat wildcard sought) wildcard

/-- The layer that the text needs inside the pattern. -/
def soughtLayer : LikePlace → Nat
  | .start => Connective.leftLayer .concat
  | .finish | .anywhere => Connective.rightLayer .concat

end LikePlace

namespace Expr

mutual

/-- The operators of an expression, node by node. A definition that is put in place of a name has
its own operators there.
-/
def tree : Expr → OperatorTree
  | .literal value => literalTree value
  | .star => .leaf (.mark "*")
  | .parameter name => .leaf (.parameter name)
  | .column source name => .leaf (.column source name)
  | .label name => .leaf (.word name)
  | .inlined definition => definition.tree
  | .not operand => .signed .not operand.tree
  | .negate operand => .signed .minus operand.tree
  | .isNull operand => .nullTest false operand.tree
  | .isNotNull operand => .nullTest true operand.tree
  | .binary op left right => .joined (.operator op) left.tree right.tree
  | .power base exponent => .call "POWER" false [base.tree, exponent.tree]
  | .inList operand items => .member operand.tree (trees items)
  | .inArray operand values => .anyOf operand.tree values.tree
  | .like place operand sought => .joined .like operand.tree (place.tree sought.tree)
  | .array items => .array (trees items)
  | .aggregate function distinct args => .call function.sqlName distinct (trees args)
  | .call function args => functionTree function (trees args)

/-- The operators of several expressions. -/
def trees : List Expr → List OperatorTree
  | [] => []
  | e :: es => e.tree :: trees es

end

/-- An operand stands where parentheses are written around some operands, and where one without them
needs a layer: it has them, or it binds that tight.
-/
def Stands (operand : Expr) (outer : Nat) (inclusive : Bool) (layer : Nat) : Prop :=
  operand.needsParens outer inclusive ∨ layer ≤ operand.tree.layer

/-- Each operand of the outermost operator stands as its place asks. -/
def OperandsStand : Expr → Prop
  | .not operand => operand.Stands notLevel false Sign.not.operandLayer
  | .negate operand => operand.Stands negateLevel true Sign.minus.operandLayer
  | .isNull operand | .isNotNull operand | .inList operand _ | .inArray operand _ =>
      operand.Stands comparisonLevel true 4
  | .binary op left right =>
      left.Stands op.level (op.level = comparisonLevel) (Connective.operator op).leftLayer
        ∧ right.Stands op.level true (Connective.operator op).rightLayer
  | .like place operand sought =>
      operand.Stands comparisonLevel true 4
        ∧ sought.Stands comparisonLevel true place.soughtLayer
  | _ => True

/-- Each operand in an expression stands as its place asks. -/
def Grouped (expr : Expr) : Prop :=
  expr.Everywhere OperandsStand

end Expr

/-- The layer of the operators of a level. -/
def layerOf : Nat → Nat
  | 1 => 0
  | 3 => 1
  | 4 => 2
  | 5 => 3
  | 6 => 5
  | 7 => 6
  | _ => 7

/-- The levels of operators. -/
def operatorLevels : List Nat :=
  [1, 3, 4, 5, 6, 7, 8]

/-- An operator has its level and the layer that belongs to it; what has none has the closed level.
-/
theorem Expr.level_cases (expr : Expr)
    : (expr.level ∈ operatorLevels ∧ expr.tree.layer = layerOf expr.level)
      ∨ expr.level = closedLevel := by
  cases expr
  case not => exact .inl ⟨show notLevel ∈ operatorLevels by decide, rfl⟩
  case negate => exact .inl ⟨show negateLevel ∈ operatorLevels by decide, rfl⟩
  case binary op left right =>
    have known : op.level ∈ operatorLevels ∧ (Connective.operator op).layer = layerOf op.level := by
      cases op <;> decide
    exact .inl known
  case isNull | isNotNull | inList | inArray | like =>
    exact .inl ⟨show comparisonLevel ∈ operatorLevels by decide, rfl⟩
  all_goals exact .inr rfl

/-- Parentheses are written around exactly the operators that are too loose for a layer. -/
def Aligned (outer : Nat) (inclusive : Bool) (layer : Nat) : Prop :=
  outer < closedLevel
  ∧ ∀ level ∈ operatorLevels,
      (level < outer || (inclusive && level = outer)) = true ↔ layerOf level < layer

instance (outer : Nat) (inclusive : Bool) (layer : Nat)
    : Decidable (Aligned outer inclusive layer) :=
  inferInstanceAs (Decidable (_ ∧ _))

theorem aligned_left (op : Operator)
    : Aligned op.level (op.level = comparisonLevel) (Connective.operator op).leftLayer := by
  cases op <;> decide

theorem aligned_right (op : Operator)
    : Aligned op.level true (Connective.operator op).rightLayer := by
  cases op <;> decide

theorem aligned_not : Aligned notLevel false Sign.not.operandLayer := by
  decide

theorem aligned_negate : Aligned negateLevel true Sign.minus.operandLayer := by
  decide

theorem aligned_comparison : Aligned comparisonLevel true 4 := by
  decide

theorem aligned_sought (place : LikePlace) : Aligned comparisonLevel true place.soughtLayer := by
  cases place <;> decide

section

variable {operand : Expr} {outer layer : Nat} {inclusive : Bool}

/-- Parentheses stand only around what is too loose without them. -/
theorem Aligned.layer_lt (aligned : Aligned outer inclusive layer)
    (parens : operand.needsParens outer inclusive)
    : operand.tree.layer < layer := by
  rcases operand.level_cases with ⟨listed, same⟩ | closed
  · rw [same]
    exact (aligned.2 _ listed).mp parens
  · have below := aligned.1
    simp only [Expr.needsParens, closed, Bool.or_eq_true, Bool.and_eq_true, decide_eq_true_eq]
      at parens
    omega

/-- An operator that is too loose is in parentheses. -/
theorem Aligned.stands (aligned : Aligned outer inclusive layer)
    (isOpen : operand.level ≠ closedLevel)
    : operand.Stands outer inclusive layer := by
  obtain ⟨listed, same⟩ := operand.level_cases.resolve_right isOpen
  rcases Nat.lt_or_ge (layerOf operand.level) layer with loose | tight
  · exact .inl ((aligned.2 _ listed).mpr loose)
  · exact .inr (same ▸ tight)

end

/-- An operand that stands as its place asks is derived there. -/
theorem Expr.Stands.derives {operand : Expr} {outer layer : Nat} {inclusive : Bool}
    (stands : operand.Stands outer inclusive layer) (within : layer ≤ 8)
    (derives : Derives operand.tree.layer operand.lexemes operand.tree)
    : Derives layer (enclosedLexemes (operand.needsParens outer inclusive) operand.lexemes)
        operand.tree := by
  unfold enclosedLexemes
  split
  · exact .looser within (.enclosed (.looser (Nat.zero_le _) derives))
  · rename_i noParens
    exact .looser (stands.resolve_left noParens) derives

theorem derives_value (value : Literal)
    : Derives 8 [valueLexeme value] (.leaf (valueLexeme value)) := by
  refine .leaf ?_
  cases value with
  | real value => cases value <;> rfl
  | boolean value => cases value <;> rfl
  | integer _ | text _ | null => rfl

theorem derives_literal (value : Literal)
    : Derives (literalTree value).layer (literalLexemes value) (literalTree value) := by
  unfold literalTree literalLexemes
  split
  · exact .signed .minus (derives_value value.opposite)
  · exact derives_value value

theorem LikePlace.derives {lexemes : List Lexeme} {tree : OperatorTree} (place : LikePlace)
    (inner : Derives place.soughtLayer lexemes tree)
    : Derives 4 (place.lexemes lexemes) (place.tree tree) := by
  have percent (layer : Nat) (within : layer ≤ 8) : Derives layer [.text "%"] LikePlace.wildcard :=
    .looser within (.leaf rfl)
  cases place with
  | start => exact .joined .concat inner (percent 5 (by decide))
  | finish => exact .joined .concat (percent 4 (by decide)) inner
  | anywhere =>
      have first := Derives.joined .concat (percent 4 (by decide)) inner
      have whole := Derives.joined .concat first (percent 5 (by decide))
      have same : LikePlace.anywhere.lexemes lexemes
          = [.text "%"] ++ Connective.concat.lexeme :: lexemes
            ++ Connective.concat.lexeme :: [.text "%"] := by
        simp [LikePlace.lexemes, Connective.lexeme]
      exact same ▸ whole

namespace Expr

/-- The lexemes and the tree of each of several expressions. -/
def items (exprs : List Expr) : List (List Lexeme × OperatorTree) :=
  exprs.map fun e => (e.lexemes, e.tree)

theorem lexemesAll_eq (exprs : List Expr) : lexemesAll exprs = (items exprs).map Prod.fst := by
  induction exprs with
  | nil => rfl
  | cons e es ih => rw [lexemesAll, ih]; rfl

theorem trees_eq (exprs : List Expr) : trees exprs = (items exprs).map Prod.snd := by
  induction exprs with
  | nil => rfl
  | cons e es ih => rw [trees, ih]; rfl

theorem free_aggregate (function : Aggregate) : function.sqlName ∉ reservedWords := by
  cases function <;> decide

theorem free_function {name : String} {function : ScalarFunction}
    (known : (name, function) ∈ scalarFunctions)
    : function.sqlName ∉ reservedWords := by
  have all : ∀ entry ∈ scalarFunctions, entry.2.sqlName ∉ reservedWords := by decide
  exact all _ known

mutual

/-- The lexemes of an expression whose operands stand as their places ask are derived as its
operators, by its structure.
-/
theorem derives
    : ∀ expr : Expr, expr.OfScope → expr.Grouped → Derives expr.tree.layer expr.lexemes expr.tree
  | .literal value, _, _ => derives_literal value
  | .star, _, _ => .leaf rfl
  | .parameter _, _, _ => .leaf rfl
  | .column _ _, _, _ => .leaf rfl
  | .label _, ofScope, _ => ofScope.elim
  | .inlined definition, ofScope, grouped => definition.derives ofScope.2 grouped.2
  | .not operand, ofScope, grouped =>
      .signed .not (grouped.1.derives (by decide) (operand.derives ofScope.2 grouped.2))
  | .negate operand, ofScope, grouped =>
      .signed .minus (grouped.1.derives (by decide) (operand.derives ofScope.2 grouped.2))
  | .isNull operand, ofScope, grouped =>
      .isNull (grouped.1.derives (by decide) (operand.derives ofScope.2 grouped.2))
  | .isNotNull operand, ofScope, grouped =>
      .isNotNull (grouped.1.derives (by decide) (operand.derives ofScope.2 grouped.2))
  | .binary op left right, ofScope, grouped => by
      have within
          : (Connective.operator op).leftLayer ≤ 8 ∧ (Connective.operator op).rightLayer ≤ 8 := by
        cases op <;> decide
      exact .joined (.operator op)
        (grouped.1.1.derives within.1 (left.derives ofScope.2.1 grouped.2.1))
        (grouped.1.2.derives within.2 (right.derives ofScope.2.2 grouped.2.2))
  | .power base exponent, ofScope, grouped => by
      have first : Derives 0 base.lexemes base.tree :=
        .looser (Nat.zero_le _) (base.derives ofScope.2.1 grouped.2.1)
      have second : Derives 0 exponent.lexemes exponent.tree :=
        .looser (Nat.zero_le _) (exponent.derives ofScope.2.2 grouped.2.2)
      have each : ∀ item ∈ items [base, exponent], Derives 0 item.1 item.2 :=
        List.forall_mem_cons.mpr ⟨first, List.forall_mem_singleton.mpr second⟩
      exact @Derives.call "POWER" false _ (by decide) each
  | .inList operand elements, ofScope, grouped => by
      have left := grouped.1.derives (by decide) (operand.derives ofScope.2.1 grouped.2.1)
      rw [lexemes, tree, lexemesAll_eq, trees_eq]
      exact .member left (derivesAll elements ofScope.2.2 grouped.2.2)
  | .inArray operand values, ofScope, grouped =>
      .anyOf (grouped.1.derives (by decide) (operand.derives ofScope.2.1 grouped.2.1))
        (.looser (Nat.zero_le _) (values.derives ofScope.2.2 grouped.2.2))
  | .like place operand sought, ofScope, grouped => by
      have within : place.soughtLayer ≤ 8 := by cases place <;> decide
      exact .joined .like
        (grouped.1.1.derives (by decide) (operand.derives ofScope.2.1 grouped.2.1))
        (place.derives (grouped.1.2.derives within (sought.derives ofScope.2.2 grouped.2.2)))
  | .array elements, ofScope, grouped => by
      rw [lexemes, tree, lexemesAll_eq, trees_eq]
      exact .array (derivesAll elements ofScope.2 grouped.2)
  | .aggregate function distinct args, ofScope, grouped => by
      rw [lexemes, tree, lexemesAll_eq, trees_eq]
      exact .call (free_aggregate function) (derivesAll args ofScope.2 grouped.2)
  | .call function args, ⟨⟨name, known⟩, ofScope⟩, grouped => by
      have each := derivesAll args ofScope grouped.2
      rw [lexemes, tree, lexemesAll_eq, trees_eq, functionTree]
      split
      · exact .cast _ each
      · exact @Derives.call _ false _ (free_function known) each

/-- The same for each of several expressions. -/
theorem derivesAll
    : ∀ exprs : List Expr,
        EverywhereAll IsOfScope exprs
        → EverywhereAll OperandsStand exprs
        → ∀ item ∈ items exprs, Derives 0 item.1 item.2
  | [], _, _ => by
      intro item member
      cases member
  | e :: es, ofScope, grouped => by
      have first : Derives 0 e.lexemes e.tree :=
        .looser (Nat.zero_le _) (e.derives ofScope.1 grouped.1)
      exact List.forall_mem_cons.mpr ⟨first, derivesAll es ofScope.2 grouped.2⟩

end

end Expr

/-- There are no more of something than needed, and under a condition only if there are as many. -/
structure Sparing (opens needs : Nat) (enough : Prop) : Prop where
  le : opens ≤ needs
  of_eq : opens = needs → enough

namespace Sparing

variable {opens needs more others : Nat} {enough also : Prop}

theorem refl (count : Nat) : Sparing count count True :=
  ⟨Nat.le_refl count, fun _ => trivial⟩

theorem add (first : Sparing opens needs enough) (second : Sparing more others also)
    : Sparing (opens + more) (needs + others) (enough ∧ also) where
  le := Nat.add_le_add first.le second.le
  of_eq same := by
    have le := first.le
    have alsoLe := second.le
    exact ⟨first.of_eq (by omega), second.of_eq (by omega)⟩

theorem imp (sparing : Sparing opens needs enough) (implies : enough → also)
    : Sparing opens needs also :=
  ⟨sparing.le, fun same => implies (sparing.of_eq same)⟩

end Sparing

/-- An operand is written in parentheses only where its tree needs them. -/
theorem Aligned.sparing {operand : Expr} {outer layer : Nat} {inclusive : Bool} {grouped : Prop}
    (aligned : Aligned outer inclusive layer)
    (inner : Sparing (opened operand.lexemes) operand.tree.inside grouped)
    : Sparing (opened (enclosedLexemes (operand.needsParens outer inclusive) operand.lexemes))
        (operand.tree.inside + operand.tree.enclosing layer)
        (operand.Stands outer inclusive layer ∧ grouped) := by
  have le := inner.le
  cases parens : operand.needsParens outer inclusive with
  | true =>
      have one : operand.tree.enclosing layer = 1 := if_pos (aligned.layer_lt parens)
      have count : opened (enclosedLexemes true operand.lexemes) = 1 + opened operand.lexemes := by
        rw [enclosedLexemes, if_pos rfl, opened_bracket, opened_append]
        rfl
      rw [one, count]
      exact ⟨by omega, fun same => ⟨.inl parens, inner.of_eq (by omega)⟩⟩
  | false =>
      have count : opened (enclosedLexemes false operand.lexemes) = opened operand.lexemes := rfl
      rw [count]
      refine ⟨by omega,
        fun same => ⟨.inr (Nat.le_of_not_lt fun loose => ?_), inner.of_eq (by omega)⟩⟩
      have one : operand.tree.enclosing layer = 1 := if_pos loose
      omega

theorem opened_value (value : Literal) : opened [valueLexeme value] = 0 := by
  have leaf : valueLexeme value ≠ .mark "(" ∧ valueLexeme value ≠ .mark "[" := by
    cases value with
    | real value => cases value <;> exact ⟨nofun, nofun⟩
    | boolean value => cases value <;> exact ⟨nofun, nofun⟩
    | integer _ | text _ | null => exact ⟨nofun, nofun⟩
  rw [opened_other leaf.1 leaf.2, opened_nil]

theorem opened_literal (value : Literal) : opened (literalLexemes value) = 0 := by
  unfold literalLexemes
  split
  · rw [opened_other (by decide) (by decide), opened_value]
  · exact opened_value value

theorem inside_literal (value : Literal) : (literalTree value).inside = 0 := by
  unfold literalTree
  split <;> rfl

namespace LikePlace

theorem opened_lexemes (place : LikePlace) (sought : List Lexeme)
    : opened (place.lexemes sought) = opened sought := by
  cases place <;> simp [lexemes]

/-- A pattern needs no brackets but those of the text it looks for. -/
theorem inside_tree (place : LikePlace) (sought : OperatorTree)
    : (place.tree sought).inside + (place.tree sought).enclosing 4
      = sought.inside + sought.enclosing place.soughtLayer := by
  have wild (layer : Nat) (within : layer ≤ 8) : wildcard.enclosing layer = 0 :=
    OperatorTree.enclosing_eq_zero within
  have joined (left right : OperatorTree)
      : (OperatorTree.joined .concat left right).enclosing 4 = 0 :=
    OperatorTree.enclosing_eq_zero (Nat.le_refl 4)
  have none : wildcard.inside = 0 := rfl
  have layers : Connective.leftLayer .concat = 4 ∧ Connective.rightLayer .concat = 5 := by decide
  cases place <;>
    simp [tree, soughtLayer, OperatorTree.inside, layers, joined, none, wild]

end LikePlace

namespace Expr

mutual

/-- An expression is written with the brackets that its operators need at most, and with all of them
only if its operands stand as their places ask.
-/
theorem sparing : ∀ expr : Expr, Sparing (opened expr.lexemes) expr.tree.inside expr.Grouped
  | .literal value => by
      rw [lexemes, tree, opened_literal, inside_literal]
      exact .refl 0
  | .star => .refl 0
  | .parameter _ => .refl 0
  | .column _ _ => .refl 0
  | .label _ => .refl 0
  | .inlined definition => definition.sparing.imp fun grouped => ⟨trivial, grouped⟩
  | .not operand => by
      have inner := aligned_not.sparing operand.sparing
      rw [lexemes, tree, OperatorTree.inside, opened_word]
      exact inner
  | .negate operand => by
      have inner := aligned_negate.sparing operand.sparing
      rw [lexemes, tree, OperatorTree.inside, opened_other (by decide) (by decide)]
      exact inner
  | .isNull operand => by
      have inner := aligned_comparison.sparing operand.sparing
      rw [lexemes, tree, OperatorTree.inside, opened_append]
      exact inner
  | .isNotNull operand => by
      have inner := aligned_comparison.sparing operand.sparing
      rw [lexemes, tree, OperatorTree.inside, opened_append]
      exact inner
  | .binary op left right => by
      have both :=
        ((aligned_left op).sparing left.sparing).add ((aligned_right op).sparing right.sparing)
      have symbol := opened_connective (.operator op)
      rw [lexemes, tree, OperatorTree.inside, opened_append,
        show op.lexeme = (Connective.operator op).lexeme from rfl, symbol]
      exact both.imp fun ⟨⟨standsLeft, left⟩, standsRight, right⟩ =>
        ⟨⟨standsLeft, standsRight⟩, left, right⟩
  | .power base exponent => by
      have both := (Sparing.refl 1).add (base.sparing.add exponent.sparing)
      rw [lexemes, tree, OperatorTree.inside, opened_call, opened_commas, List.flatten_cons,
        opened_append, List.flatten_singleton]
      exact both
  | .inList operand elements => by
      have both := (aligned_comparison.sparing operand.sparing).add
        ((Sparing.refl 1).add (sparingAll elements))
      rw [lexemes, tree, OperatorTree.inside, opened_append, opened_call]
      rw [← Nat.add_assoc (_ + OperatorTree.enclosing 4 _)] at both
      exact both.imp fun ⟨⟨stands, inner⟩, _, each⟩ => ⟨stands, inner, each⟩
  | .inArray operand values => by
      have both := (aligned_comparison.sparing operand.sparing).add
        ((Sparing.refl 1).add values.sparing)
      rw [lexemes, tree, OperatorTree.inside, opened_append, opened_other (by decide) (by decide),
        opened_call]
      rw [← Nat.add_assoc (_ + OperatorTree.enclosing 4 _)] at both
      exact both.imp fun ⟨⟨stands, inner⟩, _, inside⟩ => ⟨stands, inner, inside⟩
  | .like place operand sought => by
      have both := (aligned_comparison.sparing operand.sparing).add
        ((aligned_sought place).sparing sought.sparing)
      rw [← place.inside_tree] at both
      rw [lexemes, tree, OperatorTree.inside, opened_append, opened_word, place.opened_lexemes]
      exact both.imp fun ⟨⟨standsLeft, left⟩, standsRight, right⟩ =>
        ⟨⟨standsLeft, standsRight⟩, left, right⟩
  | .array elements => by
      have all := (Sparing.refl 1).add (sparingAll elements)
      rw [lexemes, tree, OperatorTree.inside, opened_word, opened_cons, opened_append]
      exact all
  | .aggregate function distinct args => by
      have all := (Sparing.refl 1).add (sparingAll args)
      rw [lexemes, tree, OperatorTree.inside, opened_call, opened_append,
        opened_distinct, Nat.zero_add]
      exact all
  | .call function args => by
      have all := (Sparing.refl 1).add (sparingAll args)
      rw [lexemes, tree, functionTree]
      split
      · rw [OperatorTree.inside, opened_call, opened_append, opened_word,
          opened_words, Nat.add_zero]
        exact all
      · rw [OperatorTree.inside, opened_call]
        exact all

/-- The same for all of several expressions. -/
theorem sparingAll
    : ∀ exprs : List Expr,
        Sparing (opened (commaLexemes (lexemesAll exprs))) (OperatorTree.insideAll (trees exprs))
          (EverywhereAll OperandsStand exprs)
  | [] => .refl 0
  | e :: es => by
      have both := e.sparing.add (sparingAll es)
      rw [lexemesAll, opened_commas, List.flatten_cons, opened_append, ← opened_commas]
      exact both

end

end Expr

/-- The source is read as a tree: it opens no comment, and the grammar gives the tree to its
lexemes.
-/
def ReadsAs (source : List Char) (tree : OperatorTree) : Prop :=
  ¬OpensComment source ∧ ∃ lexemes, lex source = some lexemes ∧ Derives 0 lexemes tree

/-- A source is read as one tree at most. -/
theorem ReadsAs.unique {source : List Char} {tree other : OperatorTree}
    (reads : ReadsAs source tree)
    (also : ReadsAs source other)
    : tree = other := by
  obtain ⟨-, lexemes, cut, derives⟩ := reads
  obtain ⟨-, others, alsoCut, alsoDerives⟩ := also
  obtain rfl := Option.some.inj (cut.symm.trans alsoCut)
  exact derives.unique alsoDerives

namespace Expr

/-- What stands by itself starts with no minus sign. -/
theorem signed_of_closed : ∀ expr : Expr, expr.tree.layer = 8 → expr.signed = false
  | .literal value, closed => by
      cases sign : value.isNegative with
      | true =>
          rw [tree, literalTree, sign] at closed
          cases closed
      | false => simp [signed, sign]
  | .inlined definition, closed => definition.signed_of_closed closed
  | .binary op left right, closed => by
      cases op <;> cases closed
  | .star, _ | .parameter _, _ | .column _ _, _ | .label _, _ | .power _ _, _ | .array _, _
  | .aggregate _ _ _, _ | .call _ _, _ => rfl

/-- Where operands stand as their places ask, signs stand apart. -/
theorem Grouped.signsApart {expr : Expr} (grouped : expr.Grouped) : expr.Everywhere SignApart := by
  refine everywhere_of_both (fun part grouped also => ?_) expr grouped grouped
  clear also
  cases part
  case negate operand =>
    cases operand
    case literal | inlined =>
      rcases grouped.1 with parens | tight
      · cases parens
      · exact signed_of_closed _ (Nat.le_antisymm (OperatorTree.layer_le _) tight)
    all_goals trivial
  all_goals trivial

/-- The text of an expression is read as its operators exactly if its operands stand as their places
ask.
-/
theorem readsAs_text_iff {expr : Expr} (ofScope : expr.OfScope)
    : ReadsAs expr.text.toList expr.tree ↔ expr.Grouped := by
  constructor
  · rintro ⟨-, lexemes, cut, derives⟩
    obtain rfl := Option.some.inj ((lex_text ofScope).symm.trans cut)
    have needs := derives.inside_le
    have sparing := expr.sparing
    exact sparing.of_eq (Nat.le_antisymm sparing.le (Nat.le_of_add_right_le needs))
  · intro grouped
    have apart := (expr.leaves ofScope).opensComment_iff
    refine ⟨fun opens => apart.mp opens (grouped.signsApart), expr.lexemes, lex_text ofScope, ?_⟩
    exact .looser (Nat.zero_le _) (expr.derives ofScope grouped)

end Expr

end CypherSql.Sql
