import CypherSql.Proofs.Rendering.Written
import CypherSql.Proofs.Rendering.Trees

/-! Parentheses of rendered expressions. The text of an expression is read with the operators that
the expression stands for exactly if its operands stand as their places ask, which they do where no
definition is put in place of a name.
-/

namespace CypherSql.Sql

open Plan (VarId)

namespace Expr

/-- The expression is no definition in place of a name, and no minus sign before a number. -/
def IsDirect : Expr → Prop
  | .inlined _ => False
  | .negate (.literal value) => value.negated? = none
  | _ => True

theorem isNegative_of_negated? {value : Literal} (other : value.negated? = none)
    : value.isNegative = false := by
  cases value <;> first | rfl | cases other

/-- What has no operator at its top binds tight, apart from the sign of a number. -/
theorem IsDirect.layer_of_closed {operand : Expr} (direct : operand.IsDirect)
    (closed : operand.level = closedLevel)
    : operand.tree.layer = 8 ∨ ∃ value, operand = .literal value ∧ operand.tree.layer = 7 := by
  cases operand
  case literal value =>
    cases sign : value.isNegative with
    | true =>
        exact .inr ⟨value, rfl, by simp [tree, literalTree, sign, OperatorTree.layer, Sign.layer]⟩
    | false => exact .inl (by simp [tree, literalTree, sign, OperatorTree.layer])
  case inlined => exact direct.elim
  case call function args => exact .inl (by unfold tree functionTree; split <;> rfl)
  case binary op left right => cases op <;> cases closed
  case star | parameter | column | label | power | array | aggregate => exact .inl rfl
  all_goals cases closed

/-- An operand stands as its place asks, unless that is behind a minus sign. -/
theorem IsDirect.stands {operand : Expr} {outer layer : Nat} {inclusive : Bool}
    (aligned : Aligned outer inclusive layer) (loose : layer ≤ 7) (direct : operand.IsDirect)
    : operand.Stands outer inclusive layer := by
  rcases Decidable.em (operand.level = closedLevel) with closed | isOpen
  · rcases direct.layer_of_closed closed with tight | ⟨_, _, sign⟩
    · exact .inr (by omega)
    · exact .inr (by omega)
  · exact aligned.stands isOpen

/-- Where no definition is put in place of a name, operands stand as their places ask. -/
theorem grouped_of_direct {expr : Expr} (direct : expr.Everywhere IsDirect) : expr.Grouped := by
  refine everywhere_of_both (fun part direct also => ?_) expr direct direct
  clear also
  cases part
  case not operand =>
    exact direct.2.here.stands aligned_not (by decide)
  case negate operand =>
    have negative : ¬∃ value, operand = .literal value ∧ operand.tree.layer = 7 := by
      rintro ⟨value, rfl, sign⟩
      have unsigned := isNegative_of_negated? direct.1
      simp [tree, literalTree, unsigned, OperatorTree.layer] at sign
    rcases Decidable.em (operand.level = closedLevel) with closed | isOpen
    · exact .inr (Nat.le_of_eq ((direct.2.here.layer_of_closed closed).resolve_right negative).symm)
    · exact aligned_negate.stands isOpen
  case isNull operand | isNotNull operand =>
    exact direct.2.here.stands aligned_comparison (by decide)
  case inList operand _ | inArray operand _ =>
    exact direct.2.1.here.stands aligned_comparison (by decide)
  case binary op left right =>
    have loose
        : (Connective.operator op).leftLayer ≤ 7 ∧ (Connective.operator op).rightLayer ≤ 7 := by
      cases op <;> decide
    exact ⟨direct.2.1.here.stands (aligned_left op) loose.1,
      direct.2.2.here.stands (aligned_right op) loose.2⟩
  case like place operand sought =>
    have loose : place.soughtLayer ≤ 7 := by cases place <;> decide
    exact ⟨direct.2.1.here.stands aligned_comparison (by decide),
      direct.2.2.here.stands (aligned_sought place) loose⟩
  all_goals trivial

end Expr

namespace Context

variable {context : Context} {expr : Plan.Expr} {sql : Expr}

/-- Every variable of an expression is supplied by an item of the scope. -/
def Supplies (context : Context) (expr : Plan.Expr) : Prop :=
  ∀ id, .var id ∈ expr.parts → (context.select.supplier? id).isSome

/-- No minus sign of an expression stands before a number: the two are a number. -/
def NumbersFolded (expr : Plan.Expr) : Prop :=
  ∀ value, .unary .negation (.literal value) ∈ expr.parts → value.negated? = none

/-- The value of a variable that an item supplies is a column. -/
theorem value_of_supplied {id : VarId} (supplied : (context.select.supplier? id).isSome)
    (found : context.value id = .ok sql)
    : ∃ source name, sql = .column source name := by
  rcases valueWithin_cases found with column | ⟨_, _, _, _, _, missing, _⟩
  · exact suppliedValue_eq_column column
  · rw [missing] at supplied
    cases supplied

theorem keeps_isDirect (context : Context)
    : Keeps Expr.IsDirect
        (fun part =>
          (∀ id, part = .var id → (context.select.supplier? id).isSome)
          ∧ ∀ value, part = .unary .negation (.literal value) → value.negated? = none)
        context.value context.property where
  values id sql allowed written := by
    obtain ⟨source, name, rfl⟩ := value_of_supplied (allowed.1 id rfl) written
    trivial
  properties id key sql written := by
    obtain ⟨source, name, rfl⟩ := property_eq_column written
    trivial
  literal _ := trivial
  star := trivial
  column _ _ := trivial
  parameter _ _ := trivial
  unary op operand sql allowed written := by
    have kept := (plain_valueWithin context _).headKept written
    cases op
    case negation =>
      cases sql
      case literal value => exact allowed.2 value (congrArg (Plan.Expr.unary .negation) kept)
      all_goals trivial
    all_goals trivial
  binary op left right := by
    cases op
    case isIn => cases right <;> trivial
    all_goals trivial
  array _ := trivial
  aggregate _ _ _ := trivial
  call _ _ _ _ := trivial

theorem direct_of_expr (supplies : context.Supplies expr) (folded : NumbersFolded expr)
    (written : context.expr expr = .ok sql)
    : sql.Everywhere Expr.IsDirect := by
  refine (keeps_isDirect context).everywhere expr sql (fun part member => ⟨?_, ?_⟩) written
  · rintro id rfl
    exact supplies id member
  · rintro value rfl
    exact folded value member

/-- An expression is read as what it stands for, and as nothing else, exactly if its operands stand
as their places ask.
-/
theorem readsAs_iff_of_written (ofScope : sql.OfScope) (written : context.expr expr = .ok sql)
    : (∀ tree, ReadsAs sql.text.toList tree ↔ context.Translates expr tree) ↔ sql.Grouped := by
  rw [← Expr.readsAs_text_iff ofScope]
  constructor
  · intro same
    exact (same _).mpr (translates_of_expr written)
  · intro reads tree
    rw [translates_iff written]
    exact ⟨fun also => also.unique reads, fun same => same ▸ reads⟩

/-- The text of an expression is read as the operators that the expression stands for, and as
nothing else, where items of the scope supply its variables and signs of numbers are part of them.
-/
theorem expr_readsAs (named : ParametersNamed expr) (supplies : context.Supplies expr)
    (folded : NumbersFolded expr) (written : context.expr expr = .ok sql)
    : (∃ tree, context.Translates expr tree)
      ∧ ∀ tree, ReadsAs sql.text.toList tree ↔ context.Translates expr tree := by
  refine ⟨⟨sql.tree, translates_of_expr written⟩, ?_⟩
  have ofScope : sql.OfScope := by
    refine ofScope_of_exprWith (fun id value supplied found => ?_) supplies named written
    obtain ⟨source, name, rfl⟩ := value_of_supplied supplied found
    trivial
  exact (readsAs_iff_of_written ofScope written).mpr
    (Expr.grouped_of_direct (direct_of_expr supplies folded written))

/-- The persons of a query that sorts them by twice what it returns, `a.age + 1 AS x`. -/
def sortedAges : Context where
  subqueries := []
  vars :=
    (Plan.VarTable.empty.insert
        { name := "a"
          id := "a"
          scope := 0
          definition :=
            .node
              { labels := .ofList ["Person"]
                restriction := none
                required := (∅ : NameMap Nat).insert "age" 0
                binding :=
                  some
                    { table := "persons", keyColumn := "id", labels := .ofList ["Person"],
                      columns := ∅ } } }).insert
      { name := "x"
        id := "x"
        scope := 0
        definition :=
          .projected (.binary .addition (.property (.var "a") "age") (.literal (.integer 1))) none }
  scope := 0
  select :=
    { fromItems :=
        [{ source := none
           table := some "persons"
           ids := ["a"]
           clause := some 0
           optional := false
           pending := [] }]
      joins := []
      conditions := [] }

/-- Witness: `NOT (a.age = $n XOR true)`, which is written as `NOT (a.age = :n) <> TRUE`. -/
theorem negatedDifference_readsAs
    : ∃ sql,
        sortedAges.expr
            (.unary .not
              (.binary .xor (.binary .equal (.property (.var "a") "age") (.parameter "n"))
                (.literal (.boolean true))))
          = .ok sql
        ∧ sql.text = "NOT (a.age = :n) <> TRUE"
        ∧ ∀ tree,
            ReadsAs sql.text.toList tree
            ↔ sortedAges.Translates
                (.unary .not
                  (.binary .xor (.binary .equal (.property (.var "a") "age") (.parameter "n"))
                    (.literal (.boolean true))))
                tree := by
  have written : sortedAges.expr
      (.unary .not
        (.binary .xor (.binary .equal (.property (.var "a") "age") (.parameter "n"))
          (.literal (.boolean true))))
      = .ok (.not
          (.binary .notEqual (.binary .equal (.column "a" "age") (.parameter "n"))
            (.literal (.boolean true)))) := by
    rfl
  refine ⟨_, written, rfl, (expr_readsAs ?_ ?_ ?_ written).2⟩
  · intro name member
    simp [Plan.Expr.parts] at member
    subst member
    exact ⟨by decide, List.all_eq_true.mp (by decide)⟩
  · intro id member
    simp [Plan.Expr.parts] at member
    subst member
    decide
  · intro value member
    simp [Plan.Expr.parts] at member

/-- The text of an expression is read as the operators that the expression stands for, and as
nothing else, exactly if its operands stand as their places ask: those that are definitions in place
of names among them.
-/
theorem readsAs_iff_grouped (definitions : context.DefinitionsNamed) (named : ParametersNamed expr)
    (written : context.expr expr = .ok sql)
    : (∀ tree, ReadsAs sql.text.toList tree ↔ context.Translates expr tree) ↔ sql.Grouped :=
  readsAs_iff_of_written (ofScope_of_expr definitions named written) written

theorem definitionsNamed_sortedAges : sortedAges.DefinitionsNamed := by
  intro id expr type defined name member
  unfold sortedAges at defined
  simp only [Plan.VarTable.definition?, Plan.VarTable.get?_insert] at defined
  split at defined
  · obtain ⟨rfl, -⟩ := Plan.Definition.projected.inj (Option.some.inj defined)
    simp [Plan.Expr.parts] at member
  · split at defined
    · cases defined
    · cases defined

/-- Witness: `x < 2`, which is written as `a.age + 1 < 2`. -/
theorem smallSum_readsAs_iff_grouped
    : ∃ sql,
        sortedAges.expr (.binary .less (.var "x") (.literal (.integer 2))) = .ok sql
        ∧ sql.text = "a.age + 1 < 2"
        ∧ sql.Grouped
        ∧ ((∀ tree,
              ReadsAs sql.text.toList tree
              ↔ sortedAges.Translates (.binary .less (.var "x") (.literal (.integer 2))) tree)
            ↔ sql.Grouped) := by
  have written : sortedAges.expr (.binary .less (.var "x") (.literal (.integer 2)))
      = .ok (.binary .less
          (.inlined (.binary .plus (.column "a" "age") (.literal (.integer 1))))
          (.literal (.integer 2))) := by
    rfl
  refine ⟨_, written, rfl, ?_, readsAs_iff_grouped definitionsNamed_sortedAges ?_ written⟩
  · have tight : (4 ≤ 5) ∧ (4 ≤ 8) ∧ (5 ≤ 8) ∧ (6 ≤ 8) := by decide
    exact ⟨⟨.inr tight.1, .inr tight.2.1⟩,
      ⟨trivial, ⟨.inr tight.2.2.1, .inr tight.2.2.2⟩, trivial, trivial⟩, trivial⟩
  · intro name member
    simp [Plan.Expr.parts] at member

/-- A sort key that doubles what is returned adds twice one to the age instead: the definition of
the name is put in place of it without parentheses.
-/
theorem doubledSum_not_readsAs
    : (∃ query lowered,
        Cypher.Query.parse "MATCH (a:Person) RETURN a.age + 1 AS x ORDER BY x * 2" = .ok query
        ∧ Plan.lower Plan.acquaintances.catalog query = .ok lowered
        ∧ treeText lowered.tree lowered.vars
          = .ok "SELECT a.age + 1 AS x FROM persons AS a ORDER BY a.age + 1 * 2")
      ∧ ∃ sql tree,
          sortedAges.expr (.binary .multiplication (.var "x") (.literal (.integer 2))) = .ok sql
          ∧ sql.text = "a.age + 1 * 2"
          ∧ sortedAges.Translates (.binary .multiplication (.var "x") (.literal (.integer 2))) tree
          ∧ ¬ReadsAs sql.text.toList tree := by
  constructor
  · have isWritten : ((written? Plan.acquaintances.catalog
        "MATCH (a:Person) RETURN a.age + 1 AS x ORDER BY x * 2".toList).any fun
        | .ok sql => sql = "SELECT a.age + 1 AS x FROM persons AS a ORDER BY a.age + 1 * 2"
        | .error _ => false) = true := by
      rw [String.toList_ofList]
      decide +kernel
    obtain ⟨result, isWritten, same⟩ := (Option.any_eq_true _ _).mp isWritten
    obtain ⟨query, lowered, parsed, lowers, text⟩ := exists_of_written? isWritten
    cases result with
    | error => cases same
    | ok sql => exact ⟨query, lowered, parsed, lowers, by rw [text, of_decide_eq_true same]⟩
  · have written : sortedAges.expr (.binary .multiplication (.var "x") (.literal (.integer 2)))
        = .ok (.binary .times
            (.inlined (.binary .plus (.column "a" "age") (.literal (.integer 1))))
            (.literal (.integer 2))) := by
      rfl
    refine ⟨_, _, written, rfl, translates_of_expr written, fun reads => ?_⟩
    have ofScope : (Expr.binary .times
        (.inlined (.binary .plus (.column "a" "age") (.literal (.integer 1))))
        (.literal (.integer 2))).OfScope := by
      simp [Expr.OfScope, Expr.Everywhere, Expr.IsOfScope]
    rcases ((Expr.readsAs_text_iff ofScope).mp reads).1.1 with parens | tight
    · cases parens
    · exact absurd tight (by decide)

end Context

end CypherSql.Sql
