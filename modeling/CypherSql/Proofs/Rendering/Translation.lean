import CypherSql.Proofs.Outcome
import CypherSql.Proofs.Rendering.Grouping
import CypherSql.Sql.Scope

/-! The operators of SQL that an expression of a scope stands for, node by node, and that rendering
keeps to them: what it writes has these operators and no others.
-/

namespace CypherSql.Sql

open Plan (VarId)

/-- An operator before or behind one operand. -/
def unaryTree (op : UnaryOp) (operand : OperatorTree) : OperatorTree :=
  match op with
  | .not => .signed .not operand
  | .negation => .signed .minus operand
  | .isNull => .nullTest false operand
  | .isNotNull => .nullTest true operand

/-- An operator between two operands. Of two truth values, `XOR` says that they differ; what is no
list written out is an array to look in.
-/
def binaryTree (op : BinaryOp) (left right : OperatorTree) : OperatorTree :=
  match op with
  | .addition => .joined (.operator .plus) left right
  | .subtraction => .joined (.operator .minus) left right
  | .multiplication => .joined (.operator .times) left right
  | .division => .joined (.operator .divide) left right
  | .modulo => .joined (.operator .modulo) left right
  | .power => .call "POWER" false [left, right]
  | .equal => .joined (.operator .equal) left right
  | .notEqual | .xor => .joined (.operator .notEqual) left right
  | .less => .joined (.operator .less) left right
  | .greater => .joined (.operator .greater) left right
  | .lessEqual => .joined (.operator .lessEqual) left right
  | .greaterEqual => .joined (.operator .greaterEqual) left right
  | .regexMatch => .joined (.operator .regexMatch) left right
  | .and => .joined (.operator .and) left right
  | .or => .joined (.operator .or) left right
  | .isIn => .anyOf left right
  | .startsWith => .joined .like left (LikePlace.start.tree right)
  | .endsWith => .joined .like left (LikePlace.finish.tree right)
  | .contains => .joined .like left (LikePlace.anywhere.tree right)

namespace Context

/-- The operators that an expression stands for in a scope. A variable is a column of the source
that supplies it; a name that no source supplies has the operators of its definition.
-/
inductive Translates (context : Context) : Plan.Expr → OperatorTree → Prop
  | literal (value : Literal) : context.Translates (.literal value) (literalTree value)
  | star : context.Translates .star (.leaf (.mark "*"))
  | parameter (name : String) : context.Translates (.parameter name) (.leaf (.parameter name))
  | column (id : VarId) (name : String)
    : context.Translates (.column id name) (.leaf (.column id name))
  | supplied {id : VarId} {source name : String}
    (found : context.suppliedValue id = .ok (.column source name))
    : context.Translates (.var id) (.leaf (.column source name))
  | definition {id : VarId} {expr : Plan.Expr} {type tree}
    (missing : context.select.supplier? id = none)
    (defined : context.vars.definition? id = some (.projected expr type))
    (inner : context.Translates expr tree)
    : context.Translates (.var id) tree
  | property {id : VarId} {key source name : String}
    (found : context.property id key = .ok (.column source name))
    : context.Translates (.property (.var id) key) (.leaf (.column source name))
  | unary {operand : Plan.Expr} {tree} (op : UnaryOp) (inner : context.Translates operand tree)
    : context.Translates (.unary op operand) (unaryTree op tree)
  | binary {left right : Plan.Expr} {first second} (op : BinaryOp)
    (noList : op = .isIn → ∀ items, right ≠ .list items) (onLeft : context.Translates left first)
    (onRight : context.Translates right second)
    : context.Translates (.binary op left right) (binaryTree op first second)
  | member {operand : Plan.Expr} {tree} {items : List (Plan.Expr × OperatorTree)}
    (onLeft : context.Translates operand tree)
    (inner : ∀ item ∈ items, context.Translates item.1 item.2)
    : context.Translates (.binary .isIn operand (.list (items.map Prod.fst)))
        (.member tree (items.map Prod.snd))
  | list {items : List (Plan.Expr × OperatorTree)}
    (inner : ∀ item ∈ items, context.Translates item.1 item.2)
    : context.Translates (.list (items.map Prod.fst)) (.array (items.map Prod.snd))
  | aggregate {args : List (Plan.Expr × OperatorTree)} (function : Aggregate) (distinct : Bool)
    (inner : ∀ arg ∈ args, context.Translates arg.1 arg.2)
    : context.Translates (.aggregate function distinct (args.map Prod.fst))
        (.call function.sqlName distinct (args.map Prod.snd))
  | call {name : String} {function : ScalarFunction} {args : List (Plan.Expr × OperatorTree)}
    (named : ScalarFunction.ofName? name = some function)
    (inner : ∀ arg ∈ args, context.Translates arg.1 arg.2)
    : context.Translates (.call name (args.map Prod.fst))
      (functionTree function (args.map Prod.snd))

variable {context : Context}

theorem Translates.of_list {items : List Plan.Expr} {tree : OperatorTree}
    (translates : context.Translates (.list items) tree)
    : ∃ pairs : List (Plan.Expr × OperatorTree),
        items = pairs.map Prod.fst
        ∧ tree = .array (pairs.map Prod.snd)
        ∧ ∀ pair ∈ pairs, context.Translates pair.1 pair.2 := by
  cases translates with
  | list inner => exact ⟨_, rfl, rfl, inner⟩

variable {id : VarId} {key : String} {sql : Expr}

/-- What a source supplies is a column of it. -/
theorem suppliedValue_eq_column (found : context.suppliedValue id = .ok sql)
    : ∃ source name, sql = .column source name := by
  obtain ⟨item, -, found⟩ := Plan.bind_eq_ok.mp found
  obtain ⟨name?, -, found⟩ := Plan.bind_eq_ok.mp found
  cases name? with
  | some name => exact ⟨name, id, (Except.ok.inj found).symm⟩
  | none =>
      obtain ⟨⟨key, columns⟩, -, found⟩ := Plan.bind_eq_ok.mp found
      exact ⟨id, key, (Except.ok.inj found).symm⟩

theorem property_eq_column (found : context.property id key = .ok sql)
    : ∃ source name, sql = .column source name := by
  obtain ⟨item, -, found⟩ := Plan.bind_eq_ok.mp found
  obtain ⟨name?, -, found⟩ := Plan.bind_eq_ok.mp found
  cases name? with
  | some name => exact ⟨name, propertyColumn id key, (Except.ok.inj found).symm⟩
  | none =>
      obtain ⟨⟨own, columns⟩, -, found⟩ := Plan.bind_eq_ok.mp found
      exact ⟨id, columnFor columns key, (Except.ok.inj found).symm⟩

/-- A source supplies what it gives a value. -/
theorem isSome_of_suppliedValue (found : context.suppliedValue id = .ok sql)
    : (context.select.supplier? id).isSome := by
  obtain ⟨item, supplies, -⟩ := Plan.bind_eq_ok.mp found
  unfold supplier at supplies
  split at supplies
  · rename_i supplied
    rw [supplied]
    rfl
  · cases supplies

/-- The value of a variable is a column of its source, or its definition where there is no source.
-/
theorem valueWithin_cases {times : Nat} (found : context.valueWithin times id = .ok sql)
    : context.suppliedValue id = .ok sql
      ∨ ∃ before expr type definition,
          times = before + 1
          ∧ context.select.supplier? id = none
          ∧ context.vars.definition? id = some (.projected expr type)
          ∧ exprWith (context.valueWithin before) context.property expr = .ok definition
          ∧ sql = .inlined definition := by
  unfold valueWithin at found
  split at found
  · cases found
  · rename_i before _ expr type defined missing
    obtain ⟨definition, written, same⟩ := Plan.bind_eq_ok.mp found
    exact .inr ⟨_, _, _, definition, rfl, missing, defined, written, (Except.ok.inj same).symm⟩
  · exact .inl found

theorem tree_unaryExpr (op : UnaryOp) (operand : Expr)
    : (unaryExpr op operand).tree = unaryTree op operand.tree := by
  cases op <;> rfl

theorem tree_binaryExpr (op : BinaryOp) (left : Expr) {right : Expr}
    (noList : op = .isIn → ∀ items, right ≠ .array items)
    : (binaryExpr op left right).tree = binaryTree op left.tree right.tree := by
  cases op
  case isIn =>
    cases right
    case array items => exact absurd rfl (noList rfl items)
    all_goals rfl
  all_goals rfl

section

variable {value : VarId → Except RenderError Expr}
  {property : VarId → String → Except RenderError Expr}

/-- Only a list is written as an array, and only a literal as that literal. -/
def HeadKept (expr : Plan.Expr) : Expr → Prop
  | .array _ => ∃ items, expr = .list items
  | .literal value => expr = .literal value
  | _ => True

/-- Variables and properties are written as no list and no literal. -/
structure Plain (value : VarId → Except RenderError Expr)
    (property : VarId → String → Except RenderError Expr) : Prop where
  value : ∀ id sql, value id = .ok sql → HeadKept (.var id) sql
  property : ∀ id key sql, property id key = .ok sql → HeadKept (.property (.var id) key) sql

theorem Plain.headKept (plain : Plain value property) {expr : Plan.Expr} {sql : Expr}
    (written : exprWith value property expr = .ok sql)
    : HeadKept expr sql := by
  cases expr with
  | var id => exact plain.value id sql written
  | property base key =>
      cases base with
      | var id => exact plain.property id key sql written
      | _ => cases written
  | literal value =>
      obtain rfl := Except.ok.inj written
      rfl
  | list items =>
      obtain ⟨all, -, same⟩ := Plan.bind_eq_ok.mp written
      obtain rfl := Except.ok.inj same
      exact ⟨items, rfl⟩
  | unary op operand =>
      obtain ⟨inner, -, same⟩ := Plan.bind_eq_ok.mp written
      obtain rfl := Except.ok.inj same
      cases op <;> trivial
  | binary op left right =>
      obtain ⟨first, -, rest⟩ := Plan.bind_eq_ok.mp written
      obtain ⟨second, -, same⟩ := Plan.bind_eq_ok.mp rest
      obtain rfl := Except.ok.inj same
      cases op
      case isIn => cases second <;> trivial
      all_goals trivial
  | aggregate function distinct args =>
      obtain ⟨inner, -, same⟩ := Plan.bind_eq_ok.mp written
      obtain rfl := Except.ok.inj same
      trivial
  | call name args =>
      unfold exprWith at written
      split at written
      · cases written
      · obtain ⟨inner, -, same⟩ := Plan.bind_eq_ok.mp written
        obtain rfl := Except.ok.inj same
        trivial
  | star | parameter _ | column _ _ =>
      obtain rfl := Except.ok.inj written
      trivial
  | map _ => cases written

end

theorem plain_valueWithin (context : Context) (times : Nat)
    : Plain (context.valueWithin times) context.property where
  value id sql found := by
    rcases valueWithin_cases found with supplied | ⟨_, _, _, _, _, _, _, _, rfl⟩
    · obtain ⟨_, _, rfl⟩ := suppliedValue_eq_column supplied
      trivial
    · trivial
  property id key sql found := by
    obtain ⟨_, _, rfl⟩ := property_eq_column found
    trivial

mutual

/-- What is written has the operators that the expression stands for, by its structure. -/
theorem translates_of_exprWith {value : VarId → Except RenderError Expr}
    (plain : Plain value context.property)
    (values : ∀ id sql, value id = .ok sql → context.Translates (.var id) sql.tree)
    : ∀ (expr : Plan.Expr) (sql : Expr),
        exprWith value context.property expr = .ok sql → context.Translates expr sql.tree
  | .literal value, _, written => Except.ok.inj written ▸ .literal value
  | .star, _, written => Except.ok.inj written ▸ .star
  | .parameter name, _, written => Except.ok.inj written ▸ .parameter name
  | .column id name, _, written => Except.ok.inj written ▸ .column id name
  | .var id, sql, written => values id sql written
  | .property base key, sql, written => by
      cases base with
      | var id =>
          obtain ⟨source, name, rfl⟩ := property_eq_column written
          exact .property written
      | _ => cases written
  | .unary op operand, sql, written => by
      obtain ⟨inner, operandWritten, same⟩ := Plan.bind_eq_ok.mp written
      obtain rfl := Except.ok.inj same
      exact tree_unaryExpr op inner ▸
        .unary op (translates_of_exprWith plain values operand inner operandWritten)
  | .binary op left right, sql, written => by
      obtain ⟨first, leftWritten, rest⟩ := Plan.bind_eq_ok.mp written
      obtain ⟨second, rightWritten, same⟩ := Plan.bind_eq_ok.mp rest
      obtain rfl := Except.ok.inj same
      have onLeft := translates_of_exprWith plain values left first leftWritten
      have onRight := translates_of_exprWith plain values right second rightWritten
      -- A written list on the right of `IN` is no operand of its own.
      rcases Classical.em (op = .isIn ∧ ∃ items, right = .list items) with ⟨rfl, items, rfl⟩ | other
      · obtain ⟨all, -, same⟩ := Plan.bind_eq_ok.mp rightWritten
        obtain rfl := Except.ok.inj same
        obtain ⟨pairs, rfl, trees, each⟩ := onRight.of_list
        have inList : (binaryExpr .isIn first (.array all)).tree
            = .member first.tree (pairs.map Prod.snd) :=
          congrArg (OperatorTree.member first.tree) (OperatorTree.array.inj trees)
        exact inList ▸ .member onLeft each
      · have noArray : op = .isIn → ∀ items, second ≠ .array items := by
          rintro rfl items rfl
          exact other ⟨rfl, plain.headKept rightWritten⟩
        rw [tree_binaryExpr op first noArray]
        exact .binary op (fun isIn items same => other ⟨isIn, items, same⟩) onLeft onRight
  | .list items, sql, written => by
      obtain ⟨all, itemsWritten, same⟩ := Plan.bind_eq_ok.mp written
      obtain rfl := Except.ok.inj same
      obtain ⟨pairs, rfl, same, each⟩ :=
        translatesAll_of_exprsWith plain values items all itemsWritten
      rw [Expr.tree, same]
      exact .list each
  | .map _, _, written => by cases written
  | .aggregate function distinct args, sql, written => by
      obtain ⟨all, argsWritten, same⟩ := Plan.bind_eq_ok.mp written
      obtain rfl := Except.ok.inj same
      obtain ⟨pairs, rfl, same, each⟩ :=
        translatesAll_of_exprsWith plain values args all argsWritten
      rw [Expr.tree, same]
      exact .aggregate function distinct each
  | .call name args, sql, written => by
      unfold exprWith at written
      split at written
      · cases written
      · rename_i function named
        obtain ⟨all, argsWritten, same⟩ := Plan.bind_eq_ok.mp written
        obtain rfl := Except.ok.inj same
        obtain ⟨pairs, rfl, same, each⟩ :=
          translatesAll_of_exprsWith plain values args all argsWritten
        rw [Expr.tree, same]
        exact .call named each

/-- The same for each of several expressions. -/
theorem translatesAll_of_exprsWith {value : VarId → Except RenderError Expr}
    (plain : Plain value context.property)
    (values : ∀ id sql, value id = .ok sql → context.Translates (.var id) sql.tree)
    : ∀ (exprs : List Plan.Expr) (sqls : List Expr),
        exprsWith value context.property exprs = .ok sqls
        → ∃ items : List (Plan.Expr × OperatorTree),
            exprs = items.map Prod.fst
            ∧ Expr.trees sqls = items.map Prod.snd
            ∧ ∀ item ∈ items, context.Translates item.1 item.2
  | [], _, written => by
      obtain rfl := Except.ok.inj written
      exact ⟨[], rfl, rfl, nofun⟩
  | e :: es, sqls, written => by
      obtain ⟨first, firstWritten, rest⟩ := Plan.bind_eq_ok.mp written
      obtain ⟨others, othersWritten, same⟩ := Plan.bind_eq_ok.mp rest
      obtain rfl := Except.ok.inj same
      have translates := translates_of_exprWith plain values e first firstWritten
      obtain ⟨items, rfl, same, each⟩ :=
        translatesAll_of_exprsWith plain values es others othersWritten
      refine ⟨(e, first.tree) :: items, rfl, ?_, List.forall_mem_cons.mpr ⟨translates, each⟩⟩
      rw [Expr.trees, same]
      rfl

end

/-- What a variable is written as has its operators, by induction over how often names are followed.
-/
theorem translates_of_valueWithin {times : Nat} {id : VarId} {sql : Expr}
    (written : context.valueWithin times id = .ok sql)
    : context.Translates (.var id) sql.tree := by
  induction times generalizing id sql with
  | zero =>
      rcases valueWithin_cases written with supplied | ⟨_, _, _, _, none, _⟩
      · obtain ⟨source, name, rfl⟩ := suppliedValue_eq_column supplied
        exact .supplied supplied
      · cases none
  | succ times ih =>
      rcases valueWithin_cases written with
        supplied | ⟨before, expr, type, definition, same, missing, defined, inner, rfl⟩
      · obtain ⟨source, name, rfl⟩ := suppliedValue_eq_column supplied
        exact .supplied supplied
      · obtain rfl := Nat.succ.inj same
        exact .definition missing defined
          (translates_of_exprWith (plain_valueWithin context times)
            (fun _ _ => ih) expr definition inner)

/-- What an expression is written as has its operators. -/
theorem translates_of_expr {expr : Plan.Expr} {sql : Expr} (written : context.expr expr = .ok sql)
    : context.Translates expr sql.tree :=
  translates_of_exprWith (plain_valueWithin context _)
    (fun _ _ => translates_of_valueWithin) expr sql
    written

/-- Items that are written one by one have the operators that each of them is written with. -/
theorem trees_of_exprsWith {value : VarId → Except RenderError Expr}
    {property : VarId → String → Except RenderError Expr} {items : List (Plan.Expr × OperatorTree)}
    {sqls : List Expr}
    (each : ∀ item ∈ items, ∀ sql, exprWith value property item.1 = .ok sql → item.2 = sql.tree)
    (written : exprsWith value property (items.map Prod.fst) = .ok sqls)
    : items.map Prod.snd = Expr.trees sqls := by
  induction items generalizing sqls with
  | nil =>
      obtain rfl := Except.ok.inj written
      rfl
  | cons item items ih =>
      obtain ⟨first, firstWritten, rest⟩ := Plan.bind_eq_ok.mp written
      obtain ⟨others, othersWritten, same⟩ := Plan.bind_eq_ok.mp rest
      obtain rfl := Except.ok.inj same
      have firstTree := each item List.mem_cons_self first firstWritten
      have otherTrees :=
        ih (fun other member => each other (List.mem_cons_of_mem _ member)) othersWritten
      rw [List.map_cons, Expr.trees, firstTree, otherTrees]

/-- An expression that is written stands for no other operators, by the rules of its translation. -/
theorem Translates.tree_eq {expr : Plan.Expr} {tree : OperatorTree}
    (translates : context.Translates expr tree)
    : ∀ (times : Nat) (sql : Expr),
        exprWith (context.valueWithin times) context.property expr = .ok sql → tree = sql.tree := by
  induction translates with
  | literal value | star | parameter name | column id name =>
      intro times sql written
      rw [← Except.ok.inj written]
      rfl
  | supplied found =>
      intro times sql written
      rcases valueWithin_cases written with supplied | ⟨_, _, _, _, _, missing, _⟩
      · rw [← Except.ok.inj (found.symm.trans supplied)]
        rfl
      · -- What an item supplies is not written by its definition.
        have some := isSome_of_suppliedValue found
        rw [missing] at some
        cases some
  | definition missing defined inner ih =>
      intro times sql written
      rcases valueWithin_cases written
        with supplied | ⟨before, _, _, _, _, _, also, definition, rfl⟩
      · have some := isSome_of_suppliedValue supplied
        rw [missing] at some
        cases some
      · cases Option.some.inj (defined.symm.trans also)
        have same := ih before _ definition
        exact same
  | property found =>
      intro times sql written
      rw [← Except.ok.inj (found.symm.trans written)]
      rfl
  | unary op inner ih =>
      intro times sql written
      obtain ⟨operand, operandWritten, same⟩ := Plan.bind_eq_ok.mp written
      rw [← Except.ok.inj same, tree_unaryExpr, ih times operand operandWritten]
  | binary op noList onLeft onRight ihLeft ihRight =>
      intro times sql written
      obtain ⟨first, leftWritten, rest⟩ := Plan.bind_eq_ok.mp written
      obtain ⟨second, rightWritten, same⟩ := Plan.bind_eq_ok.mp rest
      have noArray : op = .isIn → ∀ items, second ≠ .array items := by
        rintro isIn items rfl
        obtain ⟨elements, isList⟩ := (plain_valueWithin context times).headKept rightWritten
        exact noList isIn elements isList
      rw [← Except.ok.inj same, tree_binaryExpr op first noArray, ihLeft times first leftWritten,
        ihRight times second rightWritten]
  | member onLeft inner ihLeft ih =>
      intro times sql written
      obtain ⟨first, leftWritten, rest⟩ := Plan.bind_eq_ok.mp written
      obtain ⟨second, rightWritten, same⟩ := Plan.bind_eq_ok.mp rest
      obtain ⟨all, itemsWritten, isArray⟩ := Plan.bind_eq_ok.mp rightWritten
      obtain rfl := Except.ok.inj isArray
      rw [← Except.ok.inj same, ihLeft times first leftWritten,
        trees_of_exprsWith (fun item member => ih item member times) itemsWritten]
      rfl
  | list inner ih =>
      intro times sql written
      obtain ⟨all, itemsWritten, same⟩ := Plan.bind_eq_ok.mp written
      rw [← Except.ok.inj same, trees_of_exprsWith
        (fun item member => ih item member times) itemsWritten]
      rfl
  | aggregate function distinct inner ih =>
      intro times sql written
      obtain ⟨all, argsWritten, same⟩ := Plan.bind_eq_ok.mp written
      rw [← Except.ok.inj same, trees_of_exprsWith
        (fun item member => ih item member times) argsWritten]
      rfl
  | call named inner ih =>
      intro times sql written
      unfold exprWith at written
      simp only [named] at written
      obtain ⟨all, argsWritten, same⟩ := Plan.bind_eq_ok.mp written
      rw [← Except.ok.inj same, trees_of_exprsWith
        (fun item member => ih item member times) argsWritten]
      rfl

/-- An expression that is written stands for the operators that it is written with, and for no
others.
-/
theorem translates_iff {expr : Plan.Expr} {sql : Expr} (written : context.expr expr = .ok sql)
    (tree : OperatorTree)
    : context.Translates expr tree ↔ tree = sql.tree := by
  constructor
  · intro translates
    exact translates.tree_eq _ sql written
  · rintro rfl
    exact translates_of_expr written

end Context

end CypherSql.Sql
