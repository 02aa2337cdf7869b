import CypherSql.Plan.Tables

/-!
The order of the sources. Required items come first: one that a relationship connects to what is
placed is joined, any other starts a cross join. The items of each optional clause follow as outer
joins. The conditions of a relationship are written with whichever of it and its nodes is placed
later.
-/

namespace CypherSql.Plan

/-- The relationships among items. -/
def relationshipItems (vars : VarTable) (items : List FromItem) : List VarId :=
  (items.filterMap FromItem.tableVar?).filter fun id => (vars.relationship? id).isSome

/-- The labels that a relationship fixes for a node at its ends. -/
def fixedLabels (vars : VarTable) (node : VarId) (relationship : VarId) : List String :=
  match vars.relationship? relationship with
  | some { left, right, binding := some binding, .. } =>
      let (leftLabel, rightLabel) := binding.endpointLabels
      (if vars.resolve left = node then leftLabel.toList else []) ++
        (if vars.resolve right = node then rightLabel.toList else [])
  | _ => []

/-- An item with the table that the labels fixed by relationships single out, if it is a node
without a table.
-/
def narrowItem (catalog : Catalog) (relationships : List VarId) (item : FromItem)
    (vars : VarTable) : Except LoweringError (FromItem × VarTable) :=
  match item.table, item.tableVar? with
  | none, some id =>
      match vars.get? id with
      | some { name, definition := .node node, .. } =>
          let labels := node.labels.insertAll (relationships.flatMap (fixedLabels vars id))
          match catalog.node labels with
          | .ok binding =>
              let definition := Definition.node { node with labels, binding := some binding }
              .ok ({ item with table := some binding.table }, vars.redefine id definition)
          | .error source => fail .arrangeJoins (.lookup (nodeHint name labels) source)
      | _ => .ok (item, vars)
  | _, _ => .ok (item, vars)

/-- A relationship of a select with its nodes and its table. -/
structure Edge where
  relationship : VarId
  left : VarId
  right : VarId
  binding : RelationshipBinding
  deriving DecidableEq

/-- The relationships of items, each with the nodes at its ends. -/
def edgesOf (vars : VarTable) : List FromItem → Except LoweringError (List Edge)
  | [] => .ok []
  | item :: rest =>
      match item.tableVar?.bind fun id => (vars.relationship? id).map (id, ·) with
      | none => edgesOf vars rest
      | some (id, rel) =>
          match rel.binding with
          | none => fail .arrangeJoins (.breach (.unboundRelationship id))
          | some binding => do
              let edges ← edgesOf vars rest
              return { relationship := id, left := vars.resolve rel.left,
                       right := vars.resolve rel.right, binding } :: edges

namespace Edge

/-- A column of the relationship equals the key of a node. -/
def equation (edge : Edge) (column : String) (node : VarId) : Expr :=
  .equals (.column edge.relationship column) (.var node)

/-- The from column equals one node and the to column the other. -/
def pairing (edge : Edge) (fromNode toNode : VarId) : Expr :=
  .binary .and (edge.equation edge.binding.fromColumn fromNode)
    (edge.equation edge.binding.toColumn toNode)

/-- The relationship joins its nodes one way or the other. -/
def eitherWay (edge : Edge) : Expr :=
  .binary .or
    (edge.pairing edge.left edge.right)
    (.binary .and (edge.equation edge.binding.toColumn edge.left)
      (edge.equation edge.binding.fromColumn edge.right))

/-- The relationship has a node at one of its ends. -/
def eitherEnd (edge : Edge) (node : VarId) : Expr :=
  .binary .or (edge.equation edge.binding.fromColumn node)
    (edge.equation edge.binding.toColumn node)

/-- The columns of the relationship for its left and its right node, where the orientation is
known.
-/
def columns? (edge : Edge) : Option (String × String) :=
  match edge.binding.orientation with
  | .forward => some (edge.binding.fromColumn, edge.binding.toColumn)
  | .reversed => some (edge.binding.toColumn, edge.binding.fromColumn)
  | .either => none

/-- The conditions of the relationship that can be checked once new variables are placed next to
others, and could not be before.
-/
def conditions (edge : Edge) (placed : NameSet) (new : List VarId) : List Expr :=
  let now (id : VarId) : Bool := id ∈ placed || id ∈ new
  let relationshipNew : Bool := edge.relationship ∈ new
  if !now edge.relationship then []
  else
    match edge.columns? with
    | some (leftColumn, rightColumn) =>
        let side (column : String) (node : VarId) : List Expr :=
          if now node && (relationshipNew || node ∈ new) then [edge.equation column node] else []
        side leftColumn edge.left ++ side rightColumn edge.right
    | none =>
        if relationshipNew || edge.left ∈ new || edge.right ∈ new then
          match now edge.left, now edge.right with
          | true, true => [edge.eitherWay]
          | true, false => [edge.eitherEnd edge.left]
          | false, true => [edge.eitherEnd edge.right]
          | false, false => []
        else []

end Edge

/-- The items placed so far, with the variables they supply. -/
structure Layout where
  placed : NameSet
  fromItems : List FromItem
  joins : List Join

namespace Layout

/-- Nothing is placed. -/
def empty : Layout := ⟨∅, [], []⟩

/-- There is no item. -/
def isEmpty (layout : Layout) : Bool :=
  layout.fromItems.isEmpty && layout.joins.isEmpty

/-- The conditions of relationships that can be checked once an item is placed. -/
def edgeConditions (layout : Layout) (edges : List Edge) (item : FromItem) : List Expr :=
  edges.flatMap (·.conditions layout.placed item.ids)

/-- The layout with the variables of an item marked as placed. -/
def mark (layout : Layout) (item : FromItem) : Layout :=
  { layout with placed := layout.placed.insertAll item.ids }

/-- The position of the next item: the first one that a relationship connects, or the first. -/
def nextIndex (layout : Layout) (edges : List Edge) (waiting : List FromItem) : Nat :=
  (waiting.findIdx? fun item => !(layout.edgeConditions edges item).isEmpty).getD 0

/-- Places a required item: joined if a relationship connects it, else in the `FROM`. -/
def placeRequired (layout : Layout) (edges : List Edge) (item : FromItem) : Layout :=
  let marked := layout.mark item
  match Expr.conjoin (layout.edgeConditions edges item) with
  | some condition =>
      if layout.fromItems.isEmpty then { marked with fromItems := [item] }
      else { marked with joins := layout.joins ++ [{ outer := false, item, condition }] }
  | none => { marked with fromItems := layout.fromItems ++ [item] }

/-- Places required items, a number of them at most. -/
def placeAllRequired (edges : List Edge)
    : Nat → Layout → List FromItem → Except LoweringError Layout
  | 0, layout, _ => .ok layout
  | n + 1, layout, waiting =>
      let index := if layout.isEmpty then 0 else layout.nextIndex edges waiting
      match waiting[index]? with
      | none => .ok layout
      | some item =>
          if item.pending.isEmpty then
            placeAllRequired edges n (layout.placeRequired edges item) (waiting.eraseIdx index)
          else fail .arrangeJoins (.breach .conditionsOnRequired)

/-- The condition refers to no variable of an item that still waits. -/
def canCheck (layout : Layout) (vars : VarTable) (waiting : NameSet) (condition : Expr) : Bool :=
  condition.references.names.all fun id =>
    let resolved := vars.resolve id
    resolved ∉ waiting || resolved ∈ layout.placed

/-- Places optional items of one clause, a number of them at most. Each takes the conditions of
the clause that can be checked with it, and the last one takes all that are left.
-/
def placeAllOptional (edges : List Edge) (vars : VarTable)
    : Nat → Layout → List FromItem → NameSet → List Expr → Layout
  | 0, layout, _, _, _ => layout
  | n + 1, layout, waiting, unplaced, conditions =>
      let index := layout.nextIndex edges waiting
      match waiting[index]? with
      | none => layout
      | some item =>
          let rest := waiting.eraseIdx index
          let marked := layout.mark item
          let unplaced := item.ids.foldl NameSet.erase unplaced
          let (ready, later) := conditions.partition (marked.canCheck vars unplaced)
          let ready := if rest.isEmpty then ready ++ later else ready
          let condition :=
            (Expr.conjoin (layout.edgeConditions edges item ++ ready)).getD
              (.literal (.boolean true))
          let join : Join := { outer := true, item, condition }
          placeAllOptional edges vars n { marked with joins := layout.joins ++ [join] } rest
            unplaced later

/-- Places the items of an optional clause, which cannot come first. -/
def placeOptional (layout : Layout) (edges : List Edge) (vars : VarTable)
    (items : List FromItem) : Except LoweringError Layout :=
  if layout.isEmpty then fail .arrangeJoins (.unsupported .optionalFirst)
  else
    let waiting := items.map fun item => { item with pending := [] }
    let unplaced := NameSet.ofList (items.flatMap (·.ids))
    .ok (placeAllOptional edges vars items.length layout waiting unplaced
      (items.flatMap (·.pending)))

end Layout

/-- The number of the clause of an item. -/
def FromItem.clauseNumber (item : FromItem) : Nat :=
  item.clause.getD 0

/-- Items grouped by their clauses, in the order of the clauses. -/
def groupByClause (items : List FromItem) : List (List FromItem) :=
  let last := (items.map (·.clauseNumber)).foldl max 0
  ((List.range (last + 1)).map fun clause =>
    items.filter (·.clauseNumber = clause)).filter (!·.isEmpty)

/-- Arranges the items of a select. -/
def arrange (vars : VarTable) (items : List FromItem) : Except LoweringError Layout := do
  let edges ← edgesOf vars items
  let (required, optional) := items.partition fun item => !item.optional
  let layout ← Layout.placeAllRequired edges required.length .empty required
  (groupByClause optional).foldlM (fun layout items => layout.placeOptional edges vars items)
    layout

/-- Arranges the sources of a scope. -/
def arrangeScope (catalog : Catalog) (scope : Scope) (vars : VarTable)
    : Except LoweringError (Scope × VarTable) := do
  if !scope.select.joins.isEmpty then
    fail .arrangeJoins (.breach (.hasJoins scope.index))
  else
    let relationships := relationshipItems vars scope.select.fromItems
    let (scope, vars) ← eachFromItem (narrowItem catalog relationships) scope vars
    let layout ← arrange vars scope.select.fromItems
    let select := { scope.select with fromItems := layout.fromItems, joins := layout.joins }
    match select.items.findSome? (·.fault? true) with
    | some fault => fail .arrangeJoins (.breach (.badItem fault))
    | none => return ({ scope with select }, vars)

/-- Arranges the sources of every scope. -/
def arrangeJoins (catalog : Catalog) (draft : Draft) : Except LoweringError Draft :=
  draft.eachScope (arrangeScope catalog)

end CypherSql.Plan
