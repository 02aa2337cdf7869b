import CypherSql.Plan.Model
import CypherSql.Proofs.Printing.Printer
import CypherSql.Proofs.Renaming.Tables

/-! The variable model of a query whose names are changed: a renaming of the names renames all ids
of the model, and the walk over the clauses fails for both queries or for none.
-/

namespace CypherSql.Cypher

mutual

/-- The expression with other names of variables. -/
def Expr.rename (f : String → String) : Expr → Expr
  | .literal value => .literal value
  | .var name => .var (f name)
  | .parameter name => .parameter name
  | .list items => .list (Expr.renameAll f items)
  | .map entries => .map (Expr.renameEntries f entries)
  | .property base key => .property (base.rename f) key
  | .unary op operand => .unary op (operand.rename f)
  | .binary op left right => .binary op (left.rename f) (right.rename f)
  | .call name distinct args => .call name distinct (Expr.renameAll f args)
  | .star => .star

/-- Several expressions with other names of variables. -/
def Expr.renameAll (f : String → String) : List Expr → List Expr
  | [] => []
  | e :: es => e.rename f :: Expr.renameAll f es

/-- Several entries with other names of variables in their values. -/
def Expr.renameEntries (f : String → String) : List (String × Expr) → List (String × Expr)
  | [] => []
  | (key, e) :: es => (key, e.rename f) :: Expr.renameEntries f es

end

variable (f : String → String)

/-- The node with other names. -/
def NodePattern.rename (pattern : NodePattern) : NodePattern where
  name := pattern.name.map f
  labels := pattern.labels
  properties := pattern.properties.map (Expr.renameEntries f)

/-- The relationship with other names. -/
def RelationshipPattern.rename (pattern : RelationshipPattern) : RelationshipPattern where
  name := pattern.name.map f
  direction := pattern.direction
  types := pattern.types
  properties := pattern.properties.map (Expr.renameEntries f)
  length := pattern.length

/-- The path with other names. -/
def PathPattern.rename (path : PathPattern) : PathPattern where
  name := path.name.map f
  start := path.start.rename f
  hops := path.hops.map fun (relationship, node) => (relationship.rename f, node.rename f)

/-- The clause with other names. -/
def MatchClause.rename (clause : MatchClause) : MatchClause where
  optional := clause.optional
  patterns := clause.patterns.map (PathPattern.rename f)
  condition := clause.condition.map (Expr.rename f)

/-- The item with other names, and the text it had. -/
def ProjectionItem.rename (item : ProjectionItem) : ProjectionItem where
  expr := item.expr.rename f
  aliasName := item.aliasName.map f
  text := item.text

/-- The sort key with other names. -/
def SortItem.rename (key : SortItem) : SortItem :=
  { key with expr := key.expr.rename f }

/-- The projection with other names. -/
def Projection.rename (projection : Projection) : Projection where
  distinct := projection.distinct
  items := projection.items.map (ProjectionItem.rename f)
  orderBy := projection.orderBy.map (SortItem.rename f)
  skip := projection.skip.map (Expr.rename f)
  limit := projection.limit.map (Expr.rename f)

/-- The clause with other names. -/
def Clause.rename : Clause → Clause
  | .matching clause => .matching (clause.rename f)
  | .withItems projection condition =>
      .withItems (projection.rename f) (condition.map (Expr.rename f))
  | .returnItems projection => .returnItems (projection.rename f)

/-- The query with other names. -/
def Query.rename (query : Query) : Query :=
  ⟨query.clauses.map (Clause.rename f)⟩

end CypherSql.Cypher

namespace CypherSql.Plan

open Cypher (NodePattern RelationshipPattern PathPattern MatchClause Projection ProjectionItem)

variable {ρ : Renaming}

section Resolving

variable {step : Step} {lookup lookupOther : String → Option VarId}

theorem resolveCall_rename (name : String) (distinct : Bool) (args : List Expr)
    : SameOutcome (ImageOf (Expr.rename ρ)) (resolveCall step name distinct args)
        (resolveCall step name distinct (Expr.renameAll ρ args)) := by
  have star : .star ∈ Expr.renameAll ρ args ↔ .star ∈ args := by
    have injective : Function.Injective (Expr.rename ρ) := fun _ _ => Expr.rename_injective ρ
    rw [Expr.renameAll_eq_map]
    change Expr.rename ρ .star ∈ args.map (Expr.rename ρ) ↔ .star ∈ args
    exact List.mem_map_of_injective injective
  unfold resolveCall
  cases Aggregate.ofName? name with
  | some function => exact .ok rfl
  | none =>
      simp only [star]
      split
      · exact .fail rfl
      · split
        · exact .fail rfl
        · exact .ok rfl

mutual

/-- Names that lookups find under corresponding ids are resolved alike, by induction over the
expression.
-/
theorem resolveExpr_rename (same : ∀ name, lookupOther (ρ name) = (lookup name).map ρ)
    : ∀ expr : Cypher.Expr,
        SameOutcome (ImageOf (Expr.rename ρ)) (resolveExpr step lookup expr)
          (resolveExpr step lookupOther (expr.rename ρ))
  | .literal _ => .ok rfl
  | .var name => by
      simp only [Cypher.Expr.rename, resolveExpr, same]
      cases lookup name with
      | none => exact .fail rfl
      | some id => exact .ok rfl
  | .parameter _ => .ok rfl
  | .list items => (resolveAll_rename same items).bind_image fun _ => .ok rfl
  | .map entries => (resolveEntries_rename same entries).bind_image fun _ => .ok rfl
  | .property base _ => (resolveExpr_rename same base).bind_image fun _ => .ok rfl
  | .unary _ operand => (resolveExpr_rename same operand).bind_image fun _ => .ok rfl
  | .binary _ left right =>
      (resolveExpr_rename same left).bind_image fun _ =>
        (resolveExpr_rename same right).bind_image fun _ => .ok rfl
  | .call name distinct args =>
      (resolveAll_rename same args).bind_image fun args => resolveCall_rename name distinct args
  | .star => .ok rfl

/-- The same for several expressions. -/
theorem resolveAll_rename (same : ∀ name, lookupOther (ρ name) = (lookup name).map ρ)
    : ∀ exprs : List Cypher.Expr,
        SameOutcome (ImageOf (Expr.renameAll ρ)) (resolveAll step lookup exprs)
          (resolveAll step lookupOther (Cypher.Expr.renameAll ρ exprs))
  | [] => .ok rfl
  | expr :: rest =>
      (resolveExpr_rename same expr).bind_image fun _ =>
        (resolveAll_rename same rest).bind_image fun _ => .ok rfl

/-- The same for several entries. -/
theorem resolveEntries_rename (same : ∀ name, lookupOther (ρ name) = (lookup name).map ρ)
    : ∀ entries : List (String × Cypher.Expr),
        SameOutcome (ImageOf (Expr.renameEntries ρ)) (resolveEntries step lookup entries)
          (resolveEntries step lookupOther (Cypher.Expr.renameEntries ρ entries))
  | [] => .ok rfl
  | (_, expr) :: rest =>
      (resolveExpr_rename same expr).bind_image fun _ =>
        (resolveEntries_rename same rest).bind_image fun _ => .ok rfl

end

end Resolving

namespace Walk

/-- A walk is another one with each variable under its new id and each name changed. -/
structure Renamed (ρ : Renaming) (walk other : Walk) : Prop where
  vars : walk.vars.Renamed ρ (fun _ => True) other.vars
  declared : other.declared = walk.declared.map ρ
  naming : walk.naming.Renamed ρ other.naming
  models : other.models = walk.models.map (ScopeModel.rename ρ)
  scope : other.scope = walk.scope
  visible : other.visible = walk.visible.rename ρ
  clauses : other.clauses = walk.clauses.map (ReadingClause.rename ρ)
  filter : other.filter = walk.filter.map (Expr.rename ρ)

theorem renamed_start : Renamed ρ start start :=
  ⟨VarTable.renamed_empty, rfl, Naming.renamed_initial, rfl, rfl, rfl, rfl, rfl⟩

namespace Renamed

variable {walk other : Walk}

theorem get?_eq (renamed : walk.Renamed ρ other) (name : String)
    : other.visible.get? (ρ name) = (walk.visible.get? name).map ρ := by
  rw [renamed.visible, Visible.get?_rename]

theorem resolve (renamed : walk.Renamed ρ other) (expr : Cypher.Expr)
    : SameOutcome (ImageOf (Expr.rename ρ)) (walk.resolve expr) (other.resolve (expr.rename ρ)) :=
  resolveExpr_rename renamed.get?_eq expr

theorem propertyConditions (renamed : walk.Renamed ρ other) (id : VarId)
    (properties : Cypher.Properties)
    : SameOutcome (ImageOf (List.map (Expr.rename ρ))) (walk.propertyConditions id properties)
        (other.propertyConditions (ρ id) (properties.map (Cypher.Expr.renameEntries ρ))) := by
  have entries : (properties.map (Cypher.Expr.renameEntries ρ)).getD []
      = (properties.getD []).map fun entry => (entry.1, entry.2.rename ρ) := by
    cases properties with
    | none => rfl
    | some entries =>
        simp only [Option.map_some, Option.getD_some]
        induction entries with
        | nil => rfl
        | cons entry rest ih => rw [Cypher.Expr.renameEntries, ih, List.map_cons]
  unfold Walk.propertyConditions
  rw [entries]
  refine SameOutcome.relator.mapM _ _ fun entry _ => ?_
  exact (renamed.resolve entry.2).bind_image fun value => .ok rfl

/-- What is declared under a base and under its new name corresponds. -/
theorem declare (renamed : walk.Renamed ρ other) (base : String)
    (make makeOther : VarId → String × Definition)
    (definition : ∀ id, (make id).2.Renamed ρ (makeOther (ρ id)).2)
    (name : ∀ id, (make id).2.isTemporary = false → (makeOther (ρ id)).1 = ρ (make id).1)
    : Both (ImageOf ρ) (Walk.Renamed ρ) (walk.declare base make)
      (other.declare (ρ base) makeOther) := by
  have fresh := renamed.naming.fresh_name base
  have naming := renamed.naming.fresh base
  unfold Walk.declare
  generalize walk.naming.fresh base = new at fresh naming
  generalize other.naming.fresh (ρ base) = newOther at fresh naming
  obtain ⟨id, later⟩ := new
  obtain ⟨_, laterOther⟩ := newOther
  obtain rfl := fresh
  refine ⟨rfl, { renamed with vars := ?_, naming, declared := ?_ }⟩
  · exact renamed.vars.insert ⟨rfl, renamed.scope, definition id, name id⟩ fun _ _ _ => trivial
  · simp only [renamed.declared, List.map_append, List.map_cons, List.map_nil]

theorem bind (renamed : walk.Renamed ρ other) (name : Option String) (id : VarId)
    : (walk.bind name id).Renamed ρ (other.bind (name.map ρ) (ρ id)) := by
  cases name with
  | none => exact renamed
  | some name =>
      refine { renamed with visible := ?_ }
      simp only [Walk.bind, Option.map_some, renamed.visible, Visible.insert_rename]

end Renamed

end Walk

namespace ClauseWalk

/-- A place inside a `MATCH` is another one with each variable under its new id. -/
structure Renamed (ρ : Renaming) (state other : ClauseWalk) : Prop where
  walk : state.walk.Renamed ρ other.walk
  ids : other.ids = state.ids.map ρ
  relationships : other.relationships = state.relationships.map ρ
  conditions : other.conditions = state.conditions.map (Expr.rename ρ)

/-- An id with the place after it, and the same with the variables under their new ids. -/
abbrev Taken (ρ : Renaming) : VarId × ClauseWalk → VarId × ClauseWalk → Prop :=
  Both (ImageOf ρ) (Renamed ρ)

namespace Renamed

variable {state other : ClauseWalk}

theorem addLabels (renamed : state.Renamed ρ other) {id : VarId} {node : NodeVar}
    (found : state.walk.vars.definition? id = some (.node node)) (labels : List String)
    : (state.addLabels id node labels).Renamed ρ
      (other.addLabels (ρ id) (node.rename ρ) labels) := by
  have vars := renamed.walk.vars.redefine found
    (.node { node with labels := node.labels.insertAll labels }) rfl rfl
  exact { renamed with walk := { renamed.walk with vars } }

theorem mentionNode (renamed : state.Renamed ρ other) (pattern : NodePattern) (name : String)
    (id : VarId)
    : SameOutcome (Taken ρ) (state.mentionNode pattern name id)
        (other.mentionNode (pattern.rename ρ) (ρ name) (ρ id)) := by
  have conditions {later laterOther : ClauseWalk} (renamed : later.Renamed ρ laterOther)
      : SameOutcome (Taken ρ)
          (do
            let conditions ← later.walk.propertyConditions id pattern.properties
            pure (id, { later with conditions := later.conditions ++ conditions }))
          (do
            let conditions ← laterOther.walk.propertyConditions (ρ id) (pattern.rename ρ).properties
            pure
              (ρ id, { laterOther with conditions := laterOther.conditions ++ conditions })) := by
    refine (renamed.walk.propertyConditions id pattern.properties).bind_image fun conditions => ?_
    refine .ok ⟨rfl, { renamed with conditions := ?_ }⟩
    simp only [renamed.conditions, List.map_append]
  have vars := renamed.walk.vars
  unfold ClauseWalk.mentionNode
  simp only [vars.resolve_eq]
  rcases rel_cases (vars.get? (state.walk.vars.resolve id)) with
    ⟨missing, gone⟩ | ⟨⟨_, _, scope, definition⟩, ⟨_, _, scopeOther, definitionOther⟩,
      found, there, same⟩
  · simp only [missing, gone]
    exact .fail rfl
  · obtain ⟨-, rfl, kind, -⟩ := same
    simp only [found, there]
    cases kind with
    | node node =>
        have extra : (pattern.rename ρ).labels.filter (· ∉ (node.rename ρ).labels)
            = pattern.labels.filter (· ∉ node.labels) := rfl
        simp only [extra, renamed.walk.scope, ne_eq, ρ.eq_iff]
        split
        · exact conditions renamed
        · split
          · exact .fail rfl
          · exact conditions (renamed.addLabels (VarTable.definition?_of_get? found) _)
    | _ => exact .fail rfl

/-- A node or relationship that is declared becomes visible under its name. -/
theorem bindNew (renamed : state.Renamed ρ other) {new newOther : VarId × Walk}
    (declared : Both (ImageOf ρ) (Walk.Renamed ρ) new newOther) (name : Option String)
    : Renamed ρ { state with walk := new.2.bind name new.1, ids := state.ids ++ [new.1] }
        { other with
          walk := newOther.2.bind (name.map ρ) newOther.1
          ids := other.ids ++ [newOther.1] } := by
  obtain ⟨id, walk⟩ := new
  obtain ⟨_, walkOther⟩ := newOther
  obtain ⟨rfl, walks⟩ := declared
  refine { renamed with walk := walks.bind name id, ids := ?_ }
  simp only [renamed.ids, List.map_append, List.map_cons, List.map_nil]

theorem newNode (renamed : state.Renamed ρ other) (pattern : NodePattern)
    : SameOutcome (Taken ρ) (state.newNode pattern) (other.newNode (pattern.rename ρ)) := by
  have base : (pattern.rename ρ).name.getD "anon_n" = ρ (pattern.name.getD "anon_n") := by
    cases named : pattern.name <;> simp [NodePattern.rename, named, ρ.node]
  unfold ClauseWalk.newNode
  simp only [base, renamed.walk.naming.fresh_name]
  refine (renamed.walk.propertyConditions _ pattern.properties).bind_image fun conditions => ?_
  have declared := renamed.walk.declare (pattern.name.getD "anon_n")
    (fun id =>
      (pattern.name.getD id, .node
        { labels := .ofList pattern.labels
          restriction := Expr.conjoin conditions
          required := ∅
          binding := none }))
    (fun id =>
      ((pattern.rename ρ).name.getD id, .node
        { labels := .ofList (pattern.rename ρ).labels
          restriction := Expr.conjoin (conditions.map (Expr.rename ρ))
          required := ∅
          binding := none }))
    (fun id => by
      rw [Expr.conjoin_rename]
      exact .node _)
    (fun id _ => by cases named : pattern.name <;> simp [NodePattern.rename, named])
  exact .ok ⟨declared.fst, renamed.bindNew declared pattern.name⟩

theorem takeNode (renamed : state.Renamed ρ other) (pattern : NodePattern)
    : SameOutcome (Taken ρ) (state.takeNode pattern) (other.takeNode (pattern.rename ρ)) := by
  have name : (pattern.rename ρ).name = pattern.name.map ρ := rfl
  unfold ClauseWalk.takeNode
  rw [name]
  cases pattern.name with
  | none => exact renamed.newNode pattern
  | some name =>
      simp only [Option.map_some, renamed.walk.get?_eq]
      cases state.walk.visible.get? name with
      | none => exact renamed.newNode pattern
      | some id => exact renamed.mentionNode pattern name id

/-- Nodes are taken alike, by induction over them. -/
theorem takeNodes (renamed : state.Renamed ρ other) (patterns : List NodePattern)
    : SameOutcome (Both (ImageOf (List.map ρ)) (Renamed ρ)) (state.takeNodes patterns)
        (other.takeNodes (patterns.map (NodePattern.rename ρ))) := by
  induction patterns generalizing state other with
  | nil => exact .ok ⟨rfl, renamed⟩
  | cons pattern rest ih =>
      refine (renamed.takeNode pattern).bind ?_
      rintro ⟨id, later⟩ ⟨_, laterOther⟩ ⟨rfl, renamed⟩
      refine (ih renamed).bind ?_
      rintro ⟨ids, last⟩ ⟨_, lastOther⟩ ⟨rfl, renamed⟩
      exact .ok ⟨rfl, renamed⟩

theorem newRelationship (renamed : state.Renamed ρ other) (pattern : RelationshipPattern)
    (left right : VarId)
    : SameOutcome (Taken ρ) (state.newRelationship pattern left right)
        (other.newRelationship (pattern.rename ρ) (ρ left) (ρ right)) := by
  have base : (pattern.rename ρ).name.getD "anon_r" = ρ (pattern.name.getD "anon_r") := by
    cases named : pattern.name <;> simp [RelationshipPattern.rename, named, ρ.relationship]
  unfold ClauseWalk.newRelationship
  simp only [base, renamed.walk.naming.fresh_name]
  refine (renamed.walk.propertyConditions _ pattern.properties).bind_image fun conditions => ?_
  have declared := renamed.walk.declare (pattern.name.getD "anon_r")
    (fun id =>
      (pattern.name.getD id, .relationship
        { left
          right
          direction := pattern.direction
          types := pattern.types
          restriction := Expr.conjoin conditions
          required := ∅
          binding := none }))
    (fun id =>
      ((pattern.rename ρ).name.getD id, .relationship
        { left := ρ left
          right := ρ right
          direction := (pattern.rename ρ).direction
          types := (pattern.rename ρ).types
          restriction := Expr.conjoin (conditions.map (Expr.rename ρ))
          required := ∅
          binding := none }))
    (fun id => by
      rw [Expr.conjoin_rename]
      exact .relationship _)
    (fun id _ => by cases named : pattern.name <;> simp [RelationshipPattern.rename, named])
  have bound := renamed.bindNew declared pattern.name
  have id := declared.fst
  refine .ok ⟨id, { bound with relationships := ?_ }⟩
  simp only [id, renamed.relationships, List.map_append, List.map_cons, List.map_nil]

theorem takeRelationship (renamed : state.Renamed ρ other) (pattern : RelationshipPattern)
    (left right : VarId)
    : SameOutcome (Taken ρ) (state.takeRelationship pattern left right)
        (other.takeRelationship (pattern.rename ρ) (ρ left) (ρ right)) := by
  cases range : pattern.length with
  | some range =>
      simp only [ClauseWalk.takeRelationship, RelationshipPattern.rename, range]
      exact .fail rfl
  | none =>
      have conflict (name : String) (id : VarId)
          : (relationshipConflict other.walk.vars (ρ name) (ρ id)).category
            = (relationshipConflict state.walk.vars name id).category := by
        have vars := renamed.walk.vars
        simp only [relationshipConflict, vars.resolve_eq]
        rcases rel_cases (vars.definition? (state.walk.vars.resolve id)) with
          ⟨missing, gone⟩ | ⟨definition, new, found, there, same⟩
        · simp only [missing, gone]
          rfl
        · simp only [found, there]
          cases same <;> rfl
      have visible
          : ((pattern.rename ρ).name.bind fun name => (other.walk.visible.get? name).map (name, ·))
          = (pattern.name.bind fun name => (state.walk.visible.get? name).map (name, ·)).map
              (Prod.map ρ ρ) := by
        cases named : pattern.name with
        | none => simp [RelationshipPattern.rename, named]
        | some name =>
            simp only [RelationshipPattern.rename, named, Option.map_some, Option.bind_some,
              renamed.walk.get?_eq, Option.map_map]
            rfl
      have length : (pattern.rename ρ).length = none := range
      simp only [ClauseWalk.takeRelationship, range, length, visible]
      cases pattern.name.bind fun name => (state.walk.visible.get? name).map (name, ·) with
      | none => exact renamed.newRelationship pattern left right
      | some known => exact .fail (conflict known.1 known.2)

/-- Relationships are taken alike, by induction over them. -/
theorem takeRelationships (renamed : state.Renamed ρ other) (left : VarId)
    (patterns : List (RelationshipPattern × VarId))
    : SameOutcome (Both (ImageOf (List.map ρ)) (Renamed ρ)) (state.takeRelationships left patterns)
        (other.takeRelationships (ρ left)
          (patterns.map fun (pattern, right) => (pattern.rename ρ, ρ right))) := by
  induction patterns generalizing state other left with
  | nil => exact .ok ⟨rfl, renamed⟩
  | cons pattern rest ih =>
      obtain ⟨pattern, right⟩ := pattern
      refine (renamed.takeRelationship pattern left right).bind ?_
      rintro ⟨id, later⟩ ⟨_, laterOther⟩ ⟨rfl, renamed⟩
      refine (ih renamed right).bind ?_
      rintro ⟨ids, last⟩ ⟨_, lastOther⟩ ⟨rfl, renamed⟩
      exact .ok ⟨rfl, renamed⟩

theorem newPath (renamed : state.Renamed ρ other) (name : String) (start : VarId)
    (hops : List (VarId × VarId))
    : SameOutcome (Renamed ρ) (state.newPath name start hops)
        (other.newPath (ρ name) (ρ start) (hops.map (Prod.map ρ ρ))) := by
  simp only [ClauseWalk.newPath, renamed.walk.get?_eq]
  cases state.walk.visible.get? name with
  | some id => exact .fail rfl
  | none =>
      let elements := start :: hops.flatMap fun hop => [hop.1, hop.2]
      have elementsOther {ends : VarId × VarId → List VarId}
        (both : ∀ hop, ends hop = [hop.1, hop.2])
          : ρ start :: (hops.map (Prod.map ρ ρ)).flatMap ends = elements.map ρ := by
        simp [elements, both, List.flatMap_map, List.map_flatMap]
      have declared := renamed.walk.declare name (fun _ => (name, .path hops.length elements))
        (fun _ => (ρ name, .path hops.length (elements.map ρ))) (fun _ => .path _ _)
        (fun _ _ => rfl)
      have walk := declared.snd.bind (some name) (state.walk.declare name fun _ =>
        (name, .path hops.length elements)).1
      rw [← declared.fst] at walk
      simp only [Option.map_none, elementsOther fun _ => rfl, List.length_map]
      exact .ok { renamed with walk }

theorem takePath (renamed : state.Renamed ρ other) (path : PathPattern)
    : SameOutcome (Renamed ρ) (state.takePath path) (other.takePath (path.rename ρ)) := by
  have nodes
      : (path.rename ρ).hops.map (·.2) = (path.hops.map (·.2)).map (NodePattern.rename ρ) := by
    simp [PathPattern.rename]
  have relationships : (path.rename ρ).relationships
      = path.relationships.map (RelationshipPattern.rename ρ) := by
    simp [PathPattern.relationships, PathPattern.rename]
  unfold ClauseWalk.takePath
  refine (renamed.takeNode path.start).bind ?_
  rintro ⟨start, first⟩ ⟨_, firstOther⟩ ⟨rfl, renamed⟩
  rw [nodes]
  refine (renamed.takeNodes _).bind ?_
  rintro ⟨ids, second⟩ ⟨_, secondOther⟩ ⟨rfl, renamed⟩
  have zipped : (path.rename ρ).relationships.zip (ids.map ρ)
      = (path.relationships.zip ids).map fun (pattern, right) => (pattern.rename ρ, ρ right) := by
    rw [relationships, List.zip_map]
    rfl
  dsimp only
  rw [zipped]
  refine (renamed.takeRelationships start _).bind ?_
  rintro ⟨rels, third⟩ ⟨_, thirdOther⟩ ⟨rfl, renamed⟩
  cases named : path.name with
  | none =>
      simp only [PathPattern.rename, named, Option.map_none]
      exact .ok renamed
  | some name =>
      simp only [PathPattern.rename, named, Option.map_some, List.zip_map]
      exact renamed.newPath name start (rels.zip ids)

end Renamed

end ClauseWalk

namespace Walk.Renamed

variable {walk other : Walk}

theorem takeMatch (renamed : walk.Renamed ρ other) (clause : MatchClause)
    : SameOutcome (Walk.Renamed ρ) (walk.takeMatch clause) (other.takeMatch (clause.rename ρ)) := by
  have reading {state stateOther : ClauseWalk} (renamed : state.Renamed ρ stateOther)
      (conditions : List Expr)
      : Walk.Renamed ρ
          { state.walk with
            clauses := state.walk.clauses ++ [
              { optional := clause.optional
                ids := state.ids
                relationships := state.relationships
                condition := Expr.conjoin conditions }] }
          { stateOther.walk with
            clauses := stateOther.walk.clauses ++ [
              { optional := clause.optional
                ids := stateOther.ids
                relationships := stateOther.relationships
                condition := Expr.conjoin (conditions.map (Expr.rename ρ)) }] } := by
    refine { renamed.walk with clauses := ?_ }
    simp [renamed.walk.clauses, renamed.ids, renamed.relationships, Expr.conjoin_rename,
      ReadingClause.rename]
  have start : ClauseWalk.Renamed ρ { walk, ids := [], relationships := [], conditions := [] }
      { walk := other, ids := [], relationships := [], conditions := [] } :=
    ⟨renamed, rfl, rfl, rfl⟩
  have condition : (clause.rename ρ).condition = clause.condition.map (Cypher.Expr.rename ρ) := rfl
  unfold Walk.takeMatch
  refine (SameOutcome.foldlM (PathPattern.rename ρ) clause.patterns start fun _ _ path renamed =>
    renamed.takePath path).bind ?_
  intro state stateOther renamed
  rw [condition]
  cases clause.condition with
  | none =>
      dsimp only [Option.map_none]
      rw [renamed.conditions]
      exact .ok (reading renamed state.conditions)
  | some condition =>
      refine (renamed.walk.resolve condition).bind_image fun condition => ?_
      rw [renamed.conditions, Expr.conjuncts_rename, ← List.map_append]
      exact .ok (reading renamed _)

theorem declareColumn (renamed : walk.Renamed ρ other) (column columnOther : String)
    : Both (ImageOf ρ) (Walk.Renamed ρ) (walk.declareColumn column)
      (other.declareColumn columnOther) := by
  have declared := renamed.declare "col" (fun _ => (column, .temporary column))
    (fun _ => (columnOther, .temporary columnOther)) (fun _ => .temporary _ _) nofun
  rw [ρ.column] at declared
  exact declared

/-- The result of taking items, and the same with the variables under their new ids. -/
abbrev Taken (ρ : Renaming) {α : Type} (rename : α → α)
    : α × Visible × Walk → α × Visible × Walk → Prop :=
  Both (ImageOf rename) (Both (ImageOf (Visible.rename ρ)) (Walk.Renamed ρ))

theorem takeItem (renamed : walk.Renamed ρ other) (kind : ScopeKind) (next : Visible)
    {item itemOther : ProjectionItem} (same : itemOther.unworded = (item.rename ρ).unworded)
    : SameOutcome (Taken ρ (Item.rename ρ)) (walk.takeItem kind next item)
        (other.takeItem kind (next.rename ρ) itemOther) := by
  obtain ⟨expr, aliasName, text⟩ := item
  obtain ⟨exprOther, aliasOther, textOther⟩ := itemOther
  obtain ⟨sameExpr, sameAlias, -⟩ := ProjectionItem.mk.inj same
  obtain rfl : exprOther = expr.rename ρ := sameExpr
  obtain rfl : aliasOther = aliasName.map ρ := sameAlias
  have visible (name : String)
      : ((next.rename ρ).get? (ρ name)).isSome = (next.get? name).isSome := by
    rw [Visible.get?_rename, Option.isSome_map]
  unfold Walk.takeItem
  refine (renamed.resolve expr).bind_image fun resolved => ?_
  cases aliasName with
  | some name =>
      simp only [Option.map_some, visible]
      split
      · exact .fail rfl
      · have declared := renamed.declare name (fun _ => (name, .projected resolved none))
          (fun _ => (ρ name, .projected (resolved.rename ρ) none)) (fun _ => .projected _ _)
          (fun _ _ => rfl)
        refine .ok ⟨congrArg Item.named declared.fst, ?_, declared.snd⟩
        rw [declared.fst]
        exact Visible.insert_rename ρ next name _
  | none =>
      have column (text textOther : String) (next : Visible)
          : SameOutcome (Taken ρ (Item.rename ρ))
              (.ok (.unnamed resolved (walk.declareColumn text).1, next,
                (walk.declareColumn text).2))
              (.ok (.unnamed (resolved.rename ρ) (other.declareColumn textOther).1, next.rename ρ,
                (other.declareColumn textOther).2)) := by
        have declared := renamed.declareColumn text textOther
        exact .ok ⟨congrArg (Item.unnamed (resolved.rename ρ)) declared.fst, rfl, declared.snd⟩
      cases kind with
      | returnClause => exact column text textOther next
      | withClause =>
          cases expr with
          | var name =>
              simp only [Option.map_none, Cypher.Expr.rename, visible, Expr.reference?_rename]
              split
              · exact .fail rfl
              · cases resolved.reference? with
                | none => exact column name (ρ name) next
                | some id =>
                    simp only [Option.map_some, Option.elim_some, Visible.insert_rename]
                    exact column name (ρ name) (next.insert name id)
          | _ => exact .fail rfl

/-- Items are taken alike, by induction over them. -/
theorem takeItems (renamed : walk.Renamed ρ other) (kind : ScopeKind) (next : Visible)
    {items itemsOther : List ProjectionItem}
    (same : itemsOther.map ProjectionItem.unworded
      = (items.map (ProjectionItem.rename ρ)).map ProjectionItem.unworded)
    : SameOutcome (Taken ρ (List.map (Item.rename ρ))) (walk.takeItems kind next items)
        (other.takeItems kind (next.rename ρ) itemsOther) := by
  induction items generalizing walk other next itemsOther with
  | nil =>
      obtain rfl := List.map_eq_nil_iff.mp same
      exact .ok ⟨rfl, rfl, renamed⟩
  | cons item rest ih =>
      obtain ⟨first, others, rfl, one, same⟩ := List.map_eq_cons_iff.mp same
      refine (renamed.takeItem kind next one).bind ?_
      rintro ⟨item, next, later⟩ ⟨_, _, laterOther⟩ ⟨rfl, rfl, renamed⟩
      refine (ih renamed next same).bind ?_
      rintro ⟨items, next, last⟩ ⟨_, _, lastOther⟩ ⟨rfl, rfl, renamed⟩
      exact .ok ⟨rfl, rfl, renamed⟩

theorem closeScope (renamed : walk.Renamed ρ other) (kind : ScopeKind)
    {projection projectionOther : Projection}
    (same : projectionOther.unworded = (projection.rename ρ).unworded)
    (condition : Option Cypher.Expr)
    : SameOutcome (Walk.Renamed ρ) (walk.closeScope kind projection condition)
        (other.closeScope kind projectionOther (condition.map (Cypher.Expr.rename ρ))) := by
  obtain ⟨distinct, items, orderBy, skip, limit⟩ := projection
  obtain ⟨distinctOther, itemsOther, orderByOther, skipOther, limitOther⟩ := projectionOther
  obtain ⟨sameDistinct, sameItems, sameOrder, sameSkip, sameLimit⟩ := Projection.mk.inj same
  obtain rfl : distinctOther = distinct := sameDistinct
  obtain rfl : orderByOther = orderBy.map (Cypher.SortItem.rename ρ) := sameOrder
  obtain rfl : skipOther = skip.map (Cypher.Expr.rename ρ) := sameSkip
  obtain rfl : limitOther = limit.map (Cypher.Expr.rename ρ) := sameLimit
  have closed (expr : Option Cypher.Expr)
      : SameOutcome (ImageOf (Option.map (Expr.rename ρ))) (resolveClosed expr)
          (resolveClosed (expr.map (Cypher.Expr.rename ρ))) :=
    SameOutcome.relator.optionMapM _ _ expr fun expr => resolveExpr_rename (fun _ => rfl) expr
  unfold Walk.closeScope
  refine (renamed.takeItems kind .none sameItems).bind ?_
  rintro ⟨items, next, walk⟩ ⟨_, _, other⟩ ⟨rfl, rfl, renamed⟩
  replace renamed : walk.Renamed ρ other := renamed
  have sortable (name : String)
      : (other.visible.insertAll (next.rename ρ)).get? (ρ name)
        = ((walk.visible.insertAll next).get? name).map ρ := by
    rw [renamed.visible, Visible.insertAll_rename, Visible.get?_rename]
  refine (SameOutcome.relator.mapM (Cypher.SortItem.rename ρ) (SortKey.rename ρ) fun key _ =>
    ?_).bind_image
    fun orderBy => ?_
  · exact (resolveExpr_rename sortable key.expr).bind_image fun expr => .ok rfl
  refine (closed skip).bind_image fun skip => ?_
  refine (closed limit).bind_image fun limit => ?_
  refine (SameOutcome.relator.optionMapM _ (Expr.rename ρ) condition fun expr =>
    resolveExpr_rename (Visible.get?_rename ρ next) expr).bind_image fun filter => ?_
  refine .ok { renamed with
    models := ?_
    scope := ?_
    visible := rfl
    clauses := rfl
    filter := rfl
  }
  · simp only [renamed.models, renamed.clauses, renamed.filter, List.map_append, List.map_cons,
      List.map_nil]
    rfl
  · simp only [renamed.models, List.length_map]

/-- Clauses are taken alike, by induction over them. -/
theorem takeClauses (renamed : walk.Renamed ρ other) (returned : Bool)
    {clauses clausesOther : List Cypher.Clause}
    (same : clausesOther.map Cypher.Clause.unworded
      = (clauses.map (Cypher.Clause.rename ρ)).map Cypher.Clause.unworded)
    : SameOutcome (Walk.Renamed ρ) (walk.takeClauses returned clauses)
        (other.takeClauses returned clausesOther) := by
  induction clauses generalizing walk other returned clausesOther with
  | nil =>
      obtain rfl := List.map_eq_nil_iff.mp same
      cases returned with
      | true => exact .ok renamed
      | false => exact .fail rfl
  | cons clause rest ih =>
      obtain ⟨first, others, rfl, sameFirst, sameRest⟩ := List.map_eq_cons_iff.mp same
      unfold Walk.takeClauses
      split
      · exact .fail rfl
      cases clause with
      | matching clause =>
          cases first with
          | matching first =>
              obtain rfl := Cypher.Clause.matching.inj sameFirst
              exact (renamed.takeMatch clause).bind fun _ _ renamed => ih renamed false sameRest
          | _ => cases sameFirst
      | withItems projection condition =>
          cases first with
          | withItems projectionOther conditionOther =>
              obtain ⟨sameItems, rfl⟩ := Cypher.Clause.withItems.inj sameFirst
              exact (renamed.closeScope .withClause sameItems condition).bind fun _ _ renamed =>
                ih renamed false sameRest
          | _ => cases sameFirst
      | returnItems projection =>
          cases first with
          | returnItems projectionOther =>
              have sameItems := Cypher.Clause.returnItems.inj sameFirst
              exact (renamed.closeScope .returnClause sameItems none).bind fun _ _ renamed =>
                ih renamed true sameRest
          | _ => cases sameFirst

end Walk.Renamed

/-- A query with other names, and any texts of its items, is collected like the query. -/
theorem collect_rename {query other : Cypher.Query}
    (renamed : other.unworded = (query.rename ρ).unworded)
    : SameOutcome (Walk.Renamed ρ) (collect query) (collect other) :=
  Walk.renamed_start.takeClauses false (Cypher.Query.mk.inj renamed)

end CypherSql.Plan
