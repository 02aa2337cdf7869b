import CypherSql.Proofs.FilterPlacement
import CypherSql.Proofs.Inlining.Dropping
import CypherSql.Proofs.Integrity.Sources
import CypherSql.Proofs.IntegerLiterals
import CypherSql.Proofs.OpenedComments

/-! The parameters of a lowered query. Lowering makes none: those of its tree are parameters of the
query as it was written, whose names are words. So what is proved of the SQL of plain queries holds
of every query that is read and lowered.
-/

namespace CypherSql.Plan

open Cypher (NodePattern RelationshipPattern PathPattern MatchClause Projection ProjectionItem)

section Asked

variable {allowed : String → Prop}

namespace Expr

/-- The parameter that a part may be has an allowed name. -/
def PartAsks (allowed : String → Prop) : Expr → Prop
  | .parameter name => allowed name
  | _ => True

/-- The parameters of an expression have allowed names. -/
def Asks (allowed : String → Prop) (expr : Expr) : Prop :=
  ∀ part ∈ expr.parts, part.PartAsks allowed

theorem inherited_asks : Inherited (Asks allowed) :=
  inherited_parts fun part compound => by cases part <;> trivial

@[simp]
theorem asks_literal {value : Literal} : (Expr.literal value).Asks allowed := by
  simp [Asks, parts, PartAsks]

@[simp]
theorem asks_star : Expr.star.Asks allowed := by
  simp [Asks, parts, PartAsks]

@[simp]
theorem asks_var {id : VarId} : (Expr.var id).Asks allowed := by
  simp [Asks, parts, PartAsks]

@[simp]
theorem asks_column {id : VarId} {name : String} : (Expr.column id name).Asks allowed := by
  simp [Asks, parts, PartAsks]

@[simp]
theorem asks_parameter {name : String} : (Expr.parameter name).Asks allowed ↔ allowed name := by
  simp [Asks, parts, PartAsks]

/-- A resolved expression has the parameters of the written one. -/
theorem asks_of_resolveExpr {step : Step} {lookup : String → Option VarId} {expr : Cypher.Expr}
    (written : ∀ name, .parameter name ∈ expr.parts → allowed name)
    : Modality.ofOk.Holds (Asks allowed) (resolveExpr step lookup expr) := by
  have held : HeldByNames (Asks allowed) lookup := { inherited_asks with
    literal := fun _ => asks_literal
    star := asks_star
    known := fun _ _ _ => asks_var
  }
  intro resolved succeeded
  exact (held.resolveExpr expr fun name inside => asks_parameter.mpr (written name inside)).of_ok
    succeeded

end Expr

/-- The parameters of what a variable projects, and of the condition on it, have allowed names. -/
def Definition.Asks (allowed : String → Prop) (definition : Definition) : Prop :=
  (∀ expr ∈ definition.projection?, expr.Asks allowed)
  ∧ ∀ expr ∈ definition.restriction?, expr.Asks allowed

/-- The parameters of what variables project, and of the conditions on them, have allowed names. -/
def VarTable.Asks (allowed : String → Prop) (vars : VarTable) : Prop :=
  ∀ id var, vars.get? id = some var → var.definition.Asks allowed

/-- The parameters of the conditions of clauses have allowed names. -/
def ClausesAsk (allowed : String → Prop) (clauses : List ReadingClause) : Prop :=
  ∀ clause ∈ clauses, ∀ expr ∈ clause.condition, expr.Asks allowed

/-- The parameters of the expressions of a collected scope have allowed names. -/
structure ScopeModel.Asks (allowed : String → Prop) (model : ScopeModel) : Prop where
  clauses : ClausesAsk allowed model.clauses
  items : ∀ expr column, .unnamed expr column ∈ model.items → expr.Asks allowed
  orderBy : ∀ key ∈ model.orderBy, key.expr.Asks allowed
  skip : ∀ expr ∈ model.skip, expr.Asks allowed
  limit : ∀ expr ∈ model.limit, expr.Asks allowed
  filter : ∀ expr ∈ model.filter, expr.Asks allowed

/-- The parameters of all that was collected have allowed names. -/
structure Walk.Asks (allowed : String → Prop) (walk : Walk) : Prop where
  vars : walk.vars.Asks allowed
  models : ∀ model ∈ walk.models, model.Asks allowed
  clauses : ClausesAsk allowed walk.clauses
  filter : ∀ expr ∈ walk.filter, expr.Asks allowed

/-- The parameters of all that was collected up to a place in a clause have allowed names. -/
structure ClauseWalk.Asks (allowed : String → Prop) (state : ClauseWalk) : Prop where
  walk : state.walk.Asks allowed
  conditions : ∀ condition ∈ state.conditions, condition.Asks allowed

/-- The parameters of the expressions have allowed names. -/
def WrittenAsk (allowed : String → Prop) (exprs : List Cypher.Expr) : Prop :=
  ∀ expr ∈ exprs, ∀ name, .parameter name ∈ expr.parts → allowed name

theorem VarTable.Asks.redefine {vars : VarTable} (asks : vars.Asks allowed) (id : VarId)
    {definition : Definition} (own : definition.Asks allowed)
    : (vars.redefine id definition).Asks allowed := by
  intro other var found
  rw [VarTable.get?_redefine] at found
  split at found
  · obtain ⟨old, -, rfl⟩ := Option.map_eq_some_iff.mp found
    exact own
  · exact asks other var found

namespace Walk.Asks

variable {walk : Walk}

theorem declare (asks : walk.Asks allowed) (base : String) {make : VarId → String × Definition}
    (own : ∀ id, (make id).2.Asks allowed)
    : (walk.declare base make).2.Asks allowed := by
  refine { asks with vars := fun id var found => ?_ }
  rw [Walk.declare, VarTable.get?_insert] at found
  split at found
  · obtain rfl := Option.some.inj found
    exact own _
  · exact asks.vars id var found

theorem bind (asks : walk.Asks allowed) (name : Option String) (id : VarId)
    : (walk.bind name id).Asks allowed := by
  cases name with
  | none => exact asks
  | some name => exact { asks with }

/-- The equations of a property map have its parameters. -/
theorem propertyConditions {id : VarId} {properties : Cypher.Properties}
    (written : WrittenAsk allowed properties.expressions)
    : Modality.ofOk.Holds (fun conditions => ∀ condition ∈ conditions, condition.Asks allowed)
        (walk.propertyConditions id properties) := by
  refine Modality.ofOk.mapM_all fun entry listed => ?_
  have own := written entry.2 (List.mem_map_of_mem listed)
  refine Modality.ofOk.bind (Expr.asks_of_resolveExpr own) fun value asks => Modality.ofOk.pure ?_
  exact Expr.inherited_asks.binary.mpr
    ⟨Expr.inherited_asks.property.mpr Expr.asks_var, asks⟩

end Walk.Asks

namespace ClauseWalk.Asks

variable {state : ClauseWalk}

theorem addConditions (asks : state.Asks allowed) {conditions : List Expr}
    (all : ∀ condition ∈ conditions, condition.Asks allowed)
    : ({ state with conditions := state.conditions ++ conditions } : ClauseWalk).Asks allowed :=
  ⟨asks.walk, List.forall_mem_append.mpr ⟨asks.conditions, all⟩⟩

theorem mentionNode (asks : state.Asks allowed) {pattern : NodePattern}
    (written : WrittenAsk allowed pattern.properties.expressions) (name : String) (id : VarId)
    : Modality.ofOk.Holds (fun result => result.2.Asks allowed)
        (state.mentionNode pattern name id) := by
  have last {middle : ClauseWalk} (asks : middle.Asks allowed)
      : Modality.ofOk.Holds (fun result => result.2.Asks allowed) (do
          let conditions ← middle.walk.propertyConditions id pattern.properties
          return (id, { middle with conditions := middle.conditions ++ conditions })) :=
    Modality.ofOk.bind (Walk.Asks.propertyConditions written) fun _ all =>
      Modality.ofOk.pure (asks.addConditions all)
  unfold ClauseWalk.mentionNode
  dsimp only
  split
  · rename_i node found
    have own := asks.walk.vars _ _ found
    split
    · exact last asks
    · split
      · exact Modality.ofOk_error
      · exact last ⟨{ asks.walk with vars := asks.walk.vars.redefine _ own }, asks.conditions⟩
  · exact Modality.ofOk_error
  · exact Modality.ofOk_error

theorem declareElement (asks : state.Asks allowed) (base : String) (name : Option String)
    (make : VarId → String × Definition) (own : ∀ id, (make id).2.Asks allowed)
    (ids relationships : List VarId)
    : ({ state with
          walk := (state.walk.declare base make).2.bind name (state.walk.declare base make).1
          ids, relationships } : ClauseWalk).Asks allowed :=
  ⟨(asks.walk.declare base own).bind name _, asks.conditions⟩

theorem newNode (asks : state.Asks allowed) {pattern : NodePattern}
    (written : WrittenAsk allowed pattern.properties.expressions)
    : Modality.ofOk.Holds (fun result => result.2.Asks allowed) (state.newNode pattern) := by
  refine Modality.ofOk.bind (Walk.Asks.propertyConditions written) fun conditions all => ?_
  have declared := asks.declareElement (pattern.name.getD "anon_n") pattern.name
    (fun id => (pattern.name.getD id, .node
      { labels := .ofList pattern.labels
        restriction := Expr.conjoin conditions
        required := ∅
        binding := none }))
    (fun id => ⟨nofun, fun expr joined => Expr.inherited_asks.conjoin all joined⟩)
  exact Modality.ofOk.pure (declared _ _)

theorem takeNode (asks : state.Asks allowed) {pattern : NodePattern}
    (written : WrittenAsk allowed pattern.properties.expressions)
    : Modality.ofOk.Holds (fun result => result.2.Asks allowed) (state.takeNode pattern) := by
  unfold ClauseWalk.takeNode
  split
  · split
    · exact asks.mentionNode written _ _
    · exact asks.newNode written
  · exact asks.newNode written

theorem takeRelationship (asks : state.Asks allowed) {pattern : RelationshipPattern}
    (written : WrittenAsk allowed pattern.properties.expressions) (left right : VarId)
    : Modality.ofOk.Holds (fun result => result.2.Asks allowed)
        (state.takeRelationship pattern left right) := by
  unfold ClauseWalk.takeRelationship
  split
  · exact Modality.ofOk_error
  · split
    · exact Modality.ofOk_error
    · refine Modality.ofOk.bind (Walk.Asks.propertyConditions written) fun conditions all => ?_
      have declared := asks.declareElement (pattern.name.getD "anon_r") pattern.name
        (fun id => (pattern.name.getD id, .relationship
          { left
            right
            direction := pattern.direction
            types := pattern.types
            restriction := Expr.conjoin conditions
            required := ∅
            binding := none }))
        (fun id => ⟨nofun, fun expr joined => Expr.inherited_asks.conjoin all joined⟩)
      exact Modality.ofOk.pure (declared _ _)

/-- Nodes are taken one after the other, by induction over them. -/
theorem takeNodes {patterns : List NodePattern} (asks : state.Asks allowed)
    (written : ∀ pattern ∈ patterns, WrittenAsk allowed pattern.properties.expressions)
    : Modality.ofOk.Holds (fun result => result.2.Asks allowed) (state.takeNodes patterns) := by
  induction patterns generalizing state with
  | nil => exact Modality.ofOk.pure asks
  | cons pattern rest ih =>
      obtain ⟨own, others⟩ := List.forall_mem_cons.mp written
      exact Modality.ofOk.bind (asks.takeNode own) fun _ asks =>
        Modality.ofOk.bind (ih asks others) fun _ asks => Modality.ofOk.pure asks

/-- Relationships are taken one after the other, by induction over them. -/
theorem takeRelationships {entries : List (RelationshipPattern × VarId)}
    (asks : state.Asks allowed) (left : VarId)
    (written : ∀ entry ∈ entries, WrittenAsk allowed entry.1.properties.expressions)
    : Modality.ofOk.Holds (fun result => result.2.Asks allowed)
        (state.takeRelationships left entries) := by
  induction entries generalizing state left with
  | nil => exact Modality.ofOk.pure asks
  | cons entry rest ih =>
      obtain ⟨own, others⟩ := List.forall_mem_cons.mp written
      exact Modality.ofOk.bind (asks.takeRelationship own _ _) fun _ asks =>
        Modality.ofOk.bind (ih asks _ others) fun _ asks => Modality.ofOk.pure asks

theorem newPath (asks : state.Asks allowed) (name : String) (start : VarId)
    (hops : List (VarId × VarId))
    : Modality.ofOk.Holds (ClauseWalk.Asks allowed) (state.newPath name start hops) := by
  unfold ClauseWalk.newPath
  split
  · exact Modality.ofOk_error
  · have declared (elements : List VarId) := asks.declareElement name (some name)
      (fun _ => (name, .path hops.length elements)) fun _ => ⟨nofun, nofun⟩
    exact Modality.ofOk.pure (declared _ _ _)

theorem takePath (asks : state.Asks allowed) {path : PathPattern}
    (written : WrittenAsk allowed path.expressions)
    : Modality.ofOk.Holds (ClauseWalk.Asks allowed) (state.takePath path) := by
  obtain ⟨ofNodes, ofRelationships⟩ := List.forall_mem_append.mp written
  obtain ⟨ofStart, ofOthers⟩ := List.forall_mem_cons.mp (List.forall_mem_flatMap.mp ofNodes)
  refine Modality.ofOk.bind (asks.takeNode ofStart) fun ⟨start, state⟩ asks => ?_
  refine Modality.ofOk.bind (asks.takeNodes ofOthers) fun ⟨nodes, state⟩ asks => ?_
  have written : ∀ entry ∈ path.relationships.zip nodes,
      WrittenAsk allowed entry.1.properties.expressions := fun entry listed =>
    List.forall_mem_flatMap.mp ofRelationships _ (List.of_mem_zip listed).1
  refine Modality.ofOk.bind (asks.takeRelationships start written)
    fun ⟨relationships, state⟩ asks => ?_
  dsimp only
  split
  · exact asks.newPath _ _ _
  · exact Modality.ofOk.pure asks

/-- Paths are taken one after the other, by induction over them. -/
theorem takePaths {paths : List PathPattern} (asks : state.Asks allowed)
    (written : ∀ path ∈ paths, WrittenAsk allowed path.expressions)
    : Modality.ofOk.Holds (ClauseWalk.Asks allowed) (paths.foldlM (·.takePath ·) state) := by
  induction paths generalizing state with
  | nil => exact Modality.ofOk.pure asks
  | cons path rest ih =>
      obtain ⟨own, others⟩ := List.forall_mem_cons.mp written
      rw [List.foldlM_cons]
      exact Modality.ofOk.bind (asks.takePath own) fun _ asks => ih asks others

end ClauseWalk.Asks

namespace Walk.Asks

variable {walk : Walk}

theorem takeMatch (asks : walk.Asks allowed) {clause : MatchClause}
    (written : WrittenAsk allowed (Cypher.Clause.matching clause).expressions)
    : Modality.ofOk.Holds (Walk.Asks allowed) (walk.takeMatch clause) := by
  obtain ⟨ofPatterns, ofCondition⟩ := List.forall_mem_append.mp written
  have start : (ClauseWalk.mk walk [] [] []).Asks allowed := ⟨asks, List.forall_mem_nil _⟩
  refine Modality.ofOk.bind (start.takePaths (List.forall_mem_flatMap.mp ofPatterns))
    fun state asks => ?_
  have last {conditions : List Expr} (all : ∀ condition ∈ conditions, condition.Asks allowed)
      : ClausesAsk allowed (state.walk.clauses
          ++ [⟨clause.optional, state.ids, state.relationships, Expr.conjoin conditions⟩]) :=
    List.forall_mem_append.mpr ⟨asks.walk.clauses, List.forall_mem_singleton.mpr
      fun expr joined => Expr.inherited_asks.conjoin all joined⟩
  split
  · rename_i condition given
    rw [given] at ofCondition
    refine Modality.ofOk.bind (Expr.asks_of_resolveExpr (ofCondition condition (by simp)))
      fun condition own => ?_
    have all := List.forall_mem_append.mpr
      ⟨asks.conditions, Expr.inherited_asks.conjuncts.mpr own⟩
    exact Modality.ofOk.pure { asks.walk with clauses := last all }
  · exact Modality.ofOk.pure { asks.walk with clauses := last asks.conditions }

/-- An item that is projected asks for what its expression does. -/
theorem takeItem (asks : walk.Asks allowed) (kind : ScopeKind) (next : Visible)
    {item : ProjectionItem} (written : WrittenAsk allowed [item.expr])
    : Modality.ofOk.Holds
        (fun result =>
          result.2.2.Asks allowed
          ∧ ∀ expr column, result.1 = .unnamed expr column → expr.Asks allowed)
        (walk.takeItem kind next item) := by
  refine Modality.ofOk.bind (Expr.asks_of_resolveExpr (written item.expr (by simp)))
    fun expr own => ?_
  have named (name : String)
      : (walk.declare name fun _ => (name, .projected expr none)).2.Asks allowed := by
    refine asks.declare name fun _ => ⟨?_, nofun⟩
    rintro _ ⟨⟩
    exact own
  have column (name : String) : (walk.declareColumn name).2.Asks allowed :=
    asks.declare _ fun _ => ⟨nofun, nofun⟩
  have unnamed (id : VarId)
      : ∀ other column, Item.unnamed expr id = .unnamed other column → other.Asks allowed := by
    rintro _ _ ⟨⟩
    exact own
  split
  · split
    · exact Modality.ofOk_error
    · exact Modality.ofOk.pure ⟨named _, nofun⟩
  · split
    · exact Modality.ofOk_error
    · exact Modality.ofOk.pure ⟨column _, unnamed _⟩
  · exact Modality.ofOk_error
  · exact Modality.ofOk.pure ⟨column _, unnamed _⟩

/-- Items are taken one after the other, by induction over them. -/
theorem takeItems (asks : walk.Asks allowed) (kind : ScopeKind) (next : Visible)
    {items : List ProjectionItem} (written : WrittenAsk allowed (items.map (·.expr)))
    : Modality.ofOk.Holds
        (fun result =>
          result.2.2.Asks allowed
          ∧ ∀ expr column, .unnamed expr column ∈ result.1 → expr.Asks allowed)
        (walk.takeItems kind next items) := by
  induction items generalizing walk next with
  | nil => exact Modality.ofOk.pure ⟨asks, nofun⟩
  | cons item rest ih =>
      obtain ⟨own, others⟩ := List.forall_mem_cons.mp written
      refine Modality.ofOk.bind (asks.takeItem kind next (List.forall_mem_singleton.mpr own))
        fun first ⟨asks, ofFirst⟩ => ?_
      refine Modality.ofOk.bind (ih asks first.2.1 others) fun last ⟨asks, ofLast⟩ => ?_
      refine Modality.ofOk.pure ⟨asks, fun expr column member => ?_⟩
      rcases List.mem_cons.mp member with same | later
      · exact ofFirst expr column same.symm
      · exact ofLast expr column later

theorem closeScope (asks : walk.Asks allowed) (kind : ScopeKind) {projection : Projection}
    {condition : Option Cypher.Expr}
    (written : WrittenAsk allowed (projection.expressions ++ condition.toList))
    : Modality.ofOk.Holds (Walk.Asks allowed) (walk.closeScope kind projection condition) := by
  obtain ⟨ofProjection, ofCondition⟩ := List.forall_mem_append.mp written
  obtain ⟨⟨⟨ofItems, ofOrder⟩, ofSkip⟩, ofLimit⟩ := by
    simpa only [Projection.expressions, List.forall_mem_append] using ofProjection
  have perhaps {lookup : String → Option VarId} {expr : Option Cypher.Expr}
      (written : WrittenAsk allowed expr.toList)
      : Modality.ofOk.Holds
        (fun result => ∀ resolved, result = some resolved → resolved.Asks allowed)
          (expr.mapM (resolveExpr .collectVariables lookup)) :=
    Modality.ofOk.optionMapM expr fun item given =>
      Expr.asks_of_resolveExpr (written item (by simp [given]))
  refine Modality.ofOk.bind (asks.takeItems kind .none ofItems) fun taken ofTaken => ?_
  obtain ⟨items, next, later⟩ := taken
  obtain ⟨asks, own⟩ := ofTaken
  have sorting (lookup : String → Option VarId) : Modality.ofOk.Holds
      (fun keys => ∀ key ∈ keys, key.expr.Asks allowed)
      (projection.orderBy.mapM fun key => do
        let expr ← resolveExpr .collectVariables lookup key.expr
        return { expr, descending := key.descending : SortKey }) :=
    Modality.ofOk.mapM_all fun key listed =>
      Modality.ofOk.bind (Expr.asks_of_resolveExpr (ofOrder key.expr (List.mem_map_of_mem listed)))
        fun _ own => Modality.ofOk.pure own
  refine Modality.ofOk.bind (sorting _) fun orderBy sorted => ?_
  refine Modality.ofOk.bind (perhaps ofSkip) fun skip ofSkip => ?_
  refine Modality.ofOk.bind (perhaps ofLimit) fun limit ofLimit => ?_
  refine Modality.ofOk.bind (perhaps ofCondition) fun filter ofFilter => Modality.ofOk.pure ?_
  have model : (ScopeModel.mk kind later.clauses items projection.distinct orderBy skip limit
      later.filter).Asks allowed :=
    ⟨asks.clauses, own, sorted, ofSkip, ofLimit, asks.filter⟩
  exact {
    vars := asks.vars
    models := List.forall_mem_append.mpr ⟨asks.models, List.forall_mem_singleton.mpr model⟩
    clauses := List.forall_mem_nil _
    filter := ofFilter
  }

/-- Clauses are taken one after the other, by induction over them. -/
theorem takeClauses (asks : walk.Asks allowed) (returned : Bool) {clauses : List Cypher.Clause}
    (written : WrittenAsk allowed (clauses.flatMap (·.expressions)))
    : Modality.ofOk.Holds (Walk.Asks allowed) (walk.takeClauses returned clauses) := by
  induction clauses generalizing walk returned with
  | nil =>
      unfold Walk.takeClauses
      split
      · exact Modality.ofOk.pure asks
      · exact Modality.ofOk_error
  | cons clause rest ih =>
      obtain ⟨own, others⟩ := List.forall_mem_append.mp (List.flatMap_cons ▸ written)
      unfold Walk.takeClauses
      split
      · exact Modality.ofOk_error
      · split
        · exact Modality.ofOk.bind (asks.takeMatch own) fun _ asks => ih asks false others
        · exact Modality.ofOk.bind (asks.closeScope .withClause own) fun _ asks =>
            ih asks false others
        · have own := List.forall_mem_append.mpr ⟨own, List.forall_mem_nil _⟩
          exact Modality.ofOk.bind (asks.closeScope .returnClause own) fun _ asks =>
            ih asks true others

end Walk.Asks

/-- What is collected of a query has the parameters that are written in it. -/
theorem collect_asks {query : Cypher.Query} {walk : Walk}
    (written : WrittenAsk allowed (query.clauses.flatMap (·.expressions)))
    (collected : collect query = .ok walk)
    : walk.Asks allowed := by
  have start : Walk.start.Asks allowed := {
    vars := fun id var found => by cases (NameMap.get?_empty id).symm.trans found
    models := List.forall_mem_nil _
    clauses := List.forall_mem_nil _
    filter := nofun
  }
  exact start.takeClauses false written walk collected

/-- The parameters of all expressions of a draft have allowed names. -/
structure Draft.Asks (allowed : String → Prop) (draft : Draft) : Prop where
  vars : draft.vars.Asks allowed
  scopes : ∀ scope ∈ draft.tree.scopes, ∀ expr ∈ scope.expressions, expr.Asks allowed

section Arranged

/-- The conditions of a relationship ask for nothing. -/
theorem Edge.asks_of_mem {edge : Edge} {placed : NameSet} {new : List VarId} {condition : Expr}
    (member : condition ∈ edge.conditions placed new)
    : condition.Asks allowed := by
  have equation (column : String) (node : VarId) : (edge.equation column node).Asks allowed :=
    Expr.inherited_asks.binary.mpr ⟨Expr.asks_column, Expr.asks_var⟩
  have both {op : BinaryOp} {left right : Expr} (first : left.Asks allowed)
      (second : right.Asks allowed)
      : (Expr.binary op left right).Asks allowed :=
    Expr.inherited_asks.binary.mpr ⟨first, second⟩
  unfold Edge.conditions at member
  simp only at member
  split at member
  · cases member
  · split at member
    · rcases List.mem_append.mp member with left | right
      · split at left
        · exact List.mem_singleton.mp left ▸ equation _ _
        · cases left
      · split at right
        · exact List.mem_singleton.mp right ▸ equation _ _
        · cases right
    · split at member
      · split at member
        · refine List.mem_singleton.mp member ▸ both (both ?_ ?_) (both ?_ ?_)
          all_goals exact equation _ _
        · exact List.mem_singleton.mp member ▸ both (equation _ _) (equation _ _)
        · exact List.mem_singleton.mp member ▸ both (equation _ _) (equation _ _)
        · cases member
      · cases member

theorem Expr.joinable_asks : Joinable (fun _ => True) (Asks allowed) := { inherited_asks with
  literal := fun _ => asks_literal
  edge := fun member _ => Edge.asks_of_mem member
}

namespace Walk.Asks

variable {walk : Walk} {model : ScopeModel}

/-- The conditions of a clause, and those on what it declares, ask for what is allowed. -/
theorem clauseConditions (asks : walk.Asks allowed) (member : model ∈ walk.models)
    {clause : ReadingClause} (listed : clause ∈ model.clauses)
    : ∀ condition ∈ clause.conditions walk.vars, condition.Asks allowed := by
  refine List.forall_mem_append.mpr
    ⟨List.forall_mem_flatMap.mpr fun id _ condition inside => ?_, ?_⟩
  · unfold VarTable.conditionsOn at inside
    cases found : walk.vars.definition? id with
    | none => simp [found] at inside
    | some definition =>
        obtain ⟨var, present, rfl⟩ := VarTable.definition?_eq_some.mp found
        cases restricted : var.definition.restriction? with
        | none => simp [found, restricted] at inside
        | some restriction =>
            have own := (asks.vars id var present).2 restriction restricted
            exact Expr.inherited_asks.conjuncts.mpr own condition
              (by simpa [found, restricted] using inside)
  · cases given : clause.condition with
    | none => exact List.forall_mem_nil _
    | some condition =>
        have own := (asks.models model member).clauses clause listed condition given
        exact Expr.inherited_asks.conjuncts.mpr own

theorem requiredConditions (asks : walk.Asks allowed) (member : model ∈ walk.models)
    : ∀ condition ∈ model.requiredConditions walk.vars, condition.Asks allowed := by
  refine List.forall_mem_append.mpr ⟨?_, List.forall_mem_flatMap.mpr fun clause listed => ?_⟩
  · cases given : model.filter with
    | none => exact List.forall_mem_nil _
    | some filter =>
        exact Expr.inherited_asks.conjuncts.mpr ((asks.models model member).filter filter given)
  · exact asks.clauseConditions member (List.mem_of_mem_filter listed)

theorem optionalConditions (asks : walk.Asks allowed) (member : model ∈ walk.models)
    (position : Nat)
    : ∀ condition ∈ model.optionalConditions walk.vars position, condition.Asks allowed := by
  unfold ScopeModel.optionalConditions
  cases found : model.clauses[position]?.filter (·.optional) with
  | none => exact List.forall_mem_nil _
  | some clause =>
      have listed := List.mem_of_getElem? (Option.filter_eq_some_iff.mp found).1
      exact asks.clauseConditions member listed

end Walk.Asks

/-- The conditions of a scope ask for what is allowed once its joins are arranged. -/
structure Scope.ConditionsAsk (allowed : String → Prop) (scope : Scope) : Prop where
  conditions : ∀ condition ∈ scope.select.conditions, condition.Asks allowed
  cleared : ∀ clause ∈ scope.clauses, clause.condition = none
  joins : ∀ join ∈ scope.select.joins, join.condition.Asks allowed

theorem ScopeModel.Routes.conditionsAsk {walk : Walk} {model : ScopeModel} {scope : Scope}
    (routes : model.Routes walk.vars scope) (asks : walk.Asks allowed)
    (member : model ∈ walk.models) {catalog : Catalog} {current : VarTable}
    {result : Scope × VarTable} (arranged : Plan.arrangeScope catalog scope current = .ok result)
    : result.1.ConditionsAsk allowed := by
  unfold Plan.arrangeScope at arranged
  split at arranged
  · cases arranged
  · obtain ⟨⟨narrowed, later⟩, changed, arranged⟩ := bind_eq_ok.mp arranged
    obtain ⟨layout, placed, arranged⟩ := bind_eq_ok.mp arranged
    dsimp only at arranged
    split at arranged
    · cases arranged
    · obtain rfl := Except.ok.inj arranged
      obtain ⟨⟨items, last⟩, narrows, same⟩ := bind_eq_ok.mp changed
      obtain ⟨rfl, rfl⟩ := Prod.mk.inj (Except.ok.inj same)
      have routes
          : model.Routes walk.vars
            { scope with select := { scope.select with fromItems := items } } :=
        routes.retable rfl rfl (eachItem_retables (fun _ _ _ => narrowItem_retables) narrows)
      have joined : layout.Joins (fun _ => True) (Expr.Asks allowed) := by
        refine arrange_joins Expr.joinable_asks (fun _ _ _ _ => trivial) ?_ placed
        intro item listed isOptional condition waits
        obtain ⟨position, inClause⟩ :=
          Option.isSome_iff_exists.mp (routes.numbered item listed isOptional)
        have pending : condition ∈ pendingAt items position :=
          List.mem_flatMap.mpr ⟨item, List.mem_filter.mpr ⟨listed, by simp [inClause]⟩, waits⟩
        exact asks.optionalConditions member position condition
          ((routes.pending position).mem_iff.mp pending)
      exact {
        conditions := fun condition listed =>
          asks.requiredConditions member condition (routes.conditions.mem_iff.mp listed)
        cleared := routes.cleared
        joins := joined.joins
      }

/-- Where the joins of a query are arranged, it asks for what it did as it was written. -/
theorem asks_of_arranged {query : Cypher.Query} {catalog : Catalog} {start arranged : Draft}
    (written : WrittenAsk allowed (query.clauses.flatMap (·.expressions)))
    (begins : Draft.ofQuery query = .ok start)
    (arranges : runSteps catalog Step.arrangeJoins.upTo start = .ok arranged)
    : arranged.Asks allowed := by
  obtain ⟨walk, collected, empty, models, vars⟩ := QueryModel.exists_of_ofQuery begins
  obtain ⟨-, isCollected, -⟩ := (collect_safely query).of_ok collected
  have asks := collect_asks written collected
  have after
      : QueryModel.After ⟨walk.vars, walk.models, isCollected⟩ catalog start .collectVariables :=
    ⟨empty, models, vars⟩
  obtain ⟨tabled, routes, joins⟩ := after.routes arranges
  obtain ⟨-, refined, each, -⟩ := after.arranged arranges
  obtain ⟨conditions, -⟩ := Draft.eachScope_ok (fun _ _ => True)
    (fun old new => ∀ model ∈ walk.models, model.Routes walk.vars old → new.ConditionsAsk allowed)
    joins trivial fun scope rest vars result _ arranged =>
      ⟨fun model member routes => routes.conditionsAsk asks member arranged, trivial⟩
  refine ⟨fun id var found => ?_, fun scope member expr listed => ?_⟩
  · obtain ⟨old, present, -, outline, restriction⟩ := refined.collected found
    obtain ⟨projected, restricted⟩ := asks.vars id old present
    refine ⟨fun expr projects => projected expr ?_, fun expr restricts => ?_⟩
    · rw [← Definition.projection?_outline] at projects ⊢
      rwa [← outline]
    · -- A restriction is the one that was collected, unless it was moved to the scope.
      rcases restriction with same | none
      · exact restricted expr (same ▸ restricts)
      · cases none.symm.trans restricts
  · obtain ⟨position, at'⟩ := List.getElem?_of_mem member
    obtain ⟨old, atOld, kept⟩ := forall₂_getElem?_right conditions at'
    obtain ⟨model, atModel, routed⟩ := forall₂_getElem?_right routes atOld
    have own := kept model (List.mem_of_getElem? atModel) routed
    obtain ⟨model, found, joined, -⟩ := each.each scope member
    have asks := asks.models model (List.mem_of_getElem? found)
    -- The frame is as it was collected; conditions have moved, and are covered by `own`.
    have items : scope.items = model.items := congrArg Scope.items joined.frame
    have orderBy : scope.orderBy = (model.scope scope.index).orderBy :=
      (congrArg Scope.orderBy joined.frame :)
    have skip : scope.skip = model.skip := congrArg Scope.skip joined.frame
    have limit : scope.limit = model.limit := congrArg Scope.limit joined.frame
    simp only [Scope.expressions, List.mem_append, List.mem_filterMap, List.mem_map,
      Option.mem_toList, List.mem_flatMap] at listed
    rcases listed with
      ((((((⟨item, listed, found⟩ | ⟨key, listed, rfl⟩) | found) | found) | listed)
        | ⟨clause, listed, found⟩) | ⟨item, listed, waits⟩) | ⟨join, listed, rfl⟩
    · cases item with
      | named id => cases found
      | unnamed other column =>
          obtain rfl := Option.some.inj found
          exact asks.items other column (items ▸ listed)
    · exact asks.orderBy key (List.mem_of_mem_filter (orderBy ▸ listed))
    · exact asks.skip expr (skip ▸ found)
    · exact asks.limit expr (limit ▸ found)
    · exact own.conditions expr listed
    · cases (own.cleared clause listed).symm.trans found
    · rw [(joined.sound item listed).1] at waits
      cases waits
    · exact own.joins join listed

end Arranged

section Simplified

variable {draft later : Draft}

theorem Expr.simplifiable_asks (vars : VarTable) : Simplifiable vars (Asks allowed) := {
  inherited_asks with
  literal := fun _ => asks_literal
  resolved := fun _ _ => asks_var
  element := fun _ _ _ _ _ _ _ => asks_var
}

section Rewriting

variable {m : Type → Type} [Monad m] (modality : Modality m) {f : VarTable → Site → Expr → m Expr}
  (each
    : ∀ vars site expr,
        expr.Asks allowed → modality.Holds (Expr.Asks allowed) (f vars site expr))

include each

/-- Rewritten projections ask for no more, by induction over the variables. -/
theorem VarTable.Asks.mapProjectionsM (ids : List VarId) {vars : VarTable}
    (asks : vars.Asks allowed)
    : modality.Holds (VarTable.Asks allowed) (mapProjectionsM f ids vars) := by
  induction ids generalizing vars with
  | nil => exact modality.pure asks
  | cons id rest ih =>
      unfold Plan.mapProjectionsM
      split
      · rename_i name other scope expr type found
        refine modality.bind (each vars _ expr ((asks id _ found).1 expr rfl)) fun changed own => ?_
        have redefined : (vars.redefine id (.projected changed type)).Asks allowed :=
          asks.redefine id ⟨by rintro _ ⟨⟩; exact own, nofun⟩
        split
        · exact ih asks
        · refine ih fun other var found => redefined other var ?_
          rwa [VarTable.get?_refresh] at found
      · exact ih asks

theorem Draft.Asks.mapExprsM [LawfulMonad m] (asks : draft.Asks allowed)
    : modality.Holds (Draft.Asks allowed) (draft.mapExprsM f) := by
  refine modality.bind (Tree.mapScopesM_holds modality fun scope member =>
    Scope.mapExprsM_expressions modality fun site expr listed =>
      each _ site expr (asks.scopes scope member expr listed)) fun tree maps => ?_
  refine modality.bind (asks.vars.mapProjectionsM modality each _) fun vars own => modality.pure ?_
  refine ⟨own, fun scope member => ?_⟩
  obtain ⟨old, -, changed⟩ := maps.of_mem member
  exact changed

end Rewriting

theorem Draft.Asks.mapExprs {f : VarTable → Expr → Expr}
    (each : ∀ vars part, part.Asks allowed → (f vars part).Asks allowed)
    (asks : draft.Asks allowed)
    : (draft.mapExprs fun vars _ expr => expr.mapParts (f vars)).Asks allowed :=
  asks.mapExprsM Modality.ofId fun vars _ expr own =>
    Expr.inherited_asks.mapPartsM Modality.ofId (each vars) expr own

theorem Draft.Asks.simplifyFunctions (asks : draft.Asks allowed)
    : Modality.ofOk.Holds (Draft.Asks allowed) (simplifyFunctions draft) :=
  asks.mapExprsM Modality.ofOk fun vars _ expr own =>
    Expr.inherited_asks.mapPartsM Modality.ofOk
      (fun _ => (Expr.simplifiable_asks vars).simplifyFunction) expr own

/-- Where constants are dropped, a number may stand in for one. -/
theorem Draft.Asks.dropConstants (asks : draft.Asks allowed)
    : (dropConstants draft).Asks allowed := by
  have drops := dropConstants_drops draft
  refine ⟨fun id var found => ?_, fun scope member => ?_⟩
  · cases constant : constant? draft.vars id with
    | none => exact asks.vars id var ((drops.vars.others id constant).symm.trans found)
    | some known =>
        obtain ⟨value, scope⟩ := known
        rcases drops.vars.constants id value scope constant with gone | ⟨kept, found', same⟩
        · cases gone.symm.trans found
        · obtain ⟨old, type, present, projects, -⟩ := constant?_eq_some found'
          obtain rfl := Option.some.inj (present.symm.trans found)
          obtain ⟨-, -, -, -, -, isConstant⟩ := constant?_eq_some found'
          rw [projects]
          refine ⟨?_, nofun⟩
          rintro _ ⟨⟩
          exact Expr.inherited_asks.of_isConstant (fun _ => Expr.asks_literal) isConstant
  · have listed := List.mem_map_of_mem (f := Scope.contents) member
    rw [drops.contents] at listed
    obtain ⟨old, present, same⟩ := List.mem_map.mp listed
    have same : old.expressions = scope.expressions := congrArg (·.2.2.1) same
    exact same ▸ asks.scopes old present

theorem Draft.Asks.inlineConstants (asks : draft.Asks allowed)
    : (inlineConstants draft).Asks allowed := by
  refine Draft.Asks.dropConstants (asks.mapExprsM Modality.ofId fun vars site expr own => ?_)
  refine Modality.ofId.pure ?_
  dsimp only
  split
  · exact own
  · exact Expr.inherited_asks.mapPartsM Modality.ofId
      (fun _ => Expr.inherited_asks.inlineConstant (fun _ => Expr.asks_literal) site.scope) expr own

theorem Draft.Asks.markProperties (asks : draft.Asks allowed)
    : (markProperties draft).Asks allowed := by
  have marked (reads : List PropertyRead) {vars : VarTable} (asks : vars.Asks allowed)
      : (reads.foldl markRead vars).Asks allowed := by
    induction reads generalizing vars with
    | nil => exact asks
    | cons read rest ih =>
        refine ih ?_
        obtain same | ⟨id, var, definition, present, outline, restriction, same⟩ :=
          Draft.markRead_cases vars read
        · rwa [same]
        · rw [same]
          obtain ⟨projected, restricted⟩ := asks id var present
          refine asks.redefine id ⟨fun expr projects => projected expr ?_, restriction ▸ restricted⟩
          rw [← Definition.projection?_outline] at projects ⊢
          rwa [← outline]
  exact ⟨marked _ asks.vars, asks.scopes⟩

/-- No step after the arrangement of the joins asks for more. -/
theorem Draft.Asks.runStep {catalog : Catalog} {step : Step} (asks : draft.Asks allowed)
    (late : step ∉ .collectVariables :: Step.arrangeJoins.upTo)
    (succeeded : Plan.runStep catalog step draft = .ok later)
    : later.Asks allowed := by
  cases step with
  | findExports =>
      refine ⟨?_, ?_⟩
      · rw [Draft.findExports_vars succeeded]
        exact asks.vars
      · rw [findExports_scopes succeeded]
        exact asks.scopes
  | simplifyFunctions => exact asks.simplifyFunctions later succeeded
  | simplifyProperties =>
      obtain rfl := Except.ok.inj succeeded
      exact asks.mapExprs (f := simplifyProperty) fun vars _ =>
        (Expr.simplifiable_asks vars).simplifyProperty
  | inlineConstants =>
      obtain rfl := Except.ok.inj succeeded
      exact asks.inlineConstants
  | markProperties =>
      obtain rfl := Except.ok.inj succeeded
      exact asks.markProperties
  | resolveNames =>
      obtain rfl := Except.ok.inj succeeded
      exact asks.mapExprs (f := resolveName) fun vars _ => (Expr.simplifiable_asks vars).resolveName
  | mergeVariants =>
      obtain rfl := Except.ok.inj succeeded
      exact asks
  | _ => exact absurd (by decide) late

/-- A run of such steps asks for no more, by induction over the steps. -/
theorem Draft.Asks.runSteps {catalog : Catalog} {steps : List Step} (asks : draft.Asks allowed)
    (late : ∀ step ∈ steps, step ∉ .collectVariables :: Step.arrangeJoins.upTo)
    (runs : Plan.runSteps catalog steps draft = .ok later)
    : later.Asks allowed := by
  induction steps generalizing draft with
  | nil => exact Except.ok.inj runs ▸ asks
  | cons step rest ih =>
      obtain ⟨first, others⟩ := List.forall_mem_cons.mp late
      obtain ⟨middle, runsFirst, runs⟩ := bind_eq_ok.mp runs
      exact ih (asks.runStep first runsFirst) others runs

end Simplified

/-- A lowered query asks for parameters of the query as it was written. -/
theorem asks_of_lower {query : Cypher.Query} {catalog : Catalog} {lowered : Lowered}
    (written : WrittenAsk allowed (query.clauses.flatMap (·.expressions)))
    (lowers : lower catalog query = .ok lowered)
    : lowered.vars.Asks allowed
      ∧ ∀ scope ∈ lowered.tree.scopes, ∀ expr ∈ scope.expressions, expr.Asks allowed := by
  obtain ⟨start, begins, lowers⟩ := bind_eq_ok.mp lowers
  obtain ⟨later, runs, finishes⟩ := bind_eq_ok.mp lowers
  have split : Step.pipeline = Step.arrangeJoins.upTo ++ Step.pipeline.drop 7 := by decide
  obtain ⟨arranged, arranges, rest⟩ := QueryModel.exists_of_runSteps_append (split ▸ runs)
  have asks := (asks_of_arranged written begins arranges).runSteps (by decide) rest
  unfold Draft.finish at finishes
  split at finishes
  · cases finishes
  · obtain rfl := Except.ok.inj finishes
    exact ⟨asks.vars, asks.scopes⟩

end Asked

end CypherSql.Plan

namespace CypherSql.Sql

/-- The parameters of a text that is read and lowered are words. So it is plain if its tables close
the quotes that their names open.
-/
theorem plain_of_lowerText {catalog : Catalog} {source : String} {lowered : Plan.Lowered}
    (lowers : lowerText catalog source = .ok lowered)
    (tables
      : ∀ scope ∈ lowered.tree.scopes,
          ∀ item ∈ scope.select.items, ∀ table, item.table = some table → ClosesQuotes table)
    : Plain lowered.tree lowered.vars := by
  obtain ⟨query, parsed, lowers⟩ := Plan.bind_eq_ok.mp lowers
  have parsed := Plan.mapError_eq_ok.mp parsed
  have written : Plan.WrittenAsk IsParameterName (query.clauses.flatMap (·.expressions)) := by
    intro expr listed name inside
    exact Cypher.Query.sourced_of_parse parsed (List.mem_flatMap.mpr ⟨expr, listed, inside⟩)
  obtain ⟨vars, scopes⟩ := Plan.asks_of_lower written (Plan.mapError_eq_ok.mp lowers)
  exact {
    tables := tables
    parameters := fun scope member expr listed name inside =>
      scopes scope member expr listed _ inside
    definitions := fun id expr type defined name inside => by
      obtain ⟨var, found, definition⟩ := Plan.VarTable.definition?_eq_some.mp defined
      exact (vars id var found).1 expr (by rw [definition]; rfl) _ inside
  }

end CypherSql.Sql
