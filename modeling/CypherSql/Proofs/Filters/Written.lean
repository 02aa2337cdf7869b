import CypherSql.Proofs.Arrangement.Conditions
import CypherSql.Proofs.Collection.Projections

/-! The conditions of a query as they are written: an equation for each entry of a property map, and
the conditions that each `WHERE` joins, with their names resolved where they stand. The walk over
the clauses records every one of them exactly once.
-/

namespace CypherSql.Plan

open Cypher (NodePattern RelationshipPattern PathPattern MatchClause Projection)

/-- An equation for each entry of a property map of a variable, with the names in its value
resolved.
-/
def Walk.writtenEntries (walk : Walk) (id : VarId)
    : List (String × Cypher.Expr) → Except LoweringError (List Expr)
  | [] => .ok []
  | (key, value) :: rest => do
      let value ← walk.resolve value
      let others ← walk.writtenEntries id rest
      return .binary .equal (.property (.var id) key) value :: others

namespace ClauseWalk

/-- The equations of the property maps of nodes. -/
def writtenNodes (state : ClauseWalk) : List NodePattern → Except LoweringError (List Expr)
  | [] => .ok []
  | pattern :: rest => do
      let (id, later) ← state.takeNode pattern
      let conditions ← state.walk.writtenEntries id (pattern.properties.getD [])
      let others ← later.writtenNodes rest
      return conditions ++ others

/-- The equations of the property maps of relationships, the first between a node and the next. -/
def writtenRelationships (state : ClauseWalk) (left : VarId)
    : List (RelationshipPattern × VarId) → Except LoweringError (List Expr)
  | [] => .ok []
  | (pattern, right) :: rest => do
      let (id, later) ← state.takeRelationship pattern left right
      let conditions ← state.walk.writtenEntries id (pattern.properties.getD [])
      let others ← later.writtenRelationships right rest
      return conditions ++ others

/-- The equations of the property maps of a path. -/
def writtenPath (state : ClauseWalk) (path : PathPattern) : Except LoweringError (List Expr) := do
  let ofNodes ← state.writtenNodes path.nodes
  let (start, middle) ← state.takeNode path.start
  let (nodes, middle) ← middle.takeNodes (path.hops.map (·.2))
  let ofRelationships ← middle.writtenRelationships start (path.relationships.zip nodes)
  return ofNodes ++ ofRelationships

/-- The equations of the property maps of several paths. -/
def writtenPaths (state : ClauseWalk) : List PathPattern → Except LoweringError (List Expr)
  | [] => .ok []
  | path :: rest => do
      let conditions ← state.writtenPath path
      let later ← state.takePath path
      let others ← later.writtenPaths rest
      return conditions ++ others

end ClauseWalk

/-- The conditions of a `MATCH`: the equations of its patterns and what its `WHERE` joins. -/
structure WrittenClause where
  optional : Bool
  conditions : List Expr

/-- The conditions of a scope: those of the `WITH` that opens it, and those of each `MATCH`. -/
structure WrittenScope where
  filter : List Expr
  clauses : List WrittenClause

namespace Walk

/-- The conditions that an optional `WHERE` joins. -/
def writtenFilter (walk : Walk) (condition : Option Cypher.Expr)
    : Except LoweringError (List Expr) := do
  let condition ← condition.mapM walk.resolve
  return condition.elim [] Expr.conjuncts

/-- The conditions of a `MATCH`. -/
def writtenMatch (walk : Walk) (clause : MatchClause) : Except LoweringError WrittenClause := do
  let ofPatterns ← walk.between.writtenPaths clause.patterns
  let later ← clause.patterns.foldlM (·.takePath ·) walk.between
  let ofCondition ← later.walk.writtenFilter clause.condition
  return ⟨clause.optional, ofPatterns ++ ofCondition⟩

/-- The conditions of the scopes of a query, the first of which is open. -/
def writtenScopes (walk : Walk) (scope : WrittenScope)
    : List Cypher.Clause → Except LoweringError (List WrittenScope)
  | [] => .ok []
  | .matching clause :: rest => do
      let written ← walk.writtenMatch clause
      let walk ← walk.takeMatch clause
      walk.writtenScopes { scope with clauses := scope.clauses ++ [written] } rest
  | .withItems projection condition :: rest => do
      let walk ← walk.closeScope .withClause projection condition
      let filter ← walk.writtenFilter condition
      let scopes ← walk.writtenScopes ⟨filter, []⟩ rest
      return scope :: scopes
  | .returnItems _ :: _ => .ok [scope]

end Walk

/-- The conditions of the scopes of a query. -/
def writtenScopes (query : Cypher.Query) : Except LoweringError (List WrittenScope) :=
  Walk.start.writtenScopes ⟨[], []⟩ query.clauses

/-- A condition that joins no others and reads no column of a table. -/
structure Expr.IsFilter (condition : Expr) : Prop where
  single : condition.conjuncts = [condition]
  written : condition.readsColumn = false

theorem Expr.single_of_mem_conjuncts {expr part : Expr} (member : part ∈ expr.conjuncts)
    : part.conjuncts = [part] := by
  fun_induction Expr.conjuncts expr with
  | case1 left right ihLeft ihRight =>
      rcases List.mem_append.mp member with inLeft | inRight
      · exact ihLeft inLeft
      · exact ihRight inRight
  | case2 expr none =>
      obtain rfl := List.mem_singleton.mp member
      rw [Expr.conjuncts]
      exact none

theorem Expr.flatMap_conjuncts_of_single {conditions : List Expr}
    (single : ∀ condition ∈ conditions, condition.conjuncts = [condition])
    : conditions.flatMap Expr.conjuncts = conditions := by
  induction conditions with
  | nil => rfl
  | cons first rest ih =>
      rw [List.flatMap_cons, single first (by simp),
        ih fun condition member => single condition (by simp [member])]
      rfl

/-- Single conditions are found again in what they are joined to. -/
theorem Expr.conjuncts_conjoin {conditions : List Expr}
    (single : ∀ condition ∈ conditions, condition.conjuncts = [condition])
    : (Expr.conjoin conditions).elim [] Expr.conjuncts = conditions := by
  cases joined : Expr.conjoin conditions with
  | none =>
      cases conditions with
      | nil => rfl
      | cons first rest => simp [Expr.conjoin] at joined
  | some condition =>
      rw [Option.elim_some, Expr.conjuncts_of_conjoin joined]
      exact Expr.flatMap_conjuncts_of_single single

/-- What a resolved condition joins are filters. -/
theorem isFilter_of_resolve {walk : Walk} {expr : Cypher.Expr} {condition part : Expr}
    (resolved : walk.resolve expr = .ok condition) (member : part ∈ condition.conjuncts)
    : part.IsFilter := by
  have isOver : condition.Over fun _ => True :=
    (resolveExpr_over (fun _ _ _ => trivial) expr).of_ok resolved
  exact ⟨Expr.single_of_mem_conjuncts member, (isOver.conjuncts part member).not_readsColumn⟩

/-- The walk makes the equations of a property map that are written, by induction over its entries.
-/
theorem Walk.propertyConditions_eq (walk : Walk) (id : VarId) (properties : Cypher.Properties)
    : walk.propertyConditions id properties = walk.writtenEntries id (properties.getD []) := by
  rw [Walk.propertyConditions]
  induction properties.getD [] with
  | nil => rfl
  | cons entry rest ih =>
      rw [List.mapM_cons, Walk.writtenEntries, ih, bind_assoc]
      rfl

/-- The equations of a property map are filters. -/
theorem isFilter_of_propertyConditions {walk : Walk} {id : VarId} {properties : Cypher.Properties}
    {conditions : List Expr} (succeeded : walk.propertyConditions id properties = .ok conditions)
    : ∀ condition ∈ conditions, condition.IsFilter := by
  have equations : Safely (fun conditions => ∀ condition ∈ conditions, condition.IsFilter)
      (walk.propertyConditions id properties) := by
    refine Safely.mapM_all fun entry _ => ?_
    refine (resolveExpr_over (fun _ _ _ => trivial) entry.2).bind fun value isOver => ?_
    have isOver : (Expr.equals (.property (.var id) entry.1) value).Over fun _ => True := by
      simpa [Expr.equals] using isOver
    exact ⟨rfl, isOver.not_readsColumn⟩
  exact equations.of_ok succeeded

/-- The conditions that the pattern of a variable puts on it. -/
def VarTable.conditionsOn (vars : VarTable) (id : VarId) : List Expr :=
  ((vars.definition? id).bind Definition.restriction?).elim [] Expr.conjuncts

namespace Walk

/-- A later walk has every variable with the conditions on it, and every relationship as it was
declared, and goes on to name them.
-/
structure Extends (walk later : Walk) : Prop where
  used : ∀ {id}, (later.vars.get? id).isSome → id ∈ later.naming.used
  related : ∀ {id rel}, walk.vars.relationship? id = some rel
    → later.vars.relationship? id = some rel
  kept
    : ∀ id,
        (walk.vars.get? id).isSome
        → (later.vars.get? id).isSome ∧ later.vars.conditionsOn id = walk.vars.conditionsOn id

theorem Extends.refl {walk : Walk}
    (used : ∀ {id}, (walk.vars.get? id).isSome → id ∈ walk.naming.used)
    : walk.Extends walk :=
  ⟨used, fun found => found, fun _ declared => ⟨declared, rfl⟩⟩

theorem Extends.trans {first second third : Walk} (left : first.Extends second)
    (right : second.Extends third)
    : first.Extends third := by
  refine ⟨right.used, fun found => right.related (left.related found), fun id declared => ?_⟩
  obtain ⟨middle, same⟩ := left.kept id declared
  obtain ⟨last, again⟩ := right.kept id middle
  exact ⟨last, again.trans same⟩

/-- A declaration adds the conditions that it makes, and no others. -/
theorem Declares.extends {walk : Walk} {make : VarId → String × Definition}
    {declared : VarId × Walk}
    (declares : walk.Declares make declared)
    (used : ∀ {id}, (walk.vars.get? id).isSome → id ∈ walk.naming.used)
    : walk.Extends declared.2
      ∧ declared.2.vars.conditionsOn declared.1
        = (make declared.1).2.restriction?.elim [] Expr.conjuncts := by
  have others {id : VarId} (present : (walk.vars.get? id).isSome)
      : declared.2.vars.get? id = walk.vars.get? id := by
    rw [declares.get?, if_neg]
    rintro rfl
    simp [declares.new] at present
  refine ⟨⟨fun {id} present => ?_, fun {id rel} found => ?_, fun id present => ?_⟩, ?_⟩
  · rw [declares.get?] at present
    rw [declares.used]
    split at present
    · exact .inl ‹_›
    · exact .inr (used present)
  · rw [VarTable.relationship?_eq_some] at found ⊢
    have present : (walk.vars.get? id).isSome := by
      obtain ⟨var, isVar, -⟩ := Option.map_eq_some_iff.mp found
      rw [isVar]
      rfl
    rwa [VarTable.definition?, others present]
  · have same := others present
    exact ⟨same ▸ present, by rw [VarTable.conditionsOn, VarTable.definition?, same]; rfl⟩
  · rw [VarTable.conditionsOn, VarTable.definition?, declares.get?, if_pos rfl]
    rfl

end Walk

namespace ClauseWalk

/-- The conditions that the open clause has recorded: those on the variables it declares, and those
on others.
-/
def recorded (state : ClauseWalk) : List Expr :=
  state.ids.flatMap state.walk.vars.conditionsOn ++ state.conditions

/-- A later place in the clause, where conditions are recorded besides those that were. -/
structure Records (state : ClauseWalk) (conditions : List Expr) (later : ClauseWalk) : Prop where
  extends' : state.walk.Extends later.walk
  perm : later.recorded.Perm (state.recorded ++ conditions)
  declared : ∀ id ∈ later.ids, (later.walk.vars.get? id).isSome
  clauses : later.walk.clauses = state.walk.clauses
  models : later.walk.models = state.walk.models
  filter : later.walk.filter = state.walk.filter

/-- The place in the clause is one where records begin. -/
def Begins (state : ClauseWalk) : Prop :=
  state.Records [] state

theorem Records.begins {state later : ClauseWalk} {conditions : List Expr}
    (records : state.Records conditions later)
    : later.Begins where
  extends' := .refl records.extends'.used
  perm := by simp
  declared := records.declared
  clauses := rfl
  models := rfl
  filter := rfl

theorem Records.trans {first second third : ClauseWalk} {conditions others : List Expr}
    (left : first.Records conditions second) (right : second.Records others third)
    : first.Records (conditions ++ others) third where
  extends' := left.extends'.trans right.extends'
  perm := by
    refine right.perm.trans ?_
    rw [← List.append_assoc]
    exact left.perm.append_right others
  declared := right.declared
  clauses := right.clauses.trans left.clauses
  models := right.models.trans left.models
  filter := right.filter.trans left.filter

/-- The conditions on the variables of the clause stay in an extended walk. -/
theorem Begins.flatMap_conditionsOn {state : ClauseWalk} (begins : state.Begins) {later : Walk}
    (extends' : state.walk.Extends later)
    : state.ids.flatMap later.vars.conditionsOn
      = state.ids.flatMap state.walk.vars.conditionsOn := by
  rw [List.flatMap_def, List.flatMap_def]
  refine congrArg _ (List.map_congr_left fun id member => ?_)
  exact (extends'.kept id (begins.declared id member)).2

/-- A declared node or relationship brings the conditions of its pattern. -/
theorem Begins.declare {state : ClauseWalk} (begins : state.Begins)
    {make : VarId → String × Definition} {declared : VarId × Walk}
    (declares : state.walk.Declares make declared) {conditions : List Expr}
    (restricted : (make declared.1).2.restriction? = Expr.conjoin conditions)
    (single : ∀ condition ∈ conditions, condition.IsFilter) (name : Option String)
    (relationships : List VarId)
    : state.Records conditions
        { state with
          walk := declared.2.bind name declared.1
          ids := state.ids ++ [declared.1]
          relationships } := by
  obtain ⟨extends', own⟩ := declares.extends begins.extends'.used
  rw [restricted, Expr.conjuncts_conjoin fun condition member => (single condition member).single]
    at own
  have same : (declared.2.bind name declared.1).vars = declared.2.vars := Walk.bind_vars ..
  have naming : (declared.2.bind name declared.1).naming = declared.2.naming := by
    cases name <;> rfl
  have others : (declared.2.bind name declared.1).clauses = state.walk.clauses
      ∧ (declared.2.bind name declared.1).models = state.walk.models
      ∧ (declared.2.bind name declared.1).filter = state.walk.filter := by
    cases name <;> rw [declares.later] <;> exact ⟨rfl, rfl, rfl⟩
  refine ⟨⟨?_, ?_, ?_⟩, ?_, ?_, others.1, others.2.1, others.2.2⟩
  · dsimp only
    rw [same, naming]
    exact extends'.used
  · dsimp only
    rw [same]
    exact extends'.related
  · dsimp only
    rw [same]
    exact extends'.kept
  · simp only [recorded, same, List.flatMap_append, List.flatMap_singleton, own,
      begins.flatMap_conditionsOn extends', List.append_assoc]
    exact List.Perm.append_left _ List.perm_append_comm
  · intro id member
    dsimp only
    rw [same]
    rcases List.mem_append.mp member with old | last
    · exact (extends'.kept id (begins.declared id old)).1
    · obtain rfl := List.mem_singleton.mp last
      simp [declares.get?]

/-- Labels that are added to a node leave the conditions on it. -/
theorem Begins.addLabels {state : ClauseWalk} (begins : state.Begins) {id : VarId} {var : Variable}
    {node : NodeVar} (found : state.walk.vars.get? id = some var)
    (kind : var.definition = .node node) (labels : List String)
    : state.Records [] (state.addLabels id node labels) := by
  have conditions (other : VarId)
      : (state.addLabels id node labels).walk.vars.conditionsOn other
        = state.walk.vars.conditionsOn other := by
    simp only [ClauseWalk.addLabels, VarTable.conditionsOn, VarTable.definition?,
      VarTable.get?_redefine]
    by_cases same : other = id
    · simp [same, found, kind, Definition.restriction?]
    · simp [same]
  have declared (other : VarId)
      : ((state.addLabels id node labels).walk.vars.get? other).isSome
        = (state.walk.vars.get? other).isSome := by
    simp only [ClauseWalk.addLabels, VarTable.get?_redefine]
    by_cases same : other = id
    · simp [same, found]
    · simp [same]
  refine ⟨⟨?_, ?_, ?_⟩, ?_, ?_, rfl, rfl, rfl⟩
  · intro other present
    exact begins.extends'.used (by rwa [declared] at present)
  · intro other rel isRel
    rw [VarTable.relationship?_eq_some] at isRel ⊢
    have different : other ≠ id := by
      rintro rfl
      rw [VarTable.definition?, found, Option.map_some, kind] at isRel
      cases isRel
    simpa only [ClauseWalk.addLabels, VarTable.definition?, VarTable.get?_redefine,
      if_neg different]
      using isRel
  · intro other present
    exact ⟨by rwa [declared], conditions other⟩
  · have same : (state.addLabels id node labels).recorded = state.recorded := by
      simp only [recorded]
      refine congrArg (· ++ state.conditions) ?_
      exact List.flatMap_congr fun other _ => conditions other
    simp [same]
  · intro other member
    rw [declared]
    exact begins.declared other member

/-- The walk goes on with the equations of a property map recorded. -/
def RecordsProperties (state : ClauseWalk) (properties : Cypher.Properties)
    (result : VarId × ClauseWalk)
    : Prop :=
  ∃ conditions,
    state.walk.writtenEntries result.1 (properties.getD []) = .ok conditions
    ∧ (∀ condition ∈ conditions, condition.IsFilter)
    ∧ state.Records conditions result.2

/-- A new node records its equations as conditions on it. -/
theorem Begins.newNode {state : ClauseWalk} (begins : state.Begins) {pattern : NodePattern}
    {result : VarId × ClauseWalk} (succeeded : state.newNode pattern = .ok result)
    : state.RecordsProperties pattern.properties result := by
  obtain ⟨conditions, written, same⟩ := bind_eq_ok.mp succeeded
  obtain rfl := Except.ok.inj same
  have filters := isFilter_of_propertyConditions written
  have declares := Walk.declare_declares begins.extends'.used (pattern.name.getD "anon_n") fun id =>
    (pattern.name.getD id, .node
      { labels := .ofList pattern.labels, restriction := Expr.conjoin conditions, required := ∅,
        binding := none })
  rw [Walk.propertyConditions_eq] at written
  exact ⟨conditions, written, filters, begins.declare declares rfl filters pattern.name _⟩

/-- A new relationship records its equations as conditions on it. -/
theorem Begins.newRelationship {state : ClauseWalk} (begins : state.Begins)
    {pattern : RelationshipPattern} {left right : VarId} {result : VarId × ClauseWalk}
    (succeeded : state.newRelationship pattern left right = .ok result)
    : state.RecordsProperties pattern.properties result := by
  obtain ⟨conditions, written, same⟩ := bind_eq_ok.mp succeeded
  obtain rfl := Except.ok.inj same
  have filters := isFilter_of_propertyConditions written
  have declares := Walk.declare_declares begins.extends'.used (pattern.name.getD "anon_r") fun id =>
    (pattern.name.getD id, .relationship
      { left, right, direction := pattern.direction, types := pattern.types,
        restriction := Expr.conjoin conditions, required := ∅, binding := none })
  rw [Walk.propertyConditions_eq] at written
  exact ⟨conditions, written, filters, begins.declare declares rfl filters pattern.name _⟩

/-- A node that is mentioned again records its equations as conditions of the clause. -/
theorem Begins.mentionNode {state : ClauseWalk} (begins : state.Begins) {pattern : NodePattern}
    {name : String} {id : VarId} {result : VarId × ClauseWalk}
    (succeeded : state.mentionNode pattern name id = .ok result)
    : state.RecordsProperties pattern.properties result := by
  have finish {middle : ClauseWalk} (records : state.Records [] middle)
      (visible : middle.walk.visible = state.walk.visible)
      (succeeded
        : (do
            let conditions ← middle.walk.propertyConditions id pattern.properties
            return (id, { middle with conditions := middle.conditions ++ conditions }))
          = Except.ok result)
      : state.RecordsProperties pattern.properties result := by
    obtain ⟨conditions, written, same⟩ := bind_eq_ok.mp succeeded
    obtain rfl := Except.ok.inj same
    have own
        : middle.Records conditions { middle with conditions := middle.conditions ++ conditions } :=
      { records.begins with perm := by simp [recorded] }
    refine ⟨conditions, ?_, isFilter_of_propertyConditions written, records.trans own⟩
    rw [← Walk.propertyConditions_eq]
    simpa only [Walk.propertyConditions, Walk.resolve, visible] using written
  unfold ClauseWalk.mentionNode at succeeded
  dsimp only at succeeded
  split at succeeded
  · rename_i scope node found
    split at succeeded
    · exact finish begins rfl succeeded
    · split at succeeded
      · cases succeeded
      · exact finish (begins.addLabels found rfl _) rfl succeeded
  · cases succeeded
  · cases succeeded

/-- A node of a pattern records its equations. -/
theorem Begins.takeNode {state : ClauseWalk} (begins : state.Begins) {pattern : NodePattern}
    {result : VarId × ClauseWalk} (succeeded : state.takeNode pattern = .ok result)
    : state.RecordsProperties pattern.properties result := by
  unfold ClauseWalk.takeNode at succeeded
  split at succeeded
  · split at succeeded
    · exact begins.mentionNode succeeded
    · exact begins.newNode succeeded
  · exact begins.newNode succeeded

/-- A relationship of a pattern records its equations. -/
theorem Begins.takeRelationship {state : ClauseWalk} (begins : state.Begins)
    {pattern : RelationshipPattern} {left right : VarId} {result : VarId × ClauseWalk}
    (succeeded : state.takeRelationship pattern left right = .ok result)
    : state.RecordsProperties pattern.properties result := by
  unfold ClauseWalk.takeRelationship at succeeded
  split at succeeded
  · cases succeeded
  · split at succeeded
    · cases succeeded
    · exact begins.newRelationship succeeded

/-- The walk goes on with written conditions recorded, each of which is a filter. -/
def RecordsWritten (state : ClauseWalk) (written : Except LoweringError (List Expr))
    (later : ClauseWalk)
    : Prop :=
  ∃ conditions,
    written = .ok conditions
    ∧ (∀ condition ∈ conditions, condition.IsFilter)
    ∧ state.Records conditions later

/-- Nodes record their equations, by induction over them. -/
theorem Begins.takeNodes {state : ClauseWalk} (begins : state.Begins) {patterns : List NodePattern}
    {result : List VarId × ClauseWalk} (succeeded : state.takeNodes patterns = .ok result)
    : state.RecordsWritten (state.writtenNodes patterns) result.2 := by
  induction patterns generalizing state result with
  | nil =>
      obtain rfl := Except.ok.inj succeeded
      exact ⟨[], rfl, by simp, begins⟩
  | cons pattern rest ih =>
      obtain ⟨⟨id, middle⟩, taken, succeeded⟩ := bind_eq_ok.mp succeeded
      obtain ⟨⟨ids, later⟩, others, same⟩ := bind_eq_ok.mp succeeded
      obtain rfl := Except.ok.inj same
      obtain ⟨conditions, written, filters, records⟩ := begins.takeNode taken
      obtain ⟨more, writtenMore, filtersMore, recordsMore⟩ := ih records.begins others
      refine ⟨conditions ++ more, ?_, ?_, records.trans recordsMore⟩
      · simp only [writtenNodes, taken, written, writtenMore, Safely.ok_bind]
        rfl
      · exact List.forall_mem_append.mpr ⟨filters, filtersMore⟩

/-- Relationships record their equations, by induction over them. -/
theorem Begins.takeRelationships {state : ClauseWalk} (begins : state.Begins) {left : VarId}
    {patterns : List (RelationshipPattern × VarId)} {result : List VarId × ClauseWalk}
    (succeeded : state.takeRelationships left patterns = .ok result)
    : state.RecordsWritten (state.writtenRelationships left patterns) result.2 := by
  induction patterns generalizing state left result with
  | nil =>
      obtain rfl := Except.ok.inj succeeded
      exact ⟨[], rfl, by simp, begins⟩
  | cons entry rest ih =>
      obtain ⟨pattern, right⟩ := entry
      obtain ⟨⟨id, middle⟩, taken, succeeded⟩ := bind_eq_ok.mp succeeded
      obtain ⟨⟨ids, later⟩, others, same⟩ := bind_eq_ok.mp succeeded
      obtain rfl := Except.ok.inj same
      obtain ⟨conditions, written, filters, records⟩ := begins.takeRelationship taken
      obtain ⟨more, writtenMore, filtersMore, recordsMore⟩ := ih records.begins others
      refine ⟨conditions ++ more, ?_, ?_, records.trans recordsMore⟩
      · simp only [writtenRelationships, taken, written, writtenMore, Safely.ok_bind]
        rfl
      · exact List.forall_mem_append.mpr ⟨filters, filtersMore⟩

/-- A path has no conditions of its own. -/
theorem Begins.newPath {state later : ClauseWalk} (begins : state.Begins) {name : String}
    {start : VarId} {hops : List (VarId × VarId)}
    (succeeded : state.newPath name start hops = .ok later)
    : state.Records [] later := by
  unfold ClauseWalk.newPath at succeeded
  split at succeeded
  · cases succeeded
  · obtain rfl := Except.ok.inj succeeded
    have declares := Walk.declare_declares begins.extends'.used name fun _ =>
      (name, .path hops.length (elementsOf start hops))
    obtain ⟨extends', -⟩ := declares.extends begins.extends'.used
    refine ⟨⟨extends'.used, extends'.related, extends'.kept⟩, ?_, ?_, rfl, rfl, rfl⟩
    · have same := begins.flatMap_conditionsOn extends'
      rw [List.append_nil]
      exact .of_eq (congrArg (· ++ state.conditions) same)
    · exact fun id member => (extends'.kept id (begins.declared id member)).1

/-- A path pattern records the equations of its nodes and relationships. -/
theorem Begins.takePath {state later : ClauseWalk} (begins : state.Begins) {path : PathPattern}
    (succeeded : state.takePath path = .ok later)
    : state.RecordsWritten (state.writtenPath path) later := by
  obtain ⟨⟨start, first⟩, takenStart, succeeded⟩ := bind_eq_ok.mp succeeded
  obtain ⟨⟨nodes, second⟩, takenNodes, succeeded⟩ := bind_eq_ok.mp succeeded
  obtain ⟨⟨relationships, third⟩, takenRelationships, succeeded⟩ := bind_eq_ok.mp succeeded
  have allNodes : state.takeNodes path.nodes = .ok (start :: nodes, second) := by
    simp only [PathPattern.nodes, ClauseWalk.takeNodes, takenStart, takenNodes, Safely.ok_bind]
    rfl
  obtain ⟨ofNodes, writtenNodes, filtersNodes, recordsNodes⟩ := begins.takeNodes allNodes
  obtain ⟨ofRelationships, writtenRelationships, filtersRelationships, recordsRelationships⟩ :=
    recordsNodes.begins.takeRelationships takenRelationships
  have written : state.writtenPath path = .ok (ofNodes ++ ofRelationships) := by
    simp only [writtenPath, writtenNodes, takenStart, takenNodes, Safely.ok_bind,
      writtenRelationships]
    rfl
  have recorded := recordsNodes.trans recordsRelationships
  refine ⟨_, written, List.forall_mem_append.mpr ⟨filtersNodes, filtersRelationships⟩, ?_⟩
  dsimp only at succeeded
  split at succeeded
  · have named := recorded.trans (recordsRelationships.begins.newPath succeeded)
    rwa [List.append_nil] at named
  · obtain rfl := Except.ok.inj succeeded
    exact recorded

/-- Paths record their equations, by induction over them. -/
theorem Begins.takePaths {state later : ClauseWalk} (begins : state.Begins)
    {paths : List PathPattern} (succeeded : paths.foldlM (·.takePath ·) state = .ok later)
    : state.RecordsWritten (state.writtenPaths paths) later := by
  induction paths generalizing state with
  | nil =>
      obtain rfl := Except.ok.inj succeeded
      exact ⟨[], rfl, by simp, begins⟩
  | cons path rest ih =>
      rw [List.foldlM_cons] at succeeded
      obtain ⟨middle, taken, others⟩ := bind_eq_ok.mp succeeded
      obtain ⟨conditions, written, filters, records⟩ := begins.takePath taken
      obtain ⟨more, writtenMore, filtersMore, recordsMore⟩ := ih records.begins others
      refine ⟨conditions ++ more, ?_, ?_, records.trans recordsMore⟩
      · simp only [writtenPaths, taken, written, writtenMore, Safely.ok_bind]
        rfl
      · exact List.forall_mem_append.mpr ⟨filters, filtersMore⟩

end ClauseWalk

/-- The conditions of a clause: those on the variables it declares, and its own. -/
def ReadingClause.conditions (vars : VarTable) (clause : ReadingClause) : List Expr :=
  clause.ids.flatMap vars.conditionsOn ++ clause.condition.elim [] Expr.conjuncts

/-- The clause has the written conditions, all of them filters. -/
structure ReadingClause.Holds (vars : VarTable) (clause : ReadingClause) (written : WrittenClause)
    : Prop where
  optional : written.optional = clause.optional
  perm : (clause.conditions vars).Perm written.conditions
  filters : ∀ condition ∈ written.conditions, condition.IsFilter
  declared : ∀ id ∈ clause.ids, (vars.get? id).isSome

/-- The scope has the written conditions. -/
structure ScopeModel.Holds (vars : VarTable) (model : ScopeModel) (written : WrittenScope)
    : Prop where
  filter : written.filter = model.filter.elim [] Expr.conjuncts
  filters : ∀ condition ∈ written.filter, condition.IsFilter
  clauses : List.Forall₂ (ReadingClause.Holds vars) model.clauses written.clauses

theorem ReadingClause.Holds.extend {walk later : Walk} (extends' : walk.Extends later)
    {clause : ReadingClause} {written : WrittenClause} (holds : clause.Holds walk.vars written)
    : clause.Holds later.vars written := by
  have same : clause.conditions later.vars = clause.conditions walk.vars := by
    refine congrArg (· ++ _) (List.flatMap_congr fun id member => ?_)
    exact (extends'.kept id (holds.declared id member)).2
  exact { holds with
    perm := same ▸ holds.perm
    declared := fun id member => (extends'.kept id (holds.declared id member)).1 }

theorem ScopeModel.Holds.extend {walk later : Walk} (extends' : walk.Extends later)
    {model : ScopeModel} {written : WrittenScope} (holds : model.Holds walk.vars written)
    : model.Holds later.vars written :=
  { holds with clauses := holds.clauses.imp fun _ _ => .extend extends' }

namespace Walk

variable {walk later : Walk}

/-- The filters of a resolved `WHERE`. -/
theorem writtenFilter_eq {condition : Option Cypher.Expr} {resolved : Option Expr}
    (succeeded : condition.mapM walk.resolve = .ok resolved)
    : walk.writtenFilter condition = .ok (resolved.elim [] Expr.conjuncts)
      ∧ ∀ part ∈ resolved.elim [] Expr.conjuncts, part.IsFilter := by
  refine ⟨by rw [writtenFilter, succeeded]; rfl, fun part member => ?_⟩
  cases condition with
  | none =>
      obtain rfl := Except.ok.inj succeeded
      simp at member
  | some expr =>
      obtain ⟨value, isResolved, same⟩ := bind_eq_ok.mp succeeded
      obtain rfl := Except.ok.inj same
      exact isFilter_of_resolve isResolved member

/-- The walk before a clause is one where records begin. -/
theorem begins_between (used : ∀ {id}, (walk.vars.get? id).isSome → id ∈ walk.naming.used)
    : walk.between.Begins where
  extends' := .refl used
  perm := by simp
  declared := by simp [between]
  clauses := rfl
  models := rfl
  filter := rfl

/-- A `MATCH` adds a clause with the conditions that are written in it. -/
theorem takeMatch_holds (used : ∀ {id}, (walk.vars.get? id).isSome → id ∈ walk.naming.used)
    {clause : MatchClause} (succeeded : walk.takeMatch clause = .ok later)
    : ∃ written reading,
        walk.writtenMatch clause = .ok written
        ∧ later.clauses = walk.clauses ++ [reading]
        ∧ reading.Holds later.vars written
        ∧ walk.Extends later
        ∧ later.models = walk.models
        ∧ later.filter = walk.filter := by
  obtain ⟨state, taken, succeeded⟩ := bind_eq_ok.mp succeeded
  have taken : clause.patterns.foldlM (·.takePath ·) walk.between = .ok state := taken
  obtain ⟨ofPatterns, writtenPaths, filters, records⟩ := (begins_between used).takePaths taken
  have recorded : state.recorded.Perm ofPatterns := by
    simpa [ClauseWalk.recorded, between] using records.perm
  -- The open clause is closed with its conditions and those of the `WHERE`.
  have finish {ofCondition : List Expr} (filtersCondition : ∀ part ∈ ofCondition, part.IsFilter)
      (written : state.walk.writtenFilter clause.condition = .ok ofCondition)
      (same
        : { state.walk with
            clauses := state.walk.clauses
              ++ [state.reading clause.optional (state.conditions ++ ofCondition)] } = later)
      : ∃ written reading,
          walk.writtenMatch clause = .ok written
          ∧ later.clauses = walk.clauses ++ [reading]
          ∧ reading.Holds later.vars written
          ∧ walk.Extends later
          ∧ later.models = walk.models
          ∧ later.filter = walk.filter := by
    subst same
    have allFilters := List.forall_mem_append.mpr ⟨filters, filtersCondition⟩
    have single : ∀ part ∈ state.conditions ++ ofCondition, part.conjuncts = [part] := by
      intro part member
      rcases List.mem_append.mp member with own | other
      · exact (filters part (recorded.mem_iff.mp (List.mem_append_right _ own))).single
      · exact (filtersCondition part other).single
    refine ⟨⟨clause.optional, ofPatterns ++ ofCondition⟩,
      state.reading clause.optional (state.conditions ++ ofCondition), ?_, ?_,
      ⟨rfl, ?_, allFilters, records.declared⟩,
      ⟨records.extends'.used, records.extends'.related, records.extends'.kept⟩,
      records.models, records.filter⟩
    · simp only [writtenMatch, writtenPaths, taken, Safely.ok_bind, written]
      rfl
    · exact congrArg (· ++ _) records.clauses
    · simp only [ReadingClause.conditions, ClauseWalk.reading, Expr.conjuncts_conjoin single,
        ← List.append_assoc]
      exact recorded.append_right ofCondition
  cases condition : clause.condition with
  | none =>
      rw [condition] at succeeded finish
      have written : state.walk.writtenFilter none = .ok [] := rfl
      refine finish (by simp) written ?_
      rw [List.append_nil]
      exact Except.ok.inj succeeded
  | some expr =>
      rw [condition] at succeeded finish
      obtain ⟨resolved, isResolved, same⟩ := bind_eq_ok.mp succeeded
      have mapped : (some expr).mapM state.walk.resolve = .ok (some resolved) := by
        simp only [Option.mapM_some, isResolved]
        rfl
      obtain ⟨written, filtersCondition⟩ := writtenFilter_eq mapped
      exact finish filtersCondition written (Except.ok.inj same)

/-- A later walk in the same scope, between the same clauses. -/
structure Carries (walk later : Walk) : Prop where
  extends' : walk.Extends later
  clauses : later.clauses = walk.clauses
  models : later.models = walk.models
  filter : later.filter = walk.filter

/-- A declaration carries the scope on. -/
theorem carries_declare (used : ∀ {id}, (walk.vars.get? id).isSome → id ∈ walk.naming.used)
    (base : String) (make : VarId → String × Definition)
    : walk.Carries (walk.declare base make).2 :=
  ⟨((declare_declares used base make).extends used).1, rfl, rfl, rfl⟩

theorem carries_takeItem (used : ∀ {id}, (walk.vars.get? id).isSome → id ∈ walk.naming.used)
    {kind : ScopeKind} {next : Visible} {item : Cypher.ProjectionItem}
    {result : Item × Visible × Walk} (succeeded : walk.takeItem kind next item = .ok result)
    : walk.Carries result.2.2 := by
  obtain ⟨base, name, definition, -, same⟩ := takeItem_declares succeeded
  rw [same]
  exact carries_declare used base _

/-- The items of a projection carry the scope on, by induction over them. -/
theorem carries_takeItems (used : ∀ {id}, (walk.vars.get? id).isSome → id ∈ walk.naming.used)
    {kind : ScopeKind} {next : Visible} {items : List Cypher.ProjectionItem}
    {result : List Item × Visible × Walk} (succeeded : walk.takeItems kind next items = .ok result)
    : walk.Carries result.2.2 := by
  induction items generalizing walk next result with
  | nil =>
      obtain rfl := Except.ok.inj succeeded
      exact ⟨.refl used, rfl, rfl, rfl⟩
  | cons item rest ih =>
      obtain ⟨⟨first, visible, middle⟩, taken, succeeded⟩ := bind_eq_ok.mp succeeded
      obtain ⟨⟨others, last, final⟩, takenRest, same⟩ := bind_eq_ok.mp succeeded
      obtain rfl := Except.ok.inj same
      have left := carries_takeItem used taken
      have right := ih left.extends'.used takenRest
      exact ⟨left.extends'.trans right.extends', right.clauses.trans left.clauses,
        right.models.trans left.models, right.filter.trans left.filter⟩

/-- A projection closes the open scope with its clauses and its filter, and opens the next one with
the filter of the projection.
-/
theorem closeScope_holds (used : ∀ {id}, (walk.vars.get? id).isSome → id ∈ walk.naming.used)
    {kind : ScopeKind} {projection : Projection} {condition : Option Cypher.Expr}
    (succeeded : walk.closeScope kind projection condition = .ok later)
    : walk.Extends later
      ∧ (∃ model,
          later.models = walk.models ++ [model]
          ∧ model.clauses = walk.clauses
          ∧ model.filter = walk.filter)
      ∧ later.clauses = []
      ∧ later.writtenFilter condition = .ok (later.filter.elim [] Expr.conjuncts)
      ∧ ∀ part ∈ later.filter.elim [] Expr.conjuncts, part.IsFilter := by
  obtain ⟨⟨items, next, middle⟩, taken, succeeded⟩ := bind_eq_ok.mp succeeded
  have carries := carries_takeItems used taken
  obtain ⟨orderBy, -, succeeded⟩ := bind_eq_ok.mp succeeded
  obtain ⟨skip, -, succeeded⟩ := bind_eq_ok.mp succeeded
  obtain ⟨limit, -, succeeded⟩ := bind_eq_ok.mp succeeded
  obtain ⟨filter, resolved, same⟩ := bind_eq_ok.mp succeeded
  obtain rfl := Except.ok.inj same
  refine ⟨⟨carries.extends'.used, carries.extends'.related, carries.extends'.kept⟩,
    ⟨_, congrArg (· ++ _) carries.models, carries.clauses, carries.filter⟩, rfl, ?_⟩
  exact writtenFilter_eq resolved

/-- The scopes of the clauses of a query have the conditions that are written in them, by induction
over the clauses.
-/
theorem takeClauses_holds (used : ∀ {id}, (walk.vars.get? id).isSome → id ∈ walk.naming.used)
    (scope : WrittenScope) (filter : scope.filter = walk.filter.elim [] Expr.conjuncts)
    (filters : ∀ condition ∈ scope.filter, condition.IsFilter)
    (holds : List.Forall₂ (ReadingClause.Holds walk.vars) walk.clauses scope.clauses)
    {clauses : List Cypher.Clause} (succeeded : walk.takeClauses false clauses = .ok later)
    : ∃ written models,
        walk.writtenScopes scope clauses = .ok written
        ∧ later.models = walk.models ++ models
        ∧ List.Forall₂ (ScopeModel.Holds later.vars) models written
        ∧ walk.Extends later := by
  induction clauses generalizing walk scope with
  | nil => cases succeeded
  | cons clause rest ih =>
      cases clause with
      | matching clause =>
          obtain ⟨middle, taken, succeeded⟩ := bind_eq_ok.mp succeeded
          obtain ⟨own, reading, writtenOwn, added, holdsOwn, extends', models, sameFilter⟩ :=
            takeMatch_holds used taken
          have holdsAll : List.Forall₂ (ReadingClause.Holds middle.vars) middle.clauses
              (scope.clauses ++ [own]) := by
            rw [added]
            exact List.rel_append (holds.imp fun _ _ => .extend extends') (.cons holdsOwn .nil)
          obtain ⟨written, others, isWritten, sameModels, holdsLater, extendsLater⟩ :=
            ih extends'.used { scope with clauses := scope.clauses ++ [own] } (sameFilter ▸ filter)
              filters holdsAll succeeded
          refine ⟨written, others, ?_, models ▸ sameModels, holdsLater, extends'.trans extendsLater⟩
          simpa only [writtenScopes, writtenOwn, taken, Safely.ok_bind] using isWritten
      | withItems projection condition =>
          obtain ⟨middle, taken, succeeded⟩ := bind_eq_ok.mp succeeded
          obtain ⟨extends', ⟨model, models, sameClauses, sameFilter⟩, none,
            writtenNext, filtersNext⟩ :=
            closeScope_holds used taken
          obtain ⟨written, others, isWritten, sameModels, holdsLater, extendsLater⟩ :=
            ih extends'.used ⟨middle.filter.elim [] Expr.conjuncts, []⟩ rfl filtersNext
              (none ▸ .nil) succeeded
          refine ⟨scope :: written, model :: others, ?_, ?_, .cons ?_ holdsLater,
            extends'.trans extendsLater⟩
          · simp only [writtenScopes, taken, writtenNext, isWritten, Safely.ok_bind]
            rfl
          · rw [sameModels, models, List.append_assoc]
            rfl
          · refine ScopeModel.Holds.extend (extends'.trans extendsLater) ?_
            exact ⟨by rw [filter, sameFilter], filters, by rwa [sameClauses]⟩
      | returnItems projection =>
          obtain ⟨middle, taken, succeeded⟩ := bind_eq_ok.mp succeeded
          obtain ⟨extends', ⟨model, models, sameClauses, sameFilter⟩, -, -, -⟩ :=
            closeScope_holds used taken
          cases rest with
          | cons _ _ => cases succeeded
          | nil =>
              obtain rfl := Except.ok.inj succeeded
              refine ⟨[scope], [model], rfl, models, .cons ?_ .nil, extends'⟩
              refine ScopeModel.Holds.extend extends' ?_
              exact ⟨by rw [filter, sameFilter], filters, by rwa [sameClauses]⟩

end Walk

/-- The scopes of a query have the conditions that are written in them. -/
theorem collect_holds {query : Cypher.Query} {walk : Walk} (collected : collect query = .ok walk)
    : ∃ written,
        writtenScopes query = .ok written
        ∧ List.Forall₂ (ScopeModel.Holds walk.vars) walk.models written := by
  have none (id : VarId) : Walk.start.vars.get? id = none := NameMap.get?_empty id
  obtain ⟨written, models, isWritten, same, holds, -⟩ :=
    Walk.takeClauses_holds (by simp [none]) ⟨[], []⟩ rfl (by simp) .nil collected
  refine ⟨written, isWritten, ?_⟩
  rw [same]
  exact holds

end CypherSql.Plan
