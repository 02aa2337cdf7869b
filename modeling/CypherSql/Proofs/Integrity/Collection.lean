import CypherSql.Proofs.Integrity.Layers

/-! The walk over the clauses of a query keeps the variables and scopes layered: every visible name
stands for something that is declared before the projection of the open scope.
-/

namespace CypherSql.Plan

open Cypher (NodePattern RelationshipPattern PathPattern MatchClause Projection ProjectionItem)

section Expressions

variable {allowed : VarId → Prop}

/-- What an expression is over, its references are. -/
theorem Expr.Over.within {expr : Expr} (isOver : expr.Over allowed) : expr.Within allowed :=
  fun _ refers => isOver.of_mem_references refers

/-- The condition that several are joined to refers to what they refer to. -/
theorem Expr.within_of_conjoin {conditions : List Expr} {joined : Expr}
    (within : ∀ condition ∈ conditions, condition.Within allowed)
    (result : conjoin conditions = some joined)
    : joined.Within allowed :=
  inherited_within.conjoin within result

/-- The conditions that one is split into refer to what it refers to. -/
theorem Expr.Within.conjuncts {expr : Expr} (within : expr.Within allowed)
    : ∀ condition ∈ expr.conjuncts, condition.Within allowed :=
  inherited_within.conjuncts.mpr within

/-- A resolved expression refers to what its names stand for. -/
theorem within_of_resolveExpr {step : Step} {lookup : String → Option VarId} {expr : Cypher.Expr}
    {resolved : Expr} (known : ∀ name id, lookup name = some id → allowed id)
    (resolves : resolveExpr step lookup expr = .ok resolved)
    : resolved.Within allowed :=
  ((resolveExpr_over known expr).of_ok resolves).within

end Expressions

/-- The variable is declared before the projection of the open scope. -/
def Walk.Before (walk : Walk) (id : VarId) : Prop :=
  walk.vars.Before walk.scope id

/-- The invariant of the walk: definitions are layered, visible names stand for variables that are
declared before the projection of the open scope, and so do conditions. Scopes that are closed refer
to what they may.
-/
structure ClauseWalk.Layered (state : ClauseWalk) : Prop where
  vars : state.walk.vars.Layered
  visible : ∀ {name id}, state.walk.visible.get? name = some id → state.walk.Before id
  conditions : ∀ condition ∈ state.conditions, condition.Within state.walk.Before
  clauses
    : ∀ clause ∈ state.walk.clauses,
        ∀ condition, clause.condition = some condition → condition.Within state.walk.Before
  filter
    : ∀ condition, state.walk.filter = some condition → condition.Within state.walk.Before
  models
    : ∀ {index : Nat} {model : ScopeModel},
        state.walk.models[index]? = some model
        → (model.scope index).Refers (state.walk.vars.Before index) (state.walk.vars.Upto index)

/-- What the patterns of a scope declare is declared before its projection. -/
theorem Walk.Declares.before {walk : Walk} {make : VarId → String × Definition}
    {declared : VarId × Walk} (declares : walk.Declares make declared)
    (projection : (make declared.1).2.projection? = none)
    : declared.2.Before declared.1 := by
  have found := declares.get? declared.1
  rw [if_pos rfl] at found
  have scope : declared.2.scope = walk.scope := by rw [declares.later]
  exact ⟨_, found, .inr ⟨scope.symm, projection⟩⟩

namespace ClauseWalk

variable {state later : ClauseWalk}

theorem Advances.before (advances : state.Advances later) {id : VarId}
    (before : state.walk.Before id)
    : later.walk.Before id := by
  rw [Walk.Before, advances.scope]
  exact VarTable.Before.grow advances.grows before

namespace Layered

/-- The walk may go on in the same clause. -/
theorem advance (layered : state.Layered) (advances : state.Advances later)
    (filter : later.walk.filter = state.walk.filter) (vars : later.walk.vars.Layered)
    (visible : ∀ {name id}, later.walk.visible.get? name = some id → later.walk.Before id)
    (conditions : ∀ condition ∈ later.conditions, condition.Within later.walk.Before)
    : later.Layered where
  vars := vars
  visible := visible
  conditions := conditions
  clauses := by
    intro clause listed condition found
    rw [advances.clauses] at listed
    exact (layered.clauses clause listed condition found).mono fun _ => advances.before
  filter := by
    intro condition found
    rw [filter] at found
    exact (layered.filter condition found).mono fun _ => advances.before
  models := by
    intro index model found
    rw [advances.models] at found
    exact (layered.models found).mono (fun _ => VarTable.Before.grow advances.grows)
      fun _ => VarTable.Upto.grow advances.grows

/-- A name may be given to a variable that is declared before the projection. -/
theorem bind (layered : state.Layered) {id : VarId} (before : state.walk.Before id)
    (name : Option String)
    : ({ state with walk := state.walk.bind name id } : ClauseWalk).Layered := by
  cases name with
  | none => exact layered
  | some name =>
      refine { layered with visible := fun {other found} present => ?_ }
      simp only [Walk.bind, Visible.get?_insert] at present
      split at present
      · exact Option.some.inj present ▸ before
      · exact layered.visible present

@[simp]
theorem before_bind {walk : Walk} {name : Option String} {id other : VarId}
    : (walk.bind name id).Before other ↔ walk.Before other := by
  rw [Walk.Before, Walk.Before, Walk.bind_vars, Walk.bind_scope]

/-- More conditions may be kept. -/
theorem addConditions (layered : state.Layered) {conditions : List Expr}
    (within : ∀ condition ∈ conditions, condition.Within state.walk.Before)
    : ({ state with conditions := state.conditions ++ conditions } : ClauseWalk).Layered :=
  { layered with
    conditions := List.forall_mem_append.mpr ⟨layered.conditions, within⟩ }

/-- It makes no difference which variables the open clause lists. -/
theorem list (layered : state.Layered) (ids relationships : List VarId)
    : ({ state with ids, relationships } : ClauseWalk).Layered :=
  { layered with }

/-- A new variable depends on what is declared before the projection. -/
theorem declare (layered : state.Layered) {make : VarId → String × Definition}
    {declared : VarId × Walk} (declares : state.walk.Declares make declared)
    (dependencies : ∀ dep ∈ (make declared.1).2.dependencies declared.1, state.walk.Before dep)
    : ({ state with walk := declared.2 } : ClauseWalk).Layered := by
  have advances := declares.advances
  have sameVisible : declared.2.visible = state.walk.visible := by rw [declares.later]
  refine layered.advance advances (by dsimp only; rw [declares.later]) ?_ ?_ ?_
  · intro id var found dep depends
    rw [declares.get?] at found
    split at found
    · rename_i same
      subst same
      obtain rfl := Option.some.inj found
      exact VarTable.Before.grow advances.grows (dependencies dep depends)
    · exact VarTable.Before.grow advances.grows (layered.vars found dep depends)
  · intro name id found
    rw [sameVisible] at found
    exact advances.before (layered.visible found)
  · exact fun condition kept => (layered.conditions condition kept).mono fun _ => advances.before

theorem resolve (layered : state.Layered) {expr : Cypher.Expr} {resolved : Expr}
    (resolves : state.walk.resolve expr = .ok resolved)
    : resolved.Within state.walk.Before :=
  within_of_resolveExpr (fun _ _ found => layered.visible found) resolves

/-- The conditions of a property map refer to their variable and to what its values refer to. -/
theorem propertyConditions (layered : state.Layered) {id : VarId} {properties : Cypher.Properties}
    {conditions : List Expr}
    (resolves : state.walk.propertyConditions id properties = .ok conditions)
    : ∀ condition ∈ conditions,
        condition.Within fun other => other = id ∨ state.walk.Before other := by
  intro condition listed
  obtain ⟨index, found⟩ := List.getElem?_of_mem listed
  obtain ⟨⟨key, value⟩, -, made⟩ :=
    forall₂_getElem?_right (Modality.forall₂_of_mapM_eq_ok resolves) found
  obtain ⟨expr, read, same⟩ := bind_eq_ok.mp made
  obtain rfl := Except.ok.inj same
  refine Expr.within_binary.mpr ⟨?_, (layered.resolve read).mono fun _ => .inr⟩
  exact Expr.within_property.mpr (Expr.within_var.mpr (.inl rfl))

/-- The definition of a node or relationship depends on what its conditions and ends refer to. -/
theorem mem_dependencies {id dep : VarId} {definition : Definition} {conditions : List Expr}
    (isElement : definition.isElement)
    (restriction : definition.restriction? = Expr.conjoin conditions)
    (within : ∀ condition ∈ conditions,
      condition.Within fun other => other = id ∨ state.walk.Before other)
    (ends
      : ∀ rel, definition = .relationship rel
        → state.walk.Before rel.left ∧ state.walk.Before rel.right)
    (depends : dep ∈ definition.dependencies id)
    : state.walk.Before dep := by
  obtain ⟨different, ⟨condition, found, refers⟩ | ⟨rel, isRelationship, rfl | rfl⟩⟩ :=
    Definition.mem_dependencies_of_isElement isElement depends
  · have refersWithin := Expr.within_of_conjoin within (restriction.symm.trans found)
    exact (refersWithin dep refers).resolve_left different
  · exact (ends rel isRelationship).1
  · exact (ends rel isRelationship).2

/-- A new node is declared before the projection. -/
theorem newNode (layered : state.Layered) (sound : state.Sound) {pattern : NodePattern}
    {result : VarId × ClauseWalk} (taken : state.newNode pattern = .ok result)
    : result.2.Layered ∧ result.2.walk.Before result.1 := by
  obtain ⟨conditions, resolves, same⟩ := bind_eq_ok.mp taken
  obtain rfl := Except.ok.inj same
  have declares := Walk.declare_declares sound.used (pattern.name.getD "anon_n") fun id =>
    (pattern.name.getD id, .node
      { labels := .ofList pattern.labels, restriction := Expr.conjoin conditions, required := ∅,
        binding := none })
  have before := declares.before rfl
  have later := layered.declare declares fun dep depends =>
    mem_dependencies rfl rfl (layered.propertyConditions resolves) (by simp) depends
  exact ⟨(later.bind before pattern.name).list _ _, before_bind.mpr before⟩

/-- A node that is mentioned again stays what it was. -/
theorem mentionNode (layered : state.Layered) {pattern : NodePattern} {name : String} {id : VarId}
    {result : VarId × ClauseWalk} (before : state.walk.Before id)
    (taken : state.mentionNode pattern name id = .ok result)
    : result.2.Layered ∧ result.2.walk.Before result.1 := by
  have finish {later : ClauseWalk} (layeredLater : later.Layered)
    (beforeLater : later.walk.Before id)
      {result : VarId × ClauseWalk}
      (taken
        : (do
            let conditions ← later.walk.propertyConditions id pattern.properties
            return (id, { later with conditions := later.conditions ++ conditions })) = .ok result)
      : result.2.Layered ∧ result.2.walk.Before result.1 := by
    obtain ⟨conditions, resolves, same⟩ := bind_eq_ok.mp taken
    obtain rfl := Except.ok.inj same
    refine ⟨layeredLater.addConditions fun condition listed => ?_, beforeLater⟩
    refine (layeredLater.propertyConditions resolves condition listed).mono ?_
    rintro other (rfl | beforeOther)
    · exact beforeLater
    · exact beforeOther
  unfold ClauseWalk.mentionNode at taken
  dsimp only at taken
  split at taken
  · rename_i varName varId scope node found
    split at taken
    · exact finish layered before taken
    · split at taken
      · cases taken
      · have grows : state.walk.vars.GrowsTo
            (state.addLabels (state.walk.vars.resolve id) node
              (pattern.labels.filter (· ∉ node.labels))).walk.vars :=
          .redefine found rfl (.inl rfl)
        have advances : state.Advances
            (state.addLabels (state.walk.vars.resolve id) node
              (pattern.labels.filter (· ∉ node.labels))) :=
          ⟨grows, rfl, rfl, rfl, fun _ member => member⟩
        have layeredVars := layered.vars.grow grows fun other present => by
          simp only [ClauseWalk.addLabels, VarTable.get?_redefine] at present
          split at present
          · rename_i same
            simp [same, found]
          · exact present
        refine finish (layered.advance advances rfl layeredVars ?_ ?_)
          (advances.before before) taken
        · exact fun found => advances.before (layered.visible found)
        · exact fun condition kept =>
            (layered.conditions condition kept).mono fun _ => advances.before
  · cases taken
  · cases taken

/-- A node of a pattern is declared before the projection. -/
theorem takeNode (layered : state.Layered) (sound : state.Sound) {pattern : NodePattern}
    {result : VarId × ClauseWalk} (taken : state.takeNode pattern = .ok result)
    : result.2.Layered ∧ result.2.walk.Before result.1 := by
  unfold ClauseWalk.takeNode at taken
  split at taken
  · split at taken
    · rename_i found
      exact layered.mentionNode (layered.visible found) taken
    · exact layered.newNode sound taken
  · exact layered.newNode sound taken

/-- A relationship of a pattern is declared before the projection, like its ends. -/
theorem takeRelationship (layered : state.Layered) (sound : state.Sound)
    {pattern : RelationshipPattern} {left right : VarId} {result : VarId × ClauseWalk}
    (beforeLeft : state.walk.Before left) (beforeRight : state.walk.Before right)
    (taken : state.takeRelationship pattern left right = .ok result)
    : result.2.Layered ∧ result.2.walk.Before result.1 := by
  unfold ClauseWalk.takeRelationship at taken
  split at taken
  · cases taken
  · split at taken
    · cases taken
    · obtain ⟨conditions, resolves, same⟩ := bind_eq_ok.mp taken
      obtain rfl := Except.ok.inj same
      have declares := Walk.declare_declares sound.used (pattern.name.getD "anon_r") fun id =>
        (pattern.name.getD id, .relationship
          { left, right, direction := pattern.direction, types := pattern.types,
            restriction := Expr.conjoin conditions, required := ∅, binding := none })
      have before := declares.before rfl
      have later := layered.declare declares fun dep depends =>
        mem_dependencies rfl rfl (layered.propertyConditions resolves)
          (by rintro _ ⟨⟩; exact ⟨beforeLeft, beforeRight⟩) depends
      exact ⟨(later.bind before pattern.name).list _ _, before_bind.mpr before⟩

/-- The nodes of a pattern are declared before the projection, by induction over them. -/
theorem takeNodes (layered : state.Layered) (sound : state.Sound) {patterns : List NodePattern}
    {result : List VarId × ClauseWalk} (taken : state.takeNodes patterns = .ok result)
    : result.2.Layered ∧ ∀ id ∈ result.1, result.2.walk.Before id := by
  induction patterns generalizing state result with
  | nil =>
      obtain rfl := Except.ok.inj taken
      exact ⟨layered, by simp⟩
  | cons pattern rest ih =>
      obtain ⟨⟨id, next⟩, takesFirst, taken⟩ := bind_eq_ok.mp taken
      obtain ⟨⟨ids, last⟩, takesRest, same⟩ := bind_eq_ok.mp taken
      obtain rfl := Except.ok.inj same
      obtain ⟨layeredNext, before⟩ := layered.takeNode sound takesFirst
      obtain ⟨soundNext, -⟩ := (sound.takeNode pattern).of_ok takesFirst
      obtain ⟨layeredLast, others⟩ := ih layeredNext soundNext takesRest
      obtain ⟨-, advances, -⟩ := (soundNext.takeNodes rest).of_ok takesRest
      exact ⟨layeredLast, List.forall_mem_cons.mpr ⟨advances.before before, others⟩⟩

/-- The relationships of a pattern are declared before the projection, by induction over them. -/
theorem takeRelationships (layered : state.Layered) (sound : state.Sound) {left : VarId}
    (leftNode : state.Reach left ∧ state.walk.vars.StandsForNode left)
    (beforeLeft : state.walk.Before left) {patterns : List (RelationshipPattern × VarId)}
    (nodes : ∀ entry ∈ patterns, state.Reach entry.2 ∧ state.walk.vars.StandsForNode entry.2)
    (beforeNodes : ∀ entry ∈ patterns, state.walk.Before entry.2)
    {result : List VarId × ClauseWalk} (taken : state.takeRelationships left patterns = .ok result)
    : result.2.Layered ∧ ∀ id ∈ result.1, result.2.walk.Before id := by
  induction patterns generalizing state left result with
  | nil =>
      obtain rfl := Except.ok.inj taken
      exact ⟨layered, by simp⟩
  | cons entry rest ih =>
      obtain ⟨pattern, right⟩ := entry
      obtain ⟨rightNode, nodes⟩ := List.forall_mem_cons.mp nodes
      obtain ⟨beforeRight, beforeNodes⟩ := List.forall_mem_cons.mp beforeNodes
      obtain ⟨⟨id, next⟩, takesFirst, taken⟩ := bind_eq_ok.mp taken
      obtain ⟨⟨ids, last⟩, takesRest, same⟩ := bind_eq_ok.mp taken
      obtain rfl := Except.ok.inj same
      obtain ⟨layeredNext, before⟩ :=
        layered.takeRelationship sound beforeLeft beforeRight takesFirst
      obtain ⟨soundNext, advances, -⟩ :=
        (sound.takeRelationship pattern leftNode rightNode).of_ok takesFirst
      have onward {id : VarId} (node : state.Reach id ∧ state.walk.vars.StandsForNode id)
          : next.Reach id ∧ next.walk.vars.StandsForNode id :=
        ⟨advances.reach sound soundNext node.1, advances.standsForNode sound soundNext node.2⟩
      have nodesNext := fun entry member => onward (nodes entry member)
      obtain ⟨layeredLast, others⟩ := ih layeredNext soundNext (onward rightNode)
        (advances.before beforeRight) nodesNext
        (fun entry member => advances.before (beforeNodes entry member)) takesRest
      obtain ⟨-, more, -⟩ :=
        (soundNext.takeRelationships (onward rightNode) rest nodesNext).of_ok takesRest
      exact ⟨layeredLast, List.forall_mem_cons.mpr ⟨more.before before, others⟩⟩

/-- A path depends on its elements. -/
theorem newPath (layered : state.Layered) (sound : state.Sound) {name : String} {start : VarId}
    {hops : List (VarId × VarId)} (beforeStart : state.walk.Before start)
    (beforeHops : ∀ hop ∈ hops, state.walk.Before hop.1 ∧ state.walk.Before hop.2)
    (taken : state.newPath name start hops = .ok later)
    : later.Layered := by
  unfold ClauseWalk.newPath at taken
  split at taken
  · cases taken
  · obtain rfl := Except.ok.inj taken
    have declares := Walk.declare_declares sound.used name fun _ =>
      (name, .path hops.length (elementsOf start hops))
    refine (layered.declare declares fun dep depends => ?_).bind (declares.before rfl) (some name)
    have member := NameSet.mem_ofList.mp depends
    rcases List.mem_cons.mp member with rfl | member
    · exact beforeStart
    · obtain ⟨hop, listed, member⟩ := List.mem_flatMap.mp member
      rcases List.mem_cons.mp member with rfl | member
      · exact (beforeHops hop listed).1
      · exact List.mem_singleton.mp member ▸ (beforeHops hop listed).2

/-- A path pattern keeps the walk layered. -/
theorem takePath (layered : state.Layered) (sound : state.Sound) {path : PathPattern}
    (taken : state.takePath path = .ok later)
    : later.Layered := by
  obtain ⟨⟨start, next⟩, takesStart, taken⟩ := bind_eq_ok.mp taken
  obtain ⟨⟨nodes, middle⟩, takesNodes, taken⟩ := bind_eq_ok.mp taken
  obtain ⟨⟨relationships, last⟩, takesRelationships, taken⟩ := bind_eq_ok.mp taken
  obtain ⟨layeredNext, before⟩ := layered.takeNode sound takesStart
  obtain ⟨soundNext, -, reach, stands⟩ := (sound.takeNode path.start).of_ok takesStart
  obtain ⟨layeredMiddle, beforeNodes⟩ := layeredNext.takeNodes soundNext takesNodes
  obtain ⟨soundMiddle, advances, -, each⟩ := (soundNext.takeNodes _).of_ok takesNodes
  have startNode : middle.Reach start ∧ middle.walk.vars.StandsForNode start :=
    ⟨advances.reach soundNext soundMiddle reach,
      advances.standsForNode soundNext soundMiddle stands⟩
  have inNodes {entry : RelationshipPattern × VarId} (member : entry ∈ path.relationships.zip nodes)
      : entry.2 ∈ nodes :=
    (List.of_mem_zip member).2
  have nodesReached : ∀ entry ∈ path.relationships.zip nodes,
      middle.Reach entry.2 ∧ middle.walk.vars.StandsForNode entry.2 :=
    fun entry member => each entry.2 (inNodes member)
  obtain ⟨layeredLast, beforeRelationships⟩ := layeredMiddle.takeRelationships soundMiddle startNode
    (advances.before before) nodesReached (fun entry member => beforeNodes entry.2 (inNodes member))
    takesRelationships
  obtain ⟨soundLast, more, -⟩ :=
    (soundMiddle.takeRelationships startNode _ nodesReached).of_ok takesRelationships
  dsimp only at taken
  split at taken
  · refine layeredLast.newPath soundLast (more.before (advances.before before)) ?_ taken
    intro hop listed
    obtain ⟨isRelationship, isNode⟩ := List.of_mem_zip listed
    exact ⟨beforeRelationships hop.1 isRelationship, more.before (beforeNodes hop.2 isNode)⟩
  · exact Except.ok.inj taken ▸ layeredLast

end Layered

end ClauseWalk

namespace Walk

variable {walk later : Walk}

/-- The invariant of the walk between two clauses. -/
def Layered (walk : Walk) : Prop :=
  walk.between.Layered

namespace Layered

/-- The open clause may be closed with conditions that refer to what is declared before the
projection.
-/
theorem close {state : ClauseWalk} (layered : state.Layered) {conditions : List Expr}
    (within : ∀ condition ∈ conditions, condition.Within state.walk.Before) (isOptional : Bool)
    : Layered
        { state.walk with
          clauses := state.walk.clauses ++ [state.reading isOptional conditions] } := by
  refine { layered with conditions := by simp [between], clauses := ?_ }
  intro reading listed condition found
  rcases List.mem_append.mp listed with old | last
  · exact layered.clauses reading old condition found
  · obtain rfl := List.mem_singleton.mp last
    exact Expr.within_of_conjoin within found

/-- A `MATCH` keeps the walk layered. -/
theorem takeMatch (layered : walk.Layered) (sound : walk.Sound) {clause : Cypher.MatchClause}
    (taken : walk.takeMatch clause = .ok later)
    : later.Layered := by
  have patterns {paths : List PathPattern} {first last : ClauseWalk} (layered : first.Layered)
      (sound : first.Sound) (taken : paths.foldlM ClauseWalk.takePath first = .ok last)
      : last.Layered := by
    induction paths generalizing first with
    | nil => exact Except.ok.inj taken ▸ layered
    | cons path rest ih =>
        obtain ⟨next, takesPath, taken⟩ := bind_eq_ok.mp taken
        exact ih (layered.takePath sound takesPath) ((sound.takePath path).of_ok takesPath).1 taken
  obtain ⟨state, takesPaths, taken⟩ := bind_eq_ok.mp taken
  have layeredState := patterns layered sound takesPaths
  dsimp only at taken
  split at taken
  · obtain ⟨condition, resolves, taken⟩ := bind_eq_ok.mp taken
    obtain rfl := Except.ok.inj taken
    exact close layeredState
      (List.forall_mem_append.mpr
        ⟨layeredState.conditions, (layeredState.resolve resolves).conjuncts⟩)
      clause.optional
  · obtain rfl := Except.ok.inj taken
    exact close layeredState layeredState.conditions clause.optional

end Layered

/-- A place behind some items of a projection: what becomes visible is declared up to the open
scope, and expressions without a name refer to what is declared before its projection.
-/
structure Projecting (walk : Walk) (items : List Item) (next : Visible) : Prop where
  layered : walk.Layered
  next : ∀ entry ∈ next.entries, walk.vars.Upto walk.scope entry.2
  items : ∀ expr column, .unnamed expr column ∈ items → expr.Within walk.Before

namespace Projecting

variable {items : List Item} {next : Visible}

/-- A declaration keeps what holds of the items so far. -/
theorem declare (projecting : later.Projecting items next) {make : VarId → String × Definition}
    {declared : VarId × Walk} (declares : later.Declares make declared)
    (dependencies : ∀ dep ∈ (make declared.1).2.dependencies declared.1, later.Before dep)
    : declared.2.Projecting items next ∧ ∀ id, later.Before id → declared.2.Before id := by
  have declaresHere : later.between.walk.Declares make declared := declares
  have advances := declaresHere.advances
  have scope : declared.2.scope = later.scope := advances.scope
  refine ⟨⟨ClauseWalk.Layered.declare projecting.layered declares dependencies, ?_, ?_⟩,
    fun _ => advances.before⟩
  · intro entry listed
    rw [scope]
    exact VarTable.Upto.grow advances.grows (projecting.next entry listed)
  · exact fun expr column listed =>
      (projecting.items expr column listed).mono fun _ => advances.before

/-- An item keeps the names that become visible declared up to the open scope. -/
theorem takeItem {kind : ScopeKind} (projecting : later.Projecting items next)
    (projects : walk.Projects kind items next later) {item : ProjectionItem}
    {result : Item × Visible × Walk} (taken : later.takeItem kind next item = .ok result)
    : result.2.2.Projecting (items ++ [result.1]) result.2.1 := by
  obtain ⟨expr, aliasName, text⟩ := item
  obtain ⟨resolved, resolves, taken⟩ := bind_eq_ok.mp taken
  have within : resolved.Within later.Before :=
    ClauseWalk.Layered.resolve projecting.layered resolves
  -- Both kinds of items without a name declare a column, and differ in what becomes visible.
  have unnamed (column : String) {visible : Visible}
      (entries : ∀ entry ∈ visible.entries, entry ∈ next.entries ∨ resolved = .var entry.2)
      : (later.declareColumn column).2.Projecting
          (items ++ [.unnamed resolved (later.declareColumn column).1]) visible := by
    have declares : later.Declares (fun _ => (column, .temporary column))
        (later.declareColumn column) :=
      Walk.declare_declares (ClauseWalk.Sound.used projects.sound) _ _
    obtain ⟨kept, onward⟩ := projecting.declare declares (by simp [Definition.dependencies])
    refine ⟨kept.layered, ?_, ?_⟩
    · intro entry listed
      rcases entries entry listed with old | rfl
      · exact kept.next entry old
      · exact (onward _ (Expr.within_var.mp within)).upto
    · intro expr column listed
      rcases List.mem_append.mp listed with old | last
      · exact kept.items expr column old
      · obtain ⟨rfl, -⟩ := Item.unnamed.inj (List.mem_singleton.mp last)
        exact within.mono onward
  dsimp only at taken
  split at taken
  · rename_i name _
    split at taken
    · cases taken
    · obtain rfl := Except.ok.inj taken
      have declares : later.Declares (fun _ => (name, .projected resolved none))
          (later.declare name fun _ => (name, .projected resolved none)) :=
        Walk.declare_declares (ClauseWalk.Sound.used projects.sound) _ _
      obtain ⟨kept, -⟩ := projecting.declare declares within
      have found := declares.get? (later.declare name fun _ => (name, .projected resolved none)).1
      rw [if_pos rfl] at found
      refine ⟨kept.layered, ?_, ?_⟩
      · intro entry listed
        rcases Visible.mem_entries_insert listed with rfl | old
        · exact ⟨_, found, Nat.le_of_eq rfl⟩
        · exact kept.next entry old
      · intro expr column listed
        exact kept.items expr column (by simpa using listed)
  · rename_i name _
    split at taken
    · cases taken
    · obtain ⟨id, rfl⟩ := (later.resolve_var name).of_ok resolves
      obtain rfl := Except.ok.inj taken
      refine unnamed name fun entry listed => ?_
      rcases Visible.mem_entries_insert listed with rfl | old
      · exact .inr rfl
      · exact .inl old
  · cases taken
  · obtain rfl := Except.ok.inj taken
    exact unnamed text fun entry => .inl

/-- The items of a projection are taken in order, by induction over them. -/
theorem takeItems {kind : ScopeKind} (projecting : later.Projecting items next)
    (projects : walk.Projects kind items next later) {rest : List ProjectionItem}
    {result : List Item × Visible × Walk} (taken : later.takeItems kind next rest = .ok result)
    : result.2.2.Projecting (items ++ result.1) result.2.1 := by
  induction rest generalizing items next later result with
  | nil =>
      obtain rfl := Except.ok.inj taken
      simpa using projecting
  | cons item rest ih =>
      obtain ⟨⟨first, visible, place⟩, takesFirst, taken⟩ := bind_eq_ok.mp taken
      obtain ⟨⟨others, final⟩, takesRest, same⟩ := bind_eq_ok.mp taken
      obtain rfl := Except.ok.inj same
      have kept := ih (projecting.takeItem projects takesFirst)
        ((projects.takeItem item).of_ok takesFirst) takesRest
      simpa using kept

end Projecting

theorem within_of_resolveClosed {expr : Option Cypher.Expr} {result : Option Expr}
    (resolves : resolveClosed expr = .ok result) (allowed : VarId → Prop)
    : ∀ closed, result = some closed → closed.Within allowed :=
  fun closed found =>
    ((resolveClosed_over expr).of_ok resolves closed found).within.mono fun _ never => never.elim

end Walk

/-- The scope of a model refers to what its parts refer to. -/
theorem ScopeModel.scope_refers {own sorting : VarId → Prop} {index : Nat} (model : ScopeModel)
    (items : ∀ expr column, .unnamed expr column ∈ model.items → expr.Within own)
    (orderBy : ∀ key ∈ model.orderBy, key.expr.Within sorting)
    (skip : ∀ expr, model.skip = some expr → expr.Within own)
    (limit : ∀ expr, model.limit = some expr → expr.Within own)
    (clauses
      : ∀ clause ∈ model.clauses, ∀ expr, clause.condition = some expr → expr.Within own)
    (filter : ∀ expr, model.filter = some expr → expr.Within own)
    : (model.scope index).Refers own sorting where
  items := items
  orderBy := fun key kept => orderBy key (List.mem_of_mem_filter kept)
  skip := skip
  limit := limit
  conditions := by
    cases found : model.filter with
    | none => simp [ScopeModel.scope, found]
    | some condition =>
        simpa [ScopeModel.scope, found] using (filter condition found).conjuncts
  clauses := clauses
  pending := by simp [ScopeModel.scope, Select.empty, Select.items]
  joins := by simp [ScopeModel.scope, Select.empty]

namespace Walk

variable {walk later : Walk}

/-- A projection closes a scope that refers to what it may, and keeps the walk layered. -/
theorem Layered.closeScope {kind : ScopeKind} (layered : walk.Layered) (sound : walk.Sound)
    {projection : Projection} {condition : Option Cypher.Expr}
    (taken : walk.closeScope kind projection condition = .ok later)
    : later.Layered := by
  obtain ⟨⟨items, next, place⟩, takesItems, taken⟩ := bind_eq_ok.mp taken
  obtain ⟨orderBy, takesKeys, taken⟩ := bind_eq_ok.mp taken
  obtain ⟨skip, takesSkip, taken⟩ := bind_eq_ok.mp taken
  obtain ⟨limit, takesLimit, taken⟩ := bind_eq_ok.mp taken
  obtain ⟨filter, takesFilter, same⟩ := bind_eq_ok.mp taken
  obtain rfl := Except.ok.inj same
  obtain ⟨projects, -⟩ := ((sound.projects kind).takeItems projection.items).of_ok takesItems
  have start : walk.Projecting [] .none := ⟨layered, by simp [Visible.none], by simp⟩
  have projecting := start.takeItems (sound.projects kind) takesItems
  simp only [List.nil_append] at projects projecting
  have scope : place.scope = place.models.length := ClauseWalk.Sound.scope projects.sound
  have visible {name : String} {id : VarId} (found : next.get? name = some id)
      : place.vars.Upto place.scope id :=
    projecting.next (name, id) (Visible.mem_entries_of_get? found)
  have open' : place.between.Layered := projecting.layered
  refine {
    vars := open'.vars
    visible := fun found => (visible found).before (scope ▸ Nat.lt_succ_self _)
    conditions := by simp [between]
    clauses := by simp [between]
    filter := ?_
    models := ?_
  }
  · intro expr found
    have known
        : ∀ name id, next.get? name = some id → place.vars.Before (place.models.length + 1) id :=
      fun _ _ found => (visible found).before (scope ▸ Nat.lt_succ_self _)
    exact ((Safely.optionMapM (resolveExpr_over known) condition).of_ok takesFilter
      expr found).within
  · intro index model found
    -- The models of the scopes before are the same, and the last one is the scope that is closed.
    rcases Nat.lt_trichotomy index place.models.length with below | rfl | above
    · dsimp only [between] at found
      rw [List.getElem?_append_left below] at found
      exact open'.models found
    · dsimp only [between] at found
      rw [List.getElem?_concat_length] at found
      obtain rfl := Option.some.inj found
      rw [← scope]
      refine ScopeModel.scope_refers _ projecting.items ?_ ?_ ?_ open'.clauses open'.filter
      · intro key listed
        obtain ⟨position, found⟩ := List.getElem?_of_mem listed
        obtain ⟨source, -, made⟩ :=
          forall₂_getElem?_right (Modality.forall₂_of_mapM_eq_ok takesKeys) found
        obtain ⟨expr, resolves, same⟩ := bind_eq_ok.mp made
        obtain rfl := Except.ok.inj same
        refine within_of_resolveExpr (fun name id found => ?_) resolves
        -- A sort key sees the names before the projection too.
        rcases Visible.get?_foldl_insert found with own | entry
        · have visibleHere : place.visible.get? name = some id := own
          exact (open'.visible visibleHere).upto
        · exact projecting.next (name, id) entry
      · exact within_of_resolveClosed takesSkip _
      · exact within_of_resolveClosed takesLimit _
    · dsimp only [between] at found
      rw [List.getElem?_eq_none (by rw [List.length_append]; exact above)] at found
      cases found

/-- The clauses of a query keep the walk layered, by induction over them. -/
theorem Layered.takeClauses (layered : walk.Layered) (sound : walk.Sound) {returned : Bool}
    {clauses : List Cypher.Clause} (taken : walk.takeClauses returned clauses = .ok later)
    : later.Layered := by
  induction clauses generalizing walk returned with
  | nil =>
      unfold Walk.takeClauses at taken
      split at taken
      · exact Except.ok.inj taken ▸ layered
      · cases taken
  | cons clause rest ih =>
      unfold Walk.takeClauses at taken
      split at taken
      · cases taken
      · cases clause with
        | matching clause =>
            obtain ⟨next, takesMatch, taken⟩ := bind_eq_ok.mp taken
            exact ih (layered.takeMatch sound takesMatch)
              ((sound.takeMatch clause).of_ok takesMatch).1 taken
        | withItems projection condition =>
            obtain ⟨next, closes, taken⟩ := bind_eq_ok.mp taken
            exact ih (layered.closeScope sound closes)
              ((sound.closeScope .withClause projection condition).of_ok closes).1 taken
        | returnItems projection =>
            obtain ⟨next, closes, taken⟩ := bind_eq_ok.mp taken
            exact ih (layered.closeScope sound closes)
              ((sound.closeScope .returnClause projection none).of_ok closes).1 taken

theorem layered_start : start.Layered where
  vars := by
    intro id var found
    rw [start, between, VarTable.get?, VarTable.empty] at found
    simp [NameMap.get?_empty] at found
  visible := by simp [start, between, Visible.none, Visible.get?]
  conditions := by simp [start, between]
  clauses := by simp [start, between]
  filter := by simp [start, between]
  models := by simp [start, between]

end Walk

/-- An item that is scoped declares what it projects. -/
theorem Item.Scoped.declares {vars : VarTable} {scope : Nat} {before : List Item} {own : List VarId}
    {kind : ScopeKind} {item : Item} (inScope : item.Scoped vars scope before own kind)
    : item.Declares vars scope := by
  cases item with
  | named id =>
      obtain ⟨var, expr, type, found, here, definition, -⟩ := inScope
      exact ⟨var, expr, type, found, here, definition⟩
  | unnamed expr column => exact inScope.2.2

/-- The variables of a query are layered, and its scopes refer to what they may. -/
theorem collect_layered {query : Cypher.Query} {walk : Walk} (collects : collect query = .ok walk)
    : walk.vars.Layered
      ∧ ∀ {index : Nat} {model : ScopeModel},
          walk.models[index]? = some model → (model.scope index).Layered walk.vars := by
  have layered := Walk.layered_start.takeClauses Walk.sound_start collects
  obtain ⟨-, collected, -⟩ := (collect_safely query).of_ok collects
  refine ⟨layered.vars, fun {index model} found => ?_⟩
  have inScope := collected.inScope found
  have elements {clause : ReadingClause} (listed : clause ∈ model.clauses)
      : ∀ id ∈ clause.ids, walk.vars.IsElement id := by
    intro id member
    obtain ⟨position, found⟩ := List.getElem?_of_mem listed
    obtain ⟨var, present, -, isElement⟩ := (inScope.clauses.each found).elements id member
    exact ⟨_, VarTable.definition?_of_get? present, isElement⟩
  refine {
    refers := layered.models found
    items := fun item listed => Item.Scoped.declares (inScope.items item listed)
    clauses := ?_
    sources := by simp [ScopeModel.scope, Select.empty, Select.items]
  }
  rintro clause listed id (declared | relationship)
  · exact elements listed id declared
  · obtain ⟨position, found⟩ := List.getElem?_of_mem listed
    exact elements listed id (((inScope.clauses.each found).relationships id).mp relationship).1

end CypherSql.Plan
