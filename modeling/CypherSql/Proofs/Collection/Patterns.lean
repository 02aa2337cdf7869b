import CypherSql.Proofs.Collection.Walk

/-! The walk through the patterns of a `MATCH` keeps its invariant and never reports a broken one.
Nodes stand for nodes, relationships lie between the nodes beside them, and a path is a chain.
-/

namespace CypherSql.Plan

open Cypher (NodePattern RelationshipPattern PathPattern MatchClause)

namespace ClauseWalk

/-- The result of taking a node: a later place where the node is in reach. -/
def TakesNode (state : ClauseWalk) (result : VarId × ClauseWalk) : Prop :=
  result.2.Sound
  ∧ state.Advances result.2
  ∧ result.2.Reach result.1
  ∧ result.2.walk.vars.StandsForNode result.1

/-- The result of taking a relationship: a later place where it is declared between its nodes. -/
def TakesRelationship (state : ClauseWalk) (left right : VarId) (result : VarId × ClauseWalk)
    : Prop :=
  result.2.Sound
  ∧ state.Advances result.2
  ∧ ∃ rel, result.2.walk.vars.relationship? result.1 = some rel ∧ rel.left = left
    ∧ rel.right = right

namespace Sound

variable {state : ClauseWalk}

/-- An expression that is resolved where the walk is refers to what is in reach. -/
theorem resolve (sound : state.Sound) (expr : Cypher.Expr)
    : Safely (Expr.Over state.Reach) (state.walk.resolve expr) :=
  resolveExpr_over (fun _ _ found => sound.visible found) expr

/-- The conditions of a property map refer to their variable and to what is in reach. -/
theorem propertyConditions (sound : state.Sound) (id : VarId) (properties : Cypher.Properties)
    : Safely (Expr.AllOver fun other => other = id ∨ state.Reach other)
        (state.walk.propertyConditions id properties) := by
  refine Safely.mapM_all fun entry _ => ?_
  refine (sound.resolve entry.2).bind fun value isOver => ?_
  simpa [Expr.equals] using isOver.mono fun _ => Or.inr

/-- A definition may be replaced by one with the same outline and the same condition. -/
theorem redefine (sound : state.Sound) {id : VarId} {var : Variable}
    (found : state.walk.vars.get? id = some var) (definition : Definition)
    (unresolved : definition.Unresolved)
    (outline : definition.outline = var.definition.outline)
    (restriction : definition.restriction? = var.definition.restriction?)
    : ({ state with walk := { state.walk with vars := state.walk.vars.redefine id definition } }
        : ClauseWalk).Sound
      ∧ state.walk.vars.GrowsTo (state.walk.vars.redefine id definition) := by
  have ordered := sound.inOrder
  have orderedLater := ordered.redefine found outline restriction
  have grows := VarTable.GrowsTo.redefine found outline (.inl restriction)
  have same (other : VarId) (present : ((state.walk.vars.redefine id definition).get? other).isSome)
      : (state.walk.vars.get? other).isSome :=
    (ordered.declared other).mp ((orderedLater.declared other).mpr present)
  refine ⟨sound.grow grows orderedLater ?_ ?_ ?_ ?_, grows⟩
  · exact fun {other} present => sound.used (same other present)
  · exact grows.allLinked ordered orderedLater same sound.linked
  · intro other changed present
    rw [VarTable.get?_redefine] at present
    split at present
    · rw [found] at present
      obtain rfl := Option.some.inj present
      exact unresolved
    · exact sound.unresolved other changed present
  · intro other changed present
    rw [VarTable.get?_redefine] at present
    split at present
    · rw [found] at present
      obtain rfl := Option.some.inj present
      have old := sound.within found
      exact old
    · exact sound.within present

end Sound

/-- Labels may be added to a node without a change to anything else. -/
theorem Sound.addLabels {state : ClauseWalk} (sound : state.Sound) {id : VarId} {var : Variable}
    {node : NodeVar} (found : state.walk.vars.get? id = some var)
    (kind : var.definition = .node node) (labels : List String)
    : (state.addLabels id node labels).Sound
      ∧ state.Advances (state.addLabels id node labels) := by
  have unresolved := sound.unresolved id var found
  rw [kind] at unresolved
  obtain ⟨later, grows⟩ := sound.redefine found
    (.node { node with labels := node.labels.insertAll labels }) unresolved
    (by simp [kind, Definition.outline]) (by simp [kind, Definition.restriction?])
  exact ⟨later, ⟨grows, rfl, rfl, rfl, fun _ member => member⟩⟩

/-- A visible variable may be mentioned as a node again. It is never missing from the table. -/
theorem Sound.mentionNode {state : ClauseWalk} (sound : state.Sound) (pattern : NodePattern)
    (name : String) {id : VarId} (reach : state.Reach id)
    : Safely state.TakesNode (state.mentionNode pattern name id) := by
  obtain ⟨var, found, -⟩ := reach.resolved
  have finish (later : ClauseWalk) (soundLater : later.Sound) (advances : state.Advances later)
      (stands : state.walk.vars.StandsForNode id)
      : Safely state.TakesNode (do
          let conditions ← later.walk.propertyConditions id pattern.properties
          return (id, { later with conditions := later.conditions ++ conditions })) := by
    have reachLater := advances.reach sound soundLater reach
    refine (soundLater.propertyConditions id pattern.properties).bind fun conditions isOver => ?_
    refine ⟨soundLater.addConditions (isOver.mono ?_), ⟨advances.grows, advances.scope,
      advances.models, advances.clauses, advances.ids⟩, reachLater,
      advances.standsForNode sound soundLater stands⟩
    rintro other (rfl | reach)
    · exact reachLater
    · exact reach
  unfold ClauseWalk.mentionNode
  simp only [found]
  obtain ⟨varName, varId, scope, definition⟩ := var
  cases definition with
  | node node =>
      have stands : state.walk.vars.StandsForNode id :=
        ⟨node, VarTable.node?_eq_some.mpr (VarTable.definition?_eq_some.mpr ⟨_, found, rfl⟩)⟩
      dsimp only
      split
      · exact finish state sound (.refl state) stands
      · split
        · exact Safely.fail_iff.mpr (by simp [Cause.category])
        · obtain ⟨later, advances⟩ := sound.addLabels found rfl
            (pattern.labels.filter (· ∉ node.labels))
          exact finish _ later advances stands
  | _ => exact Safely.fail_iff.mpr (by simp [Cause.category])

/-- A new node or relationship is listed in the open clause and in reach from then on. -/
theorem Sound.declareElement {state : ClauseWalk} (sound : state.Sound)
    {make : VarId → String × Definition} {declared : VarId × Walk}
    (declares : state.walk.Declares make declared) {definition : Definition}
    (made : (make declared.1).2 = definition) (element : definition.isElement)
    (unresolved : definition.Unresolved)
    (restriction
      : ∀ condition,
          definition.restriction? = some condition
          → condition.Over fun other => other = declared.1 ∨ state.Reach other)
    (ends
      : ∀ rel,
          definition = .relationship rel
          → (state.Reach rel.left ∧ state.walk.vars.StandsForNode rel.left)
            ∧ state.Reach rel.right
            ∧ state.walk.vars.StandsForNode rel.right)
    (name : Option String) (relationships : List VarId)
    (relationshipIds
      : ∀ other,
          other ∈ relationships
          ↔ other ∈ state.relationships
            ∨ other = declared.1 ∧ ∃ rel, definition = .relationship rel)
    : let later : ClauseWalk :=
        { state with walk := declared.2.bind name declared.1, ids := state.ids ++ [declared.1],
                     relationships }
      later.Sound
      ∧ state.Advances later
      ∧ later.Reach declared.1
      ∧ later.walk.vars.definition? declared.1 = some definition := by
  subst made
  have dependencies
      : ∀ dep ∈ (make declared.1).2.dependencies declared.1,
          (state.walk.vars.get? dep).isSome := by
    intro dep member
    obtain ⟨different, ⟨condition, found, refers⟩ | ⟨rel, kind, isEnd⟩⟩ :=
      Definition.mem_dependencies_of_isElement element member
    · rcases (restriction condition found).of_mem_references refers with same | reach
      · exact absurd same different
      · exact reach.isSome
    · rcases isEnd with rfl | rfl
      · exact (ends rel kind).1.1.isSome
      · exact (ends rel kind).2.1.isSome
  have linked : (make declared.1).2.Linked state.walk.vars := by
    cases kind : (make declared.1).2 with
    | relationship rel => exact ⟨(ends rel kind).1.2, (ends rel kind).2.2⟩
    | path hops elements => simp [kind, Definition.isElement] at element
    | _ => trivial
  have soundNew := sound.declare declares dependencies linked unresolved
  have advances := declares.advances
  have reachNew {id : VarId} (reach : state.Reach id) := advances.reach sound soundNew reach
  have found := declares.get? declared.1
  rw [if_pos rfl] at found
  have definition : declared.2.vars.definition? declared.1 = some (make declared.1).2 :=
    VarTable.definition?_of_get? found
  -- An identifier that was free is listed nowhere.
  have unlisted : declared.1 ∉ state.own := by
    intro member
    have present := sound.isSome_of_mem_own member
    rw [declares.new] at present
    cases present
  have unlistedNew : declared.1 ∉ ({ state with walk := declared.2 } : ClauseWalk).own := by
    rwa [own, advances.clauses]
  have isRelationship
      : (declared.2.vars.relationship? declared.1).isSome
        ↔ ∃ rel, (make declared.1).2 = .relationship rel := by
    simp only [Option.isSome_iff_exists, VarTable.relationship?_eq_some, definition,
      Option.some.injEq]
  have listed := soundNew.list found advances.scope.symm element unlistedNew
    (fun condition present => (restriction condition present).mono fun _ => Or.imp_right reachNew)
    (fun rel kind => by
      have kind := Option.some.inj
        (definition.symm.trans (VarTable.relationship?_eq_some.mp kind))
      exact ⟨reachNew (ends rel kind).1.1, reachNew (ends rel kind).2.1⟩)
    relationships
    (fun other => by rw [relationshipIds, isRelationship])
  have reach : ({ state with walk := declared.2, ids := state.ids ++ [declared.1], relationships }
      : ClauseWalk).Reach declared.1 := by
    -- An element of a pattern is no alias, and stands for itself.
    have last : declared.2.vars.target? declared.1 = none := by
      rw [VarTable.target?, definition]
      cases kind : (make declared.1).2 <;> simp_all [Definition.isElement, Definition.target?]
    have itself := VarTable.Ordered.resolve_of_target_none last
    refine Origin.declared (itself.symm ▸ found) advances.scope.symm ?_
    rw [itself]
    simp [own]
  have bound := listed.bind reach name
  refine ⟨bound, ⟨?_, ?_, ?_, ?_, ?_⟩, ?_, ?_⟩
  · simpa using advances.grows
  · simpa using advances.scope
  · simpa using advances.models
  · simpa using advances.clauses
  · intro id member
    simp [member]
  · simpa [Reach, inherited, own] using reach
  · simpa using definition

/-- A declared node is in reach and stands for itself. -/
theorem Sound.declareNode {state : ClauseWalk} (sound : state.Sound)
    {make : VarId → String × Definition} {declared : VarId × Walk}
    (declares : state.walk.Declares make declared) {node : NodeVar}
    (made : (make declared.1).2 = .node node) (unresolved : (Definition.node node).Unresolved)
    (restriction
      : ∀ condition,
          node.restriction = some condition
          → condition.Over fun other => other = declared.1 ∨ state.Reach other)
    (name : Option String)
    : state.TakesNode
        (declared.1,
          { state with
            walk := declared.2.bind name declared.1
            ids := state.ids ++ [declared.1] }) := by
  obtain ⟨later, advances, reach, definition⟩ := sound.declareElement declares made rfl unresolved
    restriction (by simp) name state.relationships (by simp)
  refine ⟨later, advances, reach, ?_⟩
  have last : (declared.2.bind name declared.1).vars.target? declared.1 = none := by
    rw [VarTable.target?, definition]
    rfl
  rw [VarTable.StandsForNode, VarTable.Ordered.resolve_of_target_none last]
  exact ⟨node, VarTable.node?_eq_some.mpr definition⟩

/-- A new node is in reach and stands for itself. -/
theorem Sound.newNode {state : ClauseWalk} (sound : state.Sound) (pattern : NodePattern)
    : Safely state.TakesNode (state.newNode pattern) := by
  unfold ClauseWalk.newNode
  refine (sound.propertyConditions _ pattern.properties).bind fun conditions isOver => ?_
  have declares := Walk.declare_declares sound.used (pattern.name.getD "anon_n") fun id =>
    (pattern.name.getD id, .node
      { labels := .ofList pattern.labels, restriction := Expr.conjoin conditions, required := ∅,
        binding := none })
  exact sound.declareNode declares rfl rfl (fun _ found => Expr.over_of_conjoin isOver found)
    pattern.name

/-- A node of a pattern is in reach after it is taken. -/
theorem Sound.takeNode {state : ClauseWalk} (sound : state.Sound) (pattern : NodePattern)
    : Safely state.TakesNode (state.takeNode pattern) := by
  unfold ClauseWalk.takeNode
  split
  · split
    · rename_i found
      exact sound.mentionNode pattern _ (sound.visible found)
    · exact sound.newNode pattern
  · exact sound.newNode pattern

/-- A declared relationship lies between its nodes. -/
theorem Sound.declareRelationship {state : ClauseWalk} (sound : state.Sound)
    {make : VarId → String × Definition} {declared : VarId × Walk}
    (declares : state.walk.Declares make declared) {rel : RelationshipVar}
    (made : (make declared.1).2 = .relationship rel)
    (unresolved : (Definition.relationship rel).Unresolved)
    (leftNode : state.Reach rel.left ∧ state.walk.vars.StandsForNode rel.left)
    (rightNode : state.Reach rel.right ∧ state.walk.vars.StandsForNode rel.right)
    (restriction
      : ∀ condition,
          rel.restriction = some condition
          → condition.Over fun other => other = declared.1 ∨ state.Reach other)
    (name : Option String)
    : state.TakesRelationship rel.left rel.right
        (declared.1,
          { state with
            walk := declared.2.bind name declared.1
            ids := state.ids ++ [declared.1]
            relationships := state.relationships ++ [declared.1] }) := by
  obtain ⟨later, advances, -, definition⟩ := sound.declareElement declares made rfl unresolved
    restriction (by rintro _ ⟨⟩; exact ⟨leftNode, rightNode⟩) name
    (state.relationships ++ [declared.1]) (by simp)
  exact ⟨later, advances, rel, VarTable.relationship?_eq_some.mpr definition, rfl, rfl⟩

/-- A new relationship lies between the nodes it is given. -/
theorem Sound.newRelationship {state : ClauseWalk} (sound : state.Sound)
    (pattern : RelationshipPattern) {left right : VarId}
    (leftNode : state.Reach left ∧ state.walk.vars.StandsForNode left)
    (rightNode : state.Reach right ∧ state.walk.vars.StandsForNode right)
    : Safely (state.TakesRelationship left right) (state.newRelationship pattern left right) := by
  unfold ClauseWalk.newRelationship
  refine (sound.propertyConditions _ pattern.properties).bind fun conditions isOver => ?_
  have declares := Walk.declare_declares sound.used (pattern.name.getD "anon_r") fun id =>
    (pattern.name.getD id, .relationship
      { left, right, direction := pattern.direction, types := pattern.types,
        restriction := Expr.conjoin conditions, required := ∅, binding := none })
  exact sound.declareRelationship declares rfl ⟨rfl, rfl⟩ leftNode rightNode
    (fun _ found => Expr.over_of_conjoin isOver found) pattern.name

/-- A visible name that cannot be that of a relationship is never missing from the table. -/
theorem relationshipConflict_category {state : ClauseWalk} {name : String} {id : VarId}
    (reach : state.Reach id)
    : (relationshipConflict state.walk.vars name id).category ≠ .internalInvariant := by
  obtain ⟨var, found, -⟩ := reach.resolved
  simp only [relationshipConflict, VarTable.definition?_of_get? found]
  split <;> simp_all [Cause.category]

/-- A relationship of a pattern is declared between its nodes. -/
theorem Sound.takeRelationship {state : ClauseWalk} (sound : state.Sound)
    (pattern : RelationshipPattern) {left right : VarId}
    (leftNode : state.Reach left ∧ state.walk.vars.StandsForNode left)
    (rightNode : state.Reach right ∧ state.walk.vars.StandsForNode right)
    : Safely (state.TakesRelationship left right) (state.takeRelationship pattern left right) := by
  unfold ClauseWalk.takeRelationship
  split
  · simp [Cause.category]
  · split
    · rename_i name id found
      obtain ⟨other, -, mapped⟩ := Option.bind_eq_some_iff.mp found
      obtain ⟨_, visible, same⟩ := Option.map_eq_some_iff.mp mapped
      obtain ⟨rfl, rfl⟩ := Prod.mk.inj same
      exact Safely.fail_iff.mpr (relationshipConflict_category (sound.visible visible))
    · exact sound.newRelationship pattern leftNode rightNode

/-- The result of taking nodes: a later place where as many nodes are in reach. -/
def TakesNodes (state : ClauseWalk) (count : Nat) (result : List VarId × ClauseWalk) : Prop :=
  result.2.Sound
  ∧ state.Advances result.2
  ∧ result.1.length = count
  ∧ ∀ id ∈ result.1, result.2.Reach id ∧ result.2.walk.vars.StandsForNode id

/-- The nodes of a pattern are in reach after they are taken, by induction over them. -/
theorem Sound.takeNodes {state : ClauseWalk} (sound : state.Sound) (patterns : List NodePattern)
    : Safely (state.TakesNodes patterns.length) (state.takeNodes patterns) := by
  induction patterns generalizing state with
  | nil => exact ⟨sound, .refl state, rfl, by simp⟩
  | cons pattern rest ih =>
      refine (sound.takeNode pattern).bind fun ⟨id, next⟩ ⟨soundNext, advances, reach, stands⟩ => ?_
      refine (ih soundNext).bind fun ⟨ids, later⟩ ⟨soundLater, more, length, others⟩ => ?_
      refine ⟨soundLater, advances.trans more, by simpa using length, ?_⟩
      intro other member
      rcases List.mem_cons.mp member with rfl | rest
      · exact ⟨more.reach soundNext soundLater reach,
          more.standsForNode soundNext soundLater stands⟩
      · exact others other rest

/-- A node with the relationships and nodes that follow it. -/
def elementsOf (start : VarId) (hops : List (VarId × VarId)) : List VarId :=
  start :: hops.flatMap fun (relationship, node) => [relationship, node]

/-- The result of taking relationships: a later place where they chain the nodes. -/
def TakesRelationships (state : ClauseWalk) (left : VarId) (nodes : List VarId)
    (result : List VarId × ClauseWalk)
    : Prop :=
  result.2.Sound
  ∧ state.Advances result.2
  ∧ result.1.length = nodes.length
  ∧ result.2.walk.vars.Chain (elementsOf left (result.1.zip nodes))

/-- The relationships of a pattern chain its nodes, by induction over them. -/
theorem Sound.takeRelationships {state : ClauseWalk} (sound : state.Sound) {left : VarId}
    (leftNode : state.Reach left ∧ state.walk.vars.StandsForNode left)
    (patterns : List (RelationshipPattern × VarId))
    (nodes : ∀ entry ∈ patterns, state.Reach entry.2 ∧ state.walk.vars.StandsForNode entry.2)
    : Safely (state.TakesRelationships left (patterns.map (·.2)))
        (state.takeRelationships left patterns) := by
  induction patterns generalizing state left with
  | nil => exact ⟨sound, .refl state, rfl, leftNode.2⟩
  | cons entry rest ih =>
      obtain ⟨pattern, right⟩ := entry
      have rightNode := nodes (pattern, right) (by simp)
      refine (sound.takeRelationship pattern leftNode rightNode).bind
        fun ⟨id, next⟩ ⟨soundNext, advances, rel, found, sameLeft, sameRight⟩ => ?_
      have onward {id : VarId} (node : state.Reach id ∧ state.walk.vars.StandsForNode id)
          : next.Reach id ∧ next.walk.vars.StandsForNode id :=
        ⟨advances.reach sound soundNext node.1, advances.standsForNode sound soundNext node.2⟩
      refine (ih soundNext (onward rightNode)
        fun entry member => onward (nodes entry (by simp [member]))).bind
        fun ⟨ids, later⟩ ⟨soundLater, more, length, chain⟩ => ?_
      obtain ⟨other, found', otherLeft, otherRight, -⟩ := more.grows.relationship? found
      refine ⟨soundLater, advances.trans more, by simpa using length, ?_, ?_, chain⟩
      · exact more.standsForNode soundNext soundLater (onward leftNode).2
      · exact ⟨other, found', otherLeft.trans sameLeft, otherRight.trans sameRight⟩

/-- The result of a step inside a clause. -/
def Continues (state later : ClauseWalk) : Prop :=
  later.Sound ∧ state.Advances later

/-- The elements of a path are one more than twice its hops. -/
theorem length_elementsOf (start : VarId) (hops : List (VarId × VarId))
    : (elementsOf start hops).length = 2 * hops.length + 1 := by
  induction hops with
  | nil => rfl
  | cons hop rest ih =>
      simp only [elementsOf, List.flatMap_cons, List.length_cons, List.length_append,
        List.length_nil] at ih ⊢
      omega

/-- A declared path is in reach from then on. -/
theorem Sound.declarePath {state : ClauseWalk} (sound : state.Sound)
    {make : VarId → String × Definition} {declared : VarId × Walk}
    (declares : state.walk.Declares make declared) {start : VarId} {hops : List (VarId × VarId)}
    (made : (make declared.1).2 = .path hops.length (elementsOf start hops))
    (chain : state.walk.vars.Chain (elementsOf start hops)) (name : Option String)
    : state.Continues { state with walk := declared.2.bind name declared.1 } := by
  have dependencies
      : ∀ dep ∈ (make declared.1).2.dependencies declared.1, (state.walk.vars.get? dep).isSome := by
    intro dep member
    rw [made] at member
    exact chain.isSome (NameSet.mem_ofList.mp member)
  have linked : (make declared.1).2.Linked state.walk.vars := by
    rw [made]
    exact ⟨length_elementsOf start hops, chain⟩
  have soundNew := sound.declare declares dependencies linked (made ▸ trivial)
  have advances := declares.advances
  have found := declares.get? declared.1
  rw [if_pos rfl] at found
  have last : declared.2.vars.target? declared.1 = none := by
    rw [VarTable.target?, VarTable.definition?_of_get? found]
    simp [made, Definition.target?]
  have itself := VarTable.Ordered.resolve_of_target_none last
  have reach : ({ state with walk := declared.2 } : ClauseWalk).Reach declared.1 := by
    rw [Reach, InReach, itself]
    exact .path found advances.scope.symm made
  refine ⟨soundNew.bind reach name, ⟨?_, ?_, ?_, ?_, fun _ member => member⟩⟩
  · simpa using advances.grows
  · simpa using advances.scope
  · simpa using advances.models
  · simpa using advances.clauses

/-- A path with a name is a chain that is in reach from then on. -/
theorem Sound.newPath {state : ClauseWalk} (sound : state.Sound) (name : String) {start : VarId}
    {hops : List (VarId × VarId)} (chain : state.walk.vars.Chain (elementsOf start hops))
    : Safely state.Continues (state.newPath name start hops) := by
  unfold ClauseWalk.newPath
  split
  · simp [Cause.category]
  · have declares := Walk.declare_declares sound.used name fun _ =>
      (name, .path hops.length (elementsOf start hops))
    exact sound.declarePath declares rfl chain (some name)

/-- A path pattern is taken safely: its nodes first, then its relationships and its name. -/
theorem Sound.takePath {state : ClauseWalk} (sound : state.Sound) (path : PathPattern)
    : Safely state.Continues (state.takePath path) := by
  unfold ClauseWalk.takePath
  refine (sound.takeNode path.start).bind
    fun ⟨start, next⟩ ⟨soundNext, advances, reach, stands⟩ => ?_
  refine (soundNext.takeNodes _).bind fun ⟨nodes, last⟩ ⟨soundLast, more, length, each⟩ => ?_
  have startNode : last.Reach start ∧ last.walk.vars.StandsForNode start :=
    ⟨more.reach soundNext soundLast reach, more.standsForNode soundNext soundLast stands⟩
  have same : (path.relationships.zip nodes).map (·.2) = nodes := by
    refine List.map_snd_zip ?_
    simpa [PathPattern.relationships] using Nat.le_of_eq length
  have nodesInReach : ∀ entry ∈ path.relationships.zip nodes,
      last.Reach entry.2 ∧ last.walk.vars.StandsForNode entry.2 :=
    fun entry member => each entry.2 (List.of_mem_zip member).2
  refine (soundLast.takeRelationships startNode _ nodesInReach).bind
    fun ⟨relationships, later⟩ ⟨soundLater, further, _, chain⟩ => ?_
  rw [same] at chain
  have onward := (advances.trans more).trans further
  cases path.name with
  | none => exact ⟨soundLater, onward⟩
  | some name =>
      exact (soundLater.newPath name chain).mono fun _ ⟨soundFinal, rest⟩ =>
        ⟨soundFinal, onward.trans rest⟩

end ClauseWalk

/-- A walk between two clauses. -/
def Walk.between (walk : Walk) : ClauseWalk :=
  { walk, ids := [], relationships := [], conditions := [] }

/-- An open clause without variables is scoped anywhere. -/
theorem Walk.between_clause_scoped (walk : Walk) (vars : VarTable) (scope : Nat)
    (before : List Item) (own : List VarId)
    : walk.between.clause.Scoped vars scope before own := by
  refine ⟨?_, ?_, ?_, ?_, ?_⟩ <;> simp [Walk.between, ClauseWalk.clause]

/-- The invariant of the walk between two clauses. -/
def Walk.Sound (walk : Walk) : Prop :=
  walk.between.Sound

/-- A clause may follow others if it is scoped behind them and declares other variables. -/
theorem ClausesScoped.concat {vars : VarTable} {scope : Nat} {before : List Item}
    {clauses : List ReadingClause} {clause : ReadingClause}
    (inScope : ClausesScoped vars scope before clauses)
    (last : clause.Scoped vars scope before (clauseIds clauses))
    (distinct : (clauseIds clauses ++ clause.ids).Nodup)
    : ClausesScoped vars scope before (clauses ++ [clause]) := by
  refine ⟨fun {index found} present => ?_, by simpa [clauseIds] using distinct⟩
  rcases Nat.lt_or_ge index clauses.length with below | above
  · rw [List.getElem?_append_left below] at present
    rw [List.take_append_of_le_length (Nat.le_of_lt below)]
    exact inScope.each present
  · rw [List.getElem?_append_right above] at present
    obtain ⟨at', same⟩ := List.getElem?_eq_some_iff.mp present
    have only : index = clauses.length := by
      simp only [List.length_singleton] at at'
      omega
    subst only
    simp only [Nat.sub_self, List.getElem_cons_zero] at same
    rw [List.take_left, ← same]
    exact last

/-- The open clause with the conditions that are kept for it. -/
def ClauseWalk.reading (state : ClauseWalk) (isOptional : Bool) (conditions : List Expr)
    : ReadingClause :=
  { optional := isOptional
    ids := state.ids
    relationships := state.relationships
    condition := Expr.conjoin conditions }

/-- The open clause may be closed with conditions that refer to what is in reach. -/
theorem ClauseWalk.Sound.close {state : ClauseWalk} (sound : state.Sound) {conditions : List Expr}
    (isOver : Expr.AllOver state.Reach conditions) (isOptional : Bool)
    : Walk.Sound
        { state.walk with
          clauses := state.walk.clauses ++ [state.reading isOptional conditions] } := by
  have own : clauseIds (state.walk.clauses ++ [state.reading isOptional conditions]) ++ []
      = state.own := by
    simp [clauseIds, ClauseWalk.own, ClauseWalk.reading]
  have current := sound.current
  refine { sound with
    clauses := ?_
    current := ?_
    distinct := ?_
    visible := ?_
    conditions := Expr.allOver_nil
  }
  · refine sound.clauses.concat { current with condition := ?_ } sound.distinct
    exact fun condition found => Expr.over_of_conjoin isOver found
  · exact Walk.between_clause_scoped _ _ _ _ _
  · rw [ClauseWalk.own, Walk.between, own]
    exact sound.distinct
  · intro name id found
    rw [ClauseWalk.Reach, ClauseWalk.own, Walk.between, own]
    exact sound.visible found

/-- A `MATCH` is taken safely: its patterns one after the other, then its condition. It closes no
scope.
-/
theorem Walk.Sound.takeMatch {walk : Walk} (sound : walk.Sound) (clause : MatchClause)
    : Safely (fun later => later.Sound ∧ later.models = walk.models) (walk.takeMatch clause) := by
  unfold Walk.takeMatch
  have continues : walk.between.Continues walk.between := ⟨sound, .refl _⟩
  have patterns := Safely.foldlM (f := ClauseWalk.takePath) clause.patterns continues
    fun state ⟨soundState, advances⟩ path _ =>
      (soundState.takePath path).mono fun later ⟨soundLater, more⟩ =>
        ⟨soundLater, advances.trans more⟩
  refine patterns.bind fun state ⟨soundState, advances⟩ => ?_
  cases clause.condition with
  | none => exact ⟨soundState.close soundState.conditions clause.optional, advances.models⟩
  | some condition =>
      refine (soundState.resolve condition).bind fun condition isOver => ?_
      have kept := Expr.allOver_append.mpr ⟨soundState.conditions, isOver.conjuncts⟩
      exact ⟨soundState.close kept clause.optional, advances.models⟩

end CypherSql.Plan
