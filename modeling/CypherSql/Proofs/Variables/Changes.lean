import CypherSql.Proofs.Variables.WellFormed

/-! Definitions may change where they stand. A definition whose references come before it keeps the
order of the table, and so does the removal of a variable that no definition refers to.
-/

namespace CypherSql.Plan

namespace VarTable

/-- A definition may refer to a variable: it is declared before, and in no later scope. -/
structure Precedes (vars : VarTable) (order : List VarId) (id dep : VarId) : Prop where
  member : dep ∈ order
  before : order.idxOf dep < order.idxOf id
  noLater
    : ∀ {var other}, vars.get? id = some var → vars.get? dep = some other → other.scope ≤ var.scope

/-- With a variable, a property holds of everything that its definition refers to. -/
def Closed (vars : VarTable) (allowed : VarId → Prop) : Prop :=
  ∀ id var dep,
    vars.get? id = some var → allowed id → dep ∈ var.definition.dependencies id → allowed dep

variable {vars : VarTable} {order : List VarId} {id : VarId} {var : Variable}

/-- A closed property of a variable holds of what it stands for. -/
theorem Closed.resolve {allowed : VarId → Prop} (closed : vars.Closed allowed)
    (ordered : vars.Ordered order) (holds : allowed id)
    : allowed (vars.resolve id) := by
  induction id using ordered.chain_induction with
  | last id found => rwa [Ordered.resolve_of_target_none found]
  | next id target found ih =>
      obtain ⟨definition, defined, named⟩ := Option.bind_eq_some_iff.mp found
      obtain ⟨var, present, rfl⟩ := definition?_eq_some.mp defined
      rw [ordered.resolve_of_target found]
      exact ih (closed _ _ _ present holds (Definition.target?_mem_dependencies id named))

namespace Ordered

/-- The dependencies of a variable precede it. -/
theorem precedes (ordered : vars.Ordered order) (found : vars.get? id = some var) {dep : VarId}
    (depends : dep ∈ var.definition.dependencies id)
    : vars.Precedes order id dep := by
  obtain ⟨member, before⟩ := ordered.earlier found dep depends
  refine ⟨member, before, fun {var' other} found' present => ?_⟩
  obtain rfl := Option.some.inj (found.symm.trans found')
  exact ordered.noLater found depends present

/-- To precede a variable is closed. -/
theorem closed_precedes (ordered : vars.Ordered order) (id : VarId)
    : vars.Closed (vars.Precedes order id) := by
  intro middle between dep found first depends
  have second := ordered.precedes found depends
  refine ⟨second.member, Nat.lt_trans second.before first.before, fun isThere present => ?_⟩
  exact Nat.le_trans (second.noLater found present) (first.noLater isThere found)

/-- A definition may be replaced by one that refers to what precedes it. -/
theorem replace (ordered : vars.Ordered order) {definition : Definition}
    (found : vars.get? id = some var)
    (temporary : definition.isTemporary = var.definition.isTemporary)
    (precedes : ∀ dep ∈ definition.dependencies id, vars.Precedes order id dep)
    : ((vars.redefine id definition).refresh id).Ordered order := by
  have changed : (vars.redefine id definition).get? id = some { var with definition } := by
    rw [get?_redefine, if_pos rfl, found]
    rfl
  have present (other : VarId)
      : ((vars.redefine id definition).refresh id).get? other
        = if other = id then some { var with definition } else vars.get? other := by
    rw [get?_refresh, get?_redefine, found]
    rfl
  -- A variable of the new table is one of the old table, but for the definition of one of them.
  have before {other : VarId} {later : Variable}
      (isThere : ((vars.redefine id definition).refresh id).get? other = some later)
      : ∃ old,
          vars.get? other = some old
          ∧ later.scope = old.scope
          ∧ later.id = old.id
          ∧ ∀ dep ∈ later.definition.dependencies other, vars.Precedes order other dep := by
    rw [present] at isThere
    split at isThere
    · rename_i same
      subst same
      obtain rfl := Option.some.inj isThere
      exact ⟨var, found, rfl, rfl, precedes⟩
    · exact ⟨later, isThere, rfl, rfl, fun dep depends => ordered.precedes isThere depends⟩
  refine ⟨ordered.distinct, ?_, ?_, ?_, ?_, ?_⟩
  · intro other
    rw [ordered.declared, present]
    split
    · rename_i same
      simp [same, found]
    · rfl
  · intro other later isThere
    obtain ⟨old, isOld, -, same, -⟩ := before isThere
    exact same.trans (ordered.named isOld)
  · intro other later isThere dep depends
    obtain ⟨old, -, -, -, earlier⟩ := before isThere
    exact ⟨(earlier dep depends).member, (earlier dep depends).before⟩
  · intro other later dep laterDep isThere depends isThereDep
    obtain ⟨old, isOld, scope, -, earlier⟩ := before isThere
    obtain ⟨oldDep, isOldDep, scopeDep, -⟩ := before isThereDep
    rw [scope, scopeDep]
    exact (earlier dep depends).noLater isOld isOldDep
  · intro other
    have old := ordered.recorded other
    have oldSelf := ordered.recorded id
    have named : var.id = id := ordered.named found
    have kept : (vars.redefine id definition).dependencies = vars.dependencies := rfl
    rw [present, refresh, changed]
    dsimp only [recordDependencies]
    rw [kept, temporary, named]
    rw [found, Option.bind_some] at oldSelf
    by_cases same : other = id
    · subst same
      rw [if_pos rfl, Option.bind_some, temporary]
      split
      · rename_i isTemporary
        simp [oldSelf, isTemporary]
      · rw [NameMap.get?_insert, if_pos rfl]
    · rw [if_neg same, ← old]
      split
      · rfl
      · rw [NameMap.get?_insert, if_neg same]

/-- The dependencies of a variable may be read off again. -/
theorem refresh (ordered : vars.Ordered order) (id : VarId) : (vars.refresh id).Ordered order := by
  refine ⟨ordered.distinct, ?_, ?_, ?_, ?_, ?_⟩
  · intro other
    rw [ordered.declared, get?_refresh]
  · intro other var found
    exact ordered.named (by rwa [get?_refresh] at found)
  · intro other var found
    exact ordered.earlier (by rwa [get?_refresh] at found)
  · intro other var dep varDep found depends foundDep
    rw [get?_refresh] at found foundDep
    exact ordered.noLater found depends foundDep
  · intro other
    have recorded := ordered.recorded other
    rw [get?_refresh, ← recorded, VarTable.refresh]
    split
    · rename_i var found
      dsimp only [recordDependencies]
      split
      · rfl
      · rename_i lasting
        rw [NameMap.get?_insert]
        split
        · rename_i same
          have named := ordered.named found
          rw [same, named] at recorded ⊢
          rw [recorded, found, Option.bind_some, if_neg lasting]
        · rfl
    · rfl

end Ordered

/-- No definition refers to a variable. -/
def Unmentioned (vars : VarTable) (id : VarId) : Prop :=
  ∀ other var, vars.get? other = some var → id ∉ var.definition.dependencies other

/-- No definition refers to a variable without dependents, as the table records them. -/
theorem Ordered.unmentioned_of_dependents (ordered : vars.Ordered order)
    (none : vars.dependents id = [])
    : vars.Unmentioned id := by
  intro other var found depends
  have lasting : ¬ var.definition.isTemporary := by
    intro temporary
    cases kind : var.definition <;> simp_all [Definition.isTemporary, Definition.dependencies]
  have recorded := ordered.recorded other
  rw [found, Option.bind_some, if_neg lasting] at recorded
  have entry := NameMap.mem_entries.mpr recorded
  have member : other ∈ vars.dependents id := by
    refine List.mem_map.mpr ⟨_, List.mem_filter.mpr ⟨entry, ?_⟩, rfl⟩
    simpa using depends
  simp [none] at member

/-- The order of two names stays without a third one, by induction over the list. -/
theorem idxOf_erase_lt {order : List VarId} {id first second : VarId} (apart : first ≠ id)
    (other : second ≠ id) (before : order.idxOf first < order.idxOf second)
    : (order.erase id).idxOf first < (order.erase id).idxOf second := by
  induction order with
  | nil => simp at before
  | cons head rest ih =>
      have later : head ≠ second := by
        intro same
        simp [same] at before
      by_cases dropped : head = id
      · subst dropped
        rw [List.idxOf_cons_ne rest later, List.idxOf_cons_ne rest (Ne.symm apart)] at before
        rw [List.erase_cons_head]
        exact Nat.lt_of_succ_lt_succ before
      · rw [List.erase_cons_tail (by simpa using dropped), List.idxOf_cons_ne _ later]
        by_cases same : head = first
        · rw [List.idxOf_cons_eq _ same]
          exact Nat.succ_pos _
        · rw [List.idxOf_cons_ne rest later, List.idxOf_cons_ne rest same] at before
          rw [List.idxOf_cons_ne _ same]
          exact Nat.succ_lt_succ (ih (Nat.lt_of_succ_lt_succ before))

/-- A variable that no definition refers to may be removed. -/
theorem Ordered.remove (ordered : vars.Ordered order) (unmentioned : vars.Unmentioned id)
    : (vars.remove id).Ordered (order.erase id) := by
  have before {other : VarId} {var : Variable} (found : (vars.remove id).get? other = some var)
      : other ≠ id ∧ vars.get? other = some var := by
    rw [get?_remove] at found
    split at found
    · cases found
    · exact ⟨‹_›, found⟩
  have apart {other dep : VarId} {var : Variable} (found : vars.get? other = some var)
      (depends : dep ∈ var.definition.dependencies other)
      : dep ≠ id := by
    intro same
    exact unmentioned _ _ found (same ▸ depends)
  refine ⟨ordered.distinct.erase id, ?_, ?_, ?_, ?_, ?_⟩
  · intro other
    rw [ordered.distinct.mem_erase_iff, ordered.declared, get?_remove]
    by_cases same : other = id <;> simp [same]
  · intro other var found
    exact ordered.named (before found).2
  · intro other var found dep depends
    obtain ⟨different, found⟩ := before found
    obtain ⟨member, earlier⟩ := ordered.earlier found dep depends
    have different' := apart found depends
    exact ⟨(List.mem_erase_of_ne different').mpr member,
      idxOf_erase_lt different' different earlier⟩
  · intro other var dep varDep found depends foundDep
    exact ordered.noLater (before found).2 depends (before foundDep).2
  · intro other
    rw [get?_remove]
    simp only [VarTable.remove, NameMap.get?_mapValues, NameMap.get?_erase]
    by_cases same : other = id
    · simp [same]
    · rw [if_neg same, if_neg same, ordered.recorded]
      cases found : vars.get? other with
      | none => rfl
      | some var =>
          simp only [Option.bind_some]
          split
          · rfl
          · exact congrArg some (NameSet.erase_of_not_mem (unmentioned _ _ found))

/-- A node stands for itself. -/
theorem resolve_of_node {node : NodeVar} (found : vars.node? id = some node)
    : vars.resolve id = id := by
  apply Ordered.resolve_of_target_none
  simp [target?, node?_eq_some.mp found, Definition.target?]

/-- What stands for a node goes on to do so in a later table, if nodes stay nodes and other names
of nodes stay such names. Witness: induction along the chain of names.
-/
theorem Ordered.standsForNode {later : VarTable} {orderLater : List VarId} (kept : VarId → Prop)
    (ordered : vars.Ordered order) (orderedLater : later.Ordered orderLater)
    (nodes : ∀ {id node}, kept id → vars.node? id = some node → later.node? id = some node)
    (names
      : ∀ {id target},
          kept id
          → vars.target? id = some target
          → vars.StandsForNode target
          → kept target
            ∧ (later.StandsForNode target
                → ∃ next, later.target? id = some next ∧ later.StandsForNode next))
    (isKept : kept id) (stands : vars.StandsForNode id)
    : later.StandsForNode id := by
  induction id using ordered.chain_induction with
  | last id found =>
      obtain ⟨node, isNode⟩ := stands
      rw [Ordered.resolve_of_target_none found] at isNode
      have stays := nodes isKept isNode
      exact ⟨node, by rwa [resolve_of_node stays]⟩
  | next id target found ih =>
      have standsTarget : vars.StandsForNode target := by
        rwa [StandsForNode, ← ordered.resolve_of_target found]
      obtain ⟨keptTarget, goesOn⟩ := names isKept found standsTarget
      obtain ⟨next, named, standsNext⟩ := goesOn (ih keptTarget standsTarget)
      rwa [StandsForNode, orderedLater.resolve_of_target named]

/-- Links stay in a later table in which definitions other than projections are as they were, if
what they mention goes on to stand for nodes.
-/
theorem Linked.change {later : VarTable} (kept : VarId → Prop) (linked : vars.Linked)
    (same
      : ∀ {id var},
          later.get? id = some var
          → var.definition.projection? = none
          → vars.get? id = some var ∧ ∀ other, var.definition.Mentions other → kept other)
    (stands : ∀ {id}, kept id → vars.StandsForNode id → later.StandsForNode id)
    (relationships
      : ∀ {id rel}, kept id → vars.relationship? id = some rel → later.relationship? id = some rel)
    : later.Linked := by
  have chains {elements : List VarId} (each : ∀ id ∈ elements, kept id)
    (chain : vars.Chain elements)
      : later.Chain elements := by
    fun_induction VarTable.Chain vars elements with
    | case1 node => exact stands (each node (by simp)) chain
    | case2 left relationship right rest ih =>
        obtain ⟨start, ⟨rel, found, ends⟩, chain⟩ := chain
        refine ⟨stands (each left (by simp)) start, ⟨rel, ?_, ends⟩, ih ?_ chain⟩
        · exact relationships (each relationship (by simp)) found
        · exact fun id member => each id (by simp at member; simp [member])
    | case3 => exact chain.elim
  intro id var found
  cases kind : var.definition with
  | relationship rel =>
      obtain ⟨old, each⟩ := same found (by simp [kind, Definition.projection?])
      have ends := linked old
      rw [kind] at ends each
      exact ⟨stands (each _ (.inl rfl)) ends.1, stands (each _ (.inr (.inl rfl))) ends.2⟩
  | path hops elements =>
      obtain ⟨old, each⟩ := same found (by simp [kind, Definition.projection?])
      have path := linked old
      rw [kind] at path each
      exact ⟨path.1, chains each path.2⟩
  | _ => trivial

/-- The variables of a table are among the declared ones, in their order, and linked. -/
structure Coherent (declared : List VarId) (vars : VarTable) : Prop where
  inOrder : ∃ order, order.Sublist declared ∧ vars.Ordered order
  linked : vars.Linked

namespace Coherent

variable {declared : List VarId}

theorem wellFormed (coherent : vars.Coherent declared) : vars.WellFormed declared := by
  obtain ⟨order, kept, ordered⟩ := coherent.inOrder
  exact ordered.wellFormed kept coherent.linked

/-- A definition may be replaced by one with the same outline and condition. -/
theorem redefine (coherent : vars.Coherent declared) {definition : Definition}
    (found : vars.get? id = some var) (outline : definition.outline = var.definition.outline)
    (restriction : definition.restriction? = var.definition.restriction?)
    : (vars.redefine id definition).Coherent declared := by
  obtain ⟨order, kept, ordered⟩ := coherent.inOrder
  have orderedLater := ordered.redefine found outline restriction
  have grows := GrowsTo.redefine found outline (.inl restriction)
  refine ⟨⟨order, kept, orderedLater⟩, grows.allLinked ordered orderedLater ?_ coherent.linked⟩
  intro other present
  exact (ordered.declared other).mp ((orderedLater.declared other).mpr present)

/-- What a variable projects may be replaced by something that refers to what precedes it, if names
of nodes stay names of the same nodes.
-/
theorem project (linked : vars.Linked) (ordered : vars.Ordered order)
    (kept : order.Sublist declared)
    {expr changed : Expr} {type : Option VarType} (found : vars.get? id = some var)
    (projects : var.definition = .projected expr type)
    (precedes : ∀ dep ∈ changed.references, vars.Precedes order id dep)
    (names
      : ∀ target, expr = .var target → vars.StandsForNode target → changed = .var
        (vars.resolve target))
    : ((vars.redefine id (.projected changed type)).refresh id).Coherent declared := by
  have orderedLater : ((vars.redefine id (.projected changed type)).refresh id).Ordered order :=
    ordered.replace found (by rw [projects]; rfl) precedes
  refine ⟨⟨order, kept, orderedLater⟩, ?_⟩
  have present (other : VarId)
      : ((vars.redefine id (.projected changed type)).refresh id).get? other
        = if other = id then some { var with definition := .projected changed type }
          else vars.get? other := by
    rw [get?_refresh, get?_redefine, found]
    rfl
  have others {other : VarId} (different : other ≠ id)
      : ((vars.redefine id (.projected changed type)).refresh id).definition? other
        = vars.definition? other := by
    rw [definition?, present, if_neg different]
    rfl
  have own : vars.definition? id = some (.projected expr type) :=
    definition?_eq_some.mpr ⟨var, found, projects⟩
  have ownLater : ((vars.redefine id (.projected changed type)).refresh id).definition? id
      = some (.projected changed type) := by
    rw [definition?, present, if_pos rfl]
    rfl
  have nodes {other : VarId} {node : NodeVar} (isNode : vars.node? other = some node)
      : ((vars.redefine id (.projected changed type)).refresh id).node? other = some node := by
    have isNode := node?_eq_some.mp isNode
    refine node?_eq_some.mpr ((others ?_).trans isNode)
    intro same
    simp [same, own] at isNode
  apply Linked.change (fun _ => True) linked
  · intro other later isThere noProjection
    rw [present] at isThere
    split at isThere
    · obtain rfl := Option.some.inj isThere
      simp [Definition.projection?] at noProjection
    · exact ⟨isThere, fun _ _ => trivial⟩
  · intro other _ stands
    refine ordered.standsForNode (fun _ => True) orderedLater (fun _ => nodes) ?_ trivial stands
    intro name target _ named standsTarget
    refine ⟨trivial, fun standsLater => ?_⟩
    by_cases same : name = id
    · subst same
      -- The changed variable was an alias, and is one of the same node from now on.
      obtain ⟨rfl⟩ : expr = .var target := by
        cases expr <;> simp_all [target?, Definition.target?]
      have renamed := names target rfl standsTarget
      obtain ⟨node, isNode⟩ := standsTarget
      refine ⟨vars.resolve target, ?_, node, ?_⟩
      · rw [target?, ownLater, renamed]
        rfl
      · rw [resolve_of_node (nodes isNode)]
        exact nodes isNode
    · refine ⟨target, ?_, standsLater⟩
      rwa [target?, others same]
  · intro other rel _ isRelationship
    have isRelationship := relationship?_eq_some.mp isRelationship
    refine relationship?_eq_some.mpr ((others ?_).trans isRelationship)
    intro same
    simp [same, own] at isRelationship

/-- The dependencies of a variable may be read off again. -/
theorem refresh (coherent : vars.Coherent declared) (id : VarId)
    : (vars.refresh id).Coherent declared := by
  obtain ⟨order, kept, ordered⟩ := coherent.inOrder
  have orderedLater := ordered.refresh id
  have grows : vars.GrowsTo (vars.refresh id) :=
    ⟨fun found => ⟨_, by rwa [get?_refresh], rfl, rfl, .inl rfl⟩⟩
  refine ⟨⟨order, kept, orderedLater⟩, grows.allLinked ordered orderedLater ?_ coherent.linked⟩
  intro other present
  rwa [get?_refresh] at present

/-- A variable that no definition refers to may go, or project something else. Witness: no chain of
names and no link leads through it.
-/
theorem drop (coherent : vars.Coherent declared) {later : VarTable} {order : List VarId}
    (unmentioned : vars.Unmentioned id) (kept : order.Sublist declared)
    (orderedLater : later.Ordered order)
    (others : ∀ other, other ≠ id → later.get? other = vars.get? other)
    (own : ∀ var, later.get? id = some var → var.definition.projection?.isSome)
    : later.Coherent declared := by
  obtain ⟨_, -, ordered⟩ := coherent.inOrder
  refine ⟨⟨order, kept, orderedLater⟩, ?_⟩
  have same {other : VarId} (different : other ≠ id)
      : later.definition? other = vars.definition? other := by
    rw [definition?, others other different, definition?]
  apply Linked.change (· ≠ id) coherent.linked
  · intro other var found noProjection
    have different : other ≠ id := by
      intro same
      subst same
      have isProjection := own var found
      simp [noProjection] at isProjection
    have present := (others other different).symm.trans found
    refine ⟨present, fun dep mentions same => ?_⟩
    exact unmentioned _ _ present (same ▸ mentions.mem_dependencies (same ▸ Ne.symm different))
  · intro other different stands
    refine ordered.standsForNode (· ≠ id) orderedLater ?_ ?_ different stands
    · intro node pattern isKept isNode
      exact node?_eq_some.mpr ((same isKept).trans (node?_eq_some.mp isNode))
    · intro name target isKept named _
      obtain ⟨definition, defined, isTarget⟩ := Option.bind_eq_some_iff.mp named
      obtain ⟨var, found, rfl⟩ := definition?_eq_some.mp defined
      refine ⟨?_, fun standsLater => ⟨target, by rwa [target?, same isKept], standsLater⟩⟩
      intro dropped
      exact unmentioned _ _ found (dropped ▸ Definition.target?_mem_dependencies name isTarget)
  · intro other rel different isRelationship
    exact relationship?_eq_some.mpr
      ((same different).trans (relationship?_eq_some.mp isRelationship))

/-- A variable that no definition refers to may be removed. -/
theorem remove (coherent : vars.Coherent declared) (unmentioned : vars.Unmentioned id)
    : (vars.remove id).Coherent declared := by
  obtain ⟨order, kept, ordered⟩ := coherent.inOrder
  refine coherent.drop unmentioned (List.erase_sublist.trans kept)
    (ordered.remove unmentioned) ?_ ?_
  · intro other different
    rw [get?_remove, if_neg different]
  · intro var found
    simp [get?_remove] at found

/-- A variable that no definition refers to may project a literal. -/
theorem literal (coherent : vars.Coherent declared) (unmentioned : vars.Unmentioned id)
    (found : vars.get? id = some var) (projects : var.definition.projection?.isSome)
    (value : Literal) (type : Option VarType)
    : ((vars.redefine id (.projected (.literal value) type)).refresh id).Coherent declared := by
  obtain ⟨order, kept, ordered⟩ := coherent.inOrder
  have present (other : VarId)
      : ((vars.redefine id (.projected (.literal value) type)).refresh id).get? other
        = if other = id then some { var with definition := .projected (.literal value) type }
          else vars.get? other := by
    rw [get?_refresh, get?_redefine, found]
    rfl
  refine coherent.drop unmentioned kept (ordered.replace found ?_ ?_) ?_ ?_
  · cases kind : var.definition <;> simp_all [Definition.projection?, Definition.isTemporary]
  · intro dep depends
    simp [Definition.dependencies, Expr.mem_references, Expr.parts, Expr.reference?] at depends
  · intro other different
    rw [present, if_neg different]
  · intro later isThere
    rw [present, if_pos rfl] at isThere
    obtain rfl := Option.some.inj isThere
    rfl

end Coherent

end VarTable

end CypherSql.Plan
