import CypherSql.Proofs.Settled

/-! Constants that nothing reads are dropped from subqueries. No subquery loses all that it
projects, supplies or exports: every item that stays holds on to a variable that stays.
-/

namespace CypherSql.Plan

/-- A scope without a variable of a subquery: where it is the scope of the subquery the variable is
no longer projected, and elsewhere it is no longer read.
-/
def Scope.unproject (source : Nat) (id : VarId) (scope : Scope) : Scope :=
  Scope.without source id
    (if scope.index = source then { scope with items := scope.items.filter (· ≠ .named id) }
     else scope)

section

variable (source : Nat) (id : VarId) (scope : Scope)

@[simp]
theorem Scope.unproject_index : (scope.unproject source id).index = scope.index := by
  unfold Scope.unproject Scope.without
  split <;> rfl

@[simp]
theorem Scope.unproject_items
    : (scope.unproject source id).items
      = if scope.index = source then scope.items.filter (· ≠ .named id) else scope.items := by
  unfold Scope.unproject Scope.without
  split <;> rfl

@[simp]
theorem Scope.unproject_fromItems
    : (scope.unproject source id).select.fromItems
      = scope.select.fromItems.map (·.without source id) := by
  unfold Scope.unproject Scope.without
  split <;> rfl

@[simp]
theorem Scope.unproject_joins
    : (scope.unproject source id).select.joins = scope.select.joins := by
  unfold Scope.unproject Scope.without
  split <;> rfl

end

/-- A subquery with its scope changed so. -/
def Subquery.without (source : Nat) (id : VarId) (subquery : Subquery) : Subquery :=
  { subquery with
    scope := subquery.scope.unproject source id
    exports :=
      if subquery.scope.index = source then subquery.exports.filter (·.id ≠ id)
      else subquery.exports }

section Unproject

variable {tree : Tree} {source : Nat} {id : VarId}

/-- Every subquery changes in the same way. -/
theorem Tree.Indexed.subqueries_unproject (indexed : tree.Indexed)
    : (tree.unproject source id).subqueries = tree.subqueries.map (·.without source id) := by
  refine List.ext_getElem? fun position => ?_
  simp only [Tree.unproject, List.getElem?_map, List.getElem?_modify]
  cases found : tree.subqueries[position]? with
  | none => simp
  | some subquery =>
      have index := indexed.subquery_index found
      by_cases same : source = position
      · simp [Subquery.without, Scope.unproject, Subquery.unproject, index, same]
      · simp [Subquery.without, Scope.unproject, index, same, Ne.symm same]

/-- Every scope changes in the same way. -/
theorem Tree.Indexed.scopes_unproject (indexed : tree.Indexed)
    (within : source < tree.subqueries.length)
    : (tree.unproject source id).scopes = tree.scopes.map (·.unproject source id) := by
  have root : (tree.unproject source id).root = tree.root.unproject source id := by
    have other : tree.root.index ≠ source := by
      rw [indexed.root_index]
      omega
    simp [Tree.unproject, Scope.unproject, other]
  rw [Tree.scopes, Tree.scopes, indexed.subqueries_unproject, root]
  simp [Subquery.without]

/-- Scopes keep their positions. -/
theorem Tree.Indexed.unproject (indexed : tree.Indexed) (within : source < tree.subqueries.length)
    : (tree.unproject source id).Indexed := by
  rw [Tree.Indexed, indexed.scopes_unproject within, indexed.subqueries_unproject, List.length_map,
    ← indexed, List.map_map]
  exact List.map_congr_left fun scope _ => Scope.unproject_index ..

end Unproject

/-- Items that stay hold on to variables that stay. -/
theorem Anchored.filter {items : List Item} {ids : List VarId} {id : VarId}
    (anchored : Anchored items ids) (named : .named id ∈ items)
    : Anchored (items.filter (· ≠ .named id)) (ids.filter (· ≠ id)) := by
  intro item member
  obtain ⟨listed, different⟩ := List.mem_filter.mp member
  obtain ⟨anchor, present, only⟩ := anchored item listed
  have stays : anchor ≠ id := by
    rintro rfl
    simp [only named] at different
  refine ⟨anchor, List.mem_filter.mpr ⟨present, by simpa using stays⟩, fun other => ?_⟩
  exact only (List.mem_filter.mp other).1

/-- A variable of several items is not all that is projected. -/
theorem filter_ne_nil {items : List Item} (id : VarId) (namedOnce : (namedIds items).Nodup)
    (several : 2 ≤ items.length)
    : items.filter (· ≠ .named id) ≠ [] := by
  intro none
  have all : ∀ item ∈ items, item = .named id := by
    simpa [List.filter_eq_nil_iff] using none
  match items, several with
  | first :: second :: rest, _ =>
      obtain rfl := all first (by simp)
      obtain rfl := all second (by simp)
      simp [namedIds] at namedOnce

namespace VarTable

variable {vars : VarTable} {id other : VarId} {expr : Expr} {type : Option VarType}

/-- Dropping a projected variable keeps what is bound. -/
theorem Bound.remove (bound : vars.Bound other)
    (dropped : vars.definition? id = some (.projected expr type))
    : (vars.remove id).Bound other := by
  obtain ⟨definition, found, isBound⟩ := bound
  refine ⟨definition, ?_, isBound⟩
  have different : other ≠ id := by
    rintro rfl
    obtain rfl := Option.some.inj (found.symm.trans dropped)
    simp [Definition.isBound] at isBound
  rw [definition?, get?_remove, if_neg different]
  exact found

/-- Dropping a variable keeps names of nodes and relationships, if it is none. -/
theorem NamesElement.remove (names : vars.NamesElement other) (noElement : ¬ vars.NamesElement id)
    : (vars.remove id).NamesElement other := by
  have stays {other : VarId} (names : vars.NamesElement other)
      : (vars.remove id).definition? other = vars.definition? other := by
    have different : other ≠ id := by
      rintro rfl
      exact noElement names
    rw [definition?, get?_remove, if_neg different]
    rfl
  induction names with
  | element found isElement =>
      exact .element ((stays (.element found isElement)).trans found) isElement
  | renamed found names ih => exact .renamed ((stays (.renamed found names)).trans found) ih

/-- Dropping a variable keeps what other items declare. -/
theorem declares_remove {scope : Nat} {item : Item} (declares : item.Declares vars scope)
    (dropped : vars.definition? id = some (.projected expr type)) (different : item ≠ .named id)
    : item.Declares (vars.remove id) scope := by
  cases item with
  | named other =>
      obtain ⟨var, expr', type', found, rest⟩ := declares
      refine ⟨var, expr', type', ?_, rest⟩
      rw [get?_remove, if_neg]
      · exact found
      · rintro rfl
        exact different rfl
  | unnamed expr' column =>
      obtain ⟨name, temporary⟩ := declares
      refine ⟨name, ?_⟩
      rw [definition?, get?_remove, if_neg]
      · exact temporary
      · rintro rfl
        simp [dropped] at temporary

end VarTable

section Unproject

variable {vars : VarTable} {tree : Tree} {source : Nat} {id : VarId} {scope : Scope}
  {var : Variable}
  {expr : Expr} {type : Option VarType}

theorem FromItem.without_source (item : FromItem)
    : (item.without source id).source = item.source := by
  unfold FromItem.without
  split <;> rfl

/-- An item stays settled without a variable, if it has others. -/
theorem FromItem.Settled.without {item : FromItem} (settled : item.Settled vars)
    (dropped : vars.definition? id = some (.projected expr type))
    (supplied : item.source = some source → ∃ other ∈ item.ids, other ≠ id)
    : (item.without source id).Settled (vars.remove id) := by
  unfold FromItem.without
  split
  · rename_i isSource
    obtain ⟨other, listed, different⟩ := supplied isSource
    have sound := settled.sound
    refine ⟨settled.placed, ?_, fun _ isTable => by simp [FromItem.tableVar?, isSource] at isTable⟩
    cases table : item.table with
    | some table => simp [FromItem.fault?, isSource, table] at sound
    | none =>
        have stays : item.ids.filter (· ≠ id) ≠ [] :=
          List.ne_nil_of_mem (List.mem_filter.mpr ⟨listed, by simpa using different⟩)
        simp only [FromItem.fault?, isSource, List.isEmpty_iff, stays, if_false]
  · exact ⟨settled.placed, settled.sound, fun other isTable =>
      ⟨(settled.housed other isTable).1, (settled.housed other isTable).2.remove dropped⟩⟩

/-- A scope stays settled without a variable that a subquery drops. -/
theorem Scope.Settled.unproject (settled : scope.Settled vars) (found : vars.get? id = some var)
    (here : var.scope = source) (definition : var.definition = .projected expr type)
    (several : scope.index = source → 2 ≤ scope.items.length)
    (supplied
      : ∀ item ∈ scope.select.fromItems, item.source = some source → ∃ other ∈ item.ids, other ≠ id)
    : (scope.unproject source id).Settled (vars.remove id) := by
  have dropped : vars.definition? id = some (.projected expr type) :=
    VarTable.definition?_eq_some.mpr ⟨var, found, definition⟩
  refine {
    sources := ?_
    reads := ?_
    joins := ?_
    declares := ?_
    namedOnce := ?_
    projects := ?_
  }
  · intro item member
    rw [Select.items, Scope.unproject_fromItems, Scope.unproject_joins] at member
    rcases List.mem_append.mp member with inFrom | joined
    · obtain ⟨old, listed, rfl⟩ := List.mem_map.mp inFrom
      exact (settled.sources old (List.mem_append_left _ listed)).without dropped
        (supplied old listed)
    · obtain ⟨join, isJoin, rfl⟩ := List.mem_map.mp joined
      have old := settled.sources _ (List.mem_append_right _ joined)
      exact ⟨old.placed, old.sound, fun other isTable =>
        ⟨(old.housed other isTable).1, (old.housed other isTable).2.remove dropped⟩⟩
  · intro other
    rw [Scope.unproject_index, ← settled.reads other]
    simp [FromItem.without_source]
  · rw [Scope.unproject_joins]
    exact settled.joins
  · intro item member
    rw [Scope.unproject_items] at member
    rw [Scope.unproject_index]
    split at member
    · obtain ⟨listed, different⟩ := List.mem_filter.mp member
      exact VarTable.declares_remove (settled.declares item listed) dropped
        (by simpa using different)
    · -- The variable is an item of the scope that declares it, and of no other.
      rename_i elsewhere
      refine VarTable.declares_remove (settled.declares item member) dropped ?_
      rintro rfl
      obtain ⟨other, _, _, found', there, -⟩ := settled.declares _ member
      obtain rfl := Option.some.inj (found.symm.trans found')
      exact elsewhere (there.symm.trans here)
  · rw [Scope.unproject_items]
    split
    · exact settled.namedOnce.sublist (List.filter_sublist.filterMap _)
    · exact settled.namedOnce
  · rw [Scope.unproject_items]
    split
    · rename_i same
      exact filter_ne_nil _ settled.namedOnce (several same)
    · exact settled.projects

/-- The exports of subqueries stay anchored when a subquery drops a variable. -/
theorem Tree.Settled.exportsAnchored_unproject {subquery : Subquery} (settled : tree.Settled vars)
    (anchored : tree.ExportsAnchored vars) (at' : tree.subqueries[source]? = some subquery)
    (named : .named id ∈ subquery.scope.items) (noElement : ¬ vars.NamesElement id)
    : (tree.unproject source id).ExportsAnchored (vars.remove id) := by
  intro later member item listed
  rw [settled.indexed.subqueries_unproject] at member
  obtain ⟨old, present, rfl⟩ := List.mem_map.mp member
  by_cases same : old.scope.index = source
  · obtain ⟨position, found⟩ := List.mem_iff_getElem?.mp present
    obtain rfl : position = source := (settled.indexed.subquery_index found).symm.trans same
    obtain rfl := Option.some.inj (found.symm.trans at')
    simp only [Subquery.without, Scope.unproject_items, if_pos same] at listed ⊢
    obtain ⟨inItems, different⟩ := List.mem_filter.mp listed
    obtain ⟨exported, inExports, holds⟩ := anchored old present item inItems
    have stays : exported.id ≠ id := by
      rintro rfl
      rcases holds with names | only
      · exact noElement names
      · simp [only named] at different
    refine ⟨exported, List.mem_filter.mpr ⟨inExports, by simpa using stays⟩, ?_⟩
    exact holds.imp (fun names => names.remove noElement)
      fun only other => only (List.mem_filter.mp other).1
  · simp only [Subquery.without, Scope.unproject_items, if_neg same] at listed ⊢
    obtain ⟨exported, inExports, holds⟩ := anchored old present item listed
    exact ⟨exported, inExports, holds.imp_left fun names => names.remove noElement⟩

/-- Where exports hold on to items, there are some. -/
theorem Tree.ExportsAnchored.exports_ne_nil (anchored : tree.ExportsAnchored vars)
    {subquery : Subquery} (member : subquery ∈ tree.subqueries)
    (projects : subquery.scope.items ≠ [])
    : subquery.exports ≠ [] := by
  obtain ⟨item, listed⟩ := List.exists_mem_of_ne_nil _ projects
  obtain ⟨exported, inExports, -⟩ := anchored subquery member item listed
  exact List.ne_nil_of_mem inExports

/-- A tree stays settled when a subquery drops a variable that it projects next to others. -/
theorem Tree.Settled.unproject {subquery : Subquery} (settled : tree.Settled vars)
    (anchored : tree.ExportsAnchored vars) (at' : tree.subqueries[source]? = some subquery)
    (named : .named id ∈ subquery.scope.items) (several : 2 ≤ subquery.scope.items.length)
    (noElement : ¬ vars.NamesElement id)
    : (tree.unproject source id).Settled (vars.remove id) := by
  have within := (List.getElem?_eq_some_iff.mp at').1
  have index := settled.indexed.subquery_index at'
  have isScope : subquery.scope ∈ tree.scopes :=
    Tree.mem_scopes.mpr (.inl ⟨subquery, List.mem_of_getElem? at', rfl⟩)
  have own := settled.scopes _ isScope
  obtain ⟨var, expr, type, found, here, definition⟩ := own.declares _ named
  have scopes : ∀ scope ∈ (tree.unproject source id).scopes, scope.Settled (vars.remove id) := by
    intro later member
    rw [settled.indexed.scopes_unproject within] at member
    obtain ⟨old, present, rfl⟩ := List.mem_map.mp member
    refine (settled.scopes old present).unproject found (here.trans index) definition ?_ ?_
    · intro same
      have equal := settled.indexed.getElem?_index present
      rw [same, Tree.scopes_getElem? at'] at equal
      exact Option.some.inj equal ▸ several
    · intro item listed isSource
      -- The subquery projects another variable, and what it supplies has an anchor there.
      obtain ⟨other, inItems⟩ :=
        List.exists_mem_of_ne_nil _ (filter_ne_nil id own.namedOnce several)
      obtain ⟨anchor, inIds, -⟩ :=
        (settled.supplied old present item listed source subquery isSource at').filter
          named other inItems
      exact ⟨anchor, by simpa using List.mem_filter.mp inIds⟩
  have anchoredLater := settled.exportsAnchored_unproject anchored at' named noElement
  refine {
    indexed := settled.indexed.unproject within
    scopes := scopes
    names := ?_
    exports := ?_
    supplied := ?_
  }
  · intro later member
    rw [settled.indexed.subqueries_unproject] at member
    obtain ⟨old, present, rfl⟩ := List.mem_map.mp member
    exact settled.names old present
  · intro later member
    refine anchoredLater.exports_ne_nil member ?_
    exact (scopes _ (Tree.mem_scopes.mpr (.inl ⟨later, member, rfl⟩))).projects
  · intro later member item listed reads other isSource found'
    rw [settled.indexed.scopes_unproject within] at member
    obtain ⟨scope, present, rfl⟩ := List.mem_map.mp member
    rw [Scope.unproject_fromItems] at listed
    obtain ⟨old, inFrom, rfl⟩ := List.mem_map.mp listed
    rw [settled.indexed.subqueries_unproject, List.getElem?_map] at found'
    obtain ⟨before, atBefore, rfl⟩ := Option.map_eq_some_iff.mp found'
    rw [FromItem.without_source] at isSource
    have supplied := settled.supplied scope present old inFrom reads before isSource atBefore
    simp only [Subquery.without, Scope.unproject_items, settled.indexed.subquery_index atBefore]
    -- Only the item that reads the changed subquery loses the variable.
    by_cases same : reads = source
    · subst same
      obtain rfl := Option.some.inj (at'.symm.trans atBefore)
      simpa [FromItem.without, isSource] using supplied.filter named
    · simpa [FromItem.without, isSource, same] using supplied

end Unproject

/-- The draft is settled, and its exports are anchored. -/
structure Draft.Firm (draft : Draft) : Prop where
  settled : draft.tree.Settled draft.vars
  anchored : draft.tree.ExportsAnchored draft.vars

/-- Rewriting keeps a draft firm. -/
theorem Draft.Firm.rewrite {draft later : Draft} (firm : draft.Firm)
    (maps : draft.tree.Maps Scope.Alike later.tree) (rewrites : draft.vars.Rewrites later.vars)
    : later.Firm :=
  ⟨firm.settled.alike maps rewrites.stamps, firm.anchored.alike maps rewrites.names⟩

/-- The variable is projected by a subquery, and is no name of a node or relationship. -/
structure Draft.MayDrop (draft : Draft) (source : Nat) (id : VarId) : Prop where
  named
    : ∀ subquery,
        draft.tree.subqueries[source]? = some subquery → .named id ∈ subquery.scope.items
  noElement : ¬ draft.vars.NamesElement id

/-- A name of a node or relationship is no constant. -/
theorem VarTable.NamesElement.constant?_eq_none {vars : VarTable} {id : VarId}
    (names : vars.NamesElement id)
    : constant? vars id = none := by
  cases names with
  | element found isElement =>
      obtain ⟨var, present, rfl⟩ := VarTable.definition?_eq_some.mp found
      cases kind : var.definition <;>
        simp_all [constant?, Definition.projection?, Definition.isElement]
  | renamed found _ =>
      obtain ⟨var, present, definition⟩ := VarTable.definition?_eq_some.mp found
      simp [constant?, present, definition, Definition.projection?, Expr.isConstant]

/-- Names in a table with fewer aliases are names in the table, by induction over the chain. -/
theorem VarTable.NamesElement.of_definitions {vars later : VarTable} {id : VarId}
    (names : later.NamesElement id)
    (kept
      : ∀ other definition,
          later.definition? other = some definition
          → (definition.isElement ∨ ∃ target type, definition = .projected (.var target) type)
          → vars.definition? other = some definition)
    : vars.NamesElement id := by
  induction names with
  | element found isElement => exact .element (kept _ _ found (.inl isElement)) isElement
  | renamed found _ ih => exact .renamed (kept _ _ found (.inr ⟨_, _, rfl⟩)) ih

/-- A number may stand in for a constant. -/
theorem standIn_rewrites {vars : VarTable} {id : VarId} (noElement : ¬ vars.NamesElement id)
    : vars.Rewrites (standIn vars id) := by
  unfold standIn
  refine VarTable.Rewrites.threads.trans _ _ _ ?_ (VarTable.rewrites_refresh _ id)
  split
  · exact VarTable.Rewrites.threads.refl vars
  · rename_i expr type _ found
    obtain ⟨var, present, definition⟩ := VarTable.definition?_eq_some.mp found
    refine VarTable.rewrites_redefine present (by rw [definition]; rfl)
      fun target other same names => ?_
    exact noElement (.renamed (VarTable.definition?_eq_some.mpr ⟨var, present, same⟩) names)
  · exact VarTable.Rewrites.threads.refl vars

/-- A number that stands in for a constant is no new name. -/
theorem names_of_standIn {vars : VarTable} {id other : VarId}
    (names : (standIn vars id).NamesElement other)
    : vars.NamesElement other := by
  refine names.of_definitions fun changed definition found kind => ?_
  unfold standIn at found
  rw [VarTable.definition?, VarTable.get?_refresh] at found
  split at found
  · exact found
  · rename_i expr type _ found'
    obtain ⟨var, present, -⟩ := VarTable.definition?_eq_some.mp found'
    rw [VarTable.get?_redefine_of_get? present] at found
    split at found
    · obtain rfl := Option.some.inj found
      simp [Definition.isElement] at kind
    · exact found
  · exact found

/-- Dropping a constant keeps the draft firm, and every other variable may still be dropped. -/
theorem Draft.Firm.dropConstant {draft : Draft} (firm : draft.Firm) {source : Nat} {id : VarId}
    (mayDrop : draft.MayDrop source id)
    : (dropConstant source draft id).Firm
      ∧ ∀ other,
          other ≠ id
          → draft.MayDrop source other
          → (Plan.dropConstant source draft id).MayDrop source other := by
  unfold Plan.dropConstant
  split
  · exact ⟨firm, fun _ _ may => may⟩
  · rename_i subquery found
    split
    · exact ⟨firm, fun _ _ may => may⟩
    · split
      · refine ⟨firm.rewrite draft.tree.maps_alike_refl (standIn_rewrites mayDrop.noElement), ?_⟩
        exact fun other _ may => ⟨may.named, fun names => may.noElement (names_of_standIn names)⟩
      · rename_i several
        have named := mayDrop.named subquery found
        refine ⟨⟨firm.settled.unproject firm.anchored found named (by omega) mayDrop.noElement,
          firm.settled.exportsAnchored_unproject firm.anchored found named mayDrop.noElement⟩, ?_⟩
        intro other different may
        refine ⟨fun later atLater => ?_, fun names => may.noElement ?_⟩
        · have atLater : (draft.tree.unproject source id).subqueries[source]?
            = some later := atLater
          rw [firm.settled.indexed.subqueries_unproject, List.getElem?_map, found] at atLater
          obtain rfl := Option.some.inj atLater
          simp [Subquery.without, firm.settled.indexed.subquery_index found,
            may.named subquery found, different]
        · refine names.of_definitions fun changed definition found' _ => ?_
          rw [VarTable.definition?, VarTable.get?_remove] at found'
          split at found'
          · simp at found'
          · exact found'

/-- Constants are dropped one after the other, by induction over them. -/
theorem Draft.Firm.foldl_dropConstant {source : Nat} {ids : List VarId} {draft : Draft}
    (firm : draft.Firm) (distinct : ids.Nodup) (mayDrop : ∀ id ∈ ids, draft.MayDrop source id)
    : (ids.foldl (Plan.dropConstant source) draft).Firm := by
  induction ids generalizing draft with
  | nil => exact firm
  | cons id rest ih =>
      obtain ⟨new, others⟩ := List.nodup_cons.mp distinct
      obtain ⟨firmLater, mayDropLater⟩ := firm.dropConstant (mayDrop id (by simp))
      refine ih firmLater others fun other member => ?_
      refine mayDropLater other ?_ (mayDrop other (by simp [member]))
      rintro rfl
      exact new member

/-- The constants of a subquery are dropped. -/
theorem Draft.Firm.dropConstantsOf {draft : Draft} (firm : draft.Firm) (source : Nat)
    : (dropConstantsOf draft source).Firm := by
  unfold Plan.dropConstantsOf
  split
  · exact firm
  · rename_i subquery found
    have isScope := Tree.mem_scopes.mpr (.inl ⟨subquery, List.mem_of_getElem? found, rfl⟩)
    refine firm.foldl_dropConstant ((firm.settled.scopes _ isScope).namedOnce.filter _) ?_
    intro id member
    obtain ⟨declared, isConstant⟩ := List.mem_filter.mp member
    refine ⟨fun other found' => ?_, fun names => ?_⟩
    · obtain rfl := Option.some.inj (found.symm.trans found')
      exact mem_namedIds.mp declared
    · simp [names.constant?_eq_none] at isConstant

/-- All constants that nothing reads are dropped, by induction over the subqueries. -/
theorem Draft.Firm.dropConstants {draft : Draft} (firm : draft.Firm)
    : (dropConstants draft).Firm := by
  unfold Plan.dropConstants
  generalize List.range draft.tree.subqueries.length = sources
  induction sources generalizing draft with
  | nil => exact firm
  | cons source rest ih => exact ih (firm.dropConstantsOf source)

end CypherSql.Plan
