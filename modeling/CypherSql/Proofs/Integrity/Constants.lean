import CypherSql.Proofs.Integrity.Layers
import CypherSql.Proofs.Passes.Constants

/-! A constant is dropped only where nothing refers to it. Scopes after the one that declares it and
the sort keys of that scope are searched for it; all other places cannot refer to it by their layer.
-/

namespace CypherSql.Plan

section References

variable {scope : Scope} {own sorting ownLater sortingLater : VarId → Prop}

/-- An expression refers to what both of two bounds allow. -/
theorem Expr.Within.and {allowed other : VarId → Prop} {expr : Expr} (within : expr.Within allowed)
    (also : expr.Within other)
    : expr.Within fun id => allowed id ∧ other id :=
  fun id refers => ⟨within id refers, also id refers⟩

/-- What every expression of a scope refers to is what the scope refers to. -/
theorem Scope.refers_of_expressions (within : ∀ expr ∈ scope.expressions, expr.Within own)
    : scope.Refers own own := by
  simp only [Scope.expressions, List.forall_mem_append] at within
  obtain ⟨⟨⟨⟨⟨⟨⟨items, orderBy⟩, skip⟩, limit⟩, conditions⟩, clauses⟩, pending⟩, joins⟩ := within
  exact {
    items := fun expr column listed => items expr (List.mem_filterMap.mpr ⟨_, listed, rfl⟩)
    orderBy := fun key listed => orderBy key.expr (List.mem_map_of_mem listed)
    skip := fun expr found => skip expr (Option.mem_toList.mpr found)
    limit := fun expr found => limit expr (Option.mem_toList.mpr found)
    conditions := conditions
    clauses := fun clause listed expr found =>
      clauses expr (List.mem_filterMap.mpr ⟨clause, listed, found⟩)
    pending := fun item listed expr waits =>
      pending expr (List.mem_flatMap.mpr ⟨item, listed, waits⟩)
    joins := fun join listed => joins join.condition (List.mem_map_of_mem listed)
  }

/-- A scope refers to what both of two bounds allow. -/
theorem Scope.Refers.and (refers : scope.Refers own sorting)
    (also : scope.Refers ownLater sortingLater)
    : scope.Refers (fun id => own id ∧ ownLater id) fun id => sorting id ∧ sortingLater id where
  items := fun expr column listed =>
    (refers.items expr column listed).and (also.items expr column listed)
  orderBy := fun key listed => (refers.orderBy key listed).and (also.orderBy key listed)
  skip := fun expr found => (refers.skip expr found).and (also.skip expr found)
  limit := fun expr found => (refers.limit expr found).and (also.limit expr found)
  conditions := fun expr listed => (refers.conditions expr listed).and (also.conditions expr listed)
  clauses := fun clause listed expr found =>
    (refers.clauses clause listed expr found).and (also.clauses clause listed expr found)
  pending := fun item listed expr waits =>
    (refers.pending item listed expr waits).and (also.pending item listed expr waits)
  joins := fun join listed => (refers.joins join listed).and (also.joins join listed)

end References

section Unread

variable {tree : Tree} {vars : VarTable} {source : Nat} {id : VarId} {var : Variable} {expr : Expr}
  {type : Option VarType} {scope : Scope}

/-- Nothing refers to a variable of a scope. -/
structure Tree.Unread (tree : Tree) (vars : VarTable) (source : Nat) (id : VarId) : Prop where
  later
    : ∀ scope ∈ tree.scopes,
        source < scope.index → ∀ expr ∈ scope.expressions, expr.Within (· ≠ id)
  sorting
    : ∀ scope ∈ tree.scopes,
        scope.index = source → ∀ key ∈ scope.orderBy, key.expr.Within (· ≠ id)
  dependents : vars.dependents id = []
  exported
    : ∀ subquery ∈ tree.subqueries,
        source < subquery.scope.index → ∀ exported ∈ subquery.exports, exported.id ≠ id

/-- The search for readers finds them all. -/
theorem Tree.unread_of_isRead (unread : isRead tree vars source id = false)
    : tree.Unread vars source id := by
  simp only [isRead, Bool.or_eq_false_iff, List.any_append, List.any_eq_false,
    List.mem_flatMap, List.mem_filter, List.mem_map, decide_eq_true_eq, Bool.not_eq_eq_eq_not,
    Bool.not_false, List.isEmpty_iff] at unread
  obtain ⟨⟨⟨later, sorting⟩, dependents⟩, exported⟩ := unread
  refine {
    later := ?_
    sorting := ?_
    dependents := dependents
    exported := ?_
  }
  · rintro scope member after expr listed dep refers rfl
    exact later expr ⟨scope, ⟨member, after⟩, listed⟩ refers
  · rintro scope member here key listed dep refers rfl
    exact sorting key.expr ⟨scope, ⟨member, here⟩, key, listed, rfl⟩ refers
  · intro subquery member after exported' listed
    exact exported exported' ⟨subquery, ⟨member, after⟩, listed⟩

section Projected

variable (found : vars.get? id = some var) (here : var.scope = source)
  (projects : var.definition = .projected expr type)

include found here

/-- No earlier scope sees the variable. -/
theorem VarTable.Upto.ne {index : Nat} {other : VarId} (upto : vars.Upto index other)
    (earlier : index < source)
    : other ≠ id := by
  rintro rfl
  obtain ⟨same, found', within⟩ := upto
  obtain rfl := Option.some.inj (found.symm.trans found')
  omega

include projects

/-- Neither does its own scope before the projection. -/
theorem VarTable.Before.ne {index : Nat} {other : VarId} (before : vars.Before index other)
    (noLater : index ≤ source)
    : other ≠ id := by
  rintro rfl
  obtain ⟨same, found', earlier⟩ := before
  obtain rfl := Option.some.inj (found.symm.trans found')
  rcases earlier with earlier | ⟨-, noProjection⟩
  · omega
  · rw [projects] at noProjection
    cases noProjection

omit here in
theorem VarTable.IsElement.ne {other : VarId} (isElement : vars.IsElement other) : other ≠ id := by
  rintro rfl
  obtain ⟨definition, present, isElement⟩ := isElement
  rw [VarTable.definition?_of_get? found, projects] at present
  cases present
  cases isElement

omit here in
theorem VarTable.not_isPath_of_projected : ¬ vars.IsPath id := by
  rintro ⟨hops, elements, definition⟩
  rw [VarTable.definition?_of_get? found, projects] at definition
  cases definition

/-- No scope of a layered tree refers to a variable that nothing reads. -/
theorem Scope.Layered.refers_unread (layered : scope.Layered vars)
    (unread : tree.Unread vars source id)
    (member : scope ∈ tree.scopes)
    : scope.Refers (fun other => vars.Before scope.index other ∧ other ≠ id)
        fun other => vars.Upto scope.index other ∧ other ≠ id := by
  rcases Nat.lt_or_ge source scope.index with after | noLater
  · exact layered.refers.and (Scope.refers_of_expressions (unread.later scope member after))
  · have own : scope.Refers (fun other => vars.Before scope.index other ∧ other ≠ id)
        (vars.Upto scope.index) :=
      layered.refers.mono (fun _ before => ⟨before, before.ne found here projects noLater⟩)
        fun _ upto => upto
    refine { own with orderBy := fun key listed => ?_ }
    rcases Nat.lt_or_eq_of_le noLater with earlier | same
    · exact (own.orderBy key listed).mono fun _ upto => ⟨upto, upto.ne found here earlier⟩
    · exact (own.orderBy key listed).and (unread.sorting scope member same key listed)

/-- What a source supplies after a variable is dropped that nothing reads. A later subquery that
would hand it on would export it.
-/
theorem FromItem.Layered.without {item : FromItem} (layered : item.Layered vars scope.index)
    (handsOver : tree.HandsOver vars) (unread : tree.Unread vars source id)
    (member : scope ∈ tree.scopes) (listed : item ∈ scope.select.items)
    : (item.without source id).Layered (vars.remove id) scope.index := by
  intro other supplied
  rw [FromItem.without_source]
  have held : other ∈ item.ids ∧ (item.source = some source → other ≠ id) := by
    unfold FromItem.without at supplied
    split at supplied
    · obtain ⟨inItem, different⟩ := List.mem_filter.mp supplied
      exact ⟨inItem, fun _ => by simpa using different⟩
    · exact ⟨supplied, fun same => absurd same ‹_›⟩
  obtain ⟨inItem, dropped⟩ := held
  have old := layered other inItem
  cases isSource : item.source with
  | none =>
      rw [isSource] at old
      have different := old.1.ne found projects
      exact ⟨old.1.remove different, old.2.remove different⟩
  | some reads =>
      rw [isSource] at old
      refine ⟨old.1, old.2.remove ?_⟩
      obtain ⟨subquery, at', -, exported⟩ := handsOver.subquery member listed isSource
      rcases Nat.lt_trichotomy reads source with earlier | rfl | after
      · exact old.2.ne found here earlier
      · exact dropped isSource
      · rcases exported other inItem with isPath | ⟨exported, inExports, rfl⟩
        · rintro rfl
          exact VarTable.not_isPath_of_projected found projects isPath
        · have index := handsOver.indexed.subquery_index at'
          exact unread.exported subquery (List.mem_of_getElem? at')
            (index ▸ after) exported inExports

/-- A scope stays layered when a variable is dropped that nothing reads. -/
theorem Scope.Layered.unproject (layered : scope.Layered vars) (handsOver : tree.HandsOver vars)
    (unread : tree.Unread vars source id) (member : scope ∈ tree.scopes)
    : (scope.unproject source id).Layered (vars.remove id) := by
  have refers := (layered.refers_unread found here projects unread member).mono
    (fun _ own => own.1.remove own.2) fun _ sorting => sorting.1.remove sorting.2
  have dropped : vars.definition? id = some (.projected expr type) :=
    VarTable.definition?_eq_some.mpr ⟨var, found, projects⟩
  have items : ∀ item ∈ (scope.unproject source id).items,
      item ∈ scope.items ∧ item ≠ .named id := by
    intro item listed
    rw [Scope.unproject_items] at listed
    split at listed
    · simpa using List.mem_filter.mp listed
    · rename_i elsewhere
      -- The variable is an item of the scope that declares it, and of no other.
      refine ⟨listed, ?_⟩
      rintro rfl
      obtain ⟨same, _, _, found', there, -⟩ := layered.items _ listed
      obtain rfl := Option.some.inj (found.symm.trans found')
      exact elsewhere (there.symm.trans here)
  have sources : ∀ item ∈ (scope.unproject source id).select.items,
      ∃ old ∈ scope.select.items,
        item.pending = old.pending
        ∧ item.Layered (vars.remove id) scope.index := by
    intro item listed
    rw [Select.items, Scope.unproject_fromItems, Scope.unproject_joins] at listed
    rcases List.mem_append.mp listed with inFrom | joined
    · obtain ⟨old, inOld, rfl⟩ := List.mem_map.mp inFrom
      have isOld : old ∈ scope.select.items := List.mem_append_left _ inOld
      refine ⟨old, isOld, ?_, (layered.sources old isOld).without found here projects
        handsOver unread
        member isOld⟩
      unfold FromItem.without
      split
      · rfl
      · rfl
    · have isOld : item ∈ scope.select.items := List.mem_append_right _ joined
      refine ⟨item, isOld, rfl, ?_⟩
      obtain ⟨join, inJoins, rfl⟩ := List.mem_map.mp joined
      -- A joined item reads no subquery, and loses nothing.
      have noSource := handsOver.joins scope member join inJoins
      have same : join.item.without source id = join.item := by simp [FromItem.without, noSource]
      exact same ▸ (layered.sources join.item isOld).without found here projects
        handsOver unread member
        isOld
  have same : (scope.unproject source id).orderBy = scope.orderBy
      ∧ (scope.unproject source id).skip = scope.skip
      ∧ (scope.unproject source id).limit = scope.limit
      ∧ (scope.unproject source id).clauses = scope.clauses
      ∧ (scope.unproject source id).select.conditions = scope.select.conditions
      ∧ (scope.unproject source id).select.joins = scope.select.joins := by
    unfold Scope.unproject Scope.without
    split
    · exact ⟨rfl, rfl, rfl, rfl, rfl, rfl⟩
    · exact ⟨rfl, rfl, rfl, rfl, rfl, rfl⟩
  obtain ⟨orderBy, skip, limit, clauses, conditions, joins⟩ := same
  rw [← scope.unproject_index source id] at refers sources
  refine {
    refers := {
      items := fun own column listed => refers.items own column (items _ listed).1
      orderBy := orderBy ▸ refers.orderBy
      skip := skip ▸ refers.skip
      limit := limit ▸ refers.limit
      conditions := conditions ▸ refers.conditions
      clauses := clauses ▸ refers.clauses
      pending := ?_
      joins := joins ▸ refers.joins
    }
    items := ?_
    clauses := ?_
    sources := ?_
  }
  · intro item listed own waits
    obtain ⟨old, inOld, pending, -⟩ := sources item listed
    exact refers.pending old inOld own (pending ▸ waits)
  · intro item listed
    rw [Scope.unproject_index]
    obtain ⟨inOld, different⟩ := items item listed
    exact VarTable.declares_remove (layered.items item inOld) dropped different
  · rw [clauses]
    intro clause listed other declared
    have isElement := layered.clauses clause listed other declared
    exact isElement.remove (isElement.ne found projects)
  · intro item listed
    obtain ⟨-, -, -, supplies⟩ := sources item listed
    exact supplies

/-- A tree stays layered when a variable is dropped that nothing reads. -/
theorem Tree.Layered.unproject (layered : tree.Layered vars) (handsOver : tree.HandsOver vars)
    (unread : tree.Unread vars source id) (within : source < tree.subqueries.length)
    : (tree.unproject source id).Layered (vars.remove id) := by
  have indexed := handsOver.indexed
  refine ⟨fun later member => ?_, fun later member exported listed => ?_⟩
  · rw [indexed.scopes_unproject within] at member
    obtain ⟨old, present, rfl⟩ := List.mem_map.mp member
    exact (layered.scopes old present).unproject found here projects handsOver unread present
  · rw [indexed.subqueries_unproject] at member
    obtain ⟨old, present, rfl⟩ := List.mem_map.mp member
    have inOld : exported ∈ old.exports ∧ (old.scope.index = source → exported.id ≠ id) := by
      simp only [Subquery.without] at listed
      split at listed
      · obtain ⟨inOld, different⟩ := List.mem_filter.mp listed
        exact ⟨inOld, fun _ => by simpa using different⟩
      · exact ⟨listed, fun same => absurd same ‹_›⟩
    have upto := layered.exports old present exported inOld.1
    simp only [Subquery.without, Scope.unproject_index]
    refine upto.remove ?_
    rcases Nat.lt_trichotomy old.scope.index source with earlier | same | after
    · exact upto.ne found here earlier
    · exact inOld.2 same
    · exact unread.exported old present after exported inOld.1

end Projected

end Unread

/-- A draft whose references all lead somewhere: it is layered, its variables are coherent, and what
scopes obtain from subqueries is exported there.
-/
structure Draft.Intact (declared : List VarId) (draft : Draft) : Prop where
  layered : draft.Layered
  coherent : draft.vars.Coherent declared
  handsOver : draft.tree.HandsOver draft.vars
  namedOnce : ∀ scope ∈ draft.tree.scopes, (namedIds scope.items).Nodup

/-- Reading off dependencies again keeps variables layered. -/
theorem VarTable.Layered.refresh {vars : VarTable} (layered : vars.Layered) (id : VarId)
    : (vars.refresh id).Layered := by
  intro other var found dep depends
  rw [get?_refresh] at found
  exact (layered found dep depends).stamps (rewrites_refresh vars id).stamps

/-- A literal may stand in for a constant. -/
theorem VarTable.Layered.standIn {vars : VarTable} (layered : vars.Layered) (id : VarId)
    : (standIn vars id).Layered := by
  unfold Plan.standIn
  split
  · exact layered.refresh id
  · rename_i expr type _ found
    obtain ⟨var, present, projects⟩ := VarTable.definition?_eq_some.mp found
    exact layered.project present projects Expr.within_literal
  · exact layered.refresh id

namespace Draft.Intact

variable {draft : Draft} {declared : List VarId} {source : Nat} {id : VarId}

/-- Dropping a constant keeps a draft intact, and leaves what else its subquery projects. -/
theorem dropConstant (intact : draft.Intact declared)
    (named
      : ∀ subquery,
          draft.tree.subqueries[source]? = some subquery → .named id ∈ subquery.scope.items)
    : (dropConstant source draft id).Intact declared
      ∧ ∀ subquery,
          (Plan.dropConstant source draft id).tree.subqueries[source]? = some subquery
          → ∃ old,
              draft.tree.subqueries[source]? = some old
              ∧ ∀ other,
                  other ≠ id → .named other ∈ old.scope.items
                    → .named other ∈ subquery.scope.items := by
  unfold Plan.dropConstant
  split
  · exact ⟨intact, fun subquery at' => ⟨subquery, at', fun _ _ listed => listed⟩⟩
  · rename_i subquery found
    split
    · exact ⟨intact, fun subquery at' => ⟨subquery, at', fun _ _ listed => listed⟩⟩
    · rename_i unread
      have indexed := intact.handsOver.indexed
      have index := indexed.subquery_index found
      have unread := Tree.unread_of_isRead (Bool.eq_false_iff.mpr unread)
      obtain ⟨order, -, ordered⟩ := intact.coherent.inOrder
      have unmentioned := ordered.unmentioned_of_dependents unread.dependents
      split
      · -- The last item of a subquery stays, with a literal in its place.
        have same := (standIn_reworded draft.vars id).stamps
        refine ⟨{
          layered := ⟨intact.layered.vars.standIn id, intact.layered.tree.stamps same⟩
          coherent := Draft.standIn_coherent intact.coherent unmentioned
          handsOver := intact.handsOver.alike draft.tree.maps_alike_refl same
          namedOnce := intact.namedOnce
        }, ?_⟩
        exact fun subquery at' => ⟨subquery, at', fun _ _ listed => listed⟩
      · have within := (List.getElem?_eq_some_iff.mp found).1
        have isScope : subquery.scope ∈ draft.tree.scopes :=
          Tree.mem_scopes.mpr (.inl ⟨subquery, List.mem_of_getElem? found, rfl⟩)
        obtain ⟨var, expr, type, present, here, projects⟩ :=
          (intact.layered.tree.scopes _ isScope).items _ (named subquery found)
        rw [index] at unread here
        refine ⟨{
          layered := ⟨intact.layered.vars.remove unmentioned,
            intact.layered.tree.unproject present here projects intact.handsOver unread within⟩
          coherent := intact.coherent.remove unmentioned
          handsOver := intact.handsOver.unproject within
            (VarTable.not_isPath_of_projected present projects)
          namedOnce := ?_
        }, ?_⟩
        · intro scope member
          rw [indexed.scopes_unproject within] at member
          obtain ⟨old, inOld, rfl⟩ := List.mem_map.mp member
          rw [Scope.unproject_items]
          split
          · exact (intact.namedOnce old inOld).sublist (List.filter_sublist.filterMap _)
          · exact intact.namedOnce old inOld
        · intro later atLater
          rw [indexed.subqueries_unproject, List.getElem?_map, found] at atLater
          obtain rfl := Option.some.inj atLater
          refine ⟨subquery, found, fun other different listed => ?_⟩
          simp [Subquery.without, index, listed, different]

/-- Constants are dropped one after the other, by induction over them. -/
theorem foldl_dropConstant {ids : List VarId} (intact : draft.Intact declared)
    (distinct : ids.Nodup)
    (named
      : ∀ id ∈ ids,
          ∀ subquery,
            draft.tree.subqueries[source]? = some subquery → .named id ∈ subquery.scope.items)
    : (ids.foldl (Plan.dropConstant source) draft).Intact declared := by
  induction ids generalizing draft with
  | nil => exact intact
  | cons id rest ih =>
      obtain ⟨new, others⟩ := List.nodup_cons.mp distinct
      obtain ⟨intactLater, kept⟩ := intact.dropConstant (named id (by simp))
      refine ih intactLater others fun other member subquery at' => ?_
      obtain ⟨old, found, stays⟩ := kept subquery at'
      refine stays other ?_ (named other (by simp [member]) old found)
      rintro rfl
      exact new member

/-- The constants of a subquery are dropped. -/
theorem dropConstantsOf (intact : draft.Intact declared) (source : Nat)
    : (dropConstantsOf draft source).Intact declared := by
  unfold Plan.dropConstantsOf
  split
  · exact intact
  · rename_i subquery found
    have isScope : subquery.scope ∈ draft.tree.scopes :=
      Tree.mem_scopes.mpr (.inl ⟨subquery, List.mem_of_getElem? found, rfl⟩)
    refine intact.foldl_dropConstant ((intact.namedOnce _ isScope).filter _) ?_
    intro id member other found'
    obtain rfl := Option.some.inj (found.symm.trans found')
    exact mem_namedIds.mp (List.mem_filter.mp member).1

/-- All constants that nothing reads are dropped, by induction over the subqueries. -/
theorem dropConstants (intact : draft.Intact declared) : (dropConstants draft).Intact declared := by
  unfold Plan.dropConstants
  generalize List.range draft.tree.subqueries.length = sources
  induction sources generalizing draft with
  | nil => exact intact
  | cons source rest ih => exact ih (intact.dropConstantsOf source)

end Draft.Intact

end CypherSql.Plan
