import CypherSql.Proofs.Inlining.Dropping

/-! A constant that is not dropped is read somewhere, or it is a literal and all that its subquery
projects. Dropping other constants changes nothing about that, so dropping constants again drops
none.
-/

namespace CypherSql.Plan

variable {draft later : Draft} {tree treeLater : Tree} {vars varsLater : VarTable} {source : Nat}
  {id : VarId} {order orderLater declared : List VarId}

/-- The search for readers finds nothing but readers. -/
theorem Tree.Unread.isRead_eq_false (unread : tree.Unread vars source id)
    : isRead tree vars source id = false := by
  simp only [isRead, Bool.or_eq_false_iff, List.any_append, List.any_eq_false, List.mem_flatMap,
    List.mem_filter, List.mem_map, decide_eq_true_eq, Bool.not_eq_eq_eq_not, Bool.not_false,
    List.isEmpty_iff]
  refine ⟨⟨⟨?_, ?_⟩, unread.dependents⟩, ?_⟩
  · rintro expr ⟨scope, ⟨member, after⟩, listed⟩ refers
    exact unread.later scope member after expr listed id refers rfl
  · rintro expr ⟨scope, ⟨member, here⟩, key, listed, rfl⟩ refers
    exact unread.sorting scope member here key listed id refers rfl
  · rintro exported ⟨subquery, ⟨member, after⟩, listed⟩
    exact unread.exported subquery member after exported listed

/-- The table records no dependents of a variable that no definition refers to. -/
theorem VarTable.Ordered.dependents_eq_nil (ordered : vars.Ordered order)
    (unmentioned : vars.Unmentioned id)
    : vars.dependents id = [] := by
  rw [VarTable.dependents, List.map_eq_nil_iff, List.filter_eq_nil_iff]
  rintro ⟨other, dependencies⟩ entry depends
  have recorded := ordered.recorded other
  rw [NameMap.mem_entries.mp entry] at recorded
  obtain ⟨var, found, same⟩ := Option.bind_eq_some_iff.mp recorded.symm
  split at same
  · cases same
  · obtain rfl := Option.some.inj same
    exact unmentioned other var found (by simpa using depends)

/-- Definitions mention no more once constants are dropped, and no less: a constant mentions
nothing.
-/
theorem VarTable.Drops.unmentioned (drops : vars.Drops varsLater)
    (unmentioned : varsLater.Unmentioned id)
    : vars.Unmentioned id := by
  intro other var found depends
  cases constant : constant? vars other with
  | none => exact unmentioned other var ((drops.others other constant).trans found) depends
  | some value =>
      obtain ⟨same, type, present, projects, -, isConstant⟩ := constant?_eq_some constant
      obtain rfl := Option.some.inj (found.symm.trans present)
      rw [projects] at depends
      have closed : value.1.Within fun _ => False := Expr.within_of_isConstant isConstant
      exact closed id depends

/-- What nothing reads once constants are dropped nothing read before, if what is exported stays. -/
theorem Tree.Unread.of_drops (unread : treeLater.Unread varsLater source id)
    (contents : treeLater.scopes.map Scope.contents = tree.scopes.map Scope.contents)
    (drops : vars.Drops varsLater) (ordered : vars.Ordered order)
    (orderedLater : varsLater.Ordered orderLater)
    (exported
      : ∀ subquery ∈ tree.subqueries,
          source < subquery.scope.index → ∀ exported ∈ subquery.exports, exported.id ≠ id)
    : tree.Unread vars source id := by
  have still {scope : Scope} (member : scope ∈ tree.scopes)
      : ∃ other ∈ treeLater.scopes, other.contents = scope.contents := by
    have listed := List.mem_map_of_mem (f := Scope.contents) member
    rw [← contents] at listed
    exact List.mem_map.mp listed
  refine {
    later := fun scope member after expr listed => ?_
    sorting := fun scope member here key listed => ?_
    dependents := ordered.dependents_eq_nil
      (drops.unmentioned (orderedLater.unmentioned_of_dependents unread.dependents))
    exported := exported
  }
  · obtain ⟨other, member, same⟩ := still member
    simp only [Scope.contents, Prod.mk.injEq] at same
    exact unread.later other member (same.1 ▸ after) expr (same.2.2.1 ▸ listed)
  · obtain ⟨other, member, same⟩ := still member
    simp only [Scope.contents, Prod.mk.injEq] at same
    exact unread.sorting other member (same.1 ▸ here) key (same.2.2.2 ▸ listed)

/-- The dependencies of a variable are on record, so that reading them off again changes nothing. -/
theorem VarTable.Ordered.refresh_eq_self (ordered : vars.Ordered order) (id : VarId)
    : vars.refresh id = vars := by
  unfold VarTable.refresh
  split
  · rename_i var found
    have recorded := ordered.recorded id
    rw [found, Option.bind_some] at recorded
    have same : VarTable.recordDependencies vars.dependencies var = vars.dependencies := by
      unfold VarTable.recordDependencies
      split
      · rfl
      · rename_i lasting
        rw [if_neg lasting] at recorded
        rw [ordered.named found]
        exact NameMap.insert_eq_self recorded
    rw [same]
  · rfl

/-- A subquery holds on to a constant: something reads it, or it is a literal and all that the
subquery projects.
-/
def Draft.Retains (draft : Draft) (source : Nat) (id : VarId) : Prop :=
  ∀ subquery,
    draft.tree.subqueries[source]? = some subquery
    → isRead draft.tree draft.vars subquery.scope.index id = true
      ∨ subquery.scope.items.length ≤ 1
        ∧ ∃ literal type, draft.vars.definition? id = some (.projected (.literal literal) type)

/-- What a subquery holds on to is not dropped. -/
theorem Draft.Retains.dropConstant_eq_self (retains : draft.Retains source id)
    (ordered : draft.vars.Ordered order)
    : dropConstant source draft id = draft := by
  unfold dropConstant
  split
  · rfl
  · rename_i subquery found
    rcases retains subquery found with isRead | ⟨alone, literal, type, definition⟩
    · rw [if_pos isRead]
    · split
      · rfl
      · simp only [standIn, definition, ordered.refresh_eq_self]

/-- The constant is dropped, or its subquery holds on to it. -/
def Draft.Done (draft : Draft) (source : Nat) (id : VarId) : Prop :=
  constant? draft.vars id = none ∨ draft.Retains source id

/-- A constant is done with once it is dropped as far as possible. -/
theorem Draft.done_dropConstant (droppable : draft.vars.Droppable id)
    : (dropConstant source draft id).Done source id := by
  unfold dropConstant
  split
  · rename_i none
    exact .inr fun subquery found => by simp [none] at found
  · rename_i subquery found
    have only {holds : Subquery → Prop} (here : holds subquery)
        : ∀ other, draft.tree.subqueries[source]? = some other → holds other := by
      intro other found'
      exact Option.some.inj (found.symm.trans found') ▸ here
    split
    · rename_i isRead
      exact .inr (only (.inl isRead))
    · split
      · rename_i alone
        rcases droppable with constant | absent
        · obtain ⟨⟨value, scope⟩, isConstant⟩ := Option.isSome_iff_exists.mp constant
          obtain ⟨literal, standsIn, -⟩ := constant?_standIn isConstant
          obtain ⟨var, type, present, projects, -⟩ := constant?_eq_some standsIn
          have definition := VarTable.definition?_eq_some.mpr ⟨var, present, projects⟩
          exact .inr (only (.inr ⟨alone, literal, type, definition⟩))
        · exact .inl (constant?_of_get?_none (get?_standIn_of_none absent))
      · exact .inl (constant?_of_get?_none (by rw [VarTable.get?_remove, if_pos rfl]))

/-- The subqueries are related one by one to those of a tree in which one projects a variable no
longer: they are where they were, and project and export no less but for that.
-/
theorem Tree.forall₂_unproject (tree : Tree) (source : Nat) (id : VarId)
    : List.Forall₂
        (fun old later : Subquery =>
          later.scope.index = old.scope.index
          ∧ later.scope.items.Sublist old.scope.items
          ∧ ∀ exported ∈ old.exports, exported.id ≠ id → exported ∈ later.exports)
        tree.subqueries (tree.unproject source id).subqueries := by
  rw [List.forall₂_iff_get]
  refine ⟨by simp [Tree.unproject], fun position within withinLater => ?_⟩
  simp only [Tree.unproject, List.get_eq_getElem, List.getElem_map, List.getElem_modify]
  split
  · refine ⟨rfl, List.filter_sublist, fun exported listed different => ?_⟩
    exact List.mem_filter.mpr ⟨listed, by simpa using different⟩
  · exact ⟨rfl, .refl _, fun _ listed _ => listed⟩

/-- What is done with stays so while other constants are dropped. -/
theorem Draft.Done.dropConstant {other : VarId} {position : Nat} (done : draft.Done position other)
    (droppable : draft.vars.Droppable id)
    (coherent : draft.vars.Coherent declared)
    : (dropConstant source draft id).Done position other := by
  have drops := dropConstant_drops source droppable
  have coherentLater := dropConstant_coherent source coherent id
  obtain ⟨_, -, ordered⟩ := coherent.inOrder
  obtain ⟨_, -, orderedLater⟩ := coherentLater.inOrder
  rcases done with noConstant | retains
  · exact .inl ((constant?_congr (drops.vars.others other noConstant)).trans noConstant)
  · revert drops orderedLater
    unfold Plan.dropConstant
    split
    · exact fun _ _ => .inr retains
    · split
      · exact fun _ _ => .inr retains
      · split
        · -- The tree is the same, and a literal stays one.
          intro drops orderedLater
          refine .inr fun subquery found => ?_
          refine (retains subquery found).imp (fun isRead => ?_) ?_
          · by_contra unread
            have unread := Tree.unread_of_isRead (Bool.eq_false_iff.mpr unread)
            have before :=
              unread.of_drops drops.contents drops.vars ordered orderedLater unread.exported
            simp [before.isRead_eq_false] at isRead
          · rintro ⟨alone, literal, type, definition⟩
            refine ⟨alone, literal, type, ?_⟩
            by_cases same : other = id
            · subst same
              have same : standIn draft.vars other = draft.vars := by
                simp only [standIn, definition, ordered.refresh_eq_self]
              rwa [same]
            · rwa [VarTable.definition?, get?_standIn_of_ne same]
        · -- The other variable is still exported where it was, and no more is projected.
          intro drops orderedLater
          by_cases same : other = id
          · exact .inl (constant?_of_get?_none (by rw [VarTable.get?_remove, if_pos same]))
          · refine .inr fun later found => ?_
            have related := draft.tree.forall₂_unproject source id
            obtain ⟨old, found', index, items, -⟩ := forall₂_getElem?_right related found
            refine (retains old found').imp (fun isRead => ?_) ?_
            · by_contra unread
              have unread := Tree.unread_of_isRead (Bool.eq_false_iff.mpr unread)
              have before := unread.of_drops drops.contents drops.vars ordered orderedLater ?_
              · rw [index] at before
                simp [before.isRead_eq_false] at isRead
              · intro subquery member after exported listed
                obtain ⟨at', present⟩ := List.mem_iff_getElem?.mp member
                obtain ⟨new, presentLater, indexNew, -, exports⟩ :=
                  forall₂_getElem?_left related present
                by_contra same'
                have kept := exports exported listed fun dropped => same (same'.symm.trans dropped)
                exact unread.exported new (List.mem_of_getElem? presentLater)
                  (by omega) exported kept same'
            · rintro ⟨alone, literal, type, definition⟩
              refine ⟨Nat.le_trans items.length_le alone, literal, type, ?_⟩
              rwa [VarTable.definition?_remove, if_neg same]

/-- All constants that a subquery declares are done with. -/
def Draft.DoneWith (draft : Draft) (source : Nat) : Prop :=
  ∀ subquery,
    draft.tree.subqueries[source]? = some subquery
    → ∀ id ∈ subquery.scope.declared, draft.Done source id

/-- The subqueries of a draft project no more than those of another. -/
def Draft.Narrows (draft later : Draft) : Prop :=
  List.Forall₂ (fun old later : Subquery => later.scope.items.Sublist old.scope.items)
    draft.tree.subqueries later.tree.subqueries

theorem Draft.Narrows.refl (draft : Draft) : draft.Narrows draft :=
  List.forall₂_same.mpr fun _ _ => .refl _

theorem Draft.Narrows.trans {first second third : Draft} (left : first.Narrows second)
    (right : second.Narrows third)
    : first.Narrows third :=
  forall₂_comp left right fun _ _ _ one two => two.trans one

/-- What a subquery declares that projects no more than before. -/
theorem Draft.Narrows.declares (narrows : draft.Narrows later) {subquery : Subquery}
    (found : later.tree.subqueries[source]? = some subquery)
    : ∃ old,
        draft.tree.subqueries[source]? = some old
        ∧ subquery.scope.declared ⊆ old.scope.declared := by
  obtain ⟨old, present, items⟩ := forall₂_getElem?_right narrows found
  exact ⟨old, present, (items.filterMap _).subset⟩

theorem dropConstant_narrows (draft : Draft) (source : Nat) (id : VarId)
    : draft.Narrows (dropConstant source draft id) := by
  unfold dropConstant
  split
  · exact .refl draft
  · split
    · exact .refl draft
    · split
      · exact .refl draft
      · exact (draft.tree.forall₂_unproject source id).imp fun _ _ related => related.2.1

/-- Constants are done with one after the other, by induction over them. -/
theorem foldl_dropConstant_done (source : Nat) (ids : List VarId)
    (coherent : draft.vars.Coherent declared) (droppable : ∀ id ∈ ids, draft.vars.Droppable id)
    : let later := ids.foldl (dropConstant source) draft
      later.vars.Coherent declared
      ∧ draft.Narrows later
      ∧ (∀ position id, draft.Done position id → later.Done position id)
      ∧ ∀ id ∈ ids, later.Done source id := by
  induction ids generalizing draft with
  | nil => exact ⟨coherent, .refl draft, fun _ _ done => done, by simp⟩
  | cons id rest ih =>
      have first := droppable id (by simp)
      have drops := dropConstant_drops source first
      obtain ⟨coherentLast, narrows, kept, each⟩ := ih
        (Draft.dropConstant_coherent source coherent id)
        fun other member => drops.vars.droppable (droppable other (by simp [member]))
      refine ⟨coherentLast, (dropConstant_narrows draft source id).trans narrows, ?_, ?_⟩
      · exact fun position other done => kept position other (done.dropConstant first coherent)
      · intro other member
        rcases List.mem_cons.mp member with rfl | member
        · exact kept source other (Draft.done_dropConstant first)
        · exact each other member

/-- A subquery is done with, and so are those that were. -/
theorem dropConstantsOf_doneWith (coherent : draft.vars.Coherent declared) (source : Nat)
    : let later := dropConstantsOf draft source
      later.vars.Coherent declared
      ∧ draft.Narrows later
      ∧ (∀ position, draft.DoneWith position → later.DoneWith position)
      ∧ later.DoneWith source := by
  have drops := dropConstantsOf_drops draft source
  unfold dropConstantsOf at drops ⊢
  cases found : draft.tree.subqueries[source]? with
  | none =>
      refine ⟨coherent, .refl draft, fun _ done => done, ?_⟩
      intro subquery present
      simp [found] at present
  | some subquery =>
      simp only [found] at drops ⊢
      obtain ⟨coherentLater, narrows, kept, each⟩ := foldl_dropConstant_done source
        (subquery.scope.declared.filter fun id => (constant? draft.vars id).isSome) coherent
        fun id member => .inl (List.mem_filter.mp member).2
      refine ⟨coherentLater, narrows, fun position done later present id member => ?_,
        fun later present id member => ?_⟩
      · obtain ⟨old, at', declares⟩ := narrows.declares present
        exact kept position id (done old at' id (declares member))
      · obtain ⟨old, at', declares⟩ := narrows.declares present
        obtain rfl := Option.some.inj (found.symm.trans at')
        cases constant : constant? draft.vars id with
        | none => exact .inl ((constant?_congr (drops.vars.others id constant)).trans constant)
        | some value => exact each id (List.mem_filter.mpr ⟨declares member, by simp [constant]⟩)

/-- All subqueries are done with, by induction over them. -/
theorem foldl_dropConstantsOf_doneWith (sources : List Nat)
    (coherent : draft.vars.Coherent declared)
    : let later := sources.foldl dropConstantsOf draft
      draft.Narrows later
      ∧ (∀ position, draft.DoneWith position → later.DoneWith position)
      ∧ ∀ source ∈ sources, later.DoneWith source := by
  induction sources generalizing draft with
  | nil => exact ⟨.refl draft, fun _ done => done, by simp⟩
  | cons source rest ih =>
      obtain ⟨coherentNext, narrows, kept, first⟩ := dropConstantsOf_doneWith coherent source
      obtain ⟨narrowsLast, keptLast, others⟩ := ih coherentNext
      refine ⟨narrows.trans narrowsLast,
        fun position done => keptLast position (kept position done), ?_⟩
      intro other member
      rcases List.mem_cons.mp member with rfl | member
      · exact keptLast other first
      · exact others other member

/-- What each of several changes leaves as it is stays so, by induction over them. -/
theorem foldl_eq_self {α β : Type} {f : α → β → α} {start : α} {items : List β}
    (kept : ∀ item ∈ items, f start item = start)
    : items.foldl f start = start := by
  induction items with
  | nil => rfl
  | cons item rest ih =>
      rw [List.foldl_cons, kept item (by simp)]
      exact ih fun other member => kept other (by simp [member])

/-- A subquery that is done with drops nothing. -/
theorem Draft.DoneWith.dropConstantsOf_eq_self (done : draft.DoneWith source)
    (ordered : draft.vars.Ordered order)
    : dropConstantsOf draft source = draft := by
  unfold dropConstantsOf
  split
  · rfl
  · rename_i subquery found
    refine foldl_eq_self fun id member => ?_
    obtain ⟨declares, constant⟩ := List.mem_filter.mp member
    rcases done subquery found id declares with none | retains
    · simp [none] at constant
    · exact retains.dropConstant_eq_self ordered

/-- Dropping constants again drops nothing. -/
theorem dropConstants_dropConstants (coherent : draft.vars.Coherent declared)
    : dropConstants (dropConstants draft) = dropConstants draft := by
  obtain ⟨_, -, ordered⟩ := (Draft.dropConstants_coherent coherent).inOrder
  obtain ⟨narrows, -, done⟩ :=
    foldl_dropConstantsOf_doneWith (List.range draft.tree.subqueries.length) coherent
  have length : (dropConstants draft).tree.subqueries.length = draft.tree.subqueries.length :=
    narrows.length_eq.symm
  refine foldl_eq_self fun source member => ?_
  rw [length] at member
  exact (done source member).dropConstantsOf_eq_self ordered

end CypherSql.Plan
