import CypherSql.Proofs.Passes.Restrictions

/-! The tables behind the items are looked up safely. A relationship always gets its table, and an
item with a table has a variable that is bound to it.
-/

namespace CypherSql.Plan

/-- The variable of the definition has a table. -/
def Definition.isBound : Definition → Bool
  | .node pattern => pattern.binding.isSome
  | .relationship rel => rel.binding.isSome
  | _ => false

namespace VarTable

/-- The variable has a table. -/
def Bound (vars : VarTable) (id : VarId) : Prop :=
  ∃ definition, vars.definition? id = some definition ∧ definition.isBound

/-- A relationship with a table has a binding. -/
theorem Bound.relationship {vars : VarTable} {id : VarId} {rel : RelationshipVar}
    (bound : vars.Bound id) (isRelationship : vars.relationship? id = some rel)
    : rel.binding.isSome := by
  obtain ⟨definition, found, isBound⟩ := bound
  obtain rfl :=
    Option.some.inj (found.symm.trans (VarTable.relationship?_eq_some.mp isRelationship))
  exact isBound

/-- Variables stay bound, and the same variables are relationships. -/
structure Keeps (vars later : VarTable) : Prop where
  bound : ∀ id, vars.Bound id → later.Bound id
  relationships : ∀ id, (later.relationship? id).isSome = (vars.relationship? id).isSome

/-- What changes of variables keep is kept by all of them together. -/
theorem Keeps.threads : Threads Keeps where
  refl := fun _ => ⟨fun _ bound => bound, fun _ => rfl⟩
  trans := fun _ _ _ first second =>
    ⟨fun id bound => second.bound id (first.bound id bound),
      fun id => (second.relationships id).trans (first.relationships id)⟩

/-- A node or relationship may be bound to its table. -/
theorem Keeps.redefine {vars : VarTable} {id : VarId} {var : Variable}
    (found : vars.get? id = some var) (definition : Definition)
    (outline : definition.outline = var.definition.outline)
    (restriction : definition.restriction? = var.definition.restriction?)
    (isBound : definition.isBound)
    : vars.Keeps (vars.redefine id definition)
      ∧ (vars.redefine id definition).Bound id := by
  have changed : (vars.redefine id definition).definition? id = some definition := by
    rw [VarTable.definition?, VarTable.get?_redefine, if_pos rfl, found]
    rfl
  refine ⟨⟨?_, ?_⟩, definition, changed, isBound⟩
  · rintro other ⟨old, present, bound⟩
    by_cases same : other = id
    · subst same
      exact ⟨definition, changed, isBound⟩
    · refine ⟨old, ?_, bound⟩
      rwa [VarTable.definition?, VarTable.get?_redefine, if_neg same]
  · intro other
    cases present : vars.get? other with
    | some old =>
        exact (GrowsTo.redefine found outline (.inl restriction)).isSome_relationship?
          (by simp [present])
    | none =>
        have different : other ≠ id := by
          rintro rfl
          simp [found] at present
        simp [VarTable.relationship?, VarTable.definition?, VarTable.get?_redefine, different,
          present]

/-- An item with a table has a bound variable, and an item of a relationship has a table. -/
structure Tabled (vars : VarTable) (item : FromItem) : Prop where
  bound : ∀ id, item.tableVar? = some id → item.table.isSome → vars.Bound id
  relationship : ∀ id, item.tableVar? = some id → (vars.relationship? id).isSome → item.table.isSome

theorem Tabled.keep {vars later : VarTable} {item : FromItem} (tabled : vars.Tabled item)
    (keeps : vars.Keeps later)
    : later.Tabled item where
  bound := fun id isTable table => keeps.bound id (tabled.bound id isTable table)
  relationship := fun id isTable relationship =>
    tabled.relationship id isTable (keeps.relationships id ▸ relationship)

/-- The relationship of an item is bound. -/
theorem Tabled.binding {vars : VarTable} {item : FromItem} (tabled : vars.Tabled item) (id : VarId)
    (rel : RelationshipVar) (isTable : item.tableVar? = some id)
    (isRelationship : vars.relationship? id = some rel)
    : rel.binding.isSome := by
  have hasTable := tabled.relationship id isTable (by simp [isRelationship])
  exact (tabled.bound id isTable hasTable).relationship isRelationship

end VarTable

/-- Items and variables are changed together one item after the other, by induction over them. -/
theorem eachItem_eq (f : FromItem → VarTable → Except LoweringError (FromItem × VarTable))
    (items : List FromItem) (vars : VarTable)
    : eachItem f items vars
      = StateT.run (items.mapM fun item =>
          (f item : StateT VarTable (Except LoweringError) FromItem)) vars := by
  induction items generalizing vars with
  | nil => rfl
  | cons item rest ih =>
      rw [List.mapM_cons, StateT.run_bind, eachItem]
      refine bind_congr fun ⟨first, middle⟩ => ?_
      rw [StateT.run_bind, ← ih]
      rfl

/-- Changes of items and variables together are safe if each of them is. -/
theorem eachItem_safely {keeps : VarTable → VarTable → Prop} (items : List FromItem)
    (inv : VarTable → Prop) (related : FromItem → VarTable → FromItem → Prop)
    (threads : Threads keeps) {f : FromItem → VarTable → Except LoweringError (FromItem × VarTable)}
    (stable : ∀ old vars later new, keeps vars later → related old vars new → related old later new)
    (each
      : ∀ item ∈ items,
          ∀ vars,
            inv vars
            → Safely (fun result =>
                inv result.2 ∧ keeps vars result.2 ∧ related item result.2 result.1)
                (f item vars))
    {vars : VarTable} (holds : inv vars)
    : Safely (fun result =>
          inv result.2
          ∧ keeps vars result.2
          ∧ List.Forall₂ (fun old new => related old result.2 new) items result.1)
        (eachItem f items vars) := by
  rw [eachItem_eq]
  exact mapM_run_safely items inv related threads stable each holds

namespace QueryModel

variable {query : QueryModel} {catalog : Catalog} {vars : VarTable} {index : Nat}
  {model : ScopeModel} {tabled : Bool} {source item : FromItem} {id : VarId}

/-- An item may get a table where it is no subquery. -/
theorem Placeable.withTable (placeable : query.Placeable index model tabled source item)
    (isTable : item.tableVar? = some id) (table : Option String)
    : query.Placeable index model true source { item with table } where
  isSource := placeable.isSource
  same := placeable.same
  required := placeable.required
  pending := placeable.pending
  untabled := nofun
  subquery := by
    intro isSubquery
    obtain ⟨other, found⟩ := Option.isSome_iff_exists.mp isSubquery
    have found : item.source = some other := found
    simp [FromItem.tableVar?, found] at isTable

/-- An item stays placeable once tables are looked up. -/
theorem Placeable.lookedUp (placeable : query.Placeable index model tabled source item)
    : query.Placeable index model true source item :=
  { placeable with untabled := nofun }

/-- The variable of a table item is a node or a relationship. -/
theorem Refined.element (refined : query.Refined catalog true vars)
    (found : query.models[index]? = some model)
    (placeable : query.Placeable index model tabled source item)
    (isTable : item.tableVar? = some id)
    : ∃ var, vars.get? id = some var ∧ var.definition.isElement := by
  obtain ⟨position, clause, at', declared, -⟩ := placeable.declared isTable
  have clauseScoped := (query.collected.inScope found).clauses.each at'
  obtain ⟨old, collected, -, element⟩ := clauseScoped.elements id declared
  obtain ⟨var, present, -, outline, -⟩ := refined.grows.kept collected
  refine ⟨var, present, ?_⟩
  rwa [← Definition.isElement_outline, outline, Definition.isElement_outline]

/-- What a lookup of a table may answer: nothing for a node, or a table with a definition that is
bound to it and agrees with the model.
-/
def LooksUp (query : QueryModel) (catalog : Catalog) (old : Definition)
    : Option (String × Definition) → Prop
  | none => ∃ pattern, old = .node pattern
  | some (_, new) =>
      new.isBound
      ∧ new.outline = old.outline
      ∧ new.restriction? = old.restriction?
      ∧ new.labels? = old.labels?
      ∧ new.Agrees query catalog true

/-- The table of a node or relationship is looked up safely. -/
theorem Refined.tableOf (refined : query.Refined catalog true vars) (labels : query.SameLabels vars)
    {var : Variable} (present : vars.get? id = some var) (element : var.definition.isElement)
    : Safely (LooksUp query catalog var.definition) (tableOf catalog vars id) := by
  have agrees := refined.agrees id var present
  simp only [Plan.tableOf, present]
  cases kind : var.definition with
  | node pattern =>
      rw [kind] at agrees
      simp only [nodeTable]
      split
      · exact ⟨rfl, rfl, rfl, rfl, agrees⟩
      · exact ⟨pattern, rfl⟩
      · simp [Cause.category]
  | relationship rel =>
      rw [kind] at agrees
      simp only [relationshipTable, labels.endpointLabels refined]
      split
      · rename_i binding found
        refine ⟨rfl, rfl, rfl, rfl, agrees.1, ?_⟩
        rintro other ⟨⟩
        exact found
      · split
        · split <;> simp [Cause.category]
        · simp [Cause.category]
  | _ => simp [kind, Definition.isElement] at element

/-- The table of an item is looked up safely. -/
theorem Refined.resolveItem (refined : query.Refined catalog true vars)
    (labels : query.SameLabels vars) (found : query.models[index]? = some model)
    (placeable : query.Placeable index model false source item)
    : Safely (fun result =>
          (query.Refined catalog true result.2 ∧ query.SameLabels result.2)
          ∧ vars.Keeps result.2
          ∧ query.Placeable index model true source result.1
          ∧ result.2.Tabled result.1)
        (resolveItem catalog item vars) := by
  have untabled := placeable.untabled rfl
  unfold Plan.resolveItem
  rw [untabled]
  cases isTable : item.tableVar? with
  | none =>
      exact ⟨⟨refined, labels⟩, VarTable.Keeps.threads.refl vars, placeable.lookedUp,
        ⟨by simp [isTable], by simp [isTable]⟩⟩
  | some id =>
      obtain ⟨var, present, element⟩ := refined.element found placeable isTable
      refine (refined.tableOf labels present element).bind fun lookedUp answer => ?_
      cases lookedUp with
      | none =>
          obtain ⟨pattern, kind⟩ := answer
          refine ⟨⟨refined, labels⟩, VarTable.Keeps.threads.refl vars, placeable.lookedUp, ?_, ?_⟩
          · simp [untabled]
          · intro other isTable' relationship
            obtain rfl := Option.some.inj (isTable.symm.trans isTable')
            simp [VarTable.relationship?, VarTable.definition?_of_get? present, kind]
              at relationship
      | some entry =>
          obtain ⟨table, definition⟩ := entry
          obtain ⟨isBound, outline, restriction, sameLabels, agrees⟩ := answer
          obtain ⟨keeps, bound⟩ := VarTable.Keeps.redefine present _ outline restriction isBound
          refine ⟨⟨refined.redefine present outline restriction agrees,
            labels.redefine present sameLabels⟩, keeps, placeable.withTable isTable _, ?_, ?_⟩
          · intro other isTable' _
            obtain rfl := Option.some.inj (isTable.symm.trans isTable')
            exact bound
          · exact fun _ _ _ => rfl

end QueryModel

/-- The tables of all items are looked up safely. -/
theorem resolveTables_safely {query : QueryModel} {catalog : Catalog} {draft : Draft}
    (refined : query.Refined catalog true draft.vars) (labels : query.SameLabels draft.vars)
    (each : draft.tree.Each query.models (query.Prepared false))
    (named : ∀ subquery ∈ draft.tree.subqueries, subquery.Named)
    : Safely (fun later =>
          query.Refined catalog true later.vars
          ∧ later.tree.Each query.models (fun model scope =>
              query.Prepared true model scope
              ∧ ∀ item ∈ scope.select.fromItems, later.vars.Tabled item)
          ∧ ∀ subquery ∈ later.tree.subqueries, subquery.Named)
        (resolveTables catalog draft) := by
  have resolved := draft.eachScope_safely
    (fun vars => query.Refined catalog true vars ∧ query.SameLabels vars)
    (fun old vars new => ∀ model,
      query.models[old.index]? = some model
      → query.Prepared false model old
      → new.index = old.index
        ∧ query.Prepared true model new
        ∧ ∀ item ∈ new.select.fromItems, vars.Tabled item)
    VarTable.Keeps.threads (f := eachFromItem (resolveItem catalog)) ?_ ⟨refined, labels⟩ ?_
  · refine resolved.mono ?_
    rintro _ ⟨tree, vars, rfl, ⟨refined, labels⟩, maps⟩
    refine ⟨refined, ?_, maps.named named⟩
    exact each.maps maps fun model old new found prepared changed => changed model found prepared
  · intro old vars later new keeps related model found prepared
    obtain ⟨index, prepared, tabled⟩ := related model found prepared
    exact ⟨index, prepared, fun item member => (tabled item member).keep keeps⟩
  · rintro scope member vars ⟨refined, labels⟩
    obtain ⟨model, found, prepared⟩ := each.each scope member
    have placeable := prepared.items
    have items := eachItem_safely scope.select.fromItems
      (fun vars => query.Refined catalog true vars ∧ query.SameLabels vars)
      (fun old vars new => ∀ source,
        query.Placeable scope.index model false source old
        → query.Placeable scope.index model true source new ∧ vars.Tabled new)
      VarTable.Keeps.threads (f := resolveItem catalog)
      (fun old vars later new keeps related source placeable =>
        ⟨(related source placeable).1, (related source placeable).2.keep keeps⟩)
      ?_ ⟨refined, labels⟩
    · refine items.bind ?_
      rintro ⟨changed, later⟩ ⟨inv, keeps, related⟩
      -- Each item stands for one of the model, and its table is looked up for that one.
      have both := forall₂_comp placeable related
        fun source old new placeable related => related source placeable
      refine ⟨inv, keeps, fun other found' _ => ?_⟩
      obtain rfl := Option.some.inj (found.symm.trans found')
      refine ⟨rfl, ⟨prepared.frame, prepared.joins, both.imp fun _ _ holds => holds.1,
        prepared.conditions⟩, fun item member => ?_⟩
      obtain ⟨position, at'⟩ := List.mem_iff_getElem?.mp member
      obtain ⟨_, -, holds⟩ := forall₂_getElem?_right both at'
      exact holds.2
    · rintro item member vars ⟨refined, labels⟩
      obtain ⟨position, at'⟩ := List.mem_iff_getElem?.mp member
      obtain ⟨source, -, placeable⟩ := forall₂_getElem?_right placeable at'
      refine (refined.resolveItem labels found placeable).mono ?_
      rintro ⟨changed, later⟩ ⟨inv, keeps, lookedUp⟩
      refine ⟨inv, keeps, fun other placeable' => ?_⟩
      obtain rfl : source = other := placeable.same.symm.trans placeable'.same
      exact lookedUp

end CypherSql.Plan
