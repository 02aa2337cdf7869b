import CypherSql.Proofs.Exports.Handover

/-! What a scope may refer to. Its expressions see the variables of earlier scopes and those that
its own patterns declare; what its projection names is seen by its sort keys alone, and by the
scopes after it. Rewriting the expressions of a query keeps to this.
-/

namespace CypherSql.Plan

namespace VarTable

/-- The variable is declared in a scope or in an earlier one. -/
def Upto (vars : VarTable) (scope : Nat) (id : VarId) : Prop :=
  ∃ var, vars.get? id = some var ∧ var.scope ≤ scope

/-- The variable is declared before the projection of a scope. -/
def Before (vars : VarTable) (scope : Nat) (id : VarId) : Prop :=
  ∃ var,
    vars.get? id = some var
    ∧ (var.scope < scope ∨ var.scope = scope ∧ var.definition.projection? = none)

/-- Definitions refer to what is declared before the projections of their scopes. -/
def Layered (vars : VarTable) : Prop :=
  ∀ ⦃id var⦄,
    vars.get? id = some var
    → ∀ dep ∈ var.definition.dependencies id, vars.Before var.scope dep

variable {vars later : VarTable} {scope outer : Nat} {id other : VarId}

theorem Before.upto (before : vars.Before scope id) : vars.Upto scope id := by
  obtain ⟨var, found, earlier | ⟨here, -⟩⟩ := before
  · exact ⟨var, found, Nat.le_of_lt earlier⟩
  · exact ⟨var, found, Nat.le_of_eq here⟩

theorem Upto.before (upto : vars.Upto scope id) (behind : scope < outer)
    : vars.Before outer id := by
  obtain ⟨var, found, within⟩ := upto
  exact ⟨var, found, .inl (Nat.lt_of_le_of_lt within behind)⟩

theorem Upto.mono (upto : vars.Upto scope id) (behind : scope ≤ outer) : vars.Upto outer id := by
  obtain ⟨var, found, within⟩ := upto
  exact ⟨var, found, Nat.le_trans within behind⟩

theorem Upto.isSome (upto : vars.Upto scope id) : (vars.get? id).isSome := by
  obtain ⟨var, found, -⟩ := upto
  simp [found]

/-- A node or relationship of a scope is declared before its projection. -/
theorem before_of_isElement {var : Variable} (found : vars.get? id = some var)
    (here : var.scope ≤ scope) (isElement : var.definition.isElement)
    : vars.Before scope id := by
  refine ⟨var, found, (Nat.lt_or_eq_of_le here).imp_right fun here => ⟨here, ?_⟩⟩
  cases kind : var.definition <;> simp_all [Definition.isElement, Definition.projection?]

/-- What is declared before the projection of a scope depends on nothing else. -/
theorem Layered.closed_before (layered : vars.Layered) (scope : Nat)
    : vars.Closed (vars.Before scope) := by
  intro id var dep found before depends
  obtain ⟨same, found', earlier⟩ := before
  obtain rfl := Option.some.inj (found.symm.trans found')
  have beforeOwn := layered found dep depends
  rcases earlier with earlier | ⟨rfl, -⟩
  · exact beforeOwn.upto.before earlier
  · exact beforeOwn

/-- What is declared in the scopes up to one depends on nothing else. -/
theorem Layered.closed_upto (layered : vars.Layered) (scope : Nat)
    : vars.Closed (vars.Upto scope) := by
  intro id var dep found upto depends
  obtain ⟨same, found', within⟩ := upto
  obtain rfl := Option.some.inj (found.symm.trans found')
  exact (layered found dep depends).upto.mono within

section Grow

variable (grows : vars.GrowsTo later)

include grows

theorem Upto.grow (upto : vars.Upto scope id) : later.Upto scope id := by
  obtain ⟨var, found, within⟩ := upto
  obtain ⟨other, found', same, -⟩ := grows.kept found
  exact ⟨other, found', same ▸ within⟩

theorem Before.grow (before : vars.Before scope id) : later.Before scope id := by
  obtain ⟨var, found, earlier⟩ := before
  obtain ⟨other, found', same, outline, -⟩ := grows.kept found
  refine ⟨other, found', ?_⟩
  rw [same]
  refine earlier.imp_right fun own => ⟨own.1, ?_⟩
  have projection := own.2
  rw [← Definition.projection?_outline] at projection ⊢
  rwa [outline]

theorem IsElement.grow (isElement : vars.IsElement id) : later.IsElement id := by
  obtain ⟨definition, found, isElement⟩ := isElement
  obtain ⟨var, present, rfl⟩ := definition?_eq_some.mp found
  obtain ⟨other, found', -, outline, -⟩ := grows.kept present
  refine ⟨other.definition, definition?_of_get? found', ?_⟩
  rw [← Definition.isElement_outline] at isElement ⊢
  rwa [outline]

/-- A grown table without new variables stays layered. -/
theorem Layered.grow (layered : vars.Layered)
    (same : ∀ id, (later.get? id).isSome → (vars.get? id).isSome)
    : later.Layered := by
  intro id var found dep depends
  obtain ⟨old, present⟩ := Option.isSome_iff_exists.mp (same id (by simp [found]))
  obtain ⟨other, found', scope, outline, restriction⟩ := grows.kept present
  obtain rfl := Option.some.inj (found.symm.trans found')
  rw [scope]
  exact (layered present dep (Definition.dependencies_subset outline restriction depends)).grow
    grows

end Grow

/-- A definition may change in what it does not refer to. -/
theorem Layered.redefine {var : Variable} {definition : Definition} (layered : vars.Layered)
    (found : vars.get? id = some var) (outline : definition.outline = var.definition.outline)
    (restriction : definition.restriction? = var.definition.restriction?)
    : (vars.redefine id definition).Layered := by
  refine layered.grow (GrowsTo.redefine found outline (.inl restriction)) fun other present => ?_
  rw [get?_redefine_of_get? found] at present
  split at present
  · rename_i same
    simp [same, found]
  · exact present

section Stamps

variable (same : vars.SameStamps later)

include same

theorem Upto.stamps (upto : vars.Upto scope id) : later.Upto scope id := by
  obtain ⟨var, found, within⟩ := upto
  obtain ⟨other, found', stamp⟩ := same.get? found
  have scope : other.scope = var.scope := (congrArg Variable.scope stamp :)
  exact ⟨other, found', scope ▸ within⟩

theorem Before.stamps (before : vars.Before scope id) : later.Before scope id := by
  obtain ⟨var, found, earlier⟩ := before
  obtain ⟨other, found', stamp⟩ := same.get? found
  have scope : other.scope = var.scope := (congrArg Variable.scope stamp :)
  have definition := congrArg Variable.definition stamp
  refine ⟨other, found', scope ▸ earlier.imp_right fun own => ⟨own.1, ?_⟩⟩
  have projection := own.2
  simp only [Variable.stamp] at definition
  cases old : var.definition <;> cases new : other.definition <;>
    simp_all [Definition.stamp, Definition.projection?]

end Stamps

/-- Another projection may take the place of one if it refers to what it may. -/
theorem Layered.project {var : Variable} {expr changed : Expr} {type : Option VarType}
    (layered : vars.Layered) (found : vars.get? id = some var)
    (projects : var.definition = .projected expr type)
    (within : changed.Within (vars.Before var.scope))
    : ((vars.redefine id (.projected changed type)).refresh id).Layered := by
  have same : vars.SameStamps ((vars.redefine id (.projected changed type)).refresh id) :=
    SameStamps.threads.trans _ _ _ (sameStamps_redefine found (by rw [projects]; rfl))
      (rewrites_refresh _ id).stamps
  intro other new present dep depends
  rw [get?_refresh, get?_redefine_of_get? found] at present
  split at present
  · obtain rfl := Option.some.inj present
    exact (within dep depends).stamps same
  · exact (layered present dep depends).stamps same

/-- A variable that nothing depends on may be removed. -/
theorem Layered.remove (layered : vars.Layered) (unmentioned : vars.Unmentioned id)
    : (vars.remove id).Layered := by
  intro other var found dep depends
  rw [get?_remove] at found
  split at found
  · cases found
  · obtain ⟨before, present, earlier⟩ := layered found dep depends
    have different : dep ≠ id := by
      rintro rfl
      exact unmentioned other var found depends
    exact ⟨before, by rwa [get?_remove, if_neg different], earlier⟩

theorem Upto.remove (upto : vars.Upto scope other) (different : other ≠ id)
    : (vars.remove id).Upto scope other := by
  obtain ⟨var, found, within⟩ := upto
  exact ⟨var, by rwa [get?_remove, if_neg different], within⟩

theorem Before.remove (before : vars.Before scope other) (different : other ≠ id)
    : (vars.remove id).Before scope other := by
  obtain ⟨var, found, earlier⟩ := before
  exact ⟨var, by rwa [get?_remove, if_neg different], earlier⟩

theorem IsElement.remove (isElement : vars.IsElement other) (different : other ≠ id)
    : (vars.remove id).IsElement other := by
  obtain ⟨definition, found, isElement⟩ := isElement
  exact ⟨definition, by rwa [definition?_remove, if_neg different], isElement⟩

end VarTable

/-- The expressions of a scope refer to variables that its own expressions and its sort keys may
refer to.
-/
structure Scope.Refers (own sorting : VarId → Prop) (scope : Scope) : Prop where
  items : ∀ expr column, .unnamed expr column ∈ scope.items → expr.Within own
  orderBy : ∀ key ∈ scope.orderBy, key.expr.Within sorting
  skip : ∀ expr, scope.skip = some expr → expr.Within own
  limit : ∀ expr, scope.limit = some expr → expr.Within own
  conditions : ∀ expr ∈ scope.select.conditions, expr.Within own
  clauses : ∀ clause ∈ scope.clauses, ∀ expr, clause.condition = some expr → expr.Within own
  pending : ∀ item ∈ scope.select.items, ∀ expr ∈ item.pending, expr.Within own
  joins : ∀ join ∈ scope.select.joins, join.condition.Within own

/-- A source supplies a variable of a table, or variables of a subquery of an earlier scope. -/
def FromItem.Layered (vars : VarTable) (scope : Nat) (item : FromItem) : Prop :=
  ∀ id ∈ item.ids,
    match item.source with
    | none => vars.IsElement id ∧ vars.Upto scope id
    | some source => source < scope ∧ vars.Upto source id

/-- A scope refers to what it may, projects variables of its own and reads what there is. -/
structure Scope.Layered (vars : VarTable) (scope : Scope) : Prop where
  refers : scope.Refers (vars.Before scope.index) (vars.Upto scope.index)
  items : ∀ item ∈ scope.items, item.Declares vars scope.index
  clauses
    : ∀ clause ∈ scope.clauses,
        ∀ id, id ∈ clause.ids ∨ id ∈ clause.relationships → vars.IsElement id
  sources : ∀ item ∈ scope.select.items, item.Layered vars scope.index

/-- A source supplies what it may, and the conditions that wait with it refer to what is declared
before the projection.
-/
structure FromItem.Fits (vars : VarTable) (scope : Nat) (item : FromItem) : Prop where
  layered : item.Layered vars scope
  pending : ∀ expr ∈ item.pending, expr.Within (vars.Before scope)

/-- The sources of a layered scope fit. -/
theorem Scope.Layered.fits {vars : VarTable} {scope : Scope} (layered : scope.Layered vars)
    : ∀ item ∈ scope.select.items, item.Fits vars scope.index :=
  fun item listed => ⟨layered.sources item listed, layered.refers.pending item listed⟩

/-- All scopes of a tree refer to what they may, and no subquery exports what a later scope
declares.
-/
structure Tree.Layered (vars : VarTable) (tree : Tree) : Prop where
  scopes : ∀ scope ∈ tree.scopes, scope.Layered vars
  exports
    : ∀ subquery ∈ tree.subqueries,
        ∀ exported ∈ subquery.exports, vars.Upto subquery.scope.index exported.id

/-- The variables and scopes of a draft are layered. -/
structure Draft.Layered (draft : Draft) : Prop where
  vars : draft.vars.Layered
  tree : draft.tree.Layered draft.vars

section Grow

variable {vars later : VarTable} {scope : Scope} {own sorting ownLater sortingLater : VarId → Prop}

theorem Expr.Within.mono {allowed weaker : VarId → Prop} {expr : Expr}
    (within : expr.Within allowed)
    (weaken : ∀ id, allowed id → weaker id)
    : expr.Within weaker :=
  fun id refers => weaken id (within id refers)

theorem Scope.Refers.mono (refers : scope.Refers own sorting)
    (weakenOwn : ∀ id, own id → ownLater id)
    (weakenSorting : ∀ id, sorting id → sortingLater id)
    : scope.Refers ownLater sortingLater where
  items := fun expr column listed => (refers.items expr column listed).mono weakenOwn
  orderBy := fun key listed => (refers.orderBy key listed).mono weakenSorting
  skip := fun expr found => (refers.skip expr found).mono weakenOwn
  limit := fun expr found => (refers.limit expr found).mono weakenOwn
  conditions := fun expr listed => (refers.conditions expr listed).mono weakenOwn
  clauses := fun clause listed expr found =>
    (refers.clauses clause listed expr found).mono weakenOwn
  pending := fun item listed expr waits => (refers.pending item listed expr waits).mono weakenOwn
  joins := fun join listed => (refers.joins join listed).mono weakenOwn

/-- Every expression of a scope refers to what its sort keys may refer to. -/
theorem Scope.Refers.expressions (refers : scope.Refers own sorting)
    (weaken : ∀ id, own id → sorting id) {expr : Expr} (listed : expr ∈ scope.expressions)
    : expr.Within sorting := by
  have widen {expr : Expr} (within : expr.Within own) : expr.Within sorting := within.mono weaken
  simp only [Scope.expressions, List.mem_append, List.mem_filterMap, List.mem_map,
    Option.mem_toList, List.mem_flatMap] at listed
  rcases listed with
    ((((((⟨item, listed, found⟩ | ⟨key, listed, rfl⟩) | found) | found) | listed)
      | ⟨clause, listed, found⟩) | ⟨item, listed, waits⟩) | ⟨join, listed, rfl⟩
  · cases item with
    | named id => simp at found
    | unnamed own column =>
        obtain rfl : own = expr := by simpa using found
        exact widen (refers.items own column listed)
  · exact refers.orderBy key listed
  · exact widen (refers.skip expr found)
  · exact widen (refers.limit expr found)
  · exact widen (refers.conditions expr listed)
  · exact widen (refers.clauses clause listed expr found)
  · exact widen (refers.pending item listed expr waits)
  · exact widen (refers.joins join listed)

variable (grows : vars.GrowsTo later)

include grows

theorem Item.Declares.grow {index : Nat} {item : Item} (declares : item.Declares vars index)
    : item.Declares later index := by
  cases item with
  | named id =>
      obtain ⟨var, expr, type, found, here, definition⟩ := declares
      obtain ⟨other, found', scope, outline, -⟩ := grows.kept found
      rw [definition] at outline
      cases kind : other.definition <;> simp [kind, Definition.outline] at outline
      exact ⟨other, _, _, found', scope.trans here, kind⟩
  | unnamed expr column =>
      obtain ⟨name, temporary⟩ := declares
      obtain ⟨var, found, definition⟩ := VarTable.definition?_eq_some.mp temporary
      obtain ⟨other, found', -, outline, -⟩ := grows.kept found
      rw [definition] at outline
      cases kind : other.definition <;> simp [kind, Definition.outline] at outline
      exact ⟨_, VarTable.definition?_eq_some.mpr ⟨other, found', kind⟩⟩

theorem FromItem.Layered.grow {index : Nat} {item : FromItem} (layered : item.Layered vars index)
    : item.Layered later index := by
  intro id supplied
  have held := layered id supplied
  split at held
  · exact held.imp (VarTable.IsElement.grow grows) (VarTable.Upto.grow grows)
  · exact held.imp_right (VarTable.Upto.grow grows)

/-- A scope refers to what it may while more is found out about the variables. -/
theorem Scope.Layered.grow (layered : scope.Layered vars) : scope.Layered later where
  refers := layered.refers.mono (fun _ => VarTable.Before.grow grows) fun _ =>
    VarTable.Upto.grow grows
  items := fun item listed => (layered.items item listed).grow grows
  clauses := fun clause listed id declared =>
    (layered.clauses clause listed id declared).grow grows
  sources := fun item listed => (layered.sources item listed).grow grows

end Grow

section Stamps

variable {vars later : VarTable} (same : vars.SameStamps later)

include same

theorem FromItem.Layered.stamps {index : Nat} {item : FromItem} (layered : item.Layered vars index)
    : item.Layered later index := by
  intro id supplied
  have held := layered id supplied
  split at held
  · exact held.imp same.isElement.mpr (VarTable.Upto.stamps same)
  · exact held.imp_right (VarTable.Upto.stamps same)

/-- A scope refers to what it may whatever variables project. -/
theorem Scope.Layered.stamps {scope : Scope} (layered : scope.Layered vars)
    : scope.Layered later where
  refers := layered.refers.mono (fun _ => VarTable.Before.stamps same)
    fun _ => VarTable.Upto.stamps same
  items := fun item listed => same.declares (layered.items item listed)
  clauses := fun clause listed id declared =>
    same.isElement.mpr (layered.clauses clause listed id declared)
  sources := fun item listed => (layered.sources item listed).stamps same

theorem Tree.Layered.stamps {tree : Tree} (layered : tree.Layered vars) : tree.Layered later where
  scopes := fun scope member => (layered.scopes scope member).stamps same
  exports := fun subquery member exported listed =>
    (layered.exports subquery member exported listed).stamps same

end Stamps

section Scopes

variable {m : Type → Type} [Monad m] [LawfulMonad m] {modality : Modality m} {vars : VarTable}
  {scope : Scope} {index : Nat}

/-- Rewriting a source refers to what its conditions may refer to. -/
theorem FromItem.Fits.mapExprsM {f : Expr → m Expr} {item : FromItem} (fits : item.Fits vars index)
    (own
      : ∀ expr,
          expr.Within (vars.Before index)
          → modality.Holds (Expr.Within (vars.Before index)) (f expr))
    : modality.Holds (FromItem.Fits vars index) (item.mapExprsM f) :=
  modality.bind (modality.mapM_all fun expr waits => own expr (fits.pending expr waits))
    fun _ within => modality.pure ⟨fits.layered, within⟩

/-- Rewriting the expressions of a scope keeps it layered. -/
theorem Scope.Layered.mapExprsM {f : Site → Expr → m Expr} (layered : scope.Layered vars)
    (own
      : ∀ site expr,
          expr.Within (vars.Before scope.index)
          → modality.Holds (Expr.Within (vars.Before scope.index)) (f site expr))
    (sorting
      : ∀ site expr,
          expr.Within (vars.Upto scope.index)
          → modality.Holds (Expr.Within (vars.Upto scope.index)) (f site expr))
    : modality.Holds (fun later => later.index = scope.index ∧ later.Layered vars)
        (scope.mapExprsM f) := by
  have items (site : Site) : modality.Holds
      (fun items => ∀ item ∈ items,
        (∀ expr column, item = .unnamed expr column → expr.Within (vars.Before scope.index))
        ∧ item.Declares vars scope.index)
      (scope.items.mapM (·.mapExprsM (f site))) := by
    refine modality.mapM_all fun item listed => ?_
    have declares := layered.items item listed
    cases item with
    | named id => exact modality.pure ⟨nofun, declares⟩
    | unnamed expr column =>
        refine modality.bind (own site expr (layered.refers.items expr column listed)) ?_
        refine fun changed within => modality.pure ⟨?_, declares⟩
        rintro _ _ ⟨⟩
        exact within
  have orderBy (site : Site) : modality.Holds
      (fun keys => ∀ key ∈ keys, key.expr.Within (vars.Upto scope.index))
      (scope.orderBy.mapM fun key => do
        let expr ← f site key.expr
        pure { key with expr }) :=
    modality.mapM_all fun key listed =>
      modality.bind (sorting site key.expr (layered.refers.orderBy key listed)) fun _ within =>
        modality.pure within
  have clauses (site : Site) : modality.Holds
      (fun clauses => ∀ clause ∈ clauses,
        (∀ expr, clause.condition = some expr → expr.Within (vars.Before scope.index))
        ∧ ∀ id, id ∈ clause.ids ∨ id ∈ clause.relationships → vars.IsElement id)
      (scope.clauses.mapM fun clause => do
        let condition ← clause.condition.mapM (f site)
        pure { clause with condition }) :=
    modality.mapM_all fun clause listed =>
      modality.bind (modality.optionMapM clause.condition fun expr found =>
          own site expr (layered.refers.clauses clause listed expr found))
        fun _ within => modality.pure ⟨within, layered.clauses clause listed⟩
  have fromItems (site : Site) : modality.Holds
      (fun items => ∀ item ∈ items, item.Fits vars scope.index)
      (scope.select.fromItems.mapM (·.mapExprsM (f site))) :=
    modality.mapM_all fun item listed =>
      (layered.fits item (List.mem_append_left _ listed)).mapExprsM (own site)
  have joins (site : Site) : modality.Holds
      (fun joins => ∀ join ∈ joins,
        join.condition.Within (vars.Before scope.index) ∧ join.item.Fits vars scope.index)
      (scope.select.joins.mapM (·.mapExprsM (f site))) :=
    modality.mapM_all fun join listed =>
      modality.bind (own site join.condition (layered.refers.joins join listed)) fun _ within =>
        modality.bind ((layered.fits join.item
            (List.mem_append_right _ (List.mem_map_of_mem listed))).mapExprsM (own site))
          fun _ fits => modality.pure ⟨within, fits⟩
  -- The parts are rewritten one after the other, in the order of the definition.
  unfold Scope.mapExprsM
  refine modality.bind (items _) fun items declare => ?_
  refine modality.bind (orderBy _) fun orderBy sorted => ?_
  refine modality.bind (modality.optionMapM scope.skip fun expr found =>
    own _ expr (layered.refers.skip expr found)) fun skip withinSkip => ?_
  refine modality.bind (modality.optionMapM scope.limit fun expr found =>
    own _ expr (layered.refers.limit expr found)) fun limit withinLimit => ?_
  refine modality.bind (modality.mapM_all fun expr listed =>
    own _ expr (layered.refers.conditions expr listed)) fun conditions withinConditions => ?_
  refine modality.bind (clauses _) fun clauses declared => ?_
  refine modality.bind (fromItems _) fun fromItems fit => ?_
  refine modality.bind (joins _) fun joins joined => ?_
  have allFit : ∀ item ∈ fromItems ++ joins.map (·.item), item.Fits vars scope.index :=
    List.forall_mem_append.mpr
      ⟨fit, List.forall_mem_map.mpr fun join listed => (joined join listed).2⟩
  exact modality.pure ⟨rfl, {
    refers := {
      items := fun expr column listed => (declare _ listed).1 expr column rfl
      orderBy := sorted
      skip := withinSkip
      limit := withinLimit
      conditions := withinConditions
      clauses := fun clause listed => (declared clause listed).1
      pending := fun item listed => (allFit item listed).pending
      joins := fun join listed => (joined join listed).1
    }
    items := fun item listed => (declare item listed).2
    clauses := fun clause listed => (declared clause listed).2
    sources := fun item listed => (allFit item listed).layered
  }⟩

end Scopes

section Drafts

variable {m : Type → Type} [Monad m] [LawfulMonad m] {modality : Modality m}
  {f : VarTable → Site → Expr → m Expr} {declared : List VarId}

/-- Replacing what variables project keeps them layered, by induction over the variables. -/
theorem VarTable.Layered.mapProjectionsM (within : RewritesWithin modality f)
    (names : RewritesNames modality f) (ids : List VarId) {start vars : VarTable}
    (layered : vars.Layered) (coherent : vars.Coherent declared) (same : start.SameStamps vars)
    : modality.Holds (fun later => later.Layered ∧ start.SameStamps later)
        (mapProjectionsM f ids vars) := by
  induction ids generalizing vars with
  | nil => exact modality.pure ⟨layered, same⟩
  | cons id rest ih =>
      unfold Plan.mapProjectionsM
      split
      · rename_i name other scope expr type found
        obtain ⟨order, -, ordered⟩ := coherent.inOrder
        have earlier : expr.Within (vars.Before scope) := layered found
        have rewritten := modality.and (within.coherent names coherent found rfl ⟨scope, false⟩)
          (within ⟨scope, false⟩ expr ordered (layered.closed_before scope) earlier)
        refine modality.bind rewritten fun changed ⟨keeps, before⟩ => ?_
        split
        · exact ih layered coherent same
        · rename_i different
          have redefined : vars.SameStamps (vars.redefine id (.projected changed type)) :=
            VarTable.sameStamps_redefine found rfl
          have stamps := VarTable.SameStamps.threads.trans _ _ _ redefined
            (VarTable.rewrites_refresh _ id).stamps
          exact ih (layered.project found rfl before) (keeps different)
            (VarTable.SameStamps.threads.trans _ _ _ same stamps)
      · exact ih layered coherent same

/-- Rewriting all expressions keeps a draft layered. -/
theorem Draft.Layered.mapExprsM (within : RewritesWithin modality f)
    (names : RewritesNames modality f) {draft : Draft} (layered : draft.Layered)
    (coherent : draft.vars.Coherent declared)
    : modality.Holds Draft.Layered (draft.mapExprsM f) := by
  obtain ⟨order, -, ordered⟩ := coherent.inOrder
  have scopes : modality.Holds
      (draft.tree.Maps fun old new => new.index = old.index ∧ new.Layered draft.vars)
      (draft.tree.mapScopesM (·.mapExprsM (f draft.vars))) := by
    refine Tree.mapScopesM_holds modality fun scope member => ?_
    refine (layered.tree.scopes scope member).mapExprsM ?_ ?_
    · exact fun site expr => within site expr ordered (layered.vars.closed_before scope.index)
    · exact fun site expr => within site expr ordered (layered.vars.closed_upto scope.index)
  unfold Draft.mapExprsM
  refine modality.bind scopes fun tree maps => ?_
  have rewritten := layered.vars.mapProjectionsM within names draft.vars.ids coherent
    (VarTable.SameStamps.threads.refl _)
  refine modality.bind rewritten fun vars ⟨layeredVars, same⟩ => modality.pure ⟨layeredVars, ?_⟩
  refine Tree.Layered.stamps same
    ⟨fun scope member => ?_, fun subquery member exported listed => ?_⟩
  · obtain ⟨old, -, -, changed⟩ := maps.of_mem member
    exact changed
  · obtain ⟨position, at'⟩ := List.getElem?_of_mem member
    obtain ⟨old, present, changed⟩ := maps.getElem? at'
    rw [changed.exports] at listed
    rw [changed.scope.1]
    exact layered.tree.exports old (List.mem_of_getElem? present) exported listed

end Drafts

end CypherSql.Plan
