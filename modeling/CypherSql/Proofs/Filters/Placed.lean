import CypherSql.Proofs.Filters.Moved

/-! The conditions that wait with the items of a select end up in its joins: each is checked by one
outer join of its own clause, and by no other.
-/

namespace CypherSql.Plan

/-- The items are the same but for the table. -/
def FromItem.Retables (item later : FromItem) : Prop :=
  ∃ table, later = { item with table }

theorem resolveItem_retables {catalog : Catalog} {item : FromItem} {vars : VarTable}
    {result : FromItem × VarTable} (succeeded : resolveItem catalog item vars = .ok result)
    : item.Retables result.1 := by
  unfold resolveItem at succeeded
  split at succeeded
  · obtain ⟨found, -, succeeded⟩ := bind_eq_ok.mp succeeded
    cases found with
    | none =>
        obtain rfl := Except.ok.inj succeeded
        exact ⟨item.table, rfl⟩
    | some binding =>
        obtain rfl := Except.ok.inj succeeded
        exact ⟨_, rfl⟩
  · obtain rfl := Except.ok.inj succeeded
    exact ⟨item.table, rfl⟩

theorem narrowItem_retables {catalog : Catalog} {relationships : List VarId} {item : FromItem}
    {vars : VarTable} {result : FromItem × VarTable}
    (succeeded : narrowItem catalog relationships item vars = .ok result)
    : item.Retables result.1 := by
  unfold narrowItem at succeeded
  split at succeeded
  · split at succeeded
    · dsimp only at succeeded
      split at succeeded
      · obtain rfl := Except.ok.inj succeeded
        exact ⟨_, rfl⟩
      · cases succeeded
    · obtain rfl := Except.ok.inj succeeded
      exact ⟨item.table, rfl⟩
  · obtain rfl := Except.ok.inj succeeded
    exact ⟨item.table, rfl⟩

/-- Items of which each may get another table stay the same otherwise. -/
theorem eachItem_retables
    {f : FromItem → VarTable → Except LoweringError (FromItem × VarTable)}
    (each : ∀ item vars result, f item vars = .ok result → item.Retables result.1)
    {items : List FromItem} {vars : VarTable} {result : List FromItem × VarTable}
    (succeeded : eachItem f items vars = .ok result)
    : List.Forall₂ FromItem.Retables items result.1 := by
  rw [eachItem_eq] at succeeded
  have changed := @mapM_run_ok _ _ (fun _ _ => True) FromItem.Retables _
    (fun item _ vars result _ changed => ⟨each item vars result changed, trivial⟩)
    items vars trivial
    result succeeded
  exact changed.1

/-- Items keep their pending conditions and their clauses while they get their tables. -/
theorem ScopeModel.Routes.retable {vars : VarTable} {model : ScopeModel} {scope later : Scope}
    (routes : model.Routes vars scope)
    (conditions : later.select.conditions = scope.select.conditions)
    (clauses : later.clauses = scope.clauses)
    (items : List.Forall₂ FromItem.Retables scope.select.fromItems later.select.fromItems)
    : model.Routes vars later := by
  obtain ⟨sameConditions, pending, numbered, cleared⟩ := routes
  refine ⟨conditions ▸ sameConditions, ?_, ?_, clauses ▸ cleared⟩
  · have same (position : Nat)
        : pendingAt later.select.fromItems position
          = pendingAt scope.select.fromItems position := by
      generalize scope.select.fromItems = before at items
      generalize later.select.fromItems = after at items
      induction items with
      | nil => rfl
      | cons first _ ih =>
          obtain ⟨table, rfl⟩ := first
          simp only [pendingAt, List.filter_cons] at ih ⊢
          split <;> simp [ih]
    intro position
    rw [same]
    exact pending position
  · intro item member isOptional
    obtain ⟨position, at'⟩ := List.mem_iff_getElem?.mp member
    obtain ⟨old, present, table, rfl⟩ := forall₂_getElem?_right items at'
    exact numbered old (List.mem_of_getElem? present) isOptional

/-- The conditions of a query still wait where they did when its tables are found. -/
theorem resolveTables_routes {vars : VarTable} {models : List ScopeModel} {catalog : Catalog}
    {draft later : Draft}
    (routes : List.Forall₂ (ScopeModel.Routes vars) models draft.tree.scopes)
    (succeeded : resolveTables catalog draft = .ok later)
    : List.Forall₂ (ScopeModel.Routes vars) models later.tree.scopes := by
  have retabled : ∀ scope vars result,
      eachFromItem (resolveItem catalog) scope vars = .ok result
      → result.1.select.conditions = scope.select.conditions
        ∧ result.1.clauses = scope.clauses
        ∧ List.Forall₂ FromItem.Retables scope.select.fromItems result.1.select.fromItems := by
    intro scope vars result succeeded
    obtain ⟨⟨items, last⟩, resolved, same⟩ := bind_eq_ok.mp succeeded
    obtain rfl := Except.ok.inj same
    exact ⟨rfl, rfl, eachItem_retables (fun _ _ _ => resolveItem_retables) resolved⟩
  obtain ⟨changed, -⟩ := Draft.eachScope_ok (fun _ _ => True)
    (fun old new => ∀ model : ScopeModel, model.Routes vars old → model.Routes vars new) succeeded
    trivial fun scope _ vars result _ succeeded => by
      obtain ⟨conditions, clauses, items⟩ := retabled scope vars result succeeded
      exact ⟨fun model routes => routes.retable conditions clauses items, trivial⟩
  exact forall₂_comp routes changed fun model old new routes kept => kept model routes

/-- What a join checks besides the conditions of relationships. A join without any condition is
true.
-/
def Join.Checks (join : Join) (filters : List Expr) : Prop :=
  join.condition.conjuncts.filter (!·.readsColumn) = filters
  ∨ filters = [] ∧ join.condition = .literal (.boolean true)

/-- What the joins of a clause check, of joins with their filters. -/
def filtersAt (entries : List (Join × List Expr)) (position : Nat) : List Expr :=
  (entries.filter (·.1.item.clause = some position)).flatMap (·.2)

theorem filtersAt_append (first second : List (Join × List Expr)) (position : Nat)
    : filtersAt (first ++ second) position
      = filtersAt first position ++ filtersAt second position := by
  simp [filtersAt]

namespace Layout

variable {vars : VarTable} {edges : List Edge} {layout later : Layout}

/-- The conditions of relationships are no filters. -/
theorem filter_edgeConditions (layout : Layout) (edges : List Edge) (item : FromItem)
    : ((layout.edgeConditions edges item).flatMap Expr.conjuncts).filter (!·.readsColumn) = [] := by
  rw [List.filter_eq_nil_iff]
  intro part member
  obtain ⟨condition, listed, inside⟩ := List.mem_flatMap.mp member
  obtain ⟨edge, -, isCondition⟩ := List.mem_flatMap.mp listed
  have isCondition := Edge.isCondition_of_mem isCondition
  rw [isCondition.single, List.mem_singleton] at inside
  simp [inside, isCondition.readsColumn]

/-- The join of an item on the conditions of its relationships and others. -/
def joinOn (layout : Layout) (edges : List Edge) (outer : Bool) (item : FromItem)
    (filters : List Expr)
    : Join :=
  { outer, item,
    condition := (Expr.conjoin (layout.edgeConditions edges item ++ filters)).getD
      (.literal (.boolean true)) }

/-- Conditions that are joined to those of relationships are what the join checks. -/
theorem checks_joinOn (layout : Layout) (edges : List Edge) (outer : Bool) (item : FromItem)
    {filters : List Expr} (all : ∀ filter ∈ filters, filter.IsFilter)
    : (layout.joinOn edges outer item filters).Checks filters := by
  unfold joinOn
  cases joined : Expr.conjoin (layout.edgeConditions edges item ++ filters) with
  | none =>
      cases filters with
      | nil => exact .inr ⟨rfl, rfl⟩
      | cons first rest =>
          cases own : layout.edgeConditions edges item <;> simp [own, Expr.conjoin] at joined
  | some condition =>
      refine .inl ?_
      have single : ∀ filter ∈ filters, filter.conjuncts = [filter] :=
        fun filter member => (all filter member).single
      rw [Option.getD_some, Expr.conjuncts_of_conjoin joined, List.flatMap_append,
        List.filter_append, filter_edgeConditions, Expr.flatMap_conjuncts_of_single single,
        List.nil_append, List.filter_eq_self]
      intro filter member
      simp [(all filter member).written]

/-- The join that a required item may be placed in checks nothing but relationships. -/
theorem placeRequired_checks (layout : Layout) (edges : List Edge) (item : FromItem)
    : ∃ added,
        (layout.placeRequired edges item).joins = layout.joins ++ added
        ∧ ∀ join ∈ added, join.Checks [] := by
  unfold placeRequired
  cases joined : Expr.conjoin (layout.edgeConditions edges item) with
  | none => exact ⟨[], by simp [mark], by simp⟩
  | some condition =>
      dsimp only
      split
      · exact ⟨[], by simp [mark], by simp⟩
      · refine ⟨[⟨false, item, condition⟩], rfl, fun join member => ?_⟩
        obtain rfl := List.mem_singleton.mp member
        have checks : (layout.joinOn edges false item []).Checks [] :=
          checks_joinOn layout edges false item (by simp)
        rwa [joinOn, List.append_nil, joined] at checks

/-- Required items bring no filters: only those without pending conditions are placed, and the joins
they are placed in check nothing but relationships. The induction is over their number.
-/
theorem placeAllRequired_checks {count : Nat} {waiting : List FromItem}
    (enough : waiting.length = count)
    (placed : placeAllRequired edges count layout waiting = .ok later)
    : (∀ item ∈ waiting, item.pending = [])
      ∧ ∃ added, later.joins = layout.joins ++ added ∧ ∀ join ∈ added, join.Checks [] := by
  induction count generalizing layout waiting with
  | zero =>
      obtain rfl := List.length_eq_zero_iff.mp enough
      obtain rfl := Except.ok.inj placed
      exact ⟨by simp, [], by simp, by simp⟩
  | succ count ih =>
      have some' : waiting ≠ [] := List.ne_nil_of_length_eq_add_one enough
      obtain ⟨index, within, chosen⟩ : ∃ index,
          index < waiting.length
          ∧ (if layout.isEmpty then 0 else layout.nextIndex edges waiting) = index := by
        refine ⟨_, ?_, rfl⟩
        split
        · exact List.length_pos_iff.mpr some'
        · exact nextIndex_lt layout edges some'
      unfold placeAllRequired at placed
      simp only [chosen, List.getElem?_eq_getElem within] at placed
      split at placed
      · rename_i empty
        have length : (waiting.eraseIdx index).length = count := by
          rw [List.length_eraseIdx_of_lt within, enough]
          rfl
        obtain ⟨others, more, joins, checks⟩ := ih length placed
        obtain ⟨own, ownJoins, ownChecks⟩ := placeRequired_checks layout edges waiting[index]
        refine ⟨fun item member => ?_, own ++ more, ?_,
          List.forall_mem_append.mpr ⟨ownChecks, checks⟩⟩
        · have perm := List.getElem_cons_eraseIdx_perm within
          rcases List.mem_cons.mp (perm.mem_iff.mpr member) with rfl | rest
          · exact List.isEmpty_iff.mp empty
          · exact others item rest
        · rw [joins, ownJoins, List.append_assoc]
      · cases placed

/-- Joins that are added for the items of an optional clause, each with what it checks. -/
structure Adds (layout later : Layout) (items : List FromItem) (added : List (Join × List Expr))
    : Prop where
  joins : later.joins = layout.joins ++ added.map (·.1)
  outer : ∀ entry ∈ added, entry.1.outer = true
  items : ∀ entry ∈ added, entry.1.item ∈ items
  checks : ∀ entry ∈ added, entry.1.Checks entry.2

/-- The conditions of an optional clause are spread over the joins of its items, by induction over
their number.
-/
theorem placeAllOptional_adds {count : Nat} {waiting : List FromItem} {unplaced : NameSet}
    {conditions : List Expr} (enough : waiting.length = count)
    (all : ∀ condition ∈ conditions, condition.IsFilter)
    : ∃ added,
        layout.Adds (placeAllOptional edges vars count layout waiting unplaced conditions)
          waiting added
        ∧ (waiting ≠ [] → (added.flatMap (·.2)).Perm conditions) := by
  induction count generalizing layout waiting unplaced conditions with
  | zero =>
      obtain rfl := List.length_eq_zero_iff.mp enough
      exact ⟨[], ⟨by simp [placeAllOptional], by simp, by simp, by simp⟩, by simp⟩
  | succ count ih =>
      have some' : waiting ≠ [] := List.ne_nil_of_length_eq_add_one enough
      have within := nextIndex_lt layout edges some'
      have found := List.getElem?_eq_getElem within
      have perm := List.getElem_cons_eraseIdx_perm within
      unfold placeAllOptional
      simp only [found, List.partition_eq_filter_filter]
      -- Which item comes next does not matter here, only that it is one of those that wait.
      generalize waiting[layout.nextIndex edges waiting] = item at found perm
      generalize waiting.eraseIdx (layout.nextIndex edges waiting) = rest at perm
      have length : rest.length = count := by
        have length := perm.length_eq
        simp only [List.length_cons, enough] at length
        omega
      generalize (layout.mark item).canCheck vars (item.ids.foldl NameSet.erase unplaced) = canCheck
      have parts
          : (conditions.filter canCheck ++ conditions.filter (not ∘ canCheck)).Perm conditions :=
        List.filter_append_perm canCheck conditions
      -- Nor does it matter which conditions can be checked, as the others are passed on.
      generalize conditions.filter canCheck = ready at parts
      generalize conditions.filter (not ∘ canCheck) = left at parts
      have filters : ∀ condition ∈ ready ++ left, condition.IsFilter :=
        fun condition member => all condition (parts.mem_iff.mp member)
      generalize same : (if rest.isEmpty then ready ++ left else ready) = own
      have ownFilters : ∀ condition ∈ own, condition.IsFilter := by
        intro condition member
        apply filters
        rw [← same] at member
        split at member
        · exact member
        · exact List.mem_append_left _ member
      obtain ⟨added, adds, spread⟩ := @ih
        { layout.mark item with joins := layout.joins ++ [layout.joinOn edges true item own] } rest
        (item.ids.foldl NameSet.erase unplaced) left length
        fun condition member => filters condition (List.mem_append_right _ member)
      refine ⟨(layout.joinOn edges true item own, own) :: added, ⟨?_, ?_, ?_, ?_⟩, fun _ => ?_⟩
      · refine adds.joins.trans ?_
        simp
      · exact List.forall_mem_cons.mpr ⟨rfl, adds.outer⟩
      · have first : item ∈ waiting := perm.mem_iff.mp (by simp)
        refine List.forall_mem_cons.mpr ⟨first, fun entry member => ?_⟩
        exact perm.mem_iff.mp (List.mem_cons_of_mem _ (adds.items entry member))
      · exact List.forall_mem_cons.mpr
          ⟨checks_joinOn layout edges true item ownFilters, adds.checks⟩
      · rw [List.flatMap_cons]
        cases rest with
        | nil =>
            -- The last item takes all that is left, and nothing is added after it.
            have last : added = [] :=
              List.eq_nil_iff_forall_not_mem.mpr fun entry member =>
                List.not_mem_nil (adds.items entry member)
            subst same last
            simpa using parts
        | cons next others =>
            subst same
            exact ((spread (by simp)).append_left ready).trans parts

/-- The conditions that wait with the items of a clause are spread over its joins. -/
theorem placeOptional_adds {items : List FromItem} {clause : Nat}
    (inClause : ∀ item ∈ items, item.clause = some clause)
    (all : ∀ item ∈ items, ∀ condition ∈ item.pending, condition.IsFilter)
    (placed : layout.placeOptional edges vars items = .ok later)
    : ∃ added,
        layout.Adds later (items.map FromItem.cleared) added
        ∧ ∀ position, (filtersAt added position).Perm (pendingAt items position) := by
  unfold placeOptional at placed
  split at placed
  · cases placed
  · obtain rfl := Except.ok.inj placed
    have filters : ∀ condition ∈ items.flatMap (·.pending), condition.IsFilter := by
      intro condition member
      obtain ⟨item, listed, pending⟩ := List.mem_flatMap.mp member
      exact all item listed condition pending
    obtain ⟨added, adds, spread⟩ := placeAllOptional_adds (List.length_map FromItem.cleared) filters
    refine ⟨added, adds, fun position => ?_⟩
    have spread : (added.flatMap (·.2)).Perm (items.flatMap (·.pending)) := by
      cases items with
      | nil =>
          have none : added = [] :=
            List.eq_nil_iff_forall_not_mem.mpr fun entry member =>
              List.not_mem_nil (adds.items entry member)
          rw [none]
          exact .refl _
      | cons first rest => exact spread (by simp)
    have ofClause : ∀ entry ∈ added, entry.1.item.clause = some clause := by
      intro entry member
      obtain ⟨item, listed, same⟩ := List.mem_map.mp (adds.items entry member)
      rw [← same]
      exact inClause item listed
    by_cases here : clause = position
    · subst here
      have allAdded : added.filter (·.1.item.clause = some clause) = added :=
        List.filter_eq_self.mpr fun entry member => by simp [ofClause entry member]
      have allItems : items.filter (·.clause = some clause) = items :=
        List.filter_eq_self.mpr fun item member => by simp [inClause item member]
      rwa [filtersAt, allAdded, pendingAt, allItems]
    · have noneAdded : added.filter (·.1.item.clause = some position) = [] :=
        List.filter_eq_nil_iff.mpr fun entry member => by simp [ofClause entry member, here]
      have noItems : items.filter (·.clause = some position) = [] :=
        List.filter_eq_nil_iff.mpr fun item member => by simp [inClause item member, here]
      rw [filtersAt, noneAdded, pendingAt, noItems]
      exact .refl _

/-- The conditions that wait with the items of several clauses are spread over their joins, by
induction over the clauses.
-/
theorem placeGroups_adds {groups : List (List FromItem)}
    (inClause : ∀ items ∈ groups, ∃ clause, ∀ item ∈ items, item.clause = some clause)
    (all : ∀ items ∈ groups, ∀ item ∈ items, ∀ condition ∈ item.pending, condition.IsFilter)
    (placed
      : groups.foldlM (fun layout items => layout.placeOptional edges vars items) layout
        = .ok later)
    : ∃ added,
        later.joins = layout.joins ++ added.map (·.1)
        ∧ (∀ entry ∈ added, entry.1.outer = true ∧ entry.1.item.clause.isSome)
        ∧ (∀ entry ∈ added, entry.1.Checks entry.2)
        ∧ ∀ position, (filtersAt added position).Perm (pendingAt groups.flatten position) := by
  induction groups generalizing layout with
  | nil =>
      obtain rfl := Except.ok.inj placed
      exact ⟨[], by simp, by simp, by simp, fun _ => .refl _⟩
  | cons items rest ih =>
      rw [List.foldlM_cons] at placed
      obtain ⟨middle, first, others⟩ := bind_eq_ok.mp placed
      obtain ⟨clause, ofClause⟩ := inClause items (by simp)
      obtain ⟨own, adds, ownPerm⟩ := placeOptional_adds ofClause (all items (by simp)) first
      obtain ⟨more, joins, outer, checks, perm⟩ :=
        ih (fun items member => inClause items (by simp [member]))
          (fun items member => all items (by simp [member])) others
      have ownOuter : ∀ entry ∈ own, entry.1.outer = true ∧ entry.1.item.clause.isSome := by
        intro entry member
        obtain ⟨item, listed, same⟩ := List.mem_map.mp (adds.items entry member)
        have clause : entry.1.item.clause = some clause := by
          rw [← same]
          exact ofClause item listed
        exact ⟨adds.outer entry member, by simp [clause]⟩
      refine ⟨own ++ more, ?_, List.forall_mem_append.mpr ⟨ownOuter, outer⟩,
        List.forall_mem_append.mpr ⟨adds.checks, checks⟩, fun position => ?_⟩
      · rw [joins, adds.joins, List.map_append, List.append_assoc]
      · rw [filtersAt_append, List.flatten_cons, pendingAt_append]
        exact (ownPerm position).append (perm position)

end Layout

/-- Items grouped by clauses are the same items, by induction over the number of clauses. -/
theorem flatten_clauses_perm (items : List FromItem) (count : Nat)
    : ((List.range count).map fun clause => items.filter (·.clauseNumber = clause)).flatten.Perm
        (items.filter (·.clauseNumber < count)) := by
  induction count with
  | zero => simp
  | succ count ih =>
      rw [List.range_succ, List.map_append, List.flatten_append]
      simp only [List.map_cons, List.map_nil, List.flatten_cons, List.flatten_nil, List.append_nil]
      exact (ih.append_right _).trans (filter_clause_perm items count)

theorem flatten_groupByClause_perm (items : List FromItem)
    : (groupByClause items).flatten.Perm items := by
  unfold groupByClause
  rw [List.flatten_filter_not_isEmpty]
  refine (flatten_clauses_perm items _).trans (.of_eq ?_)
  refine List.filter_eq_self.mpr fun item member => ?_
  have bounded := le_foldl_max 0 (.inr (List.mem_map_of_mem (f := (·.clauseNumber)) member))
  simpa [Nat.lt_succ_iff] using bounded

/-- The items of a group are of one clause. -/
theorem clause_of_mem_groupByClause {items group : List FromItem}
    (numbered : ∀ item ∈ items, item.clause.isSome) (member : group ∈ groupByClause items)
    : ∃ clause, ∀ item ∈ group, item ∈ items ∧ item.clause = some clause := by
  obtain ⟨clause, -, rfl⟩ := List.mem_map.mp (List.mem_filter.mp member).1
  refine ⟨clause, fun item inGroup => ?_⟩
  obtain ⟨listed, number⟩ := List.mem_filter.mp inGroup
  obtain ⟨position, inClause⟩ := Option.isSome_iff_exists.mp (numbered item listed)
  have same : position = clause := by simpa [FromItem.clauseNumber, inClause] using number
  exact ⟨listed, same ▸ inClause⟩

/-- The conditions that wait with items are checked by their joins where the items are arranged. -/
theorem arrange_checks {vars : VarTable} {items : List FromItem} {layout : Layout}
    (numbered : ∀ item ∈ items, item.optional = true → item.clause.isSome)
    (all : ∀ position, ∀ condition ∈ pendingAt items position, condition.IsFilter)
    (arranged : arrange vars items = .ok layout)
    : ∃ entries,
        layout.joins = entries.map (·.1)
        ∧ (∀ entry ∈ entries,
            entry.2 ≠ [] → entry.1.outer = true ∧ entry.1.item.clause.isSome)
        ∧ (∀ entry ∈ entries, entry.1.Checks entry.2)
        ∧ ∀ position, (filtersAt entries position).Perm (pendingAt items position) := by
  obtain ⟨edges, -, arranged⟩ := bind_eq_ok.mp arranged
  simp only [List.partition_eq_filter_filter] at arranged
  obtain ⟨middle, required, optional⟩ := bind_eq_ok.mp arranged
  obtain ⟨unpending, joins, middleJoins, inner⟩ := Layout.placeAllRequired_checks rfl required
  have optionals : items.filter (not ∘ fun item => !item.optional) = items.filter (·.optional) := by
    simp [Function.comp_def]
  rw [optionals] at optional
  have clauses : ∀ item ∈ items.filter (·.optional), item.clause.isSome := by
    intro item member
    obtain ⟨listed, isOptional⟩ := List.mem_filter.mp member
    exact numbered item listed isOptional
  obtain ⟨added, laterJoins, outer, checks, perm⟩ := Layout.placeGroups_adds
    (fun group member => by
      obtain ⟨clause, own⟩ := clause_of_mem_groupByClause clauses member
      exact ⟨clause, fun item inGroup => (own item inGroup).2⟩)
    (fun group member item inGroup condition pending => by
      obtain ⟨clause, own⟩ := clause_of_mem_groupByClause clauses member
      obtain ⟨listed, inClause⟩ := own item inGroup
      refine all clause condition (List.mem_flatMap.mpr ⟨item, ?_, pending⟩)
      exact List.mem_filter.mpr ⟨(List.mem_filter.mp listed).1, by simp [inClause]⟩)
    optional
  -- No conditions wait with required items, whose joins check nothing but their equations.
  refine ⟨joins.map (·, []) ++ added, ?_, ?_, ?_, fun position => ?_⟩
  · simp [laterJoins, middleJoins, Layout.empty, Function.comp_def]
  · refine List.forall_mem_append.mpr
      ⟨fun entry member some' => ?_, fun entry member _ => outer entry member⟩
    obtain ⟨join, -, rfl⟩ := List.mem_map.mp member
    exact absurd rfl some'
  · refine List.forall_mem_append.mpr ⟨fun entry member => ?_, checks⟩
    obtain ⟨join, listed, rfl⟩ := List.mem_map.mp member
    exact inner join listed
  · have none : filtersAt (joins.map (·, [])) position = [] := by
      refine List.flatMap_eq_nil_iff.mpr fun entry member => ?_
      obtain ⟨join, -, rfl⟩ := List.mem_map.mp (List.mem_filter.mp member).1
      rfl
    have noPending : pendingAt (items.filter (!·.optional)) position = [] :=
      List.flatMap_eq_nil_iff.mpr fun item member => unpending item (List.mem_filter.mp member).1
    have parts : (items.filter (!·.optional) ++ items.filter (·.optional)).Perm items := by
      have parts := List.filter_append_perm (fun item : FromItem => !item.optional) items
      simpa only [Bool.not_not] using parts
    have grouped := pendingAt_perm (flatten_groupByClause_perm (items.filter (·.optional))) position
    rw [filtersAt_append, none, List.nil_append]
    refine (perm position).trans (grouped.trans ?_)
    have whole := pendingAt_perm parts position
    rwa [pendingAt_append, noPending] at whole

end CypherSql.Plan
