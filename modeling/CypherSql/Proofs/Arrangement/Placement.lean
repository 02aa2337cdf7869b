import CypherSql.Proofs.Arrangement.Conditions

/-! The placement of all items of a select is a run: required items come first, and the items of
optional clauses follow in the order of the clauses. Every item is placed, and every condition with
the last of what it refers to.
-/

namespace CypherSql.Plan

/-- The item without its pending conditions. -/
def FromItem.cleared (item : FromItem) : FromItem :=
  { item with pending := [] }

/-- The edge is that of an item: the relationship of its table with the nodes at its ends. -/
def Edge.IsOf (vars : VarTable) (item : FromItem) (edge : Edge) : Prop :=
  ∃ rel,
    item.tableVar? = some edge.relationship
    ∧ vars.relationship? edge.relationship = some rel
    ∧ rel.binding = some edge.binding
    ∧ vars.resolve rel.left = edge.left
    ∧ vars.resolve rel.right = edge.right

/-- The edges of bound items are found, by induction over the items. -/
theorem edgesOf_eq_ok {vars : VarTable} {items : List FromItem}
    (bound
      : ∀ item ∈ items,
          ∀ id rel,
            item.tableVar? = some id → vars.relationship? id = some rel → rel.binding.isSome)
    : ∃ edges,
        edgesOf vars items = .ok edges
        ∧ ∀ edge, edge ∈ edges ↔ ∃ item ∈ items, edge.IsOf vars item := by
  induction items with
  | nil => exact ⟨[], rfl, by simp⟩
  | cons item rest ih =>
      obtain ⟨edges, found, same⟩ := ih fun item member => bound item (by simp [member])
      unfold edgesOf
      cases entry : item.tableVar?.bind fun id => (vars.relationship? id).map (id, ·) with
      | none =>
          refine ⟨edges, found, fun edge => ?_⟩
          have other : ¬ edge.IsOf vars item := by
            rintro ⟨rel, isTable, isRelationship, -⟩
            simp [isTable, isRelationship] at entry
          simp [same, other]
      | some pair =>
          obtain ⟨id, isTable, present⟩ := Option.bind_eq_some_iff.mp entry
          obtain ⟨rel, isRelationship, rfl⟩ := Option.map_eq_some_iff.mp present
          obtain ⟨binding, isBound⟩ :=
            Option.isSome_iff_exists.mp (bound item (by simp) id rel isTable isRelationship)
          simp only [isBound, found, Safely.ok_bind]
          refine ⟨_, rfl, fun edge => ?_⟩
          have this : edge.IsOf vars item
              ↔ edge = ⟨id, vars.resolve rel.left, vars.resolve rel.right, binding⟩ := by
            obtain ⟨relationship, left, right, own⟩ := edge
            simp only [Edge.IsOf, isTable, Option.some.injEq, Edge.mk.injEq]
            constructor
            · rintro ⟨other, rfl, isRelationship', isBound', left, right⟩
              obtain rfl := Option.some.inj (isRelationship.symm.trans isRelationship')
              exact ⟨rfl, left.symm, right.symm, Option.some.inj (isBound'.symm.trans isBound)⟩
            · rintro ⟨rfl, rfl, rfl, rfl⟩
              exact ⟨rel, rfl, isRelationship, isBound, rfl, rfl⟩
          simp [same, this]

namespace Layout

variable {vars : VarTable} {supplied : VarId → Prop} {edges : List Edge} {layout : Layout}
  {item : FromItem} {waiting : List FromItem} {ready : NameSet → Expr → Prop}

/-- There is a next item as long as some wait. -/
theorem nextIndex_lt (layout : Layout) (edges : List Edge) (some' : waiting ≠ [])
    : layout.nextIndex edges waiting < waiting.length := by
  unfold nextIndex
  cases found : waiting.findIdx? fun item => !(layout.edgeConditions edges item).isEmpty with
  | none => simpa using List.length_pos_iff.mpr some'
  | some index => exact (List.findIdx?_eq_some_iff_getElem.mp found).1

/-- Placing a required item is a step. -/
theorem placeRequired_step (required : item.optional = false)
    : Step edges ready layout item (layout.placeRequired edges item) := by
  unfold placeRequired
  cases joined : Expr.conjoin (layout.edgeConditions edges item) with
  | none =>
      have unconnected : layout.edgeConditions edges item = [] := by
        cases conditions : layout.edgeConditions edges item with
        | nil => rfl
        | cons first rest => simp [conditions, Expr.conjoin] at joined
      exact .source required (.inr unconnected)
  | some condition =>
      dsimp only
      split
      · rename_i first
        have first := List.isEmpty_iff.mp first
        have step : Step edges ready layout item _ := .source required (.inl first)
        rwa [first] at step
      · rename_i behind
        exact .inner required (by simpa using behind) joined

/-- All required items are placed, by induction over their number. The first one that waits is the
first one that is placed in an empty layout.
-/
theorem placeAllRequired_run (edges : List Edge) (ready : NameSet → Expr → Prop) (layout : Layout)
    (waiting : List FromItem) {count : Nat} (enough : waiting.length = count)
    (required : ∀ item ∈ waiting, item.optional = false ∧ item.pending = [])
    : ∃ later order,
        placeAllRequired edges count layout waiting = .ok later
        ∧ Run edges ready layout order later
        ∧ order.Perm waiting
        ∧ (layout.isEmpty → order.head? = waiting.head?) := by
  induction count generalizing layout waiting with
  | zero =>
      obtain rfl := List.length_eq_zero_iff.mp enough
      exact ⟨layout, [], rfl, .done, .refl _, fun _ => rfl⟩
  | succ count ih =>
      have some' : waiting ≠ [] := List.ne_nil_of_length_eq_add_one enough
      obtain ⟨index, within, chosen, atStart⟩ : ∃ index,
          index < waiting.length
          ∧ (if layout.isEmpty then 0 else layout.nextIndex edges waiting) = index
          ∧ (layout.isEmpty → index = 0) := by
        refine ⟨_, ?_, rfl, fun none => if_pos none⟩
        split
        · exact List.length_pos_iff.mpr some'
        · exact nextIndex_lt layout edges some'
      have found := List.getElem?_eq_getElem within
      obtain ⟨isRequired, unpending⟩ := required _ (List.mem_of_getElem? found)
      obtain ⟨later, order, placed, run, perm, -⟩ :=
        @ih (layout.placeRequired edges waiting[index]) (waiting.eraseIdx index)
          (by rw [List.length_eraseIdx_of_lt within, enough]; rfl)
          fun item member => required item (List.mem_of_mem_eraseIdx member)
      refine ⟨later, waiting[index] :: order, ?_, .next (placeRequired_step isRequired) run, ?_, ?_⟩
      · unfold placeAllRequired
        simp only [chosen, found, unpending, List.isEmpty_nil, if_true]
        exact placed
      · exact (perm.cons _).trans (List.getElem_cons_eraseIdx_perm within)
      · intro none
        obtain rfl := atStart none
        rw [List.head?_cons, List.head?_eq_getElem?, found]

/-- Taking several names off a set, by induction over them. -/
theorem mem_foldl_erase {names : List VarId} {set : NameSet} {id : VarId}
    : id ∈ names.foldl NameSet.erase set ↔ id ∈ set ∧ id ∉ names := by
  induction names generalizing set with
  | nil => simp
  | cons name rest ih => simp [ih, and_assoc]

/-- The conditions that wait with items: they read no columns, and what they refer to and some item
supplies is placed or still unplaced. What is unplaced belongs to an item that waits.
-/
structure Waits (vars : VarTable) (supplied : VarId → Prop) (placed : NameSet)
    (waiting : List FromItem) (unplaced : NameSet) (conditions : List Expr)
    : Prop where
  written
    : ∀ condition ∈ conditions, ∀ part ∈ condition.conjuncts, part.readsColumn = false
  references
    : ∀ condition ∈ conditions,
        ∀ id ∈ condition.references,
          supplied (vars.resolve id)
          → vars.resolve id ∈ placed ∨ vars.resolve id ∈ unplaced
  unplaced : ∀ id ∈ unplaced, ∃ item ∈ waiting, id ∈ item.ids

variable {unplaced : NameSet} {conditions : List Expr}

/-- A condition that can be checked once an item is placed is ready. -/
theorem Waits.ready_of_canCheck
    (waits : Waits vars supplied layout.placed waiting unplaced conditions)
    {condition : Expr} (member : condition ∈ conditions)
    (checked : (layout.mark item).canCheck vars (item.ids.foldl NameSet.erase unplaced) condition)
    : Ready vars supplied (layout.mark item).placed condition := by
  refine ⟨waits.written condition member, fun id refers isSupplied => ?_⟩
  have here := List.all_eq_true.mp checked id (NameSet.mem_names.mpr refers)
  simp only [Bool.or_eq_true, decide_eq_true_eq, mem_foldl_erase] at here
  rcases waits.references condition member id refers isSupplied with before | unplaced
  · exact mem_mark.mpr (.inr before)
  · rcases here with taken | placed
    · by_cases own : vars.resolve id ∈ item.ids
      · exact mem_mark.mpr (.inl own)
      · exact absurd ⟨unplaced, own⟩ taken
    · exact placed

/-- With the last item, every condition is ready. -/
theorem Waits.ready_last (waits : Waits vars supplied layout.placed [item] unplaced conditions)
    {condition : Expr} (member : condition ∈ conditions)
    : Ready vars supplied (layout.mark item).placed condition := by
  refine ⟨waits.written condition member, fun id refers isSupplied => ?_⟩
  rcases waits.references condition member id refers isSupplied with before | unplaced
  · exact mem_mark.mpr (.inr before)
  · obtain ⟨last, single, own⟩ := waits.unplaced _ unplaced
    exact mem_mark.mpr (.inl (List.mem_singleton.mp single ▸ own))

/-- The conditions that are left wait with the items that are left. -/
theorem Waits.rest (waits : Waits vars supplied layout.placed waiting unplaced conditions)
    {rest : List FromItem} (perm : (item :: rest).Perm waiting) {left : List Expr}
    (included : ∀ condition ∈ left, condition ∈ conditions)
    : Waits vars supplied (layout.mark item).placed rest (item.ids.foldl NameSet.erase unplaced)
        left where
  written := fun condition member => waits.written condition (included condition member)
  references := by
    intro condition member id refers isSupplied
    rw [mem_mark, mem_foldl_erase]
    by_cases own : vars.resolve id ∈ item.ids
    · exact .inl (.inl own)
    · rcases waits.references condition (included condition member) id refers isSupplied with
        before | unplaced
      · exact .inl (.inr before)
      · exact .inr ⟨unplaced, own⟩
  unplaced := by
    intro id member
    obtain ⟨old, other⟩ := mem_foldl_erase.mp member
    obtain ⟨holder, listed, supplies⟩ := waits.unplaced id old
    rcases List.mem_cons.mp (perm.mem_iff.mpr listed) with rfl | later
    · exact absurd supplies other
    · exact ⟨holder, later, supplies⟩

/-- All items of an optional clause are placed, by induction over their number. -/
theorem placeAllOptional_run {count : Nat} (enough : waiting.length = count)
    (isOptional : ∀ item ∈ waiting, item.optional = true) (behind : layout.fromItems ≠ [])
    (waits : Waits vars supplied layout.placed waiting unplaced conditions)
    : ∃ order,
        Run edges (Ready vars supplied) layout order
          (placeAllOptional edges vars count layout waiting unplaced conditions)
        ∧ order.Perm waiting := by
  induction count generalizing layout waiting unplaced conditions with
  | zero =>
      obtain rfl := List.length_eq_zero_iff.mp enough
      exact ⟨[], .done, .refl _⟩
  | succ count ih =>
      have some' : waiting ≠ [] := List.ne_nil_of_length_eq_add_one enough
      have within := nextIndex_lt layout edges some'
      have found := List.getElem?_eq_getElem within
      have perm := List.getElem_cons_eraseIdx_perm within
      unfold placeAllOptional
      simp only [found, List.partition_eq_filter_filter]
      generalize waiting[layout.nextIndex edges waiting] = item at found perm
      generalize waiting.eraseIdx (layout.nextIndex edges waiting) = rest at perm
      have length : rest.length = count := by
        have length := perm.length_eq
        simp only [List.length_cons, enough] at length
        omega
      generalize same : (if rest.isEmpty then _ else _) = ready
      have checked
          : ∀ condition ∈ ready, Ready vars supplied (layout.mark item).placed condition := by
        intro condition member
        rw [← same] at member
        split at member
        · rename_i last
          obtain rfl := List.isEmpty_iff.mp last
          obtain rfl := List.perm_singleton.mp perm.symm
          rcases List.mem_append.mp member with now | later
          · exact waits.ready_last (List.mem_filter.mp now).1
          · exact waits.ready_last (List.mem_filter.mp later).1
        · obtain ⟨listed, canCheck⟩ := List.mem_filter.mp member
          exact waits.ready_of_canCheck listed canCheck
      obtain ⟨order, run, others⟩ := @ih
        { layout.mark item with joins := layout.joins ++ [⟨true, item, _⟩] } rest _ _ length
        (fun item member => isOptional item (perm.mem_iff.mp (by simp [member]))) behind
        (waits.rest perm fun condition member => (List.mem_filter.mp member).1)
      exact ⟨item :: order,
        .next (.outer (isOptional item (List.mem_of_getElem? found)) behind checked) run,
        (others.cons item).trans perm⟩

/-- The items of an optional clause are placed safely. -/
theorem placeOptional_safely {items : List FromItem} (grounded : layout.Grounded)
    (isOptional : ∀ item ∈ items, item.optional = true)
    (written
      : ∀ item ∈ items,
          ∀ condition ∈ item.pending, ∀ part ∈ condition.conjuncts, part.readsColumn = false)
    (references
      : ∀ item ∈ items,
          ∀ condition ∈ item.pending,
            ∀ id ∈ condition.references,
              supplied (vars.resolve id)
              → vars.resolve id ∈ layout.placed ∨ ∃ other ∈ items, vars.resolve id ∈ other.ids)
    : Safely (fun later =>
          ∃ order,
            Run edges (Ready vars supplied) layout order later
            ∧ order.Perm (items.map FromItem.cleared))
        (layout.placeOptional edges vars items) := by
  unfold placeOptional
  split
  · simp [Cause.category]
  · rename_i occupied
    have behind : layout.fromItems ≠ [] := by
      intro none
      simp [isEmpty, none, grounded none] at occupied
    refine placeAllOptional_run (by simp) ?_ behind ⟨?_, ?_, ?_⟩
    · intro item member
      obtain ⟨original, listed, rfl⟩ := List.mem_map.mp member
      exact isOptional original listed
    · intro condition member
      obtain ⟨item, listed, pending⟩ := List.mem_flatMap.mp member
      exact written item listed condition pending
    · intro condition member id refers isSupplied
      obtain ⟨item, listed, pending⟩ := List.mem_flatMap.mp member
      refine (references item listed condition pending id refers isSupplied).imp_right ?_
      rintro ⟨other, present, supplies⟩
      exact NameSet.mem_ofList.mpr (List.mem_flatMap.mpr ⟨other, present, supplies⟩)
    · intro id member
      obtain ⟨item, listed, supplies⟩ := List.mem_flatMap.mp (NameSet.mem_ofList.mp member)
      exact ⟨item.cleared, List.mem_map.mpr ⟨item, listed, rfl⟩, supplies⟩

end Layout

/-- The pending conditions of an item: only an optional item has any, they read no columns, and they
refer to nothing that only items of later optional clauses supply.
-/
structure FromItem.Pends (vars : VarTable) (supplied : VarId → Prop) (items : List FromItem)
    (item : FromItem)
    : Prop where
  required : item.optional = false → item.pending = []
  written
    : ∀ condition ∈ item.pending, ∀ part ∈ condition.conjuncts, part.readsColumn = false
  references
    : ∀ condition ∈ item.pending,
        ∀ id ∈ condition.references,
          supplied (vars.resolve id)
          → ∃ other ∈ items,
              vars.resolve id ∈ other.ids
              ∧ (other.optional = true → other.clauseNumber ≤ item.clauseNumber)

/-- One item may be placed before another: optional ones come last, in the order of their clauses.
-/
def FromItem.MayPrecede (first second : FromItem) : Prop :=
  first.optional = true → second.optional = true ∧ first.clauseNumber ≤ second.clauseNumber

section Arrange

variable {vars : VarTable} {supplied : VarId → Prop} {edges : List Edge} {items : List FromItem}

/-- The items of the clauses before one, and those of the clause, are those up to the clause. -/
theorem filter_clause_perm (items : List FromItem) (count : Nat)
    : ((items.filter (·.clauseNumber < count)) ++ (items.filter (·.clauseNumber = count))).Perm
        (items.filter (·.clauseNumber < count + 1)) := by
  have split := List.filter_append_perm (fun item : FromItem => decide (item.clauseNumber < count))
    (items.filter (·.clauseNumber < count + 1))
  have before : (items.filter (·.clauseNumber < count + 1)).filter (·.clauseNumber < count)
      = items.filter (·.clauseNumber < count) := by
    rw [List.filter_filter]
    refine List.filter_congr fun item _ => ?_
    simp only [← Bool.decide_and, decide_eq_decide]
    omega
  have here : (items.filter (·.clauseNumber < count + 1)).filter
        (fun item => !decide (item.clauseNumber < count))
      = items.filter (·.clauseNumber = count) := by
    rw [List.filter_filter]
    refine List.filter_congr fun item _ => ?_
    simp only [← decide_not, ← Bool.decide_and, decide_eq_decide]
    omega
  rwa [before, here] at split

/-- The items of the optional clause with a number. -/
def clauseItems (items : List FromItem) (clause : Nat) : List FromItem :=
  (items.filter (·.optional)).filter (·.clauseNumber = clause)

/-- The items of the optional clauses before a number. -/
def itemsUpTo (items : List FromItem) (count : Nat) : List FromItem :=
  (items.filter (·.optional)).filter (·.clauseNumber < count)

theorem mem_clauseItems {clause : Nat} {item : FromItem}
    : item ∈ clauseItems items clause
      ↔ item ∈ items ∧ item.optional = true ∧ item.clauseNumber = clause := by
  simp [clauseItems, and_comm]

theorem mem_itemsUpTo {count : Nat} {item : FromItem}
    : item ∈ itemsUpTo items count
      ↔ item ∈ items ∧ item.optional = true ∧ item.clauseNumber < count := by
  simp [itemsUpTo, and_comm]

/-- The items of an optional clause are placed safely behind those of the clauses before. -/
theorem placeClause_safely {layout : Layout} {clause : Nat} (grounded : layout.Grounded)
    (pends : ∀ item ∈ items, item.Pends vars supplied items)
    (placed
      : ∀ item ∈ items,
          (item.optional = true → item.clauseNumber < clause) → ∀ id ∈ item.ids, id ∈ layout.placed)
    : Safely (fun later =>
          ∃ order,
            layout.Run edges (Layout.Ready vars supplied) order later
            ∧ order.Perm ((clauseItems items clause).map FromItem.cleared))
        (layout.placeOptional edges vars (clauseItems items clause)) := by
  refine Layout.placeOptional_safely grounded ?_ ?_ ?_
  · exact fun item member => (mem_clauseItems.mp member).2.1
  · exact fun item member => (pends item (mem_clauseItems.mp member).1).written
  · intro item member condition pending id refers isSupplied
    obtain ⟨listed, -, rfl⟩ := mem_clauseItems.mp member
    obtain ⟨other, present, supplies, notLater⟩ :=
      (pends item listed).references condition pending id refers isSupplied
    by_cases here : other.optional = true ∧ other.clauseNumber = item.clauseNumber
    · exact .inr ⟨other, mem_clauseItems.mpr ⟨present, here⟩, supplies⟩
    · refine .inl (placed other present (fun isOptional => ?_) _ supplies)
      exact Nat.lt_of_le_of_ne (notLater isOptional) fun same => here ⟨isOptional, same⟩

/-- The items of a clause may follow those of the clauses before. -/
theorem pairwise_mayPrecede {clause : Nat} {before own : List FromItem}
    (sorted : before.Pairwise FromItem.MayPrecede)
    (earlier : before.Perm ((itemsUpTo items clause).map FromItem.cleared))
    (same : own.Perm ((clauseItems items clause).map FromItem.cleared))
    : (before ++ own).Pairwise FromItem.MayPrecede := by
  have ofOwn {item : FromItem} (member : item ∈ own)
      : item.optional = true ∧ item.clauseNumber = clause := by
    obtain ⟨original, listed, rfl⟩ := List.mem_map.mp (same.mem_iff.mp member)
    exact (mem_clauseItems.mp listed).2
  refine List.pairwise_append.mpr ⟨sorted, ?_, ?_⟩
  · refine List.pairwise_of_forall_mem_list fun left inLeft right inRight _ => ?_
    exact ⟨(ofOwn inRight).1, Nat.le_of_eq ((ofOwn inLeft).2.trans (ofOwn inRight).2.symm)⟩
  · intro left inLeft right inRight _
    obtain ⟨original, listed, rfl⟩ := List.mem_map.mp (earlier.mem_iff.mp inLeft)
    have less : original.clauseNumber < clause := (mem_itemsUpTo.mp listed).2.2
    exact ⟨(ofOwn inRight).1, (ofOwn inRight).2 ▸ Nat.le_of_lt less⟩

/-- Optional clauses are placed safely one after the other, by induction over their numbers. -/
theorem placeClauses_safely {layout : Layout} (grounded : layout.Grounded)
    (pends : ∀ item ∈ items, item.Pends vars supplied items)
    (required : ∀ item ∈ items, item.optional = false → ∀ id ∈ item.ids, id ∈ layout.placed)
    (count : Nat)
    : Safely (fun later =>
          ∃ order,
            layout.Run edges (Layout.Ready vars supplied) order later
            ∧ order.Perm ((itemsUpTo items count).map FromItem.cleared)
            ∧ order.Pairwise FromItem.MayPrecede)
        ((((List.range count).map (clauseItems items)).filter (!·.isEmpty)).foldlM
          (fun layout items => layout.placeOptional edges vars items) layout) := by
  induction count with
  | zero => exact ⟨[], .done, by simp [itemsUpTo], .nil⟩
  | succ count ih =>
      rw [List.range_succ, List.map_append, List.filter_append, List.foldlM_append]
      refine ih.bind ?_
      rintro middle ⟨order, run, perm, sorted⟩
      have upTo
          : (itemsUpTo items count ++ clauseItems items count).Perm (itemsUpTo items (count + 1)) :=
        filter_clause_perm _ count
      cases own : clauseItems items count with
      | nil =>
          rw [own, List.append_nil] at upTo
          simp only [List.map_cons, List.map_nil, own, List.isEmpty_nil, Bool.not_true,
            Bool.false_eq_true, not_false_eq_true, List.filter_cons_of_neg, List.filter_nil]
          exact ⟨order, run, perm.trans (upTo.map _), sorted⟩
      | cons first rest =>
          simp only [List.map_cons, List.map_nil, own, List.isEmpty_cons, Bool.not_false,
            List.filter_cons_of_pos, List.filter_nil, List.foldlM_cons, List.foldlM_nil, bind_pure]
          rw [← own]
          have placed : ∀ item ∈ items,
              (item.optional = true → item.clauseNumber < count)
              → ∀ id ∈ item.ids, id ∈ middle.placed := by
            intro item member before id supplies
            refine run.mem_placed.mpr ?_
            cases isOptional : item.optional with
            | false => exact .inl (required item member isOptional id supplies)
            | true =>
                refine .inr ⟨item.cleared, ?_, supplies⟩
                refine perm.mem_iff.mpr (List.mem_map.mpr ⟨item, ?_, rfl⟩)
                exact mem_itemsUpTo.mpr ⟨member, isOptional, before isOptional⟩
          refine (placeClause_safely (run.grounded grounded) pends placed).mono ?_
          rintro later ⟨more, runMore, permMore⟩
          refine ⟨order ++ more, run.append runMore, ?_, pairwise_mayPrecede sorted perm permMore⟩
          refine (perm.append permMore).trans ?_
          rw [← List.map_append]
          exact upTo.map _

/-- What an arrangement of items is: a run from nothing that places each item once, without its
pending conditions. Optional items come last, in the order of their clauses, and the first required
item comes first.
-/
structure Arranged (vars : VarTable) (supplied : VarId → Prop) (items : List FromItem)
    (edges : List Edge) (order : List FromItem) (layout : Layout)
    : Prop where
  mem_edges : ∀ edge, edge ∈ edges ↔ ∃ item ∈ items, edge.IsOf vars item
  run : Layout.empty.Run edges (Layout.Ready vars supplied) order layout
  perm : order.Perm (items.map FromItem.cleared)
  sorted : order.Pairwise FromItem.MayPrecede
  first : ∀ item, items.head? = some item → item.optional = false → order.head? = some item.cleared

/-- No number is greater than the greatest one, by induction over them. -/
theorem le_foldl_max {numbers : List Nat} (start : Nat) {number : Nat}
    (known : number ≤ start ∨ number ∈ numbers)
    : number ≤ numbers.foldl max start := by
  induction numbers generalizing start with
  | nil => simpa using known
  | cons first rest ih =>
      refine ih _ ?_
      rcases known with small | member
      · exact .inl (Nat.le_trans small (Nat.le_max_left _ _))
      · rcases List.mem_cons.mp member with rfl | later
        · exact .inl (Nat.le_max_right _ _)
        · exact .inr later

/-- The items of a select are arranged safely. -/
theorem arrange_safely
    (bound
      : ∀ item ∈ items,
          ∀ id rel,
            item.tableVar? = some id → vars.relationship? id = some rel → rel.binding.isSome)
    (pends : ∀ item ∈ items, item.Pends vars supplied items)
    : Safely (fun layout => ∃ edges order, Arranged vars supplied items edges order layout)
        (arrange vars items) := by
  obtain ⟨edges, found, same⟩ := edgesOf_eq_ok bound
  have cleared {item : FromItem} (member : item ∈ items) (required : item.optional = false)
      : item.cleared = item := by
    have none := (pends item member).required required
    simp [FromItem.cleared, ← none]
  obtain ⟨layout, order, placed, run, perm, first⟩ :=
    Layout.placeAllRequired_run edges (Layout.Ready vars supplied) .empty
      (items.filter (!·.optional)) rfl fun item member => by
        obtain ⟨listed, required⟩ := List.mem_filter.mp member
        have required : item.optional = false := by simpa using required
        exact ⟨required, (pends item listed).required required⟩
  unfold arrange
  rw [found]
  simp only [Safely.ok_bind, List.partition_eq_filter_filter, placed, groupByClause]
  have optionals : items.filter (not ∘ fun item => !item.optional) = items.filter (·.optional) := by
    simp [Function.comp_def]
  rw [optionals]
  refine (placeClauses_safely (run.grounded fun _ => rfl) pends ?_ _).mono ?_
  · intro item member required id supplies
    refine run.mem_placed.mpr (.inr ⟨item, perm.mem_iff.mpr ?_, supplies⟩)
    simp [member, required]
  · rintro later ⟨more, runMore, permMore, sorted⟩
    -- The clauses are placed up to the one with the highest number, which are all of them.
    have all : itemsUpTo items (((items.filter (·.optional)).map (·.clauseNumber)).foldl max 0 + 1)
        = items.filter (·.optional) := by
      refine List.filter_eq_self.mpr fun item member => ?_
      have bounded := le_foldl_max 0 (.inr (List.mem_map_of_mem (f := (·.clauseNumber)) member))
      simpa [Nat.lt_succ_iff] using bounded
    rw [all] at permMore
    have orderRequired : ∀ item ∈ order, item ∈ items ∧ item.optional = false :=
      fun item member => by
      simpa using perm.mem_iff.mp member
    refine ⟨edges, order ++ more, same, run.append runMore, ?_, ?_, ?_⟩
    · have parts := List.filter_append_perm (fun item : FromItem => !item.optional) items
      simp only [Bool.not_not] at parts
      refine (List.Perm.append ?_ permMore).trans (List.map_append ▸ parts.map _)
      refine perm.trans (.of_eq (List.map_id' _ |>.symm.trans (List.map_congr_left ?_)))
      intro item member
      obtain ⟨listed, required⟩ := List.mem_filter.mp member
      exact (cleared listed (by simpa using required)).symm
    · refine List.pairwise_append.mpr ⟨?_, sorted, ?_⟩
      · refine List.pairwise_of_forall_mem_list fun left inLeft right _ => ?_
        simp [FromItem.MayPrecede, (orderRequired left inLeft).2]
      · intro left inLeft right _
        simp [FromItem.MayPrecede, (orderRequired left inLeft).2]
    · intro item head required
      have member : item ∈ items := List.mem_of_mem_head? head
      have firstRequired : (items.filter (!·.optional)).head? = some item := by
        cases items with
        | nil => simp at head
        | cons other rest =>
            obtain rfl := Option.some.inj head
            simp [required]
      have start := (first rfl).trans firstRequired
      rw [cleared member required]
      simp [List.head?_append, start]

namespace Arranged

variable {order : List FromItem} {layout : Layout}

/-- Nothing is lost. -/
theorem items_perm (arranged : Arranged vars supplied items edges order layout)
    : layout.items.Perm (items.map FromItem.cleared) :=
  arranged.run.items_perm.trans arranged.perm

/-- Everything that the items supply is placed. -/
theorem mem_placed (arranged : Arranged vars supplied items edges order layout) {id : VarId}
    : id ∈ layout.placed ↔ ∃ item ∈ items, id ∈ item.ids := by
  rw [arranged.run.mem_placed]
  simp only [Layout.empty, NameSet.not_mem_empty, false_or, arranged.perm.mem_iff, List.mem_map]
  constructor
  · rintro ⟨_, ⟨item, member, rfl⟩, supplies⟩
    exact ⟨item, member, supplies⟩
  · rintro ⟨item, member, supplies⟩
    exact ⟨item.cleared, ⟨item, member, rfl⟩, supplies⟩

/-- The joined items are in order. -/
theorem joins_pairwise (arranged : Arranged vars supplied items edges order layout)
    : (layout.joins.map (·.item)).Pairwise FromItem.MayPrecede := by
  obtain ⟨joined, same, within⟩ := arranged.run.joins_sublist
  rw [same]
  exact arranged.sorted.sublist within

/-- The joins demand what is known of the edges at the end. -/
theorem edgesHold (arranged : Arranged vars supplied items edges order layout)
    (apart : ∀ edge ∈ edges, ∀ item ∈ items, edge.Apart item)
    {truth : VarId → String → VarId → Prop}
    : EdgesHold truth layout.joins ↔ ∀ edge ∈ edges, edge.Known truth layout.placed := by
  refine arranged.run.edgesHold ?_ (fun _ => rfl) ?_ ?_
  · simp [Layout.Marked, Layout.empty, Layout.items]
  · intro edge member item listed
    obtain ⟨original, inItems, rfl⟩ := List.mem_map.mp (arranged.perm.mem_iff.mp listed)
    exact apart edge member original inItems
  · simp [EdgesHold, Layout.empty, Edge.Known]

end Arranged

end Arrange

end CypherSql.Plan
