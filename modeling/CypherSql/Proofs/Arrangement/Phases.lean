import CypherSql.Proofs.Arrangement.Placement

/-! An arrangement has two phases. Required items are placed first, in the `FROM` or in inner joins,
and optional ones follow in outer joins. Which phase the conditions of a relationship are written in
depends on where its nodes are placed.
-/

namespace CypherSql.Plan

namespace Edge

variable {edge : Edge} {placed : NameSet} {new : List VarId}

/-- A relationship brings no condition where neither it nor one of its nodes is new. -/
theorem conditions_of_old (relationship : edge.relationship ∉ new) (left : edge.left ∉ new)
    (right : edge.right ∉ new)
    : edge.conditions placed new = [] := by
  unfold conditions
  cases edge.columns? <;> simp [relationship, left, right]

/-- A relationship that is placed brings a condition with each of its nodes. -/
theorem exists_condition {node : VarId} (relationship : edge.relationship ∈ placed)
    (isEnd : node = edge.left ∨ node = edge.right) (isNew : node ∈ new)
    : ∃ condition ∈ edge.conditions placed new, edge.relationship ∈ condition.references := by
  cases columns : edge.columns? with
  | some entry =>
      rcases isEnd with rfl | rfl
      · refine ⟨edge.equation entry.1 edge.left, ?_, mem_references_equation.mpr (.inl rfl)⟩
        simp [conditions, columns, relationship, isNew]
      · refine ⟨edge.equation entry.2 edge.right, ?_, mem_references_equation.mpr (.inl rfl)⟩
        simp [conditions, columns, relationship, isNew]
  | none =>
      have touched : edge.left ∈ new ∨ edge.right ∈ new := by
        rcases isEnd with rfl | rfl
        · exact .inl isNew
        · exact .inr isNew
      simp only [conditions, columns]
      rw [if_neg (by simp [relationship]), if_pos (by simpa [or_assoc] using .inr touched)]
      split
      · exact ⟨_, List.mem_singleton_self _, mem_references_eitherWay.mpr (.inl rfl)⟩
      · exact ⟨_, List.mem_singleton_self _, mem_references_eitherEnd.mpr (.inl rfl)⟩
      · exact ⟨_, List.mem_singleton_self _, mem_references_eitherEnd.mpr (.inl rfl)⟩
      · rename_i notLeft notRight
        simp only [Bool.or_eq_false_iff, decide_eq_false_iff_not] at notLeft notRight
        exact absurd touched (by simp [notLeft, notRight])

end Edge

namespace Layout

variable {vars : VarTable} {supplied : VarId → Prop} {edges : List Edge} {layout later : Layout}
  {item : FromItem} {order : List FromItem} {truth : VarId → String → VarId → Prop}

/-- A run adds joins for some of its items behind those there are. -/
theorem Run.joins_append (run : Run edges (Ready vars supplied) layout order later)
    : ∃ more,
        later.joins = layout.joins ++ more
        ∧ ∀ join ∈ more, join.item ∈ order ∧ join.outer = join.item.optional := by
  induction run with
  | done => exact ⟨[], by simp, by simp⟩
  | next step _ ih =>
      obtain ⟨more, same, each⟩ := ih
      rcases step.joins_cases with ⟨-, -, unchanged⟩ | ⟨join, added, isItem, isOuter, -⟩
      · refine ⟨more, by rw [same, unchanged], fun other member => ?_⟩
        exact ⟨List.mem_cons_of_mem _ (each other member).1, (each other member).2⟩
      · refine ⟨join :: more, by rw [same, added, List.append_assoc, List.singleton_append], ?_⟩
        rw [List.forall_mem_cons]
        refine ⟨⟨by simp [isItem], isItem ▸ isOuter⟩, fun other member => ?_⟩
        exact ⟨List.mem_cons_of_mem _ (each other member).1, (each other member).2⟩

/-- A run over two lists of items passes through a layout between them. -/
theorem Run.split {ready : NameSet → Expr → Prop} {first second : List FromItem}
    (run : Run edges ready layout (first ++ second) later)
    : ∃ middle, Run edges ready layout first middle ∧ Run edges ready middle second later := by
  induction first generalizing layout with
  | nil => exact ⟨layout, .done, run⟩
  | cons item first ih =>
      cases run with
      | next step rest =>
          obtain ⟨middle, before, after⟩ := ih rest
          exact ⟨middle, .next step before, after⟩

section Behind

variable {relationship : VarId}

/-- Items behind a relationship and its nodes get no condition of it, by induction over the run. -/
theorem Run.no_condition (run : Run edges (Ready vars supplied) layout order later)
    (alone : ∀ edge ∈ edges, edge.left ≠ relationship ∧ edge.right ≠ relationship)
    (behind
      : ∀ item ∈ order,
          relationship ∉ item.ids
          ∧ ∀ edge ∈ edges,
              edge.relationship = relationship → edge.left ∉ item.ids ∧ edge.right ∉ item.ids)
    {join : Join} (member : join ∈ later.joins)
    : join ∈ layout.joins ∨ ∀ condition ∈ join.edgeConditions,
      relationship ∉ condition.references := by
  induction run with
  | done => exact .inl member
  | @next layout item middle order later step _ ih =>
      rw [List.forall_mem_cons] at behind
      obtain ⟨⟨notNew, ends⟩, behindLater⟩ := behind
      rcases ih behindLater member with inMiddle | none
      · rcases step.joins_cases with ⟨-, -, unchanged⟩ | ⟨own, added, -, -, conditions⟩
        · exact .inl (unchanged ▸ inMiddle)
        · rw [added, List.mem_append, List.mem_singleton] at inMiddle
          rcases inMiddle with old | rfl
          · exact .inl old
          · refine .inr fun condition written refers => ?_
            rw [conditions] at written
            obtain ⟨edge, listed, inside⟩ := List.mem_flatMap.mp written
            obtain ⟨isPart, -⟩ := (Edge.isCondition_of_mem inside).references _ refers
            rcases isPart with same | same | same
            · obtain ⟨left, right⟩ := ends edge listed same.symm
              rw [Edge.conditions_of_old (same ▸ notNew) left right] at inside
              cases inside
            · exact (alone edge listed).1 same.symm
            · exact (alone edge listed).2 same.symm
      · exact .inr none

/-- A node behind its relationship brings a condition of it into an outer join, by induction over
the run up to the item of the node.
-/
theorem Run.exists_outer_condition (run : Run edges (Ready vars supplied) layout order later)
    {edge : Edge} (listed : edge ∈ edges) (placed : edge.relationship ∈ layout.placed)
    {node : VarId}
    (isEnd : node = edge.left ∨ node = edge.right)
    (isOptional : ∀ item ∈ order, item.optional = true) (waits : ∃ item ∈ order, node ∈ item.ids)
    : ∃ join ∈ later.joins,
        join.outer = true
        ∧ ∃ condition ∈ join.edgeConditions, edge.relationship ∈ condition.references := by
  induction run with
  | done =>
      obtain ⟨item, member, -⟩ := waits
      cases member
  | @next layout item middle order later step rest ih =>
      rw [List.forall_mem_cons] at isOptional
      obtain ⟨isOptional, laterOptional⟩ := isOptional
      by_cases here : node ∈ item.ids
      · rcases step.joins_cases with ⟨required, -, -⟩ | ⟨join, added, -, isOuter, conditions⟩
        · simp [isOptional] at required
        · obtain ⟨more, same, -⟩ := rest.joins_append
          obtain ⟨condition, inside, refers⟩ := Edge.exists_condition placed isEnd here
          refine ⟨join, by simp [same, added], isOuter.trans isOptional, condition, ?_, refers⟩
          rw [conditions]
          exact List.mem_flatMap.mpr ⟨edge, listed, inside⟩
      · refine ih (step.mem_placed.mpr (.inr placed)) laterOptional ?_
        obtain ⟨other, member, supplies⟩ := waits
        rcases List.mem_cons.mp member with rfl | isLater
        · exact absurd supplies here
        · exact ⟨other, isLater, supplies⟩

end Behind

end Layout

/-- Required items come before optional ones, by induction over the order. -/
theorem filter_append_filter {order : List FromItem} (sorted : order.Pairwise FromItem.MayPrecede)
    : order.filter (!·.optional) ++ order.filter (·.optional) = order := by
  induction order with
  | nil => rfl
  | cons item order ih =>
      obtain ⟨first, later⟩ := List.pairwise_cons.mp sorted
      cases isOptional : item.optional with
      | false => simp [isOptional, ih later]
      | true =>
          have all : ∀ other ∈ order, other.optional = true := fun other member =>
            (first other member isOptional).1
          have none : order.filter (!·.optional) = [] := by
            simpa [List.filter_eq_nil_iff] using all
          rw [none, List.nil_append] at ih
          simp [isOptional, none, ih later]

/-- Where no variable is supplied twice, only one item supplies it, by induction over the items. -/
theorem eq_of_supplies {items : List FromItem} (nodup : (items.flatMap (·.ids)).Nodup)
    {first second : FromItem} (inFirst : first ∈ items) (inSecond : second ∈ items) {id : VarId}
    (supplies : id ∈ first.ids) (alsoSupplies : id ∈ second.ids)
    : first = second := by
  induction items with
  | nil => cases inFirst
  | cons item items ih =>
      rw [List.flatMap_cons] at nodup
      obtain ⟨-, others, disjoint⟩ := List.nodup_append.mp nodup
      rcases List.mem_cons.mp inFirst with rfl | firstLater
      · rcases List.mem_cons.mp inSecond with rfl | secondLater
        · rfl
        · exact absurd rfl
            (disjoint id supplies id (List.mem_flatMap.mpr ⟨second, secondLater, alsoSupplies⟩))
      · rcases List.mem_cons.mp inSecond with rfl | secondLater
        · exact absurd rfl
            (disjoint id alsoSupplies id (List.mem_flatMap.mpr ⟨first, firstLater, supplies⟩))
        · exact ih others firstLater secondLater

/-- The variable is supplied by an item that is not optional. -/
def SuppliedRequired (items : List FromItem) (id : VarId) : Prop :=
  ∃ item ∈ items, item.optional = false ∧ id ∈ item.ids

namespace Arranged

variable {vars : VarTable} {supplied : VarId → Prop} {edges : List Edge}
  {items order : List FromItem}
  {layout : Layout} {truth : VarId → String → VarId → Prop} {edge : Edge}

/-- The layout between the phases: all that required items supply is placed, in inner joins behind
the `FROM`, and optional items are placed behind it.
-/
structure Between (vars : VarTable) (supplied : VarId → Prop) (items : List FromItem)
    (edges : List Edge) (layout : Layout) (required optional : List FromItem) (middle : Layout)
    : Prop where
  before : Layout.empty.Run edges (Layout.Ready vars supplied) required middle
  after : middle.Run edges (Layout.Ready vars supplied) optional layout
  isRequired : ∀ item ∈ required, item.optional = false
  isOptional : ∀ item ∈ optional, item.optional = true
  perm : (required ++ optional).Perm (items.map FromItem.cleared)

theorem exists_between (arranged : Arranged vars supplied items edges order layout)
    : ∃ required optional middle,
        Between vars supplied items edges layout required optional middle := by
  have run := arranged.run
  have same := filter_append_filter arranged.sorted
  rw [← same] at run
  obtain ⟨middle, before, after⟩ := run.split
  refine ⟨_, _, middle, before, after, ?_, ?_, same.symm ▸ arranged.perm⟩
  · intro item member
    simpa using (List.mem_filter.mp member).2
  · intro item member
    exact (List.mem_filter.mp member).2

namespace Between

variable {required optional : List FromItem} {middle : Layout}

/-- What is placed between the phases is what required items supply. -/
theorem mem_placed (between : Between vars supplied items edges layout required optional middle)
    {id : VarId}
    : id ∈ middle.placed ↔ SuppliedRequired items id := by
  rw [between.before.mem_placed]
  constructor
  · intro placed
    rcases placed with before | ⟨item, member, supplies⟩
    · cases before
    · have listed := between.perm.mem_iff.mp (List.mem_append_left optional member)
      obtain ⟨original, inItems, rfl⟩ := List.mem_map.mp listed
      have isRequired : original.cleared.optional = false := between.isRequired _ member
      exact ⟨original, inItems, isRequired, supplies⟩
  · intro isSupplied
    obtain ⟨item, member, isRequired, supplies⟩ := isSupplied
    have listed := between.perm.mem_iff.mpr (List.mem_map_of_mem member)
    rcases List.mem_append.mp listed with inFirst | inSecond
    · exact .inr ⟨_, inFirst, supplies⟩
    · have isOptional : item.cleared.optional = true := between.isOptional _ inSecond
      exact Bool.noConfusion (isOptional.symm.trans isRequired)

/-- The inner joins are those of the first phase. -/
theorem filter_inner (between : Between vars supplied items edges layout required optional middle)
    : layout.joins.filter (!·.outer) = middle.joins := by
  obtain ⟨inner, same, innerEach⟩ := between.before.joins_append
  obtain ⟨outer, added, outerEach⟩ := between.after.joins_append
  have innerOnly : ∀ join ∈ middle.joins, (!join.outer) = true := by
    intro join member
    obtain ⟨listed, isOuter⟩ := innerEach join (by simpa [Layout.empty, same] using member)
    simp [isOuter, between.isRequired _ listed]
  have outerOnly : ∀ join ∈ outer, ¬(!join.outer) = true := by
    intro join member
    obtain ⟨listed, isOuter⟩ := outerEach join member
    simp [isOuter, between.isOptional _ listed]
  rw [added, List.filter_append, List.filter_eq_self.mpr innerOnly,
    List.filter_eq_nil_iff.mpr outerOnly, List.append_nil]

/-- An outer join is one of the second phase. -/
theorem not_mem_of_outer
    (between : Between vars supplied items edges layout required optional middle)
    {join : Join} (isOuter : join.outer = true)
    : join ∉ middle.joins := by
  rw [← between.filter_inner]
  simp [isOuter]

variable (apart : ∀ edge ∈ edges, ∀ item ∈ items, edge.Apart item)

include apart in
/-- Inner joins demand what is known of the edges between the phases. -/
theorem edgesHold (between : Between vars supplied items edges layout required optional middle)
    : EdgesHold truth (layout.joins.filter (!·.outer))
      ↔ ∀ edge ∈ edges, edge.Known truth middle.placed := by
  rw [between.filter_inner]
  refine between.before.edgesHold ?_ (fun _ => rfl) ?_ ?_
  · simp [Layout.Marked, Layout.empty, Layout.items]
  · intro edge member item listed
    have inOrder := between.perm.mem_iff.mp (List.mem_append_left optional listed)
    obtain ⟨original, inItems, rfl⟩ := List.mem_map.mp inOrder
    exact apart edge member original inItems
  · simp [EdgesHold, Layout.empty, Edge.Known]

include apart in
/-- Inner joins demand what a required relationship demands exactly if its nodes are required too.
To the contrary serves that every column equals the keys of what is placed between the phases, and
no others.
-/
theorem inner_demands_iff
    (between : Between vars supplied items edges layout required optional middle)
    (listed : edge ∈ edges) (isRequired : SuppliedRequired items edge.relationship)
    : (∀ truth, EdgesHold truth (layout.joins.filter (!·.outer)) → edge.Demands truth)
      ↔ SuppliedRequired items edge.left ∧ SuppliedRequired items edge.right := by
  simp only [← between.mem_placed, between.edgesHold apart] at isRequired ⊢
  constructor
  · intro demands
    have known
        : ∀ other ∈ edges, other.Known (fun _ _ node => node ∈ middle.placed) middle.placed := by
      intro other _
      unfold Edge.Known
      cases other.columns? <;> simp +contextual [Edge.EitherEnd, Edge.EitherWay]
    have demanded := demands _ known
    unfold Edge.Demands at demanded
    cases columns : edge.columns? with
    | some entry => simpa [columns] using demanded
    | none => simpa [columns, Edge.EitherWay] using demanded
  · intro ends truth known
    rw [← Edge.known_iff_demands isRequired ends.1 ends.2]
    exact known edge listed

/-- What a required item supplies, no optional item does. -/
theorem not_mem_optional
    (between : Between vars supplied items edges layout required optional middle)
    (nodup : (items.flatMap (·.ids)).Nodup) {id : VarId} (isSupplied : SuppliedRequired items id)
    {item : FromItem} (member : item ∈ optional)
    : id ∉ item.ids := by
  intro supplies
  obtain ⟨other, inItems, isRequired, alsoSupplies⟩ := isSupplied
  have inOrder := between.perm.mem_iff.mp (List.mem_append_right required member)
  obtain ⟨original, inItems', rfl⟩ := List.mem_map.mp inOrder
  have isOptional : original.cleared.optional = true := between.isOptional _ member
  obtain rfl := eq_of_supplies nodup inItems' inItems supplies alsoSupplies
  exact Bool.noConfusion (isOptional.symm.trans isRequired)

/-- No condition of a required relationship is in an outer join exactly if its nodes are required
too.
-/
theorem outer_free_iff (between : Between vars supplied items edges layout required optional middle)
    (nodup : (items.flatMap (·.ids)).Nodup)
    (alone : ∀ other ∈ edges, other.left ≠ edge.relationship ∧ other.right ≠ edge.relationship)
    (unique : ∀ other ∈ edges, other.relationship = edge.relationship → other = edge)
    (listed : edge ∈ edges) (isRequired : SuppliedRequired items edge.relationship)
    (left : ∃ item ∈ items, edge.left ∈ item.ids) (right : ∃ item ∈ items, edge.right ∈ item.ids)
    : (∀ join ∈ layout.joins,
          join.outer = true
          → ∀ condition ∈ join.edgeConditions, edge.relationship ∉ condition.references)
      ↔ SuppliedRequired items edge.left ∧ SuppliedRequired items edge.right := by
  constructor
  · intro free
    have isPlaced {node : VarId} (isEnd : node = edge.left ∨ node = edge.right)
        (isSupplied : ∃ item ∈ items, node ∈ item.ids)
        : SuppliedRequired items node := by
      by_contra notRequired
      obtain ⟨item, member, supplies⟩ := isSupplied
      have waits : item.cleared ∈ optional := by
        have inOrder := between.perm.mem_iff.mpr (List.mem_map_of_mem member)
        rcases List.mem_append.mp inOrder with inFirst | inSecond
        · have isRequired : item.cleared.optional = false := between.isRequired _ inFirst
          exact absurd ⟨item, member, isRequired, supplies⟩ notRequired
        · exact inSecond
      obtain ⟨join, inJoins, isOuter, condition, written, refers⟩ :=
        between.after.exists_outer_condition listed (between.mem_placed.mpr isRequired) isEnd
          between.isOptional ⟨_, waits, supplies⟩
      exact free join inJoins isOuter condition written refers
    exact ⟨isPlaced (.inl rfl) left, isPlaced (.inr rfl) right⟩
  · intro ends join member isOuter
    have behind : ∀ item ∈ optional,
        edge.relationship ∉ item.ids
        ∧ ∀ other ∈ edges,
            other.relationship = edge.relationship
            → other.left ∉ item.ids ∧ other.right ∉ item.ids := by
      intro item waits
      refine ⟨between.not_mem_optional nodup isRequired waits, fun other inEdges same => ?_⟩
      obtain rfl := unique other inEdges same
      exact ⟨between.not_mem_optional nodup ends.1 waits,
        between.not_mem_optional nodup ends.2 waits⟩
    rcases between.after.no_condition alone behind member with inner | free
    · exact absurd inner (between.not_mem_of_outer isOuter)
    · exact free

end Between

end Arranged

end CypherSql.Plan
