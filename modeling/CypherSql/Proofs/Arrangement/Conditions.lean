import CypherSql.Proofs.Arrangement.Runs

/-! The conditions of joins. Those of relationships are told apart from written ones by the columns
they read, and together they say what the placed part of each relationship demands.
-/

namespace CypherSql.Plan

namespace Expr

/-- The expression is a column of a table. -/
def isColumn : Expr → Bool
  | .column _ _ => true
  | _ => false

/-- The expression reads a column of a table. -/
def readsColumn (expr : Expr) : Bool :=
  expr.parts.any isColumn

/-- An expression over variables reads no column. -/
theorem Over.not_readsColumn {allowed : VarId → Prop} {expr : Expr} (isOver : expr.Over allowed)
    : expr.readsColumn = false := by
  rw [readsColumn, List.any_eq_false]
  intro part inside
  have within := isOver part inside
  cases part with
  | column id name => exact within.elim
  | _ => simp [isColumn]

theorem conjuncts_foldl_and (first : Expr) (rest : List Expr)
    : (rest.foldl (.binary .and) first).conjuncts = first.conjuncts ++ rest.flatMap conjuncts := by
  induction rest generalizing first with
  | nil => simp
  | cons next rest ih => rw [List.foldl_cons, ih]; simp [conjuncts]

/-- A joined condition joins the conditions of its parts. -/
theorem conjuncts_of_conjoin {conditions : List Expr} {joined : Expr}
    (result : conjoin conditions = some joined)
    : joined.conjuncts = conditions.flatMap conjuncts := by
  cases conditions with
  | nil => simp [conjoin] at result
  | cons first rest =>
      obtain rfl := Option.some.inj result
      rw [conjuncts_foldl_and, List.flatMap_cons]

@[simp]
theorem mem_references_binary {op : BinaryOp} {left right : Expr} {id : VarId}
    : id ∈ (Expr.binary op left right).references
      ↔ id ∈ left.references ∨ id ∈ right.references := by
  simp [mem_references, parts, reference?, or_and_right, exists_or]

@[simp]
theorem mem_references_column {other id : VarId} {name : String}
    : id ∈ (Expr.column other name).references ↔ id = other := by
  simp [mem_references, parts, reference?, eq_comm]

theorem mem_references_foldl_and {first : Expr} {rest : List Expr} {id : VarId}
    : id ∈ (rest.foldl (.binary .and) first).references
      ↔ id ∈ first.references ∨ ∃ condition ∈ rest, id ∈ condition.references := by
  induction rest generalizing first with
  | nil => simp
  | cons next rest ih =>
      rw [List.foldl_cons, ih]
      simp [or_assoc]

/-- A joined condition refers to what its parts refer to. -/
theorem mem_references_of_conjoin {conditions : List Expr} {joined : Expr} {id : VarId}
    (result : conjoin conditions = some joined) (member : id ∈ joined.references)
    : ∃ condition ∈ conditions, id ∈ condition.references := by
  cases conditions with
  | nil => simp [conjoin] at result
  | cons first rest =>
      obtain rfl := Option.some.inj result
      rcases mem_references_foldl_and.mp member with here | ⟨condition, listed, refers⟩
      · exact ⟨first, by simp, here⟩
      · exact ⟨condition, by simp [listed], refers⟩

/-- A condition on relationships is true under an assignment of truth to the equations between
their columns and the keys of nodes.
-/
def Holds (truth : VarId → String → VarId → Prop) : Expr → Prop
  | .binary .and left right => left.Holds truth ∧ right.Holds truth
  | .binary .or left right => left.Holds truth ∨ right.Holds truth
  | .binary .equal (.column relationship name) (.var node) => truth relationship name node
  | _ => False

end Expr

/-- The conditions of a join that read columns of relationships. -/
def Join.edgeConditions (join : Join) : List Expr :=
  join.condition.conjuncts.filter Expr.readsColumn

namespace Edge

variable {edge : Edge} {placed : NameSet} {new : List VarId}
  {truth : VarId → String → VarId → Prop}

/-- A condition of the relationship is one condition, it reads columns, and it refers to the
relationship and those of its nodes that are placed or new.
-/
structure IsCondition (edge : Edge) (placed : NameSet) (new : List VarId) (condition : Expr)
    : Prop where
  single : condition.conjuncts = [condition]
  readsColumn : condition.readsColumn
  references
    : ∀ id ∈ condition.references,
        (id = edge.relationship ∨ id = edge.left ∨ id = edge.right) ∧ (id ∈ placed ∨ id ∈ new)

theorem mem_references_equation {column : String} {node id : VarId}
    : id ∈ (edge.equation column node).references ↔ id = edge.relationship ∨ id = node := by
  simp [equation, Expr.equals]

theorem mem_references_eitherEnd {node id : VarId}
    : id ∈ (edge.eitherEnd node).references ↔ id = edge.relationship ∨ id = node := by
  simp [eitherEnd, mem_references_equation]

theorem mem_references_eitherWay {id : VarId}
    : id ∈ edge.eitherWay.references
      ↔ id = edge.relationship ∨ id = edge.left ∨ id = edge.right := by
  simp only [eitherWay, pairing, Expr.mem_references_binary, mem_references_equation]
  tauto

/-- Every condition of a relationship is one, with its nodes placed or new. -/
theorem isCondition_of_mem {condition : Expr} (member : condition ∈ edge.conditions placed new)
    : edge.IsCondition placed new condition := by
  unfold conditions at member
  simp only at member
  split at member
  · simp at member
  · rename_i relationshipNow
    have relationshipNow : edge.relationship ∈ placed ∨ edge.relationship ∈ new := by
      simpa [or_iff_not_imp_left] using relationshipNow
    -- Each form of condition refers to the relationship and to ends that are placed or new.
    have ofEquation {column : String} {node : VarId} (now : node ∈ placed ∨ node ∈ new)
        (isEnd : node = edge.left ∨ node = edge.right)
        : edge.IsCondition placed new (edge.equation column node) := by
      refine ⟨rfl, rfl, fun id refers => ?_⟩
      rcases mem_references_equation.mp refers with rfl | rfl
      · exact ⟨.inl rfl, relationshipNow⟩
      · exact ⟨.inr isEnd, now⟩
    have ofEnd {node : VarId} (now : node ∈ placed ∨ node ∈ new)
        (isEnd : node = edge.left ∨ node = edge.right)
        : edge.IsCondition placed new (edge.eitherEnd node) := by
      refine ⟨rfl, rfl, fun id refers => ?_⟩
      rcases mem_references_eitherEnd.mp refers with rfl | rfl
      · exact ⟨.inl rfl, relationshipNow⟩
      · exact ⟨.inr isEnd, now⟩
    split at member
    · rcases List.mem_append.mp member with left | right
      · split at left
        · rename_i now
          obtain rfl := List.mem_singleton.mp left
          simp only [Bool.and_eq_true, Bool.or_eq_true, decide_eq_true_eq] at now
          exact ofEquation now.1 (.inl rfl)
        · simp at left
      · split at right
        · rename_i now
          obtain rfl := List.mem_singleton.mp right
          simp only [Bool.and_eq_true, Bool.or_eq_true, decide_eq_true_eq] at now
          exact ofEquation now.1 (.inr rfl)
        · simp at right
    · split at member
      · split at member
        · rename_i nowLeft nowRight
          obtain rfl := List.mem_singleton.mp member
          refine ⟨rfl, rfl, fun id refers => ⟨mem_references_eitherWay.mp refers, ?_⟩⟩
          rcases mem_references_eitherWay.mp refers with rfl | rfl | rfl
          · exact relationshipNow
          · simpa using nowLeft
          · simpa using nowRight
        · rename_i nowLeft _
          obtain rfl := List.mem_singleton.mp member
          exact ofEnd (by simpa using nowLeft) (.inl rfl)
        · rename_i _ nowRight
          obtain rfl := List.mem_singleton.mp member
          exact ofEnd (by simpa using nowRight) (.inr rfl)
        · simp at member
      · simp at member

/-- The relationship has a node at one of its ends. -/
def EitherEnd (edge : Edge) (truth : VarId → String → VarId → Prop) (node : VarId) : Prop :=
  truth edge.relationship edge.binding.fromColumn node
  ∨ truth edge.relationship edge.binding.toColumn node

/-- The relationship joins its nodes one way or the other. -/
def EitherWay (edge : Edge) (truth : VarId → String → VarId → Prop) : Prop :=
  (truth edge.relationship edge.binding.fromColumn edge.left
    ∧ truth edge.relationship edge.binding.toColumn edge.right)
  ∨ (truth edge.relationship edge.binding.toColumn edge.left
    ∧ truth edge.relationship edge.binding.fromColumn edge.right)

/-- What the relationship demands of those of its nodes that are placed, once it is placed itself.
-/
def Known (edge : Edge) (truth : VarId → String → VarId → Prop) (placed : NameSet) : Prop :=
  edge.relationship ∈ placed
  → match edge.columns? with
    | some (leftColumn, rightColumn) =>
        (edge.left ∈ placed → truth edge.relationship leftColumn edge.left)
        ∧ (edge.right ∈ placed → truth edge.relationship rightColumn edge.right)
    | none =>
        (edge.left ∈ placed → edge.EitherEnd truth edge.left)
        ∧ (edge.right ∈ placed → edge.EitherEnd truth edge.right)
        ∧ (edge.left ∈ placed → edge.right ∈ placed → edge.EitherWay truth)

theorem EitherWay.left (way : edge.EitherWay truth) : edge.EitherEnd truth edge.left :=
  way.imp And.left And.left

theorem EitherWay.right (way : edge.EitherWay truth) : edge.EitherEnd truth edge.right :=
  (way.imp And.right And.right).symm

@[simp]
theorem holds_equation {column : String} {node : VarId}
    : (edge.equation column node).Holds truth ↔ truth edge.relationship column node :=
  Iff.rfl

@[simp]
theorem holds_eitherEnd {node : VarId}
    : (edge.eitherEnd node).Holds truth ↔ edge.EitherEnd truth node :=
  Iff.rfl

@[simp]
theorem holds_eitherWay : edge.eitherWay.Holds truth ↔ edge.EitherWay truth :=
  Iff.rfl

/-- The conditions with a known orientation: an equation for each node that is placed by now, once
either it or the relationship is new.
-/
theorem forall_conditions_of_columns {leftColumn rightColumn : String}
    (columns : edge.columns? = some (leftColumn, rightColumn))
    : (∀ condition ∈ edge.conditions placed new, condition.Holds truth)
      ↔ (edge.relationship ∈ placed ∨ edge.relationship ∈ new
          → (edge.left ∈ placed ∨ edge.left ∈ new
              → edge.relationship ∈ new ∨ edge.left ∈ new
              → truth edge.relationship leftColumn edge.left)
            ∧ (edge.right ∈ placed ∨ edge.right ∈ new
              → edge.relationship ∈ new ∨ edge.right ∈ new
              → truth edge.relationship rightColumn edge.right)) := by
  have side {test : Prop} [Decidable test] {condition : Expr}
      : (∀ other ∈ if test then [condition] else [], other.Holds truth)
        ↔ (test → condition.Holds truth) := by
    split <;> simp_all
  simp only [conditions, columns]
  split
  · rename_i absent
    have absent : ¬ (edge.relationship ∈ placed ∨ edge.relationship ∈ new) := by
      simpa using absent
    simp [absent]
  · rename_i present
    have present : edge.relationship ∈ placed ∨ edge.relationship ∈ new := by
      simpa [or_iff_not_imp_left] using present
    simp only [List.forall_mem_append, side, Bool.and_eq_true, Bool.or_eq_true, decide_eq_true_eq,
      holds_equation, and_imp, present, true_imp_iff]

/-- The conditions without an orientation: one on both nodes, or on the one that is placed by now,
once either it or the relationship is new.
-/
theorem forall_conditions_of_no_columns (columns : edge.columns? = none)
    : (∀ condition ∈ edge.conditions placed new, condition.Holds truth)
      ↔ (edge.relationship ∈ placed ∨ edge.relationship ∈ new
          → edge.relationship ∈ new ∨ edge.left ∈ new ∨ edge.right ∈ new
          → (edge.left ∈ placed ∨ edge.left ∈ new
              → edge.right ∈ placed ∨ edge.right ∈ new
              → edge.EitherWay truth)
            ∧ (edge.left ∈ placed ∨ edge.left ∈ new
              → ¬ (edge.right ∈ placed ∨ edge.right ∈ new)
              → edge.EitherEnd truth edge.left)
            ∧ (¬ (edge.left ∈ placed ∨ edge.left ∈ new)
              → edge.right ∈ placed ∨ edge.right ∈ new
              → edge.EitherEnd truth edge.right)) := by
  simp only [conditions, columns]
  split
  · rename_i absent
    have absent : ¬ (edge.relationship ∈ placed ∨ edge.relationship ∈ new) := by
      simpa using absent
    simp [absent]
  · rename_i present
    have present : edge.relationship ∈ placed ∨ edge.relationship ∈ new := by
      simpa [or_iff_not_imp_left] using present
    simp only [present, true_imp_iff]
    split
    · rename_i someNew
      have someNew : edge.relationship ∈ new ∨ edge.left ∈ new ∨ edge.right ∈ new := by
        simpa [or_assoc] using someNew
      simp only [someNew, true_imp_iff]
      split <;> rename_i nowLeft nowRight <;>
        simp only [Bool.or_eq_true, Bool.or_eq_false_iff, decide_eq_true_eq,
          decide_eq_false_iff_not, ← not_or] at nowLeft nowRight <;>
        simp [nowLeft, nowRight]
    · rename_i noneNew
      have noneNew : ¬ (edge.relationship ∈ new ∨ edge.left ∈ new ∨ edge.right ∈ new) := by
        simpa [or_assoc] using noneNew
      simp [noneNew]

/-- The conditions that are written when variables are placed say what the relationship demands now
and did not demand before. Witness: the conditions are written with the last of what they refer to,
and one on both nodes implies those on one of them.
-/
theorem known_insertAll
    : edge.Known truth (placed.insertAll new)
      ↔ edge.Known truth placed
        ∧ ∀ condition ∈ edge.conditions placed new, condition.Holds truth := by
  cases columns : edge.columns? with
  | some entry =>
      obtain ⟨leftColumn, rightColumn⟩ := entry
      rw [forall_conditions_of_columns columns]
      simp only [Known, columns, NameSet.mem_insertAll]
      grind
  | none =>
      have left : edge.EitherWay truth → edge.EitherEnd truth edge.left := EitherWay.left
      have right : edge.EitherWay truth → edge.EitherEnd truth edge.right := EitherWay.right
      rw [forall_conditions_of_no_columns columns]
      simp only [Known, columns, NameSet.mem_insertAll]
      grind

/-- What the relationship demands of its nodes. -/
def Demands (edge : Edge) (truth : VarId → String → VarId → Prop) : Prop :=
  match edge.columns? with
  | some (leftColumn, rightColumn) =>
      truth edge.relationship leftColumn edge.left ∧ truth edge.relationship rightColumn edge.right
  | none => edge.EitherWay truth

/-- Once the relationship and its nodes are placed, all is known that it demands. -/
theorem known_iff_demands (relationship : edge.relationship ∈ placed) (left : edge.left ∈ placed)
    (right : edge.right ∈ placed)
    : edge.Known truth placed ↔ edge.Demands truth := by
  unfold Known Demands
  cases edge.columns? with
  | some entry => simp [relationship, left, right]
  | none =>
      simp only [relationship, left, right, true_imp_iff]
      exact ⟨fun known => known.2.2, fun way => ⟨way.left, way.right, way⟩⟩

/-- The variables of the edge are what they stand for. -/
structure Resolved (vars : VarTable) (edge : Edge) : Prop where
  relationship : vars.resolve edge.relationship = edge.relationship
  left : vars.resolve edge.left = edge.left
  right : vars.resolve edge.right = edge.right

/-- The item does not supply the relationship together with one of its nodes. -/
def Apart (edge : Edge) (item : FromItem) : Prop :=
  edge.relationship ∈ item.ids → edge.left ∉ item.ids ∧ edge.right ∉ item.ids

/-- The first item brings no condition. -/
theorem conditions_eq_nil {item : FromItem} (apart : edge.Apart item) (first : ∀ id, id ∉ placed)
    : edge.conditions placed item.ids = [] := by
  by_cases relationship : edge.relationship ∈ item.ids
  · obtain ⟨left, right⟩ := apart relationship
    unfold conditions
    cases edge.columns? <;> simp [first, relationship, left, right]
  · simp [conditions, first, relationship]

end Edge

/-- The conditions on relationships in joins are true. -/
def EdgesHold (truth : VarId → String → VarId → Prop) (joins : List Join) : Prop :=
  ∀ join ∈ joins, ∀ condition ∈ join.edgeConditions, condition.Holds truth

namespace Layout

/-- A written condition reads no column, and is ready once those of its variables are placed that
some item supplies.
-/
structure Ready (vars : VarTable) (supplied : VarId → Prop) (placed : NameSet) (condition : Expr)
    : Prop where
  written : ∀ part ∈ condition.conjuncts, part.readsColumn = false
  references : ∀ id ∈ condition.references, supplied (vars.resolve id) → vars.resolve id ∈ placed

variable {vars : VarTable} {supplied : VarId → Prop} {edges : List Edge} {layout later : Layout}
  {item : FromItem} {order : List FromItem} {truth : VarId → String → VarId → Prop}

/-- The conditions on relationships are found again in what they are joined to. -/
theorem filter_conjuncts {conditions : List Expr} {joined : Expr}
    (written : ∀ condition ∈ conditions, ∀ part ∈ condition.conjuncts, part.readsColumn = false)
    (result : Expr.conjoin (layout.edgeConditions edges item ++ conditions) = some joined)
    : joined.conjuncts.filter Expr.readsColumn = layout.edgeConditions edges item := by
  rw [Expr.conjuncts_of_conjoin result, List.flatMap_append, List.filter_append]
  have others : (conditions.flatMap Expr.conjuncts).filter Expr.readsColumn = [] := by
    rw [List.filter_eq_nil_iff]
    intro part member
    obtain ⟨condition, listed, inside⟩ := List.mem_flatMap.mp member
    simp [written condition listed part inside]
  have each : ∀ condition ∈ layout.edgeConditions edges item,
      condition.conjuncts = [condition] ∧ condition.readsColumn := by
    intro condition member
    obtain ⟨edge, -, inside⟩ := List.mem_flatMap.mp member
    have isCondition := Edge.isCondition_of_mem inside
    exact ⟨isCondition.single, isCondition.readsColumn⟩
  rw [others, List.append_nil]
  generalize layout.edgeConditions edges item = own at each
  induction own with
  | nil => rfl
  | cons first rest ih =>
      obtain ⟨single, reads⟩ := each first (by simp)
      rw [List.flatMap_cons, single, List.singleton_append, List.filter_cons_of_pos reads,
        ih fun condition member => each condition (by simp [member])]

/-- A step adds no join, or one for its item with the conditions that its relationships bring. An
optional item is always joined.
-/
theorem Step.joins_cases (step : Step edges (Ready vars supplied) layout item later)
    : item.optional = false
        ∧ (layout.fromItems = [] ∨ layout.edgeConditions edges item = [])
        ∧ later.joins = layout.joins
      ∨ ∃ join,
          later.joins = layout.joins ++ [join]
          ∧ join.item = item
          ∧ join.outer = item.optional
          ∧ join.edgeConditions = layout.edgeConditions edges item := by
  cases step with
  | source required unconnected => exact .inl ⟨required, unconnected, rfl⟩
  | @inner condition required behind joined =>
      refine .inr ⟨_, rfl, rfl, required.symm, ?_⟩
      exact filter_conjuncts (List.forall_mem_nil _) (by simpa using joined)
  | @outer conditions isOptional behind checked =>
      refine .inr ⟨_, rfl, rfl, isOptional.symm, ?_⟩
      cases joined : Expr.conjoin (layout.edgeConditions edges item ++ conditions) with
      | some condition =>
          exact filter_conjuncts (fun condition member => (checked condition member).written) joined
      | none =>
          have none : layout.edgeConditions edges item ++ conditions = [] := by
            cases list : layout.edgeConditions edges item ++ conditions with
            | nil => rfl
            | cons first rest => simp [list, Expr.conjoin] at joined
          rw [(List.append_eq_nil_iff.mp none).1]
          rfl

/-- Placing an item makes the joins say what they said and what the conditions of its relationships
say.
-/
theorem Step.edgesHold (step : Step edges (Ready vars supplied) layout item later)
    (marked : layout.Marked) (grounded : layout.Grounded) (apart : ∀ edge ∈ edges, edge.Apart item)
    : EdgesHold truth later.joins
      ↔ EdgesHold truth layout.joins
        ∧ ∀ condition ∈ layout.edgeConditions edges item, condition.Holds truth := by
  rcases step.joins_cases with ⟨-, unconnected, same⟩ | ⟨join, added, -, -, conditions⟩
  · have none : layout.edgeConditions edges item = [] := by
      rcases unconnected with first | none
      · refine List.flatMap_eq_nil_iff.mpr fun edge member => ?_
        exact Edge.conditions_eq_nil (apart edge member) (marked.not_mem_placed grounded first)
      · exact none
    simp [same, none]
  · simp [EdgesHold, or_imp, forall_and, added, conditions]

/-- The joins say what the placed part of every relationship demands, if they did before, by
induction over the run.
-/
theorem Run.edgesHold (run : Run edges (Ready vars supplied) layout order later)
    (marked : layout.Marked) (grounded : layout.Grounded)
    (apart : ∀ edge ∈ edges, ∀ item ∈ order, edge.Apart item)
    (holds : EdgesHold truth layout.joins ↔ ∀ edge ∈ edges, edge.Known truth layout.placed)
    : EdgesHold truth later.joins ↔ ∀ edge ∈ edges, edge.Known truth later.placed := by
  induction run with
  | done => exact holds
  | @next layout item middle order later step _ ih =>
      refine ih (step.marked marked) step.grounded
        (fun edge member item listed => apart edge member item (by simp [listed])) ?_
      have placed : middle.placed = layout.placed.insertAll item.ids := by
        cases step <;> rfl
      rw [step.edgesHold marked grounded fun edge member => apart edge member item (by simp), holds,
        placed]
      simp only [Edge.known_insertAll, edgeConditions, List.mem_flatMap]
      constructor
      · rintro ⟨known, conditions⟩ edge member
        exact ⟨known edge member, fun condition inside =>
          conditions condition ⟨edge, member, inside⟩⟩
      · intro both
        refine ⟨fun edge member => (both edge member).1, ?_⟩
        rintro condition ⟨edge, member, inside⟩
        exact (both edge member).2 condition inside

/-- What the condition of a join refers to, and some item supplies, is supplied in the `FROM` or by
a join up to this one.
-/
def Backed (vars : VarTable) (supplied : VarId → Prop) (layout : Layout) : Prop :=
  ∀ position join,
    layout.joins[position]? = some join
    → ∀ id ∈ join.condition.references,
        supplied (vars.resolve id)
        → ∃ item ∈ layout.fromItems ++ (layout.joins.take (position + 1)).map (·.item),
            vars.resolve id ∈ item.ids

/-- A new join may refer to what is placed with its own item. -/
theorem Backed.join {join : Join} (backed : layout.Backed vars supplied)
    (marked : { layout.mark join.item with joins := layout.joins ++ [join] : Layout }.Marked)
    (placed
      : ∀ id ∈ join.condition.references,
          supplied (vars.resolve id) → vars.resolve id ∈ (layout.mark join.item).placed)
    : { layout.mark join.item with joins := layout.joins ++ [join] : Layout }.Backed
      vars supplied := by
  intro position other found id refers isSupplied
  rcases Nat.lt_or_ge position layout.joins.length with before | behind
  · rw [List.getElem?_append_left before] at found
    rw [List.take_append_of_le_length before]
    exact backed position other found id refers isSupplied
  · have last : position = layout.joins.length := by
      have within := (List.getElem?_eq_some_iff.mp found).1
      simp only [List.length_append, List.length_singleton] at within
      omega
    subst last
    obtain rfl : join = other := by simpa using found
    have all : (layout.joins ++ [join]).take (layout.joins.length + 1) = layout.joins ++ [join] :=
      List.take_of_length_le (by simp)
    rw [all]
    exact (marked _).mp (placed id refers isSupplied)

/-- Conditions on relationships refer to what is placed with the item. -/
theorem mem_placed_of_edgeConditions (resolved : ∀ edge ∈ edges, edge.Resolved vars)
    {condition : Expr} (member : condition ∈ layout.edgeConditions edges item) {id : VarId}
    (refers : id ∈ condition.references)
    : vars.resolve id ∈ (layout.mark item).placed := by
  obtain ⟨edge, listed, inside⟩ := List.mem_flatMap.mp member
  obtain ⟨own, now⟩ := (Edge.isCondition_of_mem inside).references id refers
  have same : vars.resolve id = id := by
    rcases own with rfl | rfl | rfl
    · exact (resolved edge listed).relationship
    · exact (resolved edge listed).left
    · exact (resolved edge listed).right
  rw [same, mem_mark]
  exact now.symm

/-- Placing an item keeps the joins from referring to later items. -/
theorem Step.backed (step : Step edges (Ready vars supplied) layout item later)
    (resolved : ∀ edge ∈ edges, edge.Resolved vars) (marked : layout.Marked)
    (backed : layout.Backed vars supplied)
    : later.Backed vars supplied := by
  have markedLater := step.marked marked
  cases step with
  | source required unconnected =>
      intro position join found id refers isSupplied
      obtain ⟨other, listed, supplies⟩ := backed position join found id refers isSupplied
      refine ⟨other, ?_, supplies⟩
      rcases List.mem_append.mp listed with before | joined
      · exact List.mem_append_left _ (List.mem_append_left _ before)
      · exact List.mem_append_right _ joined
  | inner required behind joined =>
      refine backed.join markedLater fun id refers _ => ?_
      obtain ⟨condition, member, refers⟩ := Expr.mem_references_of_conjoin joined refers
      exact mem_placed_of_edgeConditions resolved member refers
  | @outer conditions isOptional behind checked =>
      refine backed.join markedLater fun id refers isSupplied => ?_
      dsimp only at refers
      cases joined : Expr.conjoin (layout.edgeConditions edges item ++ conditions) with
      | none => simp [joined, Expr.mem_references, Expr.parts, Expr.reference?] at refers
      | some condition =>
          rw [joined, Option.getD_some] at refers
          obtain ⟨part, member, refers⟩ := Expr.mem_references_of_conjoin joined refers
          rcases List.mem_append.mp member with own | written
          · exact mem_placed_of_edgeConditions resolved own refers
          · exact (checked part written).references id refers isSupplied

/-- No join refers to later items, by induction over the run. -/
theorem Run.backed (run : Run edges (Ready vars supplied) layout order later)
    (resolved : ∀ edge ∈ edges, edge.Resolved vars) (marked : layout.Marked)
    (backed : layout.Backed vars supplied)
    : later.Backed vars supplied := by
  induction run with
  | done => exact backed
  | next step _ ih => exact ih (step.marked marked) (step.backed resolved marked backed)

end Layout

end CypherSql.Plan
