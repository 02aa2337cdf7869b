import CypherSql.Plan.Joins
import CypherSql.Proofs.Expressions
import Mathlib.Data.List.Perm.Basic

/-! Arrangements as runs: items are placed one after the other, each in the `FROM`, in an inner join
or in an outer join. What one placement does to the layout is said once, and what holds of every
layout that a run leads to follows by induction.
-/

namespace CypherSql.Plan.Layout

/-- What placing an item does. A required item goes to the `FROM`, if no condition is lost there, or
into an inner join behind it; an optional item goes into an outer join behind it, with conditions
that are ready once it is placed.
-/
inductive Step (edges : List Edge) (ready : NameSet → Expr → Prop) (layout : Layout)
    (item : FromItem)
    : Layout → Prop where
  | source (required : item.optional = false)
    (unconnected : layout.fromItems = [] ∨ layout.edgeConditions edges item = [])
    : Step edges ready layout item
        { layout.mark item with fromItems := layout.fromItems ++ [item] }
  | inner {condition} (required : item.optional = false) (behind : layout.fromItems ≠ [])
    (joined : Expr.conjoin (layout.edgeConditions edges item) = some condition)
    : Step edges ready layout item
        { layout.mark item with joins := layout.joins ++ [⟨false, item, condition⟩] }
  | outer {conditions} (isOptional : item.optional = true) (behind : layout.fromItems ≠ [])
    (checked : ∀ condition ∈ conditions, ready (layout.mark item).placed condition)
    : Step edges ready layout item
        { layout.mark item with
          joins := layout.joins
            ++ [⟨true, item,
                  (Expr.conjoin (layout.edgeConditions edges item ++ conditions)).getD
                    (.literal (.boolean true))⟩] }

/-- Items are placed one after the other. -/
inductive Run (edges : List Edge) (ready : NameSet → Expr → Prop)
    : Layout → List FromItem → Layout → Prop where
  | done {layout} : Run edges ready layout [] layout
  | next {layout item middle items later} (step : Step edges ready layout item middle)
    (rest : Run edges ready middle items later)
    : Run edges ready layout (item :: items) later

/-- All items of a layout, those of the `FROM` first. -/
def items (layout : Layout) : List FromItem :=
  layout.fromItems ++ layout.joins.map (·.item)

/-- The placed variables are those that the items supply. -/
def Marked (layout : Layout) : Prop :=
  ∀ id, id ∈ layout.placed ↔ ∃ item ∈ layout.items, id ∈ item.ids

theorem mem_mark {layout : Layout} {item : FromItem} {id : VarId}
    : id ∈ (layout.mark item).placed ↔ id ∈ item.ids ∨ id ∈ layout.placed :=
  NameSet.mem_insertAll

section

variable {edges : List Edge} {ready : NameSet → Expr → Prop} {layout later : Layout}
  {item : FromItem} {order : List FromItem}

/-- One run may follow another. -/
theorem Run.append {middle : Layout} {more : List FromItem}
    (first : Run edges ready layout order middle)
    (second : Run edges ready middle more later)
    : Run edges ready layout (order ++ more) later := by
  induction first with
  | done => exact second
  | next step _ ih => exact .next step (ih second)

theorem Step.items_perm (step : Step edges ready layout item later)
    : later.items.Perm (layout.items ++ [item]) := by
  cases step with
  | source required unconnected =>
      simp only [items, mark, List.append_assoc]
      exact List.Perm.append_left _ List.perm_append_comm
  | inner required behind joined => simp [items, mark]
  | outer isOptional behind checked => simp [items, mark]

/-- The layout has the items it had and those that were placed, by induction over the run. -/
theorem Run.items_perm (run : Run edges ready layout order later)
    : later.items.Perm (layout.items ++ order) := by
  induction run with
  | done => simp
  | @next layout item middle order later step _ ih =>
      refine ih.trans ?_
      have first := step.items_perm.append_right order
      rwa [List.append_assoc] at first

theorem Step.mem_placed (step : Step edges ready layout item later) {id : VarId}
    : id ∈ later.placed ↔ id ∈ item.ids ∨ id ∈ layout.placed := by
  cases step <;> exact mem_mark

/-- The placed variables are those that were and those of the placed items, by induction over the
run.
-/
theorem Run.mem_placed (run : Run edges ready layout order later) {id : VarId}
    : id ∈ later.placed ↔ id ∈ layout.placed ∨ ∃ item ∈ order, id ∈ item.ids := by
  induction run with
  | done => simp
  | next step _ ih => simp [ih, step.mem_placed, or_assoc, or_left_comm]

/-- Variables stay marked as placed with their items. -/
theorem Step.marked (step : Step edges ready layout item later) (marked : layout.Marked)
    : later.Marked := by
  intro id
  rw [step.mem_placed, marked]
  have members (other : FromItem) := step.items_perm.mem_iff (a := other)
  simp only [members, List.mem_append, List.mem_singleton, or_and_right, exists_or, exists_eq_left]
  exact or_comm

/-- Nothing is joined before there is something in the `FROM`. -/
def Grounded (layout : Layout) : Prop :=
  layout.fromItems = [] → layout.joins = []

theorem Step.grounded (step : Step edges ready layout item later) : later.Grounded := by
  cases step with
  | source required unconnected => simp [Grounded]
  | inner required behind joined => exact fun none => absurd none behind
  | outer isOptional behind checked => exact fun none => absurd none behind

theorem Run.grounded (run : Run edges ready layout order later) (grounded : layout.Grounded)
    : later.Grounded := by
  induction run with
  | done => exact grounded
  | next step _ ih => exact ih step.grounded

/-- Where nothing is in the `FROM`, no variable is placed. -/
theorem Marked.not_mem_placed (marked : layout.Marked) (grounded : layout.Grounded)
    (none : layout.fromItems = []) (id : VarId)
    : id ∉ layout.placed := by
  rw [marked]
  simp [items, none, grounded none]

/-- An optional item is in an outer join, and any other is in the `FROM` or an inner join. -/
structure Sorted (layout : Layout) : Prop where
  fromItems : ∀ item ∈ layout.fromItems, item.optional = false
  joins : ∀ join ∈ layout.joins, join.outer = join.item.optional

theorem Step.sorted (step : Step edges ready layout item later) (sorted : layout.Sorted)
    : later.Sorted := by
  obtain ⟨fromItems, joins⟩ := sorted
  cases step with
  | source required unconnected =>
      refine ⟨fun other member => ?_, joins⟩
      rcases List.mem_append.mp member with old | last
      · exact fromItems other old
      · exact List.mem_singleton.mp last ▸ required
  | inner required behind joined =>
      refine ⟨fromItems, fun join member => ?_⟩
      rcases List.mem_append.mp member with old | last
      · exact joins join old
      · obtain rfl := List.mem_singleton.mp last
        exact required.symm
  | outer isOptional behind checked =>
      refine ⟨fromItems, fun join member => ?_⟩
      rcases List.mem_append.mp member with old | last
      · exact joins join old
      · obtain rfl := List.mem_singleton.mp last
        exact isOptional.symm

theorem Run.sorted (run : Run edges ready layout order later) (sorted : layout.Sorted)
    : later.Sorted := by
  induction run with
  | done => exact sorted
  | next step _ ih => exact ih (step.sorted sorted)

/-- The items of the joins are placed in their order: a run adds some of what it places, in order.
-/
theorem Run.joins_sublist (run : Run edges ready layout order later)
    : ∃ joined,
        later.joins.map (·.item) = layout.joins.map (·.item) ++ joined ∧ joined.Sublist order := by
  induction run with
  | done => exact ⟨[], by simp, .refl _⟩
  | next step _ ih =>
      obtain ⟨joined, same, within⟩ := ih
      cases step with
      | source required unconnected => exact ⟨joined, same, within.cons _⟩
      | inner required behind condition =>
          exact ⟨_ :: joined, by simpa [mark] using same, within.cons_cons _⟩
      | outer isOptional behind checked =>
          exact ⟨_ :: joined, by simpa [mark] using same, within.cons_cons _⟩

/-- The items of the `FROM` stay where they are. -/
theorem Run.fromItems_append (run : Run edges ready layout order later)
    : ∃ more, later.fromItems = layout.fromItems ++ more := by
  induction run with
  | done => exact ⟨[], by simp⟩
  | next step _ ih =>
      obtain ⟨more, same⟩ := ih
      cases step with
      | source required unconnected => exact ⟨_ :: more, by simpa [mark] using same⟩
      | inner required behind condition => exact ⟨more, same⟩
      | outer isOptional behind checked => exact ⟨more, same⟩

/-- The first item is the first one of the `FROM`, if it is a required one. -/
theorem Run.head?_fromItems (run : Run edges ready .empty (item :: order) later)
    (required : item.optional = false)
    : later.fromItems.head? = some item := by
  cases run with
  | next step rest =>
      obtain ⟨others, same⟩ := rest.fromItems_append
      cases step with
      | source _ _ =>
          rw [same]
          rfl
      | inner _ behind _ => exact absurd rfl behind
      | outer isOptional _ _ => simp [required] at isOptional

end

end CypherSql.Plan.Layout
