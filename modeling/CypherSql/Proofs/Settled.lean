import CypherSql.Proofs.Passes.Joins
import CypherSql.Proofs.Rewriting

/-! What holds of a draft once its subqueries have their exports, and holds to the end: every item
has its table, every scope reads the subquery before it and no other, and every subquery projects
and exports something. Rewriting expressions keeps it.
-/

namespace CypherSql.Plan

/-- Each item holds on to a variable of a list: one that no other item names. -/
def Anchored (items : List Item) (ids : List VarId) : Prop :=
  ∀ item ∈ items, ∃ id ∈ ids, .named id ∈ items → item = .named id

/-- An item names a variable that its scope projects, or has a column of its own. -/
def Item.Declares (vars : VarTable) (scope : Nat) : Item → Prop
  | .named id =>
      ∃ var expr type,
        vars.get? id = some var ∧ var.scope = scope ∧ var.definition = .projected expr type
  | .unnamed _ column => ∃ name, vars.definition? column = some (.temporary name)

/-- An item is in its place: it has its table, and no conditions wait with it. -/
structure FromItem.Settled (vars : VarTable) (item : FromItem) : Prop where
  placed : item.pending = []
  sound : item.fault? true = none
  housed : vars.Housed item

/-- The sources and items of a scope are settled. -/
structure Scope.Settled (vars : VarTable) (scope : Scope) : Prop where
  sources : ∀ item ∈ scope.select.items, item.Settled vars
  reads
    : ∀ source,
        (∃ item ∈ scope.select.fromItems, item.source = some source) ↔ source + 1 = scope.index
  joins : ∀ join ∈ scope.select.joins, join.item.source = none
  declares : ∀ item ∈ scope.items, item.Declares vars scope.index
  namedOnce : (namedIds scope.items).Nodup
  projects : scope.items ≠ []

/-- The scopes of a tree have their positions as their indices. -/
abbrev Tree.Indexed (tree : Tree) : Prop :=
  tree.scopes.map (·.index) = List.range (tree.subqueries.length + 1)

/-- All scopes of a tree are settled and have their positions as their indices. Each subquery has a
name and exports something, and what a scope reads from it holds on to its items.
-/
structure Tree.Settled (vars : VarTable) (tree : Tree) : Prop where
  indexed : tree.Indexed
  scopes : ∀ scope ∈ tree.scopes, scope.Settled vars
  names : ∀ subquery ∈ tree.subqueries, subquery.name.isSome
  exports : ∀ subquery ∈ tree.subqueries, subquery.exports ≠ []
  supplied
    : ∀ scope ∈ tree.scopes,
        ∀ item ∈ scope.select.fromItems,
          ∀ source subquery,
            item.source = some source
            → tree.subqueries[source]? = some subquery
            → Anchored subquery.scope.items item.ids

/-- The exports of every subquery hold on to its items, by variables that no other item names or by
names of nodes and relationships.
-/
def Tree.ExportsAnchored (vars : VarTable) (tree : Tree) : Prop :=
  ∀ subquery ∈ tree.subqueries,
    ∀ item ∈ subquery.scope.items,
      ∃ export' ∈ subquery.exports,
        vars.NamesElement export'.id
        ∨ (.named export'.id ∈ subquery.scope.items → item = .named export'.id)

namespace Tree.Indexed

variable {tree : Tree}

/-- No index is larger than that of the last scope. -/
theorem index_le (indexed : tree.Indexed) {scope : Scope} (member : scope ∈ tree.scopes)
    : scope.index ≤ tree.subqueries.length := by
  have listed : scope.index ∈ tree.scopes.map (·.index) := List.mem_map_of_mem member
  rw [indexed, List.mem_range] at listed
  omega

/-- A scope has its position as its index. -/
theorem getElem?_index (indexed : tree.Indexed) {scope : Scope} (member : scope ∈ tree.scopes)
    : tree.scopes[scope.index]? = some scope := by
  obtain ⟨position, found⟩ := List.mem_iff_getElem?.mp member
  have mapped : (tree.scopes.map (·.index))[position]? = some scope.index := by
    rw [List.getElem?_map, found]
    rfl
  rw [indexed] at mapped
  obtain ⟨within, same⟩ := List.getElem?_eq_some_iff.mp mapped
  have same : position = scope.index := by simpa using same
  exact same ▸ found

theorem subquery_index (indexed : tree.Indexed) {position : Nat} {subquery : Subquery}
    (found : tree.subqueries[position]? = some subquery)
    : subquery.scope.index = position := by
  have isScope := Tree.scopes_getElem? found
  have mapped : (tree.scopes.map (·.index))[position]? = some subquery.scope.index := by
    rw [List.getElem?_map, isScope]
    rfl
  rw [indexed] at mapped
  obtain ⟨_, same⟩ := List.getElem?_eq_some_iff.mp mapped
  simpa using same.symm

theorem root_index (indexed : tree.Indexed) : tree.root.index = tree.subqueries.length := by
  have last := congrArg (·[tree.subqueries.length]?) indexed
  simpa [Tree.scopes] using last

/-- Changed scopes keep their positions if the change keeps their indices. -/
theorem maps {later : Tree} {related : Scope → Scope → Prop} (indexed : tree.Indexed)
    (maps : tree.Maps related later) (index : ∀ old new, related old new → new.index = old.index)
    : later.Indexed := by
  rw [Tree.Indexed, maps.length, ← indexed]
  exact map_eq_of_forall₂ maps.scopes index

end Tree.Indexed

namespace Tree.Settled

variable {vars : VarTable} {tree : Tree}

/-- A settled tree has no fault. -/
theorem fault?_eq_none (settled : tree.Settled vars) : tree.fault? true = none := by
  refine Tree.fault?_eq_none (fun scope => settled.indexed.index_le)
    fun scope member item inside => ?_
  have scopeSettled := settled.scopes scope member
  refine ⟨(scopeSettled.sources item inside).sound, fun source isSubquery => ?_⟩
  rcases List.mem_append.mp inside with inFrom | joined
  · exact (scopeSettled.reads source).mp ⟨item, inFrom, isSubquery⟩
  · obtain ⟨join, isJoin, rfl⟩ := List.mem_map.mp joined
    simp [scopeSettled.joins join isJoin] at isSubquery

end Tree.Settled

/-- Rewritten items name the same variables. -/
theorem namedIds_alike {items later : List Item} (alike : List.Forall₂ Item.Alike items later)
    : namedIds later = namedIds items := by
  induction alike with
  | nil => rfl
  | cons first _ ih =>
      cases first with
      | named id => simpa [namedIds] using ih
      | unnamed old new column => simpa [namedIds] using ih

theorem Anchored.alike {items later : List Item} {ids : List VarId} (anchored : Anchored items ids)
    (alike : List.Forall₂ Item.Alike items later)
    : Anchored later ids := by
  intro item member
  obtain ⟨position, at'⟩ := List.mem_iff_getElem?.mp member
  obtain ⟨old, present, same⟩ := forall₂_getElem?_right alike at'
  obtain ⟨id, listed, only⟩ := anchored old (List.mem_of_getElem? present)
  refine ⟨id, listed, fun named => ?_⟩
  have named : .named id ∈ items := by
    rwa [← mem_namedIds, ← namedIds_alike alike, mem_namedIds]
  have old := only named
  subst old
  cases same
  rfl

namespace VarTable.SameStamps

variable {vars later : VarTable} (same : vars.SameStamps later)

include same

theorem get? {id : VarId} {var : Variable} (found : vars.get? id = some var)
    : ∃ other, later.get? id = some other ∧ other.stamp = var.stamp := by
  have stamps := same id
  rw [found, Option.map_some] at stamps
  exact Option.map_eq_some_iff.mp stamps

/-- Bound variables stay bound. -/
theorem bound {id : VarId} (bound : vars.Bound id) : later.Bound id := by
  obtain ⟨definition, found, isBound⟩ := bound
  obtain ⟨var, present, rfl⟩ := definition?_eq_some.mp found
  obtain ⟨other, present', stamp⟩ := same.get? present
  refine ⟨other.definition, definition?_of_get? present', ?_⟩
  have stamp := congrArg Variable.definition stamp
  simp only [Variable.stamp] at stamp
  cases old : var.definition <;> cases new : other.definition <;>
    simp_all [Definition.stamp, Definition.isBound]

/-- Items stay declared. -/
theorem declares {scope : Nat} {item : Item} (declares : item.Declares vars scope)
    : item.Declares later scope := by
  cases item with
  | named id =>
      obtain ⟨var, expr, type, found, here, definition⟩ := declares
      obtain ⟨other, found', stamp⟩ := same.get? found
      have sameScope := congrArg Variable.scope stamp
      have stamp := congrArg Variable.definition stamp
      simp only [Variable.stamp, definition] at stamp sameScope
      cases new : other.definition with
      | projected expr' type' => exact ⟨other, expr', type', found', sameScope.trans here, new⟩
      | _ => simp [new, Definition.stamp] at stamp
  | unnamed expr column =>
      obtain ⟨name, temporary⟩ := declares
      obtain ⟨var, found, definition⟩ := definition?_eq_some.mp temporary
      obtain ⟨other, found', stamp⟩ := same.get? found
      have stamp := congrArg Variable.definition stamp
      simp only [Variable.stamp, definition] at stamp
      cases new : other.definition with
      | temporary name' => exact ⟨name', definition?_eq_some.mpr ⟨other, found', new⟩⟩
      | _ => simp [new, Definition.stamp] at stamp

theorem settledItem {item : FromItem} (settled : item.Settled vars) : item.Settled later :=
  ⟨settled.placed, settled.sound,
    fun id isTable => ⟨(settled.housed id isTable).1, same.bound (settled.housed id isTable).2⟩⟩

end VarTable.SameStamps

section Alike

variable {vars varsLater : VarTable} {scope later : Scope}

/-- Rewriting changes no source that is settled. -/
theorem Scope.Alike.fromItems_eq (alike : scope.Alike later)
    (placed : ∀ item ∈ scope.select.items, item.pending = [])
    : later.select.fromItems = scope.select.fromItems := by
  have placed : ∀ item ∈ scope.select.fromItems, item.pending = [] :=
    fun item member => placed item (List.mem_append_left _ member)
  have same := alike.fromItems
  generalize scope.select.fromItems = old at same placed
  generalize later.select.fromItems = new at same
  induction same with
  | nil => rfl
  | cons first _ ih =>
      rw [first (placed _ (by simp)), ih fun item member => placed item (by simp [member])]

/-- Rewriting changes no joined item that is settled. -/
theorem Scope.Alike.joins_eq (alike : scope.Alike later)
    (placed : ∀ item ∈ scope.select.items, item.pending = [])
    : later.select.joins.map (·.item) = scope.select.joins.map (·.item) := by
  have placed : ∀ item ∈ scope.select.joins.map (·.item), item.pending = [] :=
    fun item member => placed item (List.mem_append_right _ member)
  have same := alike.joins
  generalize scope.select.joins = old at same placed
  generalize later.select.joins = new at same
  induction same with
  | nil => rfl
  | cons first _ ih =>
      rw [List.map_cons, List.map_cons, first (placed _ (by simp)),
        ih fun item member => placed item (List.mem_cons_of_mem _ member)]

/-- A rewritten scope stays settled. -/
theorem Scope.Settled.alike (settled : scope.Settled vars) (alike : scope.Alike later)
    (same : vars.SameStamps varsLater)
    : later.Settled varsLater := by
  have placed := fun item member => (settled.sources item member).placed
  have fromItems := alike.fromItems_eq placed
  have joins := alike.joins_eq placed
  refine {
    sources := ?_
    reads := ?_
    joins := ?_
    declares := ?_
    namedOnce := namedIds_alike alike.items ▸ settled.namedOnce
    projects := ?_
  }
  · intro item member
    rw [Select.items, fromItems, joins] at member
    exact same.settledItem (settled.sources item member)
  · intro source
    rw [fromItems, alike.index]
    exact settled.reads source
  · intro join member
    have listed : join.item ∈ scope.select.joins.map (·.item) :=
      joins ▸ List.mem_map_of_mem (f := (·.item)) member
    obtain ⟨old, present, equal⟩ := List.mem_map.mp listed
    exact equal ▸ settled.joins old present
  · intro item member
    obtain ⟨position, at'⟩ := List.mem_iff_getElem?.mp member
    obtain ⟨old, present, related⟩ := forall₂_getElem?_right alike.items at'
    have declares := same.declares (settled.declares old (List.mem_of_getElem? present))
    rw [alike.index]
    cases related with
    | named id => exact declares
    | unnamed before after column => exact declares
  · intro none
    have items := alike.items
    rw [none, List.forall₂_nil_right_iff] at items
    exact settled.projects items

/-- A rewritten tree stays settled. -/
theorem Tree.Settled.alike {tree treeLater : Tree} (settled : tree.Settled vars)
    (maps : tree.Maps Scope.Alike treeLater) (same : vars.SameStamps varsLater)
    : treeLater.Settled varsLater := by
  refine {
    indexed := settled.indexed.maps maps fun _ _ alike => alike.index
    scopes := ?_
    names := ?_
    exports := ?_
    supplied := ?_
  }
  · intro scope member
    obtain ⟨old, listed, alike⟩ := maps.of_mem member
    exact (settled.scopes old listed).alike alike same
  · intro subquery member
    obtain ⟨position, at'⟩ := List.mem_iff_getElem?.mp member
    obtain ⟨old, present, related⟩ := maps.getElem? at'
    exact related.name ▸ settled.names old (List.mem_of_getElem? present)
  · intro subquery member
    obtain ⟨position, at'⟩ := List.mem_iff_getElem?.mp member
    obtain ⟨old, present, related⟩ := maps.getElem? at'
    exact related.exports ▸ settled.exports old (List.mem_of_getElem? present)
  · intro scope member item listed source subquery isSubquery found
    obtain ⟨old, present, alike⟩ := maps.of_mem member
    obtain ⟨before, found', related⟩ := maps.getElem? found
    have placed := fun item member => ((settled.scopes old present).sources item member).placed
    rw [alike.fromItems_eq placed] at listed
    exact (settled.supplied old present item listed source before isSubquery found').alike
      related.scope.items

theorem Tree.maps_alike_refl (tree : Tree) : tree.Maps Scope.Alike tree := by
  have alike (scope : Scope) : scope.Alike scope := by
    refine ⟨rfl, List.forall₂_same.mpr fun item _ => ?_, List.forall₂_same.mpr fun _ _ _ => rfl,
      List.forall₂_same.mpr fun _ _ _ => rfl⟩
    cases item with
    | named id => exact .named id
    | unnamed expr column => exact .unnamed expr expr column
  exact ⟨List.forall₂_same.mpr fun _ _ => ⟨rfl, rfl, alike _⟩, alike _⟩

/-- The exports of a rewritten tree stay anchored. -/
theorem Tree.ExportsAnchored.alike {tree treeLater : Tree} (anchored : tree.ExportsAnchored vars)
    (maps : tree.Maps Scope.Alike treeLater)
    (names : ∀ id, vars.NamesElement id → varsLater.NamesElement id)
    : treeLater.ExportsAnchored varsLater := by
  intro subquery member item listed
  obtain ⟨position, at'⟩ := List.mem_iff_getElem?.mp member
  obtain ⟨old, present, related⟩ := maps.getElem? at'
  have alike := related.scope.items
  obtain ⟨place, atItem⟩ := List.mem_iff_getElem?.mp listed
  obtain ⟨oldItem, presentItem, same⟩ := forall₂_getElem?_right alike atItem
  obtain ⟨exported, inExports, holds⟩ :=
    anchored old (List.mem_of_getElem? present) oldItem (List.mem_of_getElem? presentItem)
  refine ⟨exported, related.exports ▸ inExports, holds.imp (names _) fun only named => ?_⟩
  have named : .named exported.id ∈ old.scope.items := by
    rwa [← mem_namedIds, ← namedIds_alike alike, mem_namedIds]
  have equal := only named
  subst equal
  cases same
  rfl

end Alike

end CypherSql.Plan
