import CypherSql.Proofs.Variables.Resolution
import Mathlib.Data.List.Basic
import Mathlib.Logic.Relation

/-! Well-formed tables of variables: what definitions mention is declared before them, other names
lead to something that is no other name, and patterns link nodes by relationships. Links outlive
every growth of the table.
-/

namespace CypherSql.Plan

namespace VarTable

/-- The variable stands for a node. -/
def StandsForNode (vars : VarTable) (id : VarId) : Prop :=
  ∃ node, vars.node? (vars.resolve id) = some node

/-- Nodes and relationships in turn, each relationship between the nodes beside it. -/
def Chain (vars : VarTable) : List VarId → Prop
  | [node] => vars.StandsForNode node
  | left :: relationship :: right :: rest =>
      vars.StandsForNode left
      ∧ (∃ rel, vars.relationship? relationship = some rel ∧ rel.left = left ∧ rel.right = right)
      ∧ vars.Chain (right :: rest)
  | _ => False

end VarTable

/-- The ends of a relationship stand for nodes, and a path has a chain with its number of hops. -/
def Definition.Linked (vars : VarTable) : Definition → Prop
  | .relationship rel => vars.StandsForNode rel.left ∧ vars.StandsForNode rel.right
  | .path hops elements => elements.length = 2 * hops + 1 ∧ vars.Chain elements
  | _ => True

/-- All definitions of a table are linked. -/
def VarTable.Linked (vars : VarTable) : Prop :=
  ∀ {id var}, vars.get? id = some var → var.definition.Linked vars

/-- A variable that stands for a declared one is declared itself. -/
theorem VarTable.isSome_of_resolve {vars : VarTable} {id : VarId}
    (resolved : (vars.get? (vars.resolve id)).isSome)
    : (vars.get? id).isSome := by
  cases found : vars.get? id with
  | some var => rfl
  | none =>
      rw [VarTable.Ordered.resolve_of_get?_none found, found] at resolved
      cases resolved

/-- What stands for a node is declared. -/
theorem VarTable.StandsForNode.isSome {vars : VarTable} {id : VarId}
    (stands : vars.StandsForNode id)
    : (vars.get? id).isSome := by
  obtain ⟨node, found⟩ := stands
  obtain ⟨var, present, -⟩ := definition?_eq_some.mp (node?_eq_some.mp found)
  exact VarTable.isSome_of_resolve (by simp [present])

/-- The elements of a chain are declared, by induction over its hops. -/
theorem VarTable.Chain.isSome {vars : VarTable} {elements : List VarId}
    (chain : vars.Chain elements) {id : VarId} (member : id ∈ elements)
    : (vars.get? id).isSome := by
  fun_induction VarTable.Chain vars elements with
  | case1 node =>
      obtain rfl := List.mem_singleton.mp member
      exact StandsForNode.isSome chain
  | case2 left relationship right rest ih =>
      obtain ⟨start, ⟨rel, found, -⟩, chain⟩ := chain
      rcases List.mem_cons.mp member with rfl | member
      · exact start.isSome
      · rcases List.mem_cons.mp member with rfl | member
        · obtain ⟨var, present, -⟩ := definition?_eq_some.mp (relationship?_eq_some.mp found)
          simp [present]
        · exact ih chain member
  | case3 => exact chain.elim

namespace VarTable.GrowsTo

variable {vars later : VarTable} {order orderLater : List VarId} {id : VarId}

/-- A node stays a node. -/
theorem node? (grows : vars.GrowsTo later) {node : NodeVar} (found : vars.node? id = some node)
    : ∃ other, later.node? id = some other := by
  obtain ⟨var, present, definition⟩ := definition?_eq_some.mp (node?_eq_some.mp found)
  obtain ⟨other, present', -, outline, -⟩ := grows.kept present
  rw [definition] at outline
  cases changed : other.definition with
  | node other' =>
      exact ⟨other', node?_eq_some.mpr (definition?_eq_some.mpr ⟨other, present', changed⟩)⟩
  | _ => simp [changed, Definition.outline] at outline

/-- A relationship stays one between the same ends, with the same arrow and types. -/
theorem relationship? (grows : vars.GrowsTo later) {rel : RelationshipVar}
    (found : vars.relationship? id = some rel)
    : ∃ other,
        later.relationship? id = some other
        ∧ other.left = rel.left
        ∧ other.right = rel.right
        ∧ other.direction = rel.direction
        ∧ other.types = rel.types := by
  obtain ⟨var, present, definition⟩ := definition?_eq_some.mp (relationship?_eq_some.mp found)
  obtain ⟨other, present', -, outline, -⟩ := grows.kept present
  rw [definition] at outline
  cases changed : other.definition with
  | relationship other' =>
      simp only [changed, Definition.outline, Definition.relationship.injEq,
        RelationshipVar.mk.injEq, and_true] at outline
      exact ⟨other',
        relationship?_eq_some.mpr (definition?_eq_some.mpr ⟨other, present', changed⟩), outline⟩
  | _ => simp [changed, Definition.outline] at outline

/-- A variable is a relationship exactly if it was one. -/
theorem isSome_relationship? (grows : vars.GrowsTo later) (declared : (vars.get? id).isSome)
    : (later.relationship? id).isSome = (vars.relationship? id).isSome := by
  obtain ⟨var, found⟩ := Option.isSome_iff_exists.mp declared
  obtain ⟨other, found', -, outline, -⟩ := grows.kept found
  simp only [VarTable.relationship?, definition?_of_get? found, definition?_of_get? found']
  cases old : var.definition <;> cases new : other.definition <;>
    simp_all [Definition.outline]

/-- What stands for a node goes on to stand for it. -/
theorem standsForNode (grows : vars.GrowsTo later) (ordered : vars.Ordered order)
    (orderedLater : later.Ordered orderLater) (stands : vars.StandsForNode id)
    : later.StandsForNode id := by
  obtain ⟨node, found⟩ := stands
  have resolved : (vars.get? (vars.resolve id)).isSome := by
    obtain ⟨var, present, -⟩ := definition?_eq_some.mp (node?_eq_some.mp found)
    simp [present]
  rw [StandsForNode, grows.resolve ordered orderedLater (isSome_of_resolve resolved)]
  exact grows.node? found

/-- A chain stays a chain, by induction over its hops. -/
theorem chain (grows : vars.GrowsTo later) (ordered : vars.Ordered order)
    (orderedLater : later.Ordered orderLater) {elements : List VarId} (chain : vars.Chain elements)
    : later.Chain elements := by
  fun_induction VarTable.Chain vars elements with
  | case1 node => exact grows.standsForNode ordered orderedLater chain
  | case2 left relationship right rest ih =>
      obtain ⟨start, ⟨rel, found, sameLeft, sameRight⟩, chain⟩ := chain
      obtain ⟨other, found, otherLeft, otherRight, -⟩ := grows.relationship? found
      exact ⟨grows.standsForNode ordered orderedLater start,
        ⟨other, found, otherLeft.trans sameLeft, otherRight.trans sameRight⟩, ih chain⟩
  | case3 => exact chain.elim

/-- A definition stays linked under any other with its outline. -/
theorem linked (grows : vars.GrowsTo later) (ordered : vars.Ordered order)
    (orderedLater : later.Ordered orderLater) {definition other : Definition}
    (outline : other.outline = definition.outline) (linked : definition.Linked vars)
    : other.Linked later := by
  cases other with
  | relationship rel =>
      cases definition with
      | relationship old =>
          simp only [Definition.outline, Definition.relationship.injEq,
            RelationshipVar.mk.injEq] at outline
          obtain ⟨left, right, -⟩ := outline
          refine ⟨?_, ?_⟩
          · exact grows.standsForNode ordered orderedLater (left ▸ linked.1)
          · exact grows.standsForNode ordered orderedLater (right ▸ linked.2)
      | _ => simp [Definition.outline] at outline
  | path hops elements =>
      cases definition with
      | path oldHops oldElements =>
          simp only [Definition.outline, Definition.path.injEq] at outline
          obtain ⟨rfl, rfl⟩ := outline
          exact ⟨linked.1, grows.chain ordered orderedLater linked.2⟩
      | _ => simp [Definition.outline] at outline
  | _ => trivial

/-- A table that grows without new variables stays linked. -/
theorem allLinked (grows : vars.GrowsTo later) (ordered : vars.Ordered order)
    (orderedLater : later.Ordered orderLater)
    (same : ∀ id, (later.get? id).isSome → (vars.get? id).isSome) (linked : vars.Linked)
    : later.Linked := by
  intro id var found
  obtain ⟨old, present⟩ := Option.isSome_iff_exists.mp (same id (by simp [found]))
  obtain ⟨other, found', -, outline, -⟩ := grows.kept present
  obtain rfl : var = other := Option.some.inj (found.symm.trans found')
  exact grows.linked ordered orderedLater outline (linked present)

/-- A table stays linked with a new variable whose definition is. -/
theorem linked_insert {var : Variable} (ordered : vars.Ordered order)
    (orderedLater : (vars.insert var).Ordered orderLater) (new : vars.get? var.id = none)
    (linked : vars.Linked) (linkedNew : var.definition.Linked vars)
    : (vars.insert var).Linked := by
  have grows := GrowsTo.insert new
  intro id found present
  rw [get?_insert] at present
  split at present
  · obtain rfl := Option.some.inj present
    exact grows.linked ordered orderedLater rfl linkedNew
  · exact grows.linked ordered orderedLater rfl (linked present)

end VarTable.GrowsTo

/-- The definition mentions a variable: in its condition, as an end, as an element of its path or
in its expression.
-/
def Definition.Mentions (other : VarId) : Definition → Prop
  | .node pattern =>
      ∃ condition, pattern.restriction = some condition ∧ other ∈ condition.references
  | .relationship rel =>
      other = rel.left
      ∨ other = rel.right
      ∨ ∃ condition, rel.restriction = some condition ∧ other ∈ condition.references
  | .path _ elements => other ∈ elements
  | .projected expr _ => other ∈ expr.references
  | .temporary _ => False

namespace VarTable

/-- A variable is directly another name of a variable. -/
def IsNameOf (vars : VarTable) (id target : VarId) : Prop :=
  vars.target? id = some target

/-- A table is well formed with respect to the order in which its variables were declared. -/
structure WellFormed (declared : List VarId) (vars : VarTable) : Prop where
  /-- Besides itself, a variable mentions only variables that were declared before it. -/
  mentions
    : ∀ {id var other},
        vars.get? id = some var
        → var.definition.Mentions other
        → other ≠ id
        → [other, id].Sublist declared
  /-- No chain of names comes back to where it began. -/
  acyclic : ∀ id, ¬ Relation.TransGen vars.IsNameOf id id
  /-- Following names ends before the bound, and at something that is no other name. -/
  stops
    : ∀ id,
        Relation.ReflTransGen vars.IsNameOf id (vars.resolve id)
        ∧ vars.target? (vars.resolve id) = none
        ∧ ∀ n, vars.size ≤ n → vars.resolveWithin n id = vars.resolve id
  idempotent : ∀ id, vars.resolve (vars.resolve id) = vars.resolve id
  ends
    : ∀ {id rel},
        vars.relationship? id = some rel
        → (∃ node, vars.node? (vars.resolve rel.left) = some node)
          ∧ ∃ node, vars.node? (vars.resolve rel.right) = some node
  /-- A path alternates between nodes and relationships, each between its neighbours. -/
  paths
    : ∀ {id hops elements},
        vars.definition? id = some (.path hops elements)
        → elements.length = 2 * hops + 1
          ∧ ∀ hop < hops,
              ∃ left relationship right rel,
                elements[2 * hop]? = some left
                ∧ elements[2 * hop + 1]? = some relationship
                ∧ elements[2 * hop + 2]? = some right
                ∧ vars.relationship? relationship = some rel
                ∧ rel.left = left
                ∧ rel.right = right

end VarTable

/-- What a definition mentions besides its own variable is what it depends on. -/
theorem Definition.Mentions.mem_dependencies {definition : Definition} {id other : VarId}
    (mentions : definition.Mentions other) (different : other ≠ id)
    : other ∈ definition.dependencies id := by
  cases definition with
  | node pattern =>
      obtain ⟨condition, found, member⟩ := mentions
      simp only [Definition.dependencies, Definition.restrictionVariables, found, Option.elim_some,
        NameSet.mem_erase]
      exact ⟨member, different⟩
  | relationship rel =>
      simp only [Definition.dependencies, NameSet.mem_erase, NameSet.mem_insert]
      refine ⟨?_, different⟩
      rcases mentions with left | right | ⟨condition, found, member⟩
      · exact .inr (.inl left)
      · exact .inl right
      · rw [found]
        exact .inr (.inr member)
  | path hops elements => exact NameSet.mem_ofList.mpr mentions
  | projected expr type => exact mentions
  | temporary column => exact mentions.elim

/-- What stands at an earlier place of a list comes before the other in it, by induction over the
list.
-/
theorem pair_sublist_of_idxOf_lt {order : List VarId} {first second : VarId}
    (member : second ∈ order) (before : order.idxOf first < order.idxOf second)
    : [first, second].Sublist order := by
  induction order with
  | nil => simp at member
  | cons head rest ih =>
      have other : second ≠ head := by
        intro same
        subst same
        simp at before
      have inRest : second ∈ rest := (List.mem_cons.mp member).resolve_left other
      by_cases same : first = head
      · subst same
        exact .cons_cons first (List.singleton_sublist.mpr inRest)
      · rw [List.idxOf_cons_ne rest (Ne.symm same), List.idxOf_cons_ne rest (Ne.symm other)]
          at before
        exact .cons head (ih inRest (Nat.lt_of_succ_lt_succ before))

namespace VarTable

variable {vars : VarTable} {order : List VarId}

/-- A chain of names goes back in the order. -/
theorem Ordered.idxOf_lt_of_names (ordered : vars.Ordered order) {id last : VarId}
    (names : Relation.TransGen vars.IsNameOf id last)
    : order.idxOf last < order.idxOf id := by
  induction names with
  | single next => exact (ordered.target_earlier next).2
  | tail _ next ih => exact Nat.lt_trans (ordered.target_earlier next).2 ih

/-- What a variable stands for is reached through names. -/
theorem Ordered.names_resolve (ordered : vars.Ordered order) (id : VarId)
    : Relation.ReflTransGen vars.IsNameOf id (vars.resolve id) := by
  induction id using ordered.chain_induction with
  | last id found => rw [Ordered.resolve_of_target_none found]
  | next id target found ih =>
      rw [ordered.resolve_of_target found]
      exact ih.head found

/-- Following names as often as the table has variables is enough. -/
theorem Ordered.resolveWithin_eq_resolve (ordered : vars.Ordered order) (id : VarId) {n : Nat}
    (enough : vars.size ≤ n)
    : vars.resolveWithin n id = vars.resolve id := by
  have bound := ordered.length_le_size
  by_cases member : id ∈ order
  · have place : order.idxOf id < order.length := List.idxOf_lt_length_iff.mpr member
    exact ordered.resolveWithin_eq (by omega) (by omega)
  · have absent : vars.get? id = none := by
      simpa [ordered.declared] using member
    have last : vars.target? id = none := by simp [target?, definition?, absent]
    rw [resolveWithin_of_target_none last, Ordered.resolve_of_target_none last]

/-- Each hop of a chain is a relationship between its neighbours, by induction over the hops
before it.
-/
theorem Chain.hop {elements : List VarId} (chain : vars.Chain elements) {hop : Nat}
    (inside : 2 * hop + 1 < elements.length)
    : ∃ left relationship right rel,
        elements[2 * hop]? = some left
        ∧ elements[2 * hop + 1]? = some relationship
        ∧ elements[2 * hop + 2]? = some right
        ∧ vars.relationship? relationship = some rel
        ∧ rel.left = left
        ∧ rel.right = right := by
  induction hop generalizing elements with
  | zero =>
      match elements, chain, inside with
      | left :: relationship :: right :: rest, ⟨_, ⟨rel, found, ends⟩, _⟩, _ =>
          exact ⟨left, relationship, right, rel, rfl, rfl, rfl, found, ends⟩
  | succ hop ih =>
      match elements, chain, inside with
      | left :: relationship :: right :: rest, ⟨_, _, chain⟩, inside =>
          have inside : 2 * hop + 1 < (right :: rest).length := by
            simp only [List.length_cons] at inside ⊢
            omega
          exact ih chain inside

/-- A table in the order of a sublist of the declarations is well formed if it is linked. -/
theorem Ordered.wellFormed {declared : List VarId} (ordered : vars.Ordered order)
    (kept : order.Sublist declared) (linked : vars.Linked)
    : vars.WellFormed declared where
  mentions := by
    intro id var other found mentions different
    obtain ⟨-, before⟩ := ordered.earlier found other (mentions.mem_dependencies different)
    have member : id ∈ order := (ordered.declared id).mpr (by simp [found])
    exact (pair_sublist_of_idxOf_lt member before).trans kept
  acyclic := fun id cycle => Nat.lt_irrefl _ (ordered.idxOf_lt_of_names cycle)
  stops := fun id =>
    ⟨ordered.names_resolve id, ordered.target?_resolve id,
      fun n enough => ordered.resolveWithin_eq_resolve id enough⟩
  idempotent := ordered.resolve_resolve
  ends := by
    intro id rel found
    obtain ⟨var, present, definition⟩ := definition?_eq_some.mp (relationship?_eq_some.mp found)
    have ends := linked present
    rw [definition] at ends
    exact ends
  paths := by
    intro id hops elements found
    obtain ⟨var, present, definition⟩ := definition?_eq_some.mp found
    have path := linked present
    rw [definition] at path
    obtain ⟨length, chain⟩ := path
    exact ⟨length, fun hop below => chain.hop (by omega)⟩

end VarTable

end CypherSql.Plan
