import CypherSql.Proofs.Variables.Lookup

/-! Names of variables lead to a variable that is no other name. Every definition refers to earlier
declarations only, so a chain of names is shorter than the table and following it ends.
-/

namespace CypherSql.Plan

/-- The variables of a table in the order of their declaration. Definitions refer to earlier
variables of no later scope, and the dependencies that the table keeps are those of its definitions.
-/
structure VarTable.Ordered (vars : VarTable) (order : List VarId) : Prop where
  distinct : order.Nodup
  declared : ∀ id, id ∈ order ↔ (vars.get? id).isSome
  named : ∀ {id var}, vars.get? id = some var → var.id = id
  earlier
    : ∀ {id var},
        vars.get? id = some var
        → ∀ dep ∈ var.definition.dependencies id,
            dep ∈ order ∧ order.idxOf dep < order.idxOf id
  noLater
    : ∀ {id var dep other},
        vars.get? id = some var
        → dep ∈ var.definition.dependencies id
        → vars.get? dep = some other
        → other.scope ≤ var.scope
  recorded
    : ∀ id,
        vars.dependencies.get? id
        = (vars.get? id).bind fun var =>
            if var.definition.isTemporary then none else some (var.definition.dependencies id)

namespace VarTable

/-- The variable that a variable is directly another name of. -/
def target? (vars : VarTable) (id : VarId) : Option VarId :=
  (vars.definition? id).bind Definition.target?

theorem resolveWithin_of_target_none {vars : VarTable} {id : VarId} (last : vars.target? id = none)
    (n : Nat)
    : vars.resolveWithin n id = id := by
  cases n with
  | zero => rfl
  | succ n =>
      have last : (vars.definition? id).bind Definition.target? = none := last
      simp [resolveWithin, last]

theorem resolveWithin_succ_of_target {vars : VarTable} {id target : VarId}
    (next : vars.target? id = some target) (n : Nat)
    : vars.resolveWithin (n + 1) id = vars.resolveWithin n target := by
  have next : (vars.definition? id).bind Definition.target? = some target := next
  simp [resolveWithin, next]

namespace Ordered

variable {vars : VarTable} {order : List VarId} {id target : VarId}

/-- The table is as large as the order is long. -/
theorem length_le_size (ordered : vars.Ordered order) : order.length ≤ vars.size :=
  NameMap.length_le_size ordered.distinct fun id member => (ordered.declared id).mp member

/-- A name is declared after the variable that it is another name of. -/
theorem target_earlier (ordered : vars.Ordered order) (next : vars.target? id = some target)
    : target ∈ order ∧ order.idxOf target < order.idxOf id := by
  obtain ⟨definition, found, named⟩ := Option.bind_eq_some_iff.mp next
  obtain ⟨var, present, rfl⟩ := definition?_eq_some.mp found
  exact ordered.earlier present target (Definition.target?_mem_dependencies _ named)

/-- Chains of names end, so a property spreads along them from their ends. Witness: induction on
the place of the variable in the order.
-/
theorem chain_induction (ordered : vars.Ordered order) {motive : VarId → Prop}
    (last : ∀ id, vars.target? id = none → motive id)
    (next : ∀ id target, vars.target? id = some target → motive target → motive id)
    (id : VarId)
    : motive id := by
  induction place : order.idxOf id using Nat.strongRecOn generalizing id with
  | ind place ih =>
      cases found : vars.target? id with
      | none => exact last id found
      | some target =>
          have before := (ordered.target_earlier found).2
          exact next id target found (ih _ (place ▸ before) target rfl)

/-- Following names more often than the place of the variable in the order changes nothing, by
induction over the number of times.
-/
theorem resolveWithin_eq (ordered : vars.Ordered order) {n m : Nat} (enough : order.idxOf id < n)
    (more : order.idxOf id < m)
    : vars.resolveWithin n id = vars.resolveWithin m id := by
  induction n generalizing id m with
  | zero => omega
  | succ n ih =>
      obtain ⟨m, rfl⟩ : ∃ k, m = k + 1 := ⟨m - 1, by omega⟩
      cases found : vars.target? id with
      | none => rw [resolveWithin_of_target_none found, resolveWithin_of_target_none found]
      | some target =>
          have before := (ordered.target_earlier found).2
          rw [resolveWithin_succ_of_target found, resolveWithin_succ_of_target found]
          exact ih (by omega) (by omega)

/-- A variable that is no other name stands for itself. -/
theorem resolve_of_target_none (last : vars.target? id = none) : vars.resolve id = id :=
  resolveWithin_of_target_none last _

/-- A variable that is not declared stands for itself. -/
theorem resolve_of_get?_none (absent : vars.get? id = none) : vars.resolve id = id :=
  resolve_of_target_none (by simp [target?, definition?, absent])

/-- Another name of a variable stands for what that variable stands for. -/
theorem resolve_of_target (ordered : vars.Ordered order) (next : vars.target? id = some target)
    : vars.resolve id = vars.resolve target := by
  obtain ⟨member, -⟩ := ordered.target_earlier next
  have place : order.idxOf target < order.length := List.idxOf_lt_length_iff.mpr member
  have bound := ordered.length_le_size
  rw [resolve, resolveWithin_succ_of_target next]
  exact ordered.resolveWithin_eq (by omega) (by omega)

/-- What a variable stands for is no other name. -/
theorem target?_resolve (ordered : vars.Ordered order) (id : VarId)
    : vars.target? (vars.resolve id) = none := by
  induction id using ordered.chain_induction with
  | last id found => rwa [resolve_of_target_none found]
  | next id target found ih => rwa [ordered.resolve_of_target found]

/-- Resolving twice is resolving once. -/
@[simp]
theorem resolve_resolve (ordered : vars.Ordered order) (id : VarId)
    : vars.resolve (vars.resolve id) = vars.resolve id :=
  resolve_of_target_none (ordered.target?_resolve id)

/-- A declared variable stands for a declared one, which is not declared after it. -/
theorem resolve_mem (ordered : vars.Ordered order) (member : id ∈ order)
    : vars.resolve id ∈ order ∧ order.idxOf (vars.resolve id) ≤ order.idxOf id := by
  induction id using ordered.chain_induction with
  | last id found =>
      rw [resolve_of_target_none found]
      exact ⟨member, Nat.le_refl _⟩
  | next id target found ih =>
      obtain ⟨present, before⟩ := ordered.target_earlier found
      obtain ⟨resolved, after⟩ := ih present
      rw [ordered.resolve_of_target found]
      exact ⟨resolved, by omega⟩

/-- A declared variable stands for one that the table has. -/
theorem get?_resolve (ordered : vars.Ordered order) (declared : (vars.get? id).isSome)
    : ∃ var, vars.get? (vars.resolve id) = some var := by
  have member := (ordered.resolve_mem ((ordered.declared id).mpr declared)).1
  exact Option.isSome_iff_exists.mp ((ordered.declared _).mp member)

/-- A table that grows without new variables keeps its order, if the dependencies that it keeps are
those of its definitions.
-/
theorem of_growsTo {later : VarTable} (ordered : vars.Ordered order) (grows : vars.GrowsTo later)
    (same : ∀ id, (later.get? id).isSome → (vars.get? id).isSome)
    (named : ∀ {id var}, later.get? id = some var → var.id = id)
    (recorded
      : ∀ id,
          later.dependencies.get? id
          = (later.get? id).bind fun var =>
              if var.definition.isTemporary then none else some (var.definition.dependencies id))
    : later.Ordered order := by
  have before {id : VarId} {var : Variable} (found : later.get? id = some var)
      : ∃ old,
          vars.get? id = some old
          ∧ var.scope = old.scope
          ∧ ∀ dep ∈ var.definition.dependencies id, dep ∈ old.definition.dependencies id := by
    obtain ⟨old, present⟩ := Option.isSome_iff_exists.mp (same id (by simp [found]))
    obtain ⟨other, found', sameScope, outline, restriction⟩ := grows.kept present
    obtain rfl : var = other := Option.some.inj (found.symm.trans found')
    exact ⟨old, present, sameScope,
      fun dep member => Definition.dependencies_subset outline restriction member⟩
  refine ⟨ordered.distinct, ?_, named, ?_, ?_, recorded⟩
  · intro id
    rw [ordered.declared]
    constructor
    · intro declared
      obtain ⟨var, found⟩ := Option.isSome_iff_exists.mp declared
      obtain ⟨other, found, -⟩ := grows.kept found
      simp [found]
    · exact same id
  · intro id var found dep member
    obtain ⟨old, present, -, fewer⟩ := before found
    exact ordered.earlier present dep (fewer dep member)
  · intro id var dep other found member foundDep
    obtain ⟨old, present, sameScope, fewer⟩ := before found
    obtain ⟨oldDep, presentDep, sameScopeDep, -⟩ := before foundDep
    rw [sameScope, sameScopeDep]
    exact ordered.noLater present (fewer dep member) presentDep

/-- A new variable of the last scope goes to the end of the order, if its definition refers to
declared ones.
-/
theorem insert (ordered : vars.Ordered order) (var : Variable) (new : var.id ∉ order)
    (dependencies : ∀ dep ∈ var.definition.dependencies var.id, dep ∈ order)
    (within : ∀ {id other}, vars.get? id = some other → other.scope ≤ var.scope)
    : (vars.insert var).Ordered (order ++ [var.id]) := by
  have placeOld {id : VarId} (member : id ∈ order)
      : (order ++ [var.id]).idxOf id = order.idxOf id := by
    rw [List.idxOf_append, if_pos member]
  have placeNew : (order ++ [var.id]).idxOf var.id = order.length := by
    rw [List.idxOf_append, if_neg new, List.idxOf_cons_self, Nat.zero_add]
  refine ⟨?_, ?_, ?_, ?_, ?_, ?_⟩
  · exact List.nodup_append.mpr ⟨ordered.distinct, by simp, by
      intro id member other single
      rintro rfl
      exact new (List.mem_singleton.mp single ▸ member)⟩
  · intro id
    by_cases same : id = var.id
    · simp [get?_insert, same]
    · simp [get?_insert, same, ordered.declared]
  · intro id found present
    rw [get?_insert] at present
    split at present
    · rename_i same
      exact Option.some.inj present ▸ same.symm
    · exact ordered.named present
  · intro id found present dep member
    rw [get?_insert] at present
    split at present
    · rename_i same
      subst same
      obtain rfl := Option.some.inj present
      have earlier := dependencies dep member
      have place : order.idxOf dep < order.length := List.idxOf_lt_length_iff.mpr earlier
      exact ⟨List.mem_append_left _ earlier, by rwa [placeOld earlier, placeNew]⟩
    · obtain ⟨earlier, before⟩ := ordered.earlier present dep member
      have declared : id ∈ order := (ordered.declared id).mpr (by simp [present])
      exact ⟨List.mem_append_left _ earlier, by rwa [placeOld earlier, placeOld declared]⟩
  · intro id found dep other present member presentDep
    have declaredDep : dep ∈ order := by
      rw [get?_insert] at present
      split at present
      · rename_i same
        subst same
        obtain rfl := Option.some.inj present
        exact dependencies dep member
      · exact (ordered.earlier present dep member).1
    -- What a definition refers to is an old variable, and is found as it was.
    have different : dep ≠ var.id := by
      rintro rfl
      exact new declaredDep
    rw [get?_insert, if_neg different] at presentDep
    rw [get?_insert] at present
    split at present
    · obtain rfl := Option.some.inj present
      exact within presentDep
    · exact ordered.noLater present member presentDep
  · intro id
    have old := ordered.recorded id
    have absent : vars.get? var.id = none := by
      simpa [ordered.declared] using new
    simp only [VarTable.insert, recordDependencies, get?, NameMap.get?_insert] at old ⊢
    by_cases same : id = var.id
    · subst same
      have missing : vars.vars.get? var.id = none := absent
      rw [missing] at old
      cases temporary : var.definition.isTemporary <;> simp_all
    · cases temporary : var.definition.isTemporary <;> simp_all [NameMap.get?_insert]

/-- A definition may be replaced by one with the same outline and the same dependencies. -/
theorem redefine (ordered : vars.Ordered order) {var : Variable} {definition : Definition}
    (found : vars.get? id = some var) (outline : definition.outline = var.definition.outline)
    (restriction : definition.restriction? = var.definition.restriction?)
    : (vars.redefine id definition).Ordered order := by
  refine ordered.of_growsTo (.redefine found outline (.inl restriction)) ?_ ?_ ?_
  · intro other present
    rw [get?_redefine] at present
    split at present
    · rename_i same
      simp [same, found]
    · exact present
  · intro other changed present
    rw [get?_redefine] at present
    split at present
    · rename_i same
      rw [found] at present
      obtain rfl := Option.some.inj present
      exact (ordered.named found).trans same.symm
    · exact ordered.named present
  · intro other
    have old := ordered.recorded other
    have kept : (vars.redefine id definition).dependencies = vars.dependencies := rfl
    rw [kept, old, get?_redefine]
    by_cases same : other = id
    · subst same
      have dependencies
          : definition.dependencies other = var.definition.dependencies other :=
        Definition.dependencies_eq outline restriction
      have temporary : definition.isTemporary = var.definition.isTemporary := by
        rw [← Definition.isTemporary_outline, outline, Definition.isTemporary_outline]
      simp [found, dependencies, temporary]
    · simp [same]

end Ordered

/-- Growing a table leaves what its variables stand for. -/
theorem GrowsTo.resolve {table later : VarTable} {order orderLater : List VarId}
    (grows : table.GrowsTo later) (ordered : table.Ordered order)
    (orderedLater : later.Ordered orderLater) {id : VarId} (declared : (table.get? id).isSome)
    : later.resolve id = table.resolve id := by
  induction id using ordered.chain_induction with
  | last id found =>
      have last : later.target? id = none := (grows.target? declared).trans found
      rw [Ordered.resolve_of_target_none found, Ordered.resolve_of_target_none last]
  | next id target found ih =>
      have next : later.target? id = some target := (grows.target? declared).trans found
      have present := (ordered.declared target).mp (ordered.target_earlier found).1
      rw [ordered.resolve_of_target found, orderedLater.resolve_of_target next, ih present]

end VarTable

end CypherSql.Plan
