import CypherSql.Proofs.Passes.Definitions
import CypherSql.Proofs.Passes.Simplification

/-! What a scope obtains from the subquery before it is exported there, or is a path, whose elements
are exported in its place. That holds once the exports are found, and dropped constants leave the
supplied variables and the exports together.
-/

namespace CypherSql.Plan

namespace VarTable

/-- The variable is a path. -/
def IsPath (vars : VarTable) (id : VarId) : Prop :=
  ∃ hops elements, vars.definition? id = some (.path hops elements)

/-- The variable is a node or a relationship by itself. -/
def IsElement (vars : VarTable) (id : VarId) : Prop :=
  ∃ definition, vars.definition? id = some definition ∧ definition.isElement

variable {vars later : VarTable} {id other : VarId}

/-- The type of a node or relationship is the one that its definition shows. -/
theorem type?_of_isElement {definition : Definition} (found : vars.definition? id = some definition)
    (isElement : definition.isElement)
    : vars.type? id = definition.type? := by
  have last : vars.target? id = none := by
    rw [target?, found, Option.bind_some]
    cases definition <;> simp_all [Definition.isElement, Definition.target?]
  rw [type?, Ordered.resolve_of_target_none last, found, Option.bind_some]

theorem IsElement.type?_ne_scalar (isElement : vars.IsElement id)
    : vars.type? id ≠ some .scalar := by
  obtain ⟨definition, found, isElement⟩ := isElement
  rw [type?_of_isElement found isElement]
  cases definition <;> simp_all [Definition.isElement, Definition.type?]

theorem IsElement.not_isPath (isElement : vars.IsElement id) : ¬ vars.IsPath id := by
  obtain ⟨definition, found, isElement⟩ := isElement
  rintro ⟨hops, elements, isPath⟩
  obtain rfl := Option.some.inj (found.symm.trans isPath)
  cases isElement

theorem SameStamps.symm (same : vars.SameStamps later) : later.SameStamps vars :=
  fun id => (same id).symm

/-- Paths are the same where variables change only in what they project. -/
theorem SameStamps.isPath (same : vars.SameStamps later) : later.IsPath id ↔ vars.IsPath id := by
  have forward {first second : VarTable} (same : first.SameStamps second) (isPath : first.IsPath id)
      : second.IsPath id := by
    obtain ⟨hops, elements, found⟩ := isPath
    obtain ⟨var, present, definition⟩ := definition?_eq_some.mp found
    obtain ⟨new, present', stamp⟩ := same.get? present
    have stamp := congrArg Variable.definition stamp
    simp only [Variable.stamp, definition] at stamp
    refine ⟨hops, elements, definition?_eq_some.mpr ⟨new, present', ?_⟩⟩
    cases kind : new.definition <;> simp_all [Definition.stamp]
  exact ⟨forward same.symm, forward same⟩

/-- So are nodes and relationships. -/
theorem SameStamps.isElement (same : vars.SameStamps later)
    : later.IsElement id ↔ vars.IsElement id := by
  have forward {first second : VarTable} (same : first.SameStamps second)
      (isElement : first.IsElement id)
      : second.IsElement id := by
    obtain ⟨definition, found, isElement⟩ := isElement
    obtain ⟨var, present, rfl⟩ := definition?_eq_some.mp found
    obtain ⟨new, present', stamp⟩ := same.get? present
    have stamp := congrArg Variable.definition stamp
    simp only [Variable.stamp] at stamp
    refine ⟨new.definition, definition?_of_get? present', ?_⟩
    cases old : var.definition <;> cases kind : new.definition <;>
      simp_all [Definition.stamp, Definition.isElement]
  exact ⟨forward same.symm, forward same⟩

/-- The removal of a variable leaves the others as they are. -/
theorem definition?_remove (vars : VarTable) (id other : VarId)
    : (vars.remove id).definition? other = if other = id then none else vars.definition? other := by
  rw [definition?, get?_remove]
  split
  · rfl
  · rfl

theorem IsElement.of_remove (isElement : (vars.remove id).IsElement other)
    : vars.IsElement other := by
  obtain ⟨definition, found, isElement⟩ := isElement
  rw [definition?_remove] at found
  split at found
  · cases found
  · exact ⟨definition, found, isElement⟩

theorem IsPath.remove (isPath : vars.IsPath other) (different : other ≠ id)
    : (vars.remove id).IsPath other := by
  obtain ⟨hops, elements, found⟩ := isPath
  exact ⟨hops, elements, by rwa [definition?_remove, if_neg different]⟩

theorem IsPath.of_remove (isPath : (vars.remove id).IsPath other) : vars.IsPath other := by
  obtain ⟨hops, elements, found⟩ := isPath
  rw [definition?_remove] at found
  split at found
  · cases found
  · exact ⟨hops, elements, found⟩

end VarTable

/-- For each property that is known to be read of a node or relationship, the outermost scope that
reads it.
-/
def Definition.required : Definition → NameMap Nat
  | .node pattern => pattern.required
  | .relationship rel => rel.required
  | _ => ∅

namespace VarTable

/-- The same for a variable. -/
def required (vars : VarTable) (id : VarId) : NameMap Nat :=
  (vars.definition? id).elim ∅ Definition.required

/-- No property is known to be read of any variable. -/
def Unmarked (vars : VarTable) : Prop :=
  ∀ id, vars.required id = ∅

/-- Properties are known to be read of nodes and relationships only. -/
theorem isElement_of_required {vars : VarTable} {id : VarId} {key : String} {outermost : Nat}
    (known : (vars.required id).get? key = some outermost)
    : vars.IsElement id := by
  unfold required at known
  cases found : vars.definition? id with
  | none => simp [found] at known
  | some definition =>
      refine ⟨definition, found, ?_⟩
      cases definition <;> simp_all [Definition.required, Definition.isElement]

/-- The variables are the same but for what they project. -/
structure Reworded (vars later : VarTable) : Prop where
  stamps : vars.SameStamps later
  required : ∀ id, later.required id = vars.required id

theorem Reworded.threads : Threads Reworded where
  refl := fun vars => ⟨SameStamps.threads.refl vars, fun _ => rfl⟩
  trans := fun _ _ _ first second =>
    ⟨SameStamps.threads.trans _ _ _ first.stamps second.stamps,
      fun id => (second.required id).trans (first.required id)⟩

theorem reworded_refresh (vars : VarTable) (id : VarId) : vars.Reworded (vars.refresh id) := by
  refine ⟨(rewrites_refresh vars id).stamps, fun other => ?_⟩
  rw [required, definition?, get?_refresh]
  rfl

/-- A projected expression may be replaced by another. -/
theorem reworded_redefine {vars : VarTable} {id : VarId} {var : Variable} {expr changed : Expr}
    {type : Option VarType} (found : vars.get? id = some var)
    (projects : var.definition = .projected expr type)
    : vars.Reworded (vars.redefine id (.projected changed type)) := by
  refine ⟨sameStamps_redefine found (by rw [projects]; rfl), fun other => ?_⟩
  rw [required, required, definition?, definition?, get?_redefine_of_get? found]
  split
  · rename_i same
    rw [same, found, Option.map_some, Option.map_some, projects]
    rfl
  · rfl

end VarTable

/-- Rewriting expressions leaves the variables as they are otherwise. -/
theorem rewritesKeep_reworded {m : Type → Type} [Monad m] [LawfulMonad m] (modality : Modality m)
    {f : VarTable → Site → Expr → m Expr}
    (each : ∀ vars site expr, modality.Holds (fun _ => True) (f vars site expr))
    : RewritesKeep modality f VarTable.Reworded := by
  intro vars site expr
  refine modality.mono (each vars site expr) ?_
  intro changed _ id var type found projects _
  exact VarTable.reworded_redefine found projects

theorem Draft.mapExprs_reworded (draft : Draft) (f : VarTable → Site → Expr → Expr)
    : draft.tree.Maps Scope.Alike (draft.mapExprs f).tree
      ∧ draft.vars.Reworded (draft.mapExprs f).vars :=
  draft.mapExprsM_keeps Modality.ofId VarTable.Reworded.threads
    (rewritesKeep_reworded Modality.ofId fun _ _ _ => trivial) VarTable.reworded_refresh

/-- Every scope reads at most the subquery before it. What it obtains from there is exported or a
path, and no node or relationship is exported as a value.
-/
structure Tree.HandsOver (vars : VarTable) (tree : Tree) : Prop where
  indexed : tree.Indexed
  placed : ∀ scope ∈ tree.scopes, ∀ item ∈ scope.select.items, item.pending = []
  joins : ∀ scope ∈ tree.scopes, ∀ join ∈ scope.select.joins, join.item.source = none
  behind
    : ∀ scope ∈ tree.scopes,
        ∀ item ∈ scope.select.fromItems,
          ∀ source, item.source = some source → source + 1 = scope.index
  exported
    : ∀ scope ∈ tree.scopes,
        ∀ item ∈ scope.select.fromItems,
          ∀ source subquery,
            item.source = some source
            → tree.subqueries[source]? = some subquery
            → ∀ id ∈ item.ids,
                vars.IsPath id ∨ ∃ exported ∈ subquery.exports, exported.id = id
  values
    : ∀ subquery ∈ tree.subqueries,
        ∀ id, .scalar id ∈ subquery.exports → ¬ vars.IsElement id

/-- A scope finds the subquery that it reads, and what it obtains from there. -/
theorem Tree.HandsOver.subquery {tree : Tree} {vars : VarTable} (handsOver : tree.HandsOver vars)
    {scope : Scope} (member : scope ∈ tree.scopes) {item : FromItem}
    (listed : item ∈ scope.select.items) {source : Nat} (isSource : item.source = some source)
    : ∃ subquery,
        tree.subqueries[source]? = some subquery
        ∧ source + 1 = scope.index
        ∧ ∀ id ∈ item.ids, vars.IsPath id ∨ ∃ exported ∈ subquery.exports, exported.id = id := by
  have inFrom : item ∈ scope.select.fromItems := by
    rcases List.mem_append.mp listed with inFrom | joined
    · exact inFrom
    · obtain ⟨join, isJoin, rfl⟩ := List.mem_map.mp joined
      simp [handsOver.joins scope member join isJoin] at isSource
  have behind := handsOver.behind scope member item inFrom source isSource
  have within := handsOver.indexed.index_le member
  have there : source < tree.subqueries.length := by omega
  have found := List.getElem?_eq_getElem there
  exact ⟨_, found, behind, handsOver.exported scope member item inFrom source _ isSource found⟩

/-- A node or relationship that is exported is exported with its properties. -/
theorem Tree.HandsOver.entity {tree : Tree} {vars : VarTable} (handsOver : tree.HandsOver vars)
    {subquery : Subquery} (member : subquery ∈ tree.subqueries) {exported : Export}
    (listed : exported ∈ subquery.exports) (isElement : vars.IsElement exported.id)
    : .entity exported.id ∈ subquery.exports := by
  cases exported with
  | entity id => exact listed
  | scalar id => exact absurd isElement (handsOver.values subquery member id listed)

/-- Rewriting expressions keeps what subqueries hand over. -/
theorem Tree.HandsOver.alike {tree treeLater : Tree} {vars varsLater : VarTable}
    (handsOver : tree.HandsOver vars) (maps : tree.Maps Scope.Alike treeLater)
    (same : vars.SameStamps varsLater)
    : treeLater.HandsOver varsLater := by
  refine {
    indexed := handsOver.indexed.maps maps fun _ _ alike => alike.index
    placed := ?_
    joins := ?_
    behind := ?_
    exported := ?_
    values := ?_
  }
  · intro scope member item listed
    obtain ⟨old, present, alike⟩ := maps.of_mem member
    have placed := handsOver.placed old present
    rw [Select.items, alike.fromItems_eq placed, alike.joins_eq placed] at listed
    exact placed item listed
  · intro scope member join listed
    obtain ⟨old, present, alike⟩ := maps.of_mem member
    have inside : join.item ∈ scope.select.joins.map (·.item) := List.mem_map_of_mem listed
    rw [alike.joins_eq (handsOver.placed old present)] at inside
    obtain ⟨join', listed', equal⟩ := List.mem_map.mp inside
    exact equal ▸ handsOver.joins old present join' listed'
  · intro scope member item listed source isSource
    obtain ⟨old, present, alike⟩ := maps.of_mem member
    rw [alike.fromItems_eq (handsOver.placed old present)] at listed
    rw [alike.index]
    exact handsOver.behind old present item listed source isSource
  · intro scope member item listed source subquery isSource found id supplied
    obtain ⟨old, present, alike⟩ := maps.of_mem member
    obtain ⟨before, found', related⟩ := maps.getElem? found
    rw [alike.fromItems_eq (handsOver.placed old present)] at listed
    rw [related.exports]
    exact (handsOver.exported old present item listed source before isSource found' id
      supplied).imp_left
      same.isPath.mpr
  · intro subquery member id listed isElement
    obtain ⟨position, found⟩ := List.mem_iff_getElem?.mp member
    obtain ⟨before, found', related⟩ := maps.getElem? found
    rw [related.exports] at listed
    exact handsOver.values before (List.mem_of_getElem? found') id listed
      (same.isElement.mp isElement)

section Found

variable {vars : VarTable} {id : VarId}

/-- Nothing goes with a variable that is no path. -/
theorem withElements_eq {definition : Definition} (found : vars.definition? id = some definition)
    (noPath : ∀ hops elements, definition ≠ .path hops elements)
    : withElements vars id = [id] := by
  unfold withElements
  rw [found]
  split
  · rename_i hops elements same
    exact absurd (Option.some.inj same) (noPath hops elements)
  · rfl

/-- The exports of a variable are its own, or those of the elements of the path that it is. -/
theorem exportsOf_covers {exports : List Export} (succeeded : exportsOf vars id = .ok exports)
    : (∀ other ∈ withElements vars id,
          vars.IsPath other ∨ ∃ exported ∈ exports, exported.id = other)
      ∧ ∀ other, .scalar other ∈ exports → ¬ vars.IsElement other := by
  unfold exportsOf at succeeded
  split at succeeded
  · cases succeeded
  · rename_i hops elements found
    obtain rfl := Except.ok.inj succeeded
    refine ⟨fun other member => ?_, by simp⟩
    simp only [withElements, found] at member
    rcases List.mem_cons.mp member with rfl | element
    · exact .inl ⟨hops, elements, found⟩
    · exact .inr ⟨.entity other, List.mem_map_of_mem element, rfl⟩
  · rename_i definition noPath found
    rw [withElements_eq found noPath]
    split at succeeded
    · obtain rfl := Except.ok.inj succeeded
      simp [Export.id]
    · obtain rfl := Except.ok.inj succeeded
      simp [Export.id]
    · rename_i type
      obtain rfl := Except.ok.inj succeeded
      refine ⟨by simp [Export.id], fun other member isElement => ?_⟩
      obtain rfl : other = id := by simpa using member
      exact isElement.type?_ne_scalar type
    · cases succeeded

/-- The exports of a subquery cover what it projects and the elements of the paths among it. -/
theorem subqueryExports_covers {subquery later : Subquery}
    (succeeded : subqueryExports vars subquery = .ok later)
    : later.scope = subquery.scope
      ∧ (∀ ids,
          projected .findExports vars subquery.scope = .ok ids
          → ∀ other ∈ ids.flatMap (withElements vars),
              vars.IsPath other ∨ ∃ exported ∈ later.exports, exported.id = other)
      ∧ ∀ other, .scalar other ∈ later.exports → ¬ vars.IsElement other := by
  unfold subqueryExports at succeeded
  split at succeeded
  · cases succeeded
  · obtain ⟨ids, projects, succeeded⟩ := bind_eq_ok.mp succeeded
    obtain ⟨exports, found, same⟩ := bind_eq_ok.mp succeeded
    obtain rfl := Except.ok.inj same
    have each := Modality.forall₂_of_mapM_eq_ok found
    refine ⟨rfl, fun ids' projects' other member => ?_, fun other member => ?_⟩
    · obtain rfl := Except.ok.inj (projects.symm.trans projects')
      obtain ⟨id, listed, inside⟩ := List.mem_flatMap.mp member
      obtain ⟨position, at'⟩ := List.mem_iff_getElem?.mp listed
      obtain ⟨own, present, succeeded⟩ := forall₂_getElem?_left each at'
      refine ((exportsOf_covers succeeded).1 other inside).imp_right ?_
      rintro ⟨exported, isExport, same⟩
      refine ⟨exported, mem_foldl_new.mpr (.inr ?_), same⟩
      exact List.mem_flatten.mpr ⟨own, List.mem_of_getElem? present, isExport⟩
    · obtain ⟨own, listed, inside⟩ := List.mem_flatten.mp
        ((mem_foldl_new.mp member).resolve_left (by simp))
      obtain ⟨position, at'⟩ := List.mem_iff_getElem?.mp listed
      obtain ⟨id, -, succeeded⟩ := forall₂_getElem?_right each at'
      exact (exportsOf_covers succeeded).2 other inside

end Found

/-- The exports leave the scopes as they are. -/
theorem findExports_scopes {draft later : Draft} (succeeded : findExports draft = .ok later)
    : later.tree.scopes = draft.tree.scopes := by
  obtain ⟨subqueries, found, same⟩ := bind_eq_ok.mp succeeded
  obtain rfl := Except.ok.inj same
  rw [Tree.scopes, Tree.scopes]
  congr 1
  exact map_eq_of_forall₂ (Modality.forall₂_of_mapM_eq_ok found) fun _ _ succeeded =>
    (subqueryExports_covers succeeded).1

/-- Once exports are found, subqueries hand over what the scopes after them obtain. -/
theorem findExports_handsOver {query : QueryModel} {catalog : Catalog} {draft later : Draft}
    {housed : Scope → Prop} (refined : query.Refined catalog true draft.vars)
    (each
      : draft.tree.Each query.models fun model scope =>
          query.Joined catalog model scope ∧ housed scope)
    (succeeded : findExports draft = .ok later)
    : later.tree.HandsOver later.vars := by
  obtain ⟨subqueries, found, same⟩ := bind_eq_ok.mp succeeded
  obtain rfl := Except.ok.inj same
  have all := Modality.forall₂_of_mapM_eq_ok found
  have scopes : ({ draft.tree with subqueries } : Tree).scopes = draft.tree.scopes :=
    findExports_scopes succeeded
  have arranged {scope : Scope} (member : scope ∈ ({ draft.tree with subqueries } : Tree).scopes)
      : ∃ model, query.models[scope.index]? = some model ∧ query.Joined catalog model scope := by
    obtain ⟨model, found, joined, -⟩ := each.each scope (scopes ▸ member)
    exact ⟨model, found, joined⟩
  refine {
    indexed := ?_
    placed := ?_
    joins := ?_
    behind := ?_
    exported := ?_
    values := ?_
  }
  · rw [Tree.Indexed, scopes, each.indexed, ← each.length]
    exact congrArg (fun count => List.range (count + 1)) all.length_eq
  · intro scope member item listed
    obtain ⟨model, -, joined⟩ := arranged member
    exact (joined.sound item listed).1
  · intro scope member join listed
    obtain ⟨model, found, joined⟩ := arranged member
    exact joined.joined_source found listed
  · intro scope member item listed source isSource
    obtain ⟨model, -, joined⟩ := arranged member
    exact (joined.subquery (List.mem_append_left _ listed) isSource).1
  · intro scope member item listed source subquery isSource at' id supplied
    obtain ⟨model, -, joined⟩ := arranged member
    obtain ⟨behind, ids⟩ := joined.subquery (List.mem_append_left _ listed) isSource
    obtain ⟨old, present, succeeded⟩ := forall₂_getElem?_right all at'
    obtain ⟨before, found, kind, items⟩ := QueryModel.exists_with each present
    -- What the item supplies is what the subquery projects, with the elements of paths.
    rw [ids, ← behind, itemsBefore, found, Option.elim_some, suppliedOf, mem_addNew,
      ← funext refined.withElements] at supplied
    exact (subqueryExports_covers succeeded).2.1 _ (refined.projected_eq found kind _ items) id
      (supplied.resolve_left (by simp))
  · intro subquery member id listed
    obtain ⟨position, at'⟩ := List.mem_iff_getElem?.mp member
    obtain ⟨old, -, succeeded⟩ := forall₂_getElem?_right all at'
    exact (subqueryExports_covers succeeded).2.2 id listed

/-- A subquery that drops a variable no longer supplies nor exports it. -/
theorem Tree.HandsOver.unproject {tree : Tree} {vars : VarTable} {source : Nat} {id : VarId}
    (handsOver : tree.HandsOver vars) (within : source < tree.subqueries.length)
    (noPath : ¬ vars.IsPath id)
    : (tree.unproject source id).HandsOver (vars.remove id) := by
  have indexed := handsOver.indexed
  have earlier {scope : Scope} (member : scope ∈ (tree.unproject source id).scopes)
      : ∃ old ∈ tree.scopes, scope = old.unproject source id := by
    rw [indexed.scopes_unproject within] at member
    obtain ⟨old, present, same⟩ := List.mem_map.mp member
    exact ⟨old, present, same.symm⟩
  refine {
    indexed := indexed.unproject within
    placed := ?_
    joins := ?_
    behind := ?_
    exported := ?_
    values := ?_
  }
  · intro scope member item listed
    obtain ⟨old, present, rfl⟩ := earlier member
    rw [Select.items, Scope.unproject_fromItems, Scope.unproject_joins] at listed
    rcases List.mem_append.mp listed with inFrom | joined
    · obtain ⟨item', listed', rfl⟩ := List.mem_map.mp inFrom
      have placed := handsOver.placed old present item' (List.mem_append_left _ listed')
      unfold FromItem.without
      split
      · exact placed
      · exact placed
    · exact handsOver.placed old present item (List.mem_append_right _ joined)
  · intro scope member join listed
    obtain ⟨old, present, rfl⟩ := earlier member
    rw [Scope.unproject_joins] at listed
    exact handsOver.joins old present join listed
  · intro scope member item listed reads isSource
    obtain ⟨old, present, rfl⟩ := earlier member
    rw [Scope.unproject_fromItems] at listed
    obtain ⟨item', listed', rfl⟩ := List.mem_map.mp listed
    rw [FromItem.without_source] at isSource
    rw [Scope.unproject_index]
    exact handsOver.behind old present item' listed' reads isSource
  · intro scope member item listed reads subquery isSource found other supplied
    obtain ⟨old, present, rfl⟩ := earlier member
    rw [Scope.unproject_fromItems] at listed
    obtain ⟨item', listed', rfl⟩ := List.mem_map.mp listed
    rw [FromItem.without_source] at isSource
    rw [indexed.subqueries_unproject, List.getElem?_map] at found
    obtain ⟨before, found', rfl⟩ := Option.map_eq_some_iff.mp found
    have exported := handsOver.exported old present item' listed' reads before isSource found' other
    rw [Subquery.without, indexed.subquery_index found']
    -- Only the item that reads the changed subquery loses the variable.
    by_cases same : reads = source
    · subst same
      rw [FromItem.without, if_pos isSource] at supplied
      obtain ⟨kept, different⟩ := List.mem_filter.mp supplied
      have different : other ≠ id := by simpa using different
      refine (exported kept).imp (fun isPath => isPath.remove different) ?_
      rintro ⟨export', listed, rfl⟩
      exact ⟨export', by simp [listed, different], rfl⟩
    · have elsewhere : item'.source ≠ some source := by
        rw [isSource]
        simpa using same
      rw [FromItem.without, if_neg elsewhere] at supplied
      rw [if_neg same]
      refine (exported supplied).imp_left fun isPath => isPath.remove ?_
      rintro rfl
      exact noPath isPath
  · intro later member other listed isElement
    rw [indexed.subqueries_unproject] at member
    obtain ⟨subquery, present, rfl⟩ := List.mem_map.mp member
    refine handsOver.values subquery present other ?_ isElement.of_remove
    rw [Subquery.without] at listed
    dsimp only at listed
    split at listed
    · exact (List.mem_filter.mp listed).1
    · exact listed

/-- While types and tables are found out, no property is known to be read. -/
theorem QueryModel.Refined.unmarked {query : QueryModel} {catalog : Catalog} {typed : Bool}
    {vars : VarTable} (refined : query.Refined catalog typed vars)
    : vars.Unmarked := by
  intro id
  unfold VarTable.required
  cases found : vars.definition? id with
  | none => rfl
  | some definition =>
      obtain ⟨var, present, rfl⟩ := VarTable.definition?_eq_some.mp found
      have agrees := refined.agrees id var present
      cases kind : var.definition with
      | node pattern =>
          rw [kind] at agrees
          exact agrees
      | relationship rel =>
          rw [kind] at agrees
          exact agrees.1
      | _ => rfl

/-- Subqueries hand over what the scopes after them obtain, and no property is known to be read. -/
structure Draft.HandsOver (draft : Draft) : Prop where
  tree : draft.tree.HandsOver draft.vars
  unmarked : draft.vars.Unmarked

/-- Marking properties and resolving names leaves everything but expressions as it is. -/
theorem Draft.finished_alike (draft : Draft)
    : draft.tree.Maps Scope.Alike (resolveNames (markProperties draft)).tree
      ∧ draft.vars.SameStamps (resolveNames (markProperties draft)).vars := by
  have marked := foldl_markRead_rewrites (propertyReads draft.tree draft.vars) draft.vars
  obtain ⟨maps, reworded⟩ := (markProperties draft).mapExprs_reworded fun vars _ expr =>
    expr.mapParts (resolveName vars)
  exact ⟨maps, VarTable.SameStamps.threads.trans _ _ _ marked.stamps reworded.stamps⟩

/-- A number may stand in for a constant. -/
theorem standIn_reworded (vars : VarTable) (id : VarId) : vars.Reworded (standIn vars id) := by
  unfold standIn
  refine VarTable.Reworded.threads.trans _ _ _ ?_ (VarTable.reworded_refresh _ id)
  split
  · exact VarTable.Reworded.threads.refl vars
  · rename_i expr type _ found
    obtain ⟨var, present, projects⟩ := VarTable.definition?_eq_some.mp found
    exact VarTable.reworded_redefine present projects
  · exact VarTable.Reworded.threads.refl vars

/-- The property of drafts lasts while they are simplified: where expressions are reworded, and
where a subquery drops a variable that is no path.
-/
structure Draft.Lasting (lasts : Draft → Prop) : Prop where
  rewrite
    : ∀ draft later,
        lasts draft
        → draft.tree.Maps Scope.Alike later.tree
        → draft.vars.Reworded later.vars
        → lasts later
  drop
    : ∀ draft source id,
        lasts draft
        → source < draft.tree.subqueries.length
        → ¬ draft.vars.IsPath id
        → lasts { draft with tree := draft.tree.unproject source id, vars := draft.vars.remove id }

namespace Draft.Lasting

variable {lasts : Draft → Prop} {draft later : Draft} {source : Nat} {id : VarId}

/-- Dropping a constant keeps what lasts, and makes nothing a path. -/
theorem dropConstant (lasting : Lasting lasts) (holds : lasts draft)
    (noPath : ¬ draft.vars.IsPath id)
    : lasts (dropConstant source draft id)
      ∧ ∀ other,
          (Plan.dropConstant source draft id).vars.IsPath other → draft.vars.IsPath other := by
  unfold Plan.dropConstant
  split
  · exact ⟨holds, fun _ isPath => isPath⟩
  · rename_i subquery found
    split
    · exact ⟨holds, fun _ isPath => isPath⟩
    · split
      · have reworded := standIn_reworded draft.vars id
        refine ⟨lasting.rewrite draft _ holds draft.tree.maps_alike_refl reworded, fun other => ?_⟩
        exact reworded.stamps.isPath.mp
      · have within := (List.getElem?_eq_some_iff.mp found).1
        exact ⟨lasting.drop draft source id holds within noPath,
          fun other isPath => isPath.of_remove⟩

/-- Constants are dropped one after the other, by induction over them. -/
theorem foldl_dropConstant (lasting : Lasting lasts) {ids : List VarId} (holds : lasts draft)
    (noPaths : ∀ id ∈ ids, ¬ draft.vars.IsPath id)
    : lasts (ids.foldl (Plan.dropConstant source) draft) := by
  induction ids generalizing draft with
  | nil => exact holds
  | cons id rest ih =>
      obtain ⟨holds, paths⟩ := lasting.dropConstant holds (noPaths id (by simp))
      exact ih holds fun other member isPath =>
        noPaths other (by simp [member]) (paths other isPath)

theorem dropConstantsOf (lasting : Lasting lasts) (holds : lasts draft) (source : Nat)
    : lasts (dropConstantsOf draft source) := by
  unfold Plan.dropConstantsOf
  split
  · exact holds
  · refine lasting.foldl_dropConstant holds fun id member isPath => ?_
    obtain ⟨⟨value, scope⟩, constant⟩ :=
      Option.isSome_iff_exists.mp (List.mem_filter.mp member).2
    obtain ⟨var, type, found, projects, -⟩ := constant?_eq_some constant
    obtain ⟨hops, elements, definition⟩ := isPath
    rw [VarTable.definition?_of_get? found, projects] at definition
    cases definition

/-- All constants that nothing reads are dropped, by induction over the subqueries. -/
theorem dropConstants (lasting : Lasting lasts) (holds : lasts draft)
    : lasts (dropConstants draft) := by
  unfold Plan.dropConstants
  generalize List.range draft.tree.subqueries.length = sources
  induction sources generalizing draft with
  | nil => exact holds
  | cons source rest ih => exact ih (lasting.dropConstantsOf holds source)

theorem mapExprs (lasting : Lasting lasts) (holds : lasts draft) (f : VarTable → Site → Expr → Expr)
    : lasts (draft.mapExprs f) := by
  obtain ⟨maps, reworded⟩ := draft.mapExprs_reworded f
  exact lasting.rewrite draft _ holds maps reworded

theorem simplifyFunctions (lasting : Lasting lasts) (holds : lasts draft)
    (succeeded : simplifyFunctions draft = .ok later)
    : lasts later := by
  have keeps := rewritesKeep_reworded Modality.ofOk
    (f := fun vars _ expr => expr.mapPartsM (simplifyFunction vars)) fun _ _ _ =>
      Modality.ofOk_any _
  obtain ⟨maps, reworded⟩ := draft.mapExprsM_keeps Modality.ofOk VarTable.Reworded.threads keeps
    VarTable.reworded_refresh later succeeded
  exact lasting.rewrite draft later holds maps reworded

/-- Simplification keeps what lasts. -/
theorem simplified (lasting : Lasting lasts) (holds : lasts draft) {catalog : Catalog}
    (succeeded
      : runSteps catalog [.simplifyFunctions, .simplifyProperties, .inlineConstants] draft
        = .ok later)
    : lasts later := by
  obtain ⟨simple, functions, succeeded⟩ := bind_eq_ok.mp succeeded
  obtain rfl := Except.ok.inj succeeded
  have properties : lasts (simplifyProperties simple) :=
    lasting.mapExprs (lasting.simplifyFunctions holds functions) _
  exact lasting.dropConstants (lasting.mapExprs properties _)

end Draft.Lasting

/-- What is handed over is so to the end of the simplification. -/
theorem Draft.HandsOver.lasting : Draft.Lasting Draft.HandsOver where
  rewrite := fun draft later handsOver maps reworded =>
    ⟨handsOver.tree.alike maps reworded.stamps,
      fun id => (reworded.required id).trans (handsOver.unmarked id)⟩
  drop := by
    intro draft source id handsOver within noPath
    refine ⟨handsOver.tree.unproject within noPath, fun other => ?_⟩
    have unmarked := handsOver.unmarked other
    rw [VarTable.required, VarTable.definition?_remove]
    split
    · rfl
    · exact unmarked

/-- And so to the end of all steps. -/
theorem Draft.HandsOver.finished {draft : Draft} (handsOver : draft.HandsOver)
    : (resolveNames (markProperties draft)).tree.HandsOver
        (resolveNames (markProperties draft)).vars := by
  obtain ⟨maps, same⟩ := draft.finished_alike
  exact handsOver.tree.alike maps same

end CypherSql.Plan
