import CypherSql.Plan.Sources
import CypherSql.Proofs.Outcome

/-! Steps that change every scope of a tree, alone or together with the variables. What holds of
each scope after its change holds of the tree.
-/

namespace CypherSql.Plan

/-- The subqueries have the same name and exports, and related scopes. -/
structure Subquery.Maps (related : Scope → Scope → Prop) (subquery later : Subquery) : Prop where
  name : later.name = subquery.name
  exports : later.exports = subquery.exports
  scope : related subquery.scope later.scope

/-- The trees have the same subqueries but for their scopes, and each scope is related to the one in
its place.
-/
structure Tree.Maps (related : Scope → Scope → Prop) (tree later : Tree) : Prop where
  subqueries : List.Forall₂ (Subquery.Maps related) tree.subqueries later.subqueries
  root : related tree.root later.root

/-- The scopes of a tree have the positions of the models of a query as their indices, and each of
them fits its model.
-/
structure Tree.Each (models : List ScopeModel) (fits : ScopeModel → Scope → Prop) (tree : Tree)
    : Prop where
  indexed : tree.scopes.map (·.index) = List.range models.length
  each : ∀ scope ∈ tree.scopes, ∃ model, models[scope.index]? = some model ∧ fits model scope

namespace Tree

variable {tree later : Tree} {related : Scope → Scope → Prop}

theorem mem_scopes {scope : Scope}
    : scope ∈ tree.scopes ↔ (∃ subquery ∈ tree.subqueries, subquery.scope = scope)
      ∨ scope = tree.root := by
  simp [scopes]

/-- The scopes are related in their order. -/
theorem Maps.scopes (maps : tree.Maps related later)
    : List.Forall₂ related tree.scopes later.scopes := by
  refine List.rel_append ?_ (.cons maps.root .nil)
  rw [List.forall₂_map_left_iff, List.forall₂_map_right_iff]
  exact maps.subqueries.imp fun _ _ same => same.scope

/-- A scope of the later tree comes from a scope of the earlier one. -/
theorem Maps.of_mem (maps : tree.Maps related later) {scope : Scope} (member : scope ∈ later.scopes)
    : ∃ old ∈ tree.scopes, related old scope := by
  obtain ⟨index, found⟩ := List.mem_iff_getElem?.mp member
  obtain ⟨old, present, holds⟩ := forall₂_getElem?_right maps.scopes found
  exact ⟨old, List.mem_of_getElem? present, holds⟩

theorem Maps.imp {weaker : Scope → Scope → Prop} (maps : tree.Maps related later)
    (weaken : ∀ old new, old ∈ tree.scopes → related old new → weaker old new)
    : tree.Maps weaker later := by
  refine ⟨?_, weaken _ _ (mem_scopes.mpr (.inr rfl)) maps.root⟩
  have within : ∀ subquery ∈ tree.subqueries, subquery.scope ∈ tree.scopes :=
    fun subquery member => mem_scopes.mpr (.inl ⟨subquery, member, rfl⟩)
  have subqueries := maps.subqueries
  generalize tree.subqueries = before at subqueries within
  generalize later.subqueries = after at subqueries
  induction subqueries with
  | nil => exact .nil
  | cons first _ ih =>
      refine .cons ⟨first.name, first.exports, weaken _ _ (within _ (by simp)) first.scope⟩ ?_
      exact ih fun subquery member => within subquery (by simp [member])

theorem Maps.length (maps : tree.Maps related later)
    : later.subqueries.length = tree.subqueries.length :=
  maps.subqueries.length_eq.symm

/-- A subquery of the later tree has the name and exports of the one in its place. -/
theorem Maps.getElem? (maps : tree.Maps related later) {index : Nat} {subquery : Subquery}
    (found : later.subqueries[index]? = some subquery)
    : ∃ old,
        tree.subqueries[index]? = some old ∧ Subquery.Maps related old subquery :=
  forall₂_getElem?_right maps.subqueries found

/-- Changed scopes fit their models if the change keeps their indices. -/
theorem Each.maps {models : List ScopeModel} {fits after : ScopeModel → Scope → Prop}
    (each : tree.Each models fits) (maps : tree.Maps related later)
    (step
      : ∀ model old new,
          models[old.index]? = some model
          → fits model old
          → related old new
          → new.index = old.index ∧ after model new)
    : later.Each models after := by
  have moved : ∀ old new, old ∈ tree.scopes → related old new →
      new.index = old.index ∧ ∃ model, models[old.index]? = some model ∧ after model new := by
    intro old new member holds
    obtain ⟨model, found, fit⟩ := each.each old member
    obtain ⟨index, result⟩ := step model old new found fit holds
    exact ⟨index, model, found, result⟩
  have maps := maps.imp moved
  refine ⟨?_, fun scope member => ?_⟩
  · rw [← each.indexed]
    exact map_eq_of_forall₂ maps.scopes fun _ _ moved => moved.1
  · obtain ⟨old, -, index, model, found, result⟩ := maps.of_mem member
    exact ⟨model, index ▸ found, result⟩

theorem Each.mono {models : List ScopeModel} {fits weaker : ScopeModel → Scope → Prop}
    (each : tree.Each models fits)
    (weaken : ∀ model scope, models[scope.index]? = some model → fits model scope
      → weaker model scope)
    : tree.Each models weaker := by
  refine ⟨each.indexed, fun scope member => ?_⟩
  obtain ⟨model, found, fit⟩ := each.each scope member
  exact ⟨model, found, weaken model scope found fit⟩

/-- There is one subquery less than there are models. -/
theorem Each.length {models : List ScopeModel} {fits : ScopeModel → Scope → Prop}
    (each : tree.Each models fits)
    : tree.subqueries.length + 1 = models.length := by
  have length := congrArg List.length each.indexed
  simpa [scopes] using length

/-- The scope at a position has the position as its index. -/
theorem Each.index {models : List ScopeModel} {fits : ScopeModel → Scope → Prop}
    (each : tree.Each models fits) {index : Nat} {scope : Scope}
    (found : tree.scopes[index]? = some scope)
    : scope.index = index := by
  have mapped : (tree.scopes.map (·.index))[index]? = some scope.index := by
    rw [List.getElem?_map, found]
    rfl
  rw [each.indexed] at mapped
  obtain ⟨within, same⟩ := List.getElem?_eq_some_iff.mp mapped
  simpa using same.symm

theorem Each.getElem? {models : List ScopeModel} {fits : ScopeModel → Scope → Prop}
    (each : tree.Each models fits) {index : Nat} {scope : Scope}
    (found : tree.scopes[index]? = some scope)
    : scope.index = index ∧ ∃ model, models[index]? = some model ∧ fits model scope := by
  obtain rfl := each.index found
  exact ⟨rfl, each.each scope (List.mem_of_getElem? found)⟩

theorem Each.length_scopes {models : List ScopeModel} {fits : ScopeModel → Scope → Prop}
    (each : tree.Each models fits)
    : tree.scopes.length = models.length := by
  have length := congrArg List.length each.indexed
  simpa using length

/-- The scopes of a tree fit the models in their order. -/
theorem Each.forall₂_models {models : List ScopeModel} {fits : ScopeModel → Scope → Prop}
    (each : tree.Each models fits)
    : List.Forall₂ (fun model scope => models[scope.index]? = some model ∧ fits model scope)
        models tree.scopes := by
  apply List.forall₂_of_length_eq_of_get each.length_scopes.symm
  intro position within withinTree
  obtain ⟨index, model, found, fit⟩ := each.getElem? (List.getElem?_eq_getElem withinTree)
  rw [List.get_eq_getElem, List.get_eq_getElem, index, found]
  rw [List.getElem?_eq_getElem within] at found
  obtain rfl := Option.some.inj found
  exact ⟨rfl, fit⟩

/-- Two trees whose scopes fit the same models have them in the same order. -/
theorem Each.forall₂ {models : List ScopeModel} {fits after : ScopeModel → Scope → Prop}
    (each : tree.Each models fits) (eachLater : later.Each models after)
    : List.Forall₂
        (fun old new =>
          new.index = old.index
          ∧ ∃ model, models[old.index]? = some model ∧ fits model old ∧ after model new)
        tree.scopes later.scopes := by
  apply List.forall₂_of_length_eq_of_get (each.length_scopes.trans eachLater.length_scopes.symm)
  intro position within withinLater
  obtain ⟨index, model, found, fit⟩ := each.getElem? (List.getElem?_eq_getElem within)
  obtain ⟨indexLater, other, found', fitLater⟩ :=
    eachLater.getElem? (List.getElem?_eq_getElem withinLater)
  obtain rfl := Option.some.inj (found.symm.trans found')
  rw [List.get_eq_getElem, List.get_eq_getElem, index]
  exact ⟨indexLater, model, found, fit, fitLater⟩

theorem scopes_getElem? {index : Nat} {subquery : Subquery}
    (found : tree.subqueries[index]? = some subquery)
    : tree.scopes[index]? = some subquery.scope := by
  have within := (List.getElem?_eq_some_iff.mp found).1
  rw [scopes, List.getElem?_append_left (by simpa using within), List.getElem?_map, found]
  rfl

/-- The subquery at a position has the position as its index. -/
theorem Each.subquery_index {models : List ScopeModel} {fits : ScopeModel → Scope → Prop}
    (each : tree.Each models fits) {index : Nat} {subquery : Subquery}
    (found : tree.subqueries[index]? = some subquery)
    : subquery.scope.index = index :=
  each.index (scopes_getElem? found)

/-- A tree has no fault if no item has one, and each subquery that is read is the one before. -/
theorem fault?_eq_none {needsTables : Bool}
    (within : ∀ scope ∈ tree.scopes, scope.index ≤ tree.subqueries.length)
    (sound
      : ∀ scope ∈ tree.scopes,
          ∀ item ∈ scope.select.items,
            item.fault? needsTables = none
            ∧ ∀ source, item.source = some source → source + 1 = scope.index)
    : tree.fault? needsTables = none := by
  refine List.findSome?_eq_none_iff.mpr fun item listed => ?_
  obtain ⟨scope, member, inside⟩ := List.mem_flatMap.mp listed
  obtain ⟨noFault, behind⟩ := sound scope member item inside
  have last := within scope member
  rw [Tree.itemFault?, noFault, Option.none_or]
  cases source : item.source with
  | none => rfl
  | some other =>
      have before := behind other source
      have there : other < tree.subqueries.length := by omega
      simp [there]

/-- What holds of the change of each scope holds of the change of the tree. -/
theorem mapScopesM_holds {m : Type → Type} [Monad m] [LawfulMonad m] (modality : Modality m)
    {f : Scope → m Scope} (each : ∀ scope ∈ tree.scopes, modality.Holds (related scope) (f scope))
    : modality.Holds (tree.Maps related) (tree.mapScopesM f) := by
  have subqueries : modality.Holds (List.Forall₂ (Subquery.Maps related) tree.subqueries)
      (tree.subqueries.mapM fun subquery => do
        let scope ← f subquery.scope
        pure { subquery with scope }) := by
    refine modality.mapM fun subquery member => ?_
    have inside := mem_scopes.mpr (.inl ⟨subquery, member, rfl⟩)
    exact modality.bind (each subquery.scope inside) fun scope holds =>
      modality.pure ⟨rfl, rfl, holds⟩
  refine modality.bind subqueries fun changed relations => ?_
  exact modality.bind (each tree.root (mem_scopes.mpr (.inr rfl))) fun root holds =>
    modality.pure ⟨relations, holds⟩

/-- A safe change of each scope is a safe change of the tree. -/
theorem mapScopesM_safely {f : Scope → Except LoweringError Scope}
    (each : ∀ scope ∈ tree.scopes, Safely (related scope) (f scope))
    : Safely (tree.Maps related) (tree.mapScopesM f) :=
  mapScopesM_holds Safely.modality each

end Tree

section EachScope

variable {keeps : VarTable → VarTable → Prop}

/-- What changes of variables one after the other keep is kept by all of them together. -/
structure Threads (keeps : VarTable → VarTable → Prop) : Prop where
  refl : ∀ vars, keeps vars vars
  trans : ∀ first second third, keeps first second → keeps second third → keeps first third

/-- Changes of items and variables together, one item after the other, by induction over them. -/
theorem mapM_run_safely {α β : Type} (items : List α) (inv : VarTable → Prop)
    (related : α → VarTable → β → Prop) (threads : Threads keeps)
    {f : α → StateT VarTable (Except LoweringError) β}
    (stable : ∀ old vars later new, keeps vars later → related old vars new → related old later new)
    (each
      : ∀ item ∈ items,
          ∀ vars,
            inv vars
            → Safely (fun result =>
                inv result.2 ∧ keeps vars result.2 ∧ related item result.2 result.1)
                ((f item).run vars))
    {vars : VarTable} (holds : inv vars)
    : Safely (fun result =>
          inv result.2
          ∧ keeps vars result.2
          ∧ List.Forall₂ (fun old new => related old result.2 new) items result.1)
        ((items.mapM f).run vars) := by
  induction items generalizing vars with
  | nil => exact ⟨holds, threads.refl vars, .nil⟩
  | cons item rest ih =>
      rw [List.mapM_cons, StateT.run_bind]
      refine (each item (by simp) vars holds).bind fun ⟨first, middle⟩ ⟨kept, keep, new⟩ => ?_
      rw [StateT.run_bind]
      refine (ih (fun item member => each item (by simp [member])) kept).bind ?_
      rintro ⟨others, later⟩ ⟨kept, keep', all⟩
      exact ⟨kept, threads.trans _ _ _ keep keep',
        .cons (stable item middle later first keep' new) all⟩

/-- A safe change of each scope with the variables is a safe change of the draft. -/
theorem Draft.eachScope_safely (draft : Draft) (inv : VarTable → Prop)
    (related : Scope → VarTable → Scope → Prop) (threads : Threads keeps)
    {f : Scope → VarTable → Except LoweringError (Scope × VarTable)}
    (stable : ∀ old vars later new, keeps vars later → related old vars new → related old later new)
    (holds : inv draft.vars)
    (each
      : ∀ scope ∈ draft.tree.scopes,
          ∀ vars,
            inv vars
            → Safely (fun result =>
                inv result.2 ∧ keeps vars result.2 ∧ related scope result.2 result.1)
                (f scope vars))
    : Safely (fun later =>
          ∃ tree vars,
            later = { draft with tree, vars }
            ∧ inv vars
            ∧ draft.tree.Maps (fun old new => related old vars new) tree)
        (draft.eachScope f) := by
  unfold Draft.eachScope Tree.mapScopesM
  rw [StateT.run_bind]
  have subqueries := mapM_run_safely draft.tree.subqueries inv
    (fun old vars new => Subquery.Maps (fun old new => related old vars new) old new) threads
    (f := fun subquery => do
      let scope ← (f subquery.scope : StateT VarTable (Except LoweringError) Scope)
      pure { subquery with scope })
    (fun old vars later new keep same =>
      ⟨same.name, same.exports, stable _ _ _ _ keep same.scope⟩)
    (fun subquery member vars holds => by
      have inside := Tree.mem_scopes.mpr (.inl ⟨subquery, member, rfl⟩)
      rw [StateT.run_bind]
      exact (each subquery.scope inside vars holds).bind
        fun ⟨scope, later⟩ ⟨kept, keep, new⟩ => ⟨kept, keep, rfl, rfl, new⟩)
    holds
  rw [bind_assoc]
  refine subqueries.bind fun ⟨changed, middle⟩ ⟨kept, keep, relations⟩ => ?_
  rw [StateT.run_bind, bind_assoc]
  refine (each draft.tree.root (Tree.mem_scopes.mpr (.inr rfl)) middle kept).bind ?_
  rintro ⟨root, later⟩ ⟨kept, keep', new⟩
  refine ⟨_, later, rfl, kept, ?_, new⟩
  exact relations.imp fun old new same =>
    ⟨same.name, same.exports, stable _ _ _ _ keep' same.scope⟩

/-- The scopes of a changed tree are the changed scopes. -/
theorem Tree.scopes_mapScopesM {m : Type → Type} [Monad m] [LawfulMonad m] (tree : Tree)
    (f : Scope → m Scope)
    : Tree.scopes <$> tree.mapScopesM f = tree.scopes.mapM f := by
  have subqueries (list : List Subquery)
      : (list.map (·.scope)).mapM f
        = List.map (·.scope) <$> list.mapM fun subquery => (do
            let scope ← f subquery.scope
            pure { subquery with scope }) := by
    induction list with
    | nil => simp
    | cons first rest ih => simp [List.mapM_cons, ih]
  simp [Tree.mapScopesM, Tree.scopes, List.mapM_append, subqueries]

/-- What changes of items and variables lead to, one item after the other, by induction over them.
What holds of the variables may depend on the items that are left.
-/
theorem mapM_run_ok {α β : Type} {inv : List α → VarTable → Prop} {related : α → β → Prop}
    {f : α → StateT VarTable (Except LoweringError) β}
    (each
      : ∀ item rest vars result,
          inv (item :: rest) vars
          → (f item).run vars = .ok result
          → related item result.1 ∧ inv rest result.2)
    {items : List α} {vars : VarTable} (holds : inv items vars) {result : List β × VarTable}
    (runs : (items.mapM f).run vars = .ok result)
    : List.Forall₂ related items result.1 ∧ inv [] result.2 := by
  induction items generalizing vars result with
  | nil =>
      obtain rfl := Except.ok.inj runs
      exact ⟨.nil, holds⟩
  | cons item rest ih =>
      rw [List.mapM_cons, StateT.run_bind] at runs
      obtain ⟨⟨first, middle⟩, changed, runs⟩ := bind_eq_ok.mp runs
      rw [StateT.run_bind] at runs
      obtain ⟨⟨others, later⟩, changedRest, same⟩ := bind_eq_ok.mp runs
      obtain rfl := Except.ok.inj same
      obtain ⟨relatedFirst, kept⟩ := each item rest vars _ holds changed
      obtain ⟨relatedRest, last⟩ := ih kept changedRest
      exact ⟨.cons relatedFirst relatedRest, last⟩

/-- Changes of items and variables together, where each item has variables of its own and changes no
others. Its variables are to its change as they were at the start, and stay as it leaves them.
Witness: induction over the items.
-/
theorem mapM_run_apart {α β : Type} {keys : α → List VarId} {inv : VarTable → Prop}
    {f : α → StateT VarTable (Except LoweringError) β} {items : List α}
    (each
      : ∀ item ∈ items,
          ∀ vars result,
            inv vars
            → (f item).run vars = .ok result
            → inv result.2 ∧ ∀ id ∉ keys item, result.2.definition? id = vars.definition? id)
    (apart : (items.flatMap keys).Nodup) {start vars : VarTable}
    (same : ∀ id ∈ items.flatMap keys, vars.definition? id = start.definition? id)
    (holds : inv vars) {result : List β × VarTable} (runs : (items.mapM f).run vars = .ok result)
    : (∀ id ∉ items.flatMap keys, result.2.definition? id = vars.definition? id)
      ∧ List.Forall₂
          (fun item new =>
            ∃ before after,
              inv before
              ∧ (f item).run before = .ok (new, after)
              ∧ ∀ id ∈ keys item,
                  before.definition? id = start.definition? id
                  ∧ result.2.definition? id = after.definition? id)
          items result.1 := by
  induction items generalizing vars result with
  | nil =>
      obtain rfl := Except.ok.inj runs
      exact ⟨fun _ _ => rfl, .nil⟩
  | cons item rest ih =>
      rw [List.mapM_cons, StateT.run_bind] at runs
      obtain ⟨⟨first, middle⟩, changed, runs⟩ := bind_eq_ok.mp runs
      rw [StateT.run_bind] at runs
      obtain ⟨⟨others, later⟩, changedRest, done⟩ := bind_eq_ok.mp runs
      obtain rfl := Except.ok.inj done
      rw [List.flatMap_cons] at apart same ⊢
      obtain ⟨-, apartRest, disjoint⟩ := List.nodup_append.mp apart
      obtain ⟨kept, frame⟩ := each item (by simp) vars _ holds changed
      have sameRest : ∀ id ∈ rest.flatMap keys, middle.definition? id = start.definition? id := by
        intro id member
        rw [frame id fun own => disjoint id own id member rfl]
        exact same id (List.mem_append_right _ member)
      obtain ⟨frameRest, relations⟩ :=
        ih (fun other member => each other (by simp [member])) apartRest
        sameRest kept changedRest
      refine ⟨fun id absent => ?_, .cons ⟨vars, middle, holds, changed, fun id own => ?_⟩ relations⟩
      · rw [List.mem_append, not_or] at absent
        exact (frameRest id absent.2).trans (frame id absent.1)
      · refine ⟨same id (List.mem_append_left _ own), frameRest id fun member => ?_⟩
        exact disjoint id own id member rfl

/-- A change of each scope of a draft is one of its scopes in order. -/
theorem Draft.mapM_run_of_eachScope {draft later : Draft}
    {f : Scope → VarTable → Except LoweringError (Scope × VarTable)}
    (runs : draft.eachScope f = .ok later)
    : StateT.run (draft.tree.scopes.mapM fun scope =>
          (f scope : StateT VarTable (Except LoweringError) Scope)) draft.vars
      = .ok (later.tree.scopes, later.vars) := by
  obtain ⟨⟨tree, vars⟩, changed, same⟩ := bind_eq_ok.mp runs
  obtain rfl := Except.ok.inj same
  rw [← Tree.scopes_mapScopesM, StateT.run_map, changed]
  rfl

/-- What a change of each scope with the variables leads to. -/
theorem Draft.eachScope_ok {draft later : Draft} (inv : List Scope → VarTable → Prop)
    (related : Scope → Scope → Prop)
    {f : Scope → VarTable → Except LoweringError (Scope × VarTable)}
    (runs : draft.eachScope f = .ok later) (holds : inv draft.tree.scopes draft.vars)
    (each
      : ∀ scope rest vars result,
          inv (scope :: rest) vars
          → f scope vars = .ok result
          → related scope result.1 ∧ inv rest result.2)
    : List.Forall₂ related draft.tree.scopes later.tree.scopes ∧ inv [] later.vars :=
  mapM_run_ok each holds (Draft.mapM_run_of_eachScope runs)

end EachScope

end CypherSql.Plan
