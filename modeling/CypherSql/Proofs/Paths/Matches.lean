import CypherSql.Proofs.Collection.Projections
import CypherSql.Proofs.Paths.Kept
import Mathlib.Data.Multiset.Dedup

/-! The `MATCH` clauses of a query with the variables that each of them mentions and declares,
matches of their patterns, and when a path can be counted by its first node in all of them. Every
path is declared by one of the clauses.
-/

namespace CypherSql.Plan

section Clauses

open Cypher (MatchClause PathPattern Projection ProjectionItem)

/-- A `MATCH` at its position among those of a query: the scope that it is in, the nodes that its
patterns mention by name, and the nodes, relationships and paths that it declares.
-/
structure PatternClause where
  position : Nat
  scope : Nat
  isOptional : Bool
  mentioned : List VarId
  declared : List VarId
  deriving DecidableEq

/-- The nodes and relationships of a path, and any other variable by itself. -/
def VarTable.parts (vars : VarTable) (id : VarId) : List VarId :=
  ((vars.definition? id).bind Definition.path?).elim [id] (·.2)

/-- The nodes and relationships that a match of the clause needs, other names of them resolved. -/
def PatternClause.elements (vars : VarTable) (clause : PatternClause) : List VarId :=
  (clause.mentioned ++ clause.declared.flatMap vars.parts).map vars.resolve

namespace Walk

/-- A `MATCH` between two places of a walk. -/
def patternClause (walk later : Walk) (position : Nat) (clause : MatchClause) : PatternClause where
  position
  scope := walk.scope
  isOptional := clause.optional
  mentioned := (clause.patterns.flatMap PathPattern.nodes).filterMap fun node =>
    node.name.bind later.visible.get?
  declared := later.vars.ids.filter fun id => (walk.vars.get? id).isNone

/-- The `MATCH` clauses among clauses, the first of them at a given position. -/
def patternClauses (walk : Walk) (position : Nat)
    : List Cypher.Clause → Except LoweringError (List PatternClause)
  | [] => .ok []
  | .matching clause :: rest => do
      let later ← walk.takeMatch clause
      let others ← later.patternClauses (position + 1) rest
      return walk.patternClause later position clause :: others
  | .withItems projection condition :: rest => do
      let walk ← walk.closeScope .withClause projection condition
      walk.patternClauses position rest
  | .returnItems _ :: _ => .ok []

end Walk

/-- The `MATCH` clauses of a query. -/
def patternClauses (query : Cypher.Query) : Except LoweringError (List PatternClause) :=
  Walk.start.patternClauses 0 query.clauses

/-- The variable is a path by itself, with the given hops and elements. -/
def VarTable.HasPath (vars : VarTable) (path : Nat × List VarId) (id : VarId) : Prop :=
  (vars.definition? id).bind Definition.path? = some path

theorem VarTable.hasPath_resolve {vars : VarTable} {path : Nat × List VarId} {id : VarId}
    (hasPath : pathOf? vars id = some path)
    : vars.HasPath path (vars.resolve id) :=
  (pathOf?_eq vars id).symm.trans hasPath

theorem VarTable.HasPath.definition? {vars : VarTable} {path : Nat × List VarId} {id : VarId}
    (hasPath : vars.HasPath path id)
    : vars.definition? id = some (.path path.1 path.2) := by
  obtain ⟨definition, found, same⟩ := Option.bind_eq_some_iff.mp hasPath
  rw [found]
  cases definition <;> cases same
  rfl

/-- A path of a grown table was one in the table before, if it was there. -/
theorem VarTable.GrowsTo.hasPath {vars later : VarTable} {path : Nat × List VarId} {id : VarId}
    (grows : vars.GrowsTo later) (declared : (vars.get? id).isSome)
    (hasPath : later.HasPath path id)
    : vars.HasPath path id := by
  obtain ⟨var, found⟩ := Option.isSome_iff_exists.mp declared
  obtain ⟨other, found', -, outline, -⟩ := grows.kept found
  rw [VarTable.HasPath, VarTable.definition?_of_get? found'] at hasPath
  rw [VarTable.HasPath, VarTable.definition?_of_get? found, ← hasPath, Option.bind_some,
    Option.bind_some, ← Definition.path?_outline, ← outline, Definition.path?_outline]

namespace Walk

variable {walk later : Walk} {path : Nat × List VarId} {id : VarId}

/-- The variables stay what they are through a `MATCH`. -/
theorem Sound.grows_takeMatch (sound : walk.Sound) {clause : MatchClause}
    (taken : walk.takeMatch clause = .ok later)
    : walk.vars.GrowsTo later.vars := by
  obtain ⟨state, takesPaths, taken⟩ := bind_eq_ok.mp taken
  have continues : walk.between.Continues walk.between := ⟨sound, .refl _⟩
  have patterns := Safely.foldlM (f := ClauseWalk.takePath) clause.patterns continues
    fun state ⟨soundState, advances⟩ path _ =>
      (soundState.takePath path).mono fun later ⟨soundLater, more⟩ =>
        ⟨soundLater, advances.trans more⟩
  obtain ⟨-, advances⟩ := patterns.of_ok takesPaths
  dsimp only at taken
  split at taken
  · obtain ⟨_, -, same⟩ := bind_eq_ok.mp taken
    exact Except.ok.inj same ▸ advances.grows
  · exact Except.ok.inj taken ▸ advances.grows

/-- The items of a projection declare no paths, by induction over them. -/
theorem hasPath_takeItems {kind : ScopeKind} {next : Visible} {items : List ProjectionItem}
    {result : List Item × Visible × Walk} (succeeded : walk.takeItems kind next items = .ok result)
    (hasPath : result.2.2.vars.HasPath path id)
    : walk.vars.HasPath path id := by
  induction items generalizing walk next result with
  | nil =>
      obtain rfl := Except.ok.inj succeeded
      exact hasPath
  | cons item rest ih =>
      obtain ⟨⟨first, visible, middle⟩, taken, succeeded⟩ := bind_eq_ok.mp succeeded
      obtain ⟨⟨others, last, final⟩, takenRest, same⟩ := bind_eq_ok.mp succeeded
      obtain rfl := Except.ok.inj same
      have hasPath : middle.vars.HasPath path id := ih takenRest hasPath
      obtain ⟨base, name, definition, projects, same⟩ := takeItem_declares taken
      dsimp only at same
      rw [same, VarTable.HasPath, VarTable.definition?] at hasPath
      simp only [Walk.declare, VarTable.get?_insert] at hasPath
      split at hasPath
      · rcases projects with ⟨expr, rfl⟩ | ⟨column, rfl⟩ <;> cases hasPath
      · exact hasPath

/-- A projection declares no paths. -/
theorem hasPath_closeScope {kind : ScopeKind} {projection : Projection}
    {condition : Option Cypher.Expr}
    (succeeded : walk.closeScope kind projection condition = .ok later)
    (hasPath : later.vars.HasPath path id)
    : walk.vars.HasPath path id := by
  obtain ⟨⟨items, next, middle⟩, taken, succeeded⟩ := bind_eq_ok.mp succeeded
  obtain ⟨orderBy, -, succeeded⟩ := bind_eq_ok.mp succeeded
  obtain ⟨skip, -, succeeded⟩ := bind_eq_ok.mp succeeded
  obtain ⟨limit, -, succeeded⟩ := bind_eq_ok.mp succeeded
  obtain ⟨filter, -, same⟩ := bind_eq_ok.mp succeeded
  obtain rfl := Except.ok.inj same
  exact hasPath_takeItems taken hasPath

/-- A path is there before some clauses, or one of them declares it. Induction over the clauses. -/
theorem Sound.patternClauses (sound : walk.Sound) (position : Nat) {clauses : List Cypher.Clause}
    (succeeded : walk.takeClauses false clauses = .ok later)
    : ∃ patterns,
        walk.patternClauses position clauses = .ok patterns
        ∧ ∀ path id,
            later.vars.HasPath path id
            → walk.vars.HasPath path id ∨ ∃ pattern ∈ patterns, id ∈ pattern.declared := by
  induction clauses generalizing walk position with
  | nil => cases succeeded
  | cons clause rest ih =>
      cases clause with
      | matching clause =>
          obtain ⟨middle, taken, succeeded⟩ := bind_eq_ok.mp succeeded
          have soundMiddle := ((sound.takeMatch clause).of_ok taken).1
          obtain ⟨others, isOthers, each⟩ := ih soundMiddle (position + 1) succeeded
          refine ⟨walk.patternClause middle position clause :: others, ?_,
            fun path id hasPath => ?_⟩
          · simp only [Walk.patternClauses, taken, isOthers, Safely.ok_bind]
            rfl
          rcases each path id hasPath with before | ⟨pattern, member, declared⟩
          · cases present : walk.vars.get? id with
            | some var =>
                exact .inl ((sound.grows_takeMatch taken).hasPath (by simp [present]) before)
            | none =>
                refine .inr ⟨_, List.mem_cons_self, List.mem_filter.mpr ⟨?_, by simp [present]⟩⟩
                obtain ⟨var, found, -⟩ := VarTable.definition?_eq_some.mp before.definition?
                simp [VarTable.mem_ids, found]
          · exact .inr ⟨pattern, List.mem_cons_of_mem _ member, declared⟩
      | withItems projection condition =>
          obtain ⟨middle, taken, succeeded⟩ := bind_eq_ok.mp succeeded
          have soundMiddle := ((sound.closeScope .withClause projection condition).of_ok taken).1
          obtain ⟨patterns, isPatterns, each⟩ := ih soundMiddle position succeeded
          refine ⟨patterns, ?_, fun path id hasPath => ?_⟩
          · simpa only [Walk.patternClauses, taken, Safely.ok_bind] using isPatterns
          · exact (each path id hasPath).imp_left (hasPath_closeScope taken)
      | returnItems projection =>
          obtain ⟨middle, taken, succeeded⟩ := bind_eq_ok.mp succeeded
          cases rest with
          | cons _ _ => cases succeeded
          | nil =>
              obtain rfl := Except.ok.inj succeeded
              exact ⟨[], rfl, fun path id hasPath => .inl (hasPath_closeScope taken hasPath)⟩

end Walk

/-- Every path of a query is declared by one of its `MATCH` clauses. -/
theorem collect_patternClauses {query : Cypher.Query} {walk : Walk}
    (collected : collect query = .ok walk)
    : ∃ clauses,
        patternClauses query = .ok clauses
        ∧ ∀ path id, walk.vars.HasPath path id → ∃ clause ∈ clauses, id ∈ clause.declared := by
  obtain ⟨clauses, isClauses, each⟩ := Walk.sound_start.patternClauses 0 collected
  refine ⟨clauses, isClauses, fun path id hasPath => ?_⟩
  rcases each path id hasPath with before | declared
  · have none : Walk.start.vars.get? id = none := NameMap.get?_empty id
    simp [VarTable.HasPath, VarTable.definition?, none] at before
  · exact declared

end Clauses

variable {Key : Type} {vars : VarTable} {clauses : List PatternClause}
  {clause other : PatternClause}
  {id path first : VarId} {elements : List VarId} {hops : Nat}

/-- A match of the patterns of a query: which of its clauses are found, and the key of each node and
relationship, or none.
-/
structure Match (Key : Type) where
  found : PatternClause → Bool
  key : VarId → Option Key

/-- Only optional clauses are not found. Where one is found, all that it needs has a key, and where
one is not, nothing that it declares has.
-/
structure Match.Fits (vars : VarTable) (clauses : List PatternClause) (m : Match Key) : Prop where
  required : ∀ clause ∈ clauses, clause.isOptional = false → m.found clause = true
  bound
    : ∀ clause ∈ clauses,
        m.found clause = true → ∀ id ∈ clause.elements vars, (m.key id).isSome = true
  unbound : ∀ clause ∈ clauses, m.found clause = false → ∀ id ∈ clause.declared, m.key id = none

/-- The value of a path: the keys of its elements, unless the clause that declares it is not found.
-/
def Match.pathValue (m : Match Key) (vars : VarTable) (clause : PatternClause)
    (elements : List VarId)
    : Option (List (Option Key)) :=
  if m.found clause then some (elements.map fun id => m.key (vars.resolve id)) else none

/-- What `count` makes of a bag of values, of which `none` is NULL. -/
def countBound {Value : Type} [DecidableEq Value] (distinct : Bool)
    (values : Multiset (Option Value))
    : Nat :=
  (if distinct then values.dedup else values).countP fun value => value.isSome

/-- The clause is found in every match in which a variable has a key: it is required, it declares
the variable, or it declares what a clause needs that is found in every such match.
-/
inductive PatternClause.FoundWith (vars : VarTable) (clauses : List PatternClause) (id : VarId)
    : PatternClause → Prop
  | required {clause : PatternClause}
    : clause ∈ clauses → clause.isOptional = false → clause.FoundWith vars clauses id
  | declares {clause : PatternClause}
    : clause ∈ clauses → id ∈ clause.declared → clause.FoundWith vars clauses id
  | needed {clause other : PatternClause} {element : VarId}
    : other.FoundWith vars clauses id
      → element ∈ other.elements vars
      → clause ∈ clauses
      → element ∈ clause.declared
      → clause.FoundWith vars clauses id

/-- Counting one value or another comes to the same in every bag of matches. -/
def SameCounts {Left Right : Type} [DecidableEq Left] [DecidableEq Right] (vars : VarTable)
    (clauses : List PatternClause) (distinct : Bool) (left : Match Key → Option Left)
    (right : Match Key → Option Right)
    : Prop :=
  ∀ bag : Multiset (Match Key),
    (∀ m ∈ bag, m.Fits vars clauses)
    → countBound distinct (bag.map left) = countBound distinct (bag.map right)

theorem PatternClause.FoundWith.mem (foundWith : clause.FoundWith vars clauses id)
    : clause ∈ clauses := by
  cases foundWith <;> assumption

/-- Induction over why the clause is found. -/
theorem Match.Fits.found {m : Match Key} (fits : m.Fits vars clauses)
    (hasKey : (m.key id).isSome = true) (foundWith : clause.FoundWith vars clauses id)
    : m.found clause = true := by
  -- What a clause declares has a key only where the clause is found.
  have declaring {clause : PatternClause} {id : VarId} (member : clause ∈ clauses)
      (declared : id ∈ clause.declared) (hasKey : (m.key id).isSome = true)
      : m.found clause = true := by
    by_contra notFound
    rw [fits.unbound clause member (by simpa using notFound) id declared] at hasKey
    cases hasKey
  induction foundWith with
  | required member isRequired => exact fits.required _ member isRequired
  | declares member declared => exact declaring member declared hasKey
  | needed foundWith needed member declared ih =>
      exact declaring member declared (fits.bound _ foundWith.mem ih _ needed)

open Classical in
/-- The match in which a variable has a key, and of the others only those that need one then. -/
noncomputable def Match.least (vars : VarTable) (clauses : List PatternClause)
    (id : VarId) (key : Key)
    : Match Key where
  found := fun clause => decide (clause.FoundWith vars clauses id)
  key := fun other =>
    if other = id
      ∨ ∃ clause ∈ clauses, clause.FoundWith vars clauses id ∧ other ∈ clause.elements vars then
      some key
    else none

theorem Match.fits_least (key : Key) : (Match.least vars clauses id key).Fits vars clauses where
  required := fun clause member isRequired => by
    have found : clause.FoundWith vars clauses id := .required member isRequired
    simpa [Match.least] using found
  bound := fun clause member found other needed => by
    have foundWith : clause.FoundWith vars clauses id := by simpa [Match.least] using found
    dsimp only [Match.least]
    rw [if_pos (.inr ⟨clause, member, foundWith, needed⟩)]
    rfl
  unbound := fun clause member notFound other declared => by
    have notWith : ¬ clause.FoundWith vars clauses id := by simpa [Match.least] using notFound
    dsimp only [Match.least]
    rw [if_neg]
    rintro (rfl | ⟨_, -, foundWith, needed⟩)
    · exact notWith (.declares member declared)
    · exact notWith (.needed foundWith needed member declared)

/-- The match in which every clause is found and every variable has a key. -/
def Match.full (key : VarId → Key) : Match Key where
  found := fun _ => true
  key := fun id => some (key id)

theorem Match.fits_full (key : VarId → Key) : (Match.full key).Fits vars clauses where
  required := fun _ _ _ => rfl
  bound := fun _ _ _ _ _ => rfl
  unbound := nofun

section Counts

variable {Value Row : Type} [DecidableEq Value] [DecidableEq Key]

@[simp]
theorem countBound_singleton (distinct : Bool) (value : Option Key)
    : countBound distinct {value} = if value.isSome then 1 else 0 := by
  cases distinct <;> simp [countBound, ← Multiset.cons_zero, Multiset.countP_cons]

theorem countBound_pair {left right : Option Key} (hasLeft : left.isSome = true)
    (hasRight : right.isSome = true)
    : countBound true {left, right} = if left = right then 1 else 2 := by
  split
  · rename_i same
    subst same
    simp [countBound, hasLeft, ← Multiset.cons_zero]
  · rename_i different
    simp [countBound, hasLeft, hasRight, different, ← Multiset.cons_zero]

/-- Bags of values of which the same are NULL have the same count. -/
theorem countBound_congr {bag : Multiset Row} {left : Row → Option Key} {right : Row → Option Value}
    (same : ∀ row ∈ bag, (left row).isSome = (right row).isSome)
    : countBound false (bag.map left) = countBound false (bag.map right) := by
  simp only [countBound, Bool.false_eq_true, if_false, Multiset.countP_map]
  refine congrArg Multiset.card (Multiset.filter_congr fun row member => ?_)
  rw [same row member]

/-- Different values that are replaced by different ones have the same count. -/
theorem countBound_map {f : Key → Value} (injective : Function.Injective f) (distinct : Bool)
    (values : Multiset (Option Key))
    : countBound distinct (values.map (Option.map f)) = countBound distinct values := by
  have isSome (values : Multiset (Option Key))
      : (values.map (Option.map f)).countP (·.isSome) = values.countP (·.isSome) := by
    rw [Multiset.countP_map, Multiset.countP_eq_card_filter]
    simp only [Option.isSome_map]
  cases distinct with
  | false => exact isSome values
  | true =>
      simp only [countBound, if_true]
      rw [Multiset.dedup_map_of_injective (Option.map_injective injective), isSome]

end Counts

/-- The elements of a declared path are needed by the clause that declares it. -/
theorem VarTable.HasPath.mem_elements (hasPath : vars.HasPath (hops, elements) path)
    (declared : path ∈ clause.declared) (member : id ∈ elements)
    : vars.resolve id ∈ clause.elements vars := by
  refine List.mem_map_of_mem (List.mem_append_right _ (List.mem_flatMap.mpr ⟨path, declared, ?_⟩))
  rw [VarTable.parts, show (vars.definition? path).bind Definition.path? = _ from hasPath]
  exact member

/-- A path that is declared by a clause among others, as it stands in a linked table. -/
structure DeclaredPath (vars : VarTable) (clauses : List PatternClause) (clause : PatternClause)
    (path : VarId) (hops : Nat) (first : VarId) (rest : List VarId)
    : Prop where
  member : clause ∈ clauses
  declared : path ∈ clause.declared
  hasPath : vars.HasPath (hops, first :: rest) path
  length : (first :: rest).length = 2 * hops + 1
  chain : vars.Chain (first :: rest)

namespace DeclaredPath

variable {rest : List VarId}

/-- Where the clause of a path is found if its first node has a key, each has a value exactly if the
other has one.
-/
theorem isSome_pathValue (declares : DeclaredPath vars clauses clause path hops first rest)
    (foundWith : clause.FoundWith vars clauses (vars.resolve first)) {m : Match Key}
    (fits : m.Fits vars clauses)
    : (m.key (vars.resolve first)).isSome = (m.pathValue vars clause (first :: rest)).isSome := by
  cases found : m.found clause with
  | true =>
      have needed := declares.hasPath.mem_elements declares.declared List.mem_cons_self
      simp [Match.pathValue, found, fits.bound clause declares.member found _ needed]
  | false =>
      have noKey : ¬ (m.key (vars.resolve first)).isSome = true := by
        intro hasKey
        rw [fits.found hasKey foundWith] at found
        cases found
      simpa [Match.pathValue, found] using noKey

/-- The value of a path without hops is that of its only node. -/
theorem pathValue_eq_map (declares : DeclaredPath vars clauses clause path 0 first [])
    (foundWith : clause.FoundWith vars clauses (vars.resolve first)) {m : Match Key}
    (fits : m.Fits vars clauses)
    : m.pathValue vars clause [first] = (m.key (vars.resolve first)).map fun key => [some key] := by
  have same := declares.isSome_pathValue foundWith fits
  cases hasKey : m.key (vars.resolve first) with
  | none =>
      rw [hasKey] at same
      exact Option.isSome_eq_false_iff.mp same.symm |> Option.isNone_iff_eq_none.mp
  | some key =>
      have found : m.found clause = true := fits.found (by simp [hasKey]) foundWith
      simp [Match.pathValue, found, hasKey]

variable [DecidableEq Key]

/-- A path may be counted by its first node if its clause is found wherever that has a key, and
either all paths are counted or they have no hops.
-/
theorem count_eq (declares : DeclaredPath vars clauses clause path hops first rest)
    (foundWith : clause.FoundWith vars clauses (vars.resolve first)) {distinct : Bool}
    (single : distinct = true → hops = 0)
    : SameCounts vars clauses distinct (fun m : Match Key => m.key (vars.resolve first))
        (·.pathValue vars clause (first :: rest)) := by
  intro bag fits
  cases distinct with
  | false =>
      exact countBound_congr fun m member => declares.isSome_pathValue foundWith (fits m member)
  | true =>
      obtain rfl := single rfl
      obtain rfl : rest = [] := by simpa using declares.length
      have paths : bag.map (fun m => m.pathValue vars clause [first])
          = (bag.map fun m => m.key (vars.resolve first)).map
            (Option.map fun key => [some key]) := by
        rw [Multiset.map_map]
        exact Multiset.map_congr rfl fun m member =>
          declares.pathValue_eq_map foundWith (fits m member)
      rw [paths, countBound_map]
      exact fun left right same => by simpa using same

/-- Where the clause of a path need not be found, its first node is counted in a match that has no
path.
-/
theorem foundWith_of_count [Nonempty Key] {distinct : Bool}
    (counts
      : SameCounts vars clauses distinct (fun m : Match Key => m.key (vars.resolve first))
          (·.pathValue vars clause (first :: rest)))
    : clause.FoundWith vars clauses (vars.resolve first) := by
  obtain ⟨key⟩ := ‹Nonempty Key›
  by_contra notFound
  have counted := counts {Match.least vars clauses (vars.resolve first) key} fun m member => by
    rw [Multiset.mem_singleton.mp member]
    exact Match.fits_least key
  simp [Match.pathValue, Match.least, notFound] at counted

/-- The first relationship of a path with hops is not its first node, by whatever name. -/
theorem exists_relationship (declares : DeclaredPath vars clauses clause path hops first rest)
    (hasHops : hops ≠ 0)
    : ∃ relationship ∈ rest,
        vars.resolve relationship = relationship ∧ vars.resolve first ≠ relationship := by
  obtain ⟨-, -, -, length, chain⟩ := declares
  match rest, chain with
  | [], _ =>
      simp only [List.length_singleton] at length
      omega
  | relationship :: right :: more, ⟨⟨node, isNode⟩, ⟨rel, isRelationship, _⟩, _⟩ =>
      have defined := VarTable.relationship?_eq_some.mp isRelationship
      refine ⟨relationship, List.mem_cons_self, VarTable.Ordered.resolve_of_target_none ?_, ?_⟩
      · rw [VarTable.target?, defined]
        rfl
      · intro same
        rw [same, VarTable.node?_eq_some, defined] at isNode
        cases isNode

/-- Paths with hops that start at one node are different where their relationships are. -/
theorem hops_eq_zero_of_count [Nontrivial Key]
    (declares : DeclaredPath vars clauses clause path hops first rest)
    (counts
      : SameCounts vars clauses true (fun m : Match Key => m.key (vars.resolve first))
          (·.pathValue vars clause (first :: rest)))
    : hops = 0 := by
  obtain ⟨key, another, different⟩ := exists_pair_ne Key
  by_contra hasHops
  obtain ⟨relationship, member, itself, apart⟩ := declares.exists_relationship hasHops
  let one : Match Key := Match.full fun _ => key
  let two : Match Key := Match.full fun id => if id = relationship then another else key
  have counted := counts {one, two} fun m member => by
    rcases Multiset.mem_cons.mp member with rfl | member
    · exact Match.fits_full _
    · rw [Multiset.mem_singleton.mp member]
      exact Match.fits_full _
  have apartPaths
      : one.pathValue vars clause (first :: rest) ≠ two.pathValue vars clause (first :: rest) := by
    intro same
    have keys := Option.some.inj same
    have atRelationship := List.map_inj_left.mp keys relationship (List.mem_cons_of_mem _ member)
    simp only [one, two, Match.full, itself, if_true, Option.some.injEq] at atRelationship
    exact different atRelationship
  have sameNode : one.key (vars.resolve first) = two.key (vars.resolve first) := by
    simp [one, two, Match.full, apart]
  simp only [Multiset.insert_eq_cons, Multiset.map_cons, Multiset.map_singleton] at counted
  simp only [← Multiset.insert_eq_cons] at counted
  rw [countBound_pair rfl rfl, countBound_pair rfl rfl, if_pos sameNode, if_neg apartPaths]
    at counted
  cases counted

/-- A path may be counted by its first node in every bag of matches exactly if its clause is found
in every match in which that node has a key, and either all paths are counted or they have no hops.
-/
theorem count_iff [Nontrivial Key]
    (declares : DeclaredPath vars clauses clause path hops first rest)
    (distinct : Bool)
    : SameCounts vars clauses distinct (fun m : Match Key => m.key (vars.resolve first))
        (·.pathValue vars clause (first :: rest))
      ↔ clause.FoundWith vars clauses (vars.resolve first) ∧ (distinct = true → hops = 0) := by
  constructor
  · intro counts
    refine ⟨foundWith_of_count counts, ?_⟩
    rintro rfl
    exact declares.hops_eq_zero_of_count counts
  · rintro ⟨foundWith, single⟩
    exact declares.count_eq foundWith single

end DeclaredPath

end CypherSql.Plan
