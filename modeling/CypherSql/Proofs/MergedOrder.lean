import CypherSql.Proofs.RangeRecognition
import CypherSql.Proofs.Reaggregation
import CypherSql.Proofs.Sharing.Lowered

/-! The columns that a union sorts by are read off its first variant. Where variants differ in
nothing that has a name, any other variant sorts by the same. The texts that a query expands to
differ in nothing else if its paths with names go through no relationship with a range.
-/

namespace CypherSql.Plan

/-- The columns that a variant sorts by, found among its own. -/
def Lowered.sortColumns (variant : Lowered) : Except LoweringError (List (String × Bool)) := do
  let columns ← variant.columns
  variant.tree.root.orderBy.mapM (sortColumn variant.vars columns)

variable {lowered other : Lowered} {columns others : List ReturnColumn}

/-- A column has the item and the expression that it is made of. -/
theorem content_of_returnColumn {vars : VarTable} {item : Item} {column : ReturnColumn}
    (returns : returnColumn vars item = .ok column)
    : column.item = item ∧ ∃ id, item.content vars = .ok (id, column.expr) := by
  obtain ⟨⟨id, expr⟩, content, returns⟩ := bind_eq_ok.mp returns
  dsimp only at returns
  split at returns
  · cases returns
  · obtain ⟨merge, -, same⟩ := bind_eq_ok.mp returns
    obtain rfl := Except.ok.inj same
    exact ⟨rfl, id, content⟩

/-- Items have the same content in variants that agree. -/
theorem Lowered.Agree.content_eq (agree : lowered.Agree other) {item : Item}
    (member : item ∈ lowered.tree.root.items)
    : item.content lowered.vars = item.content other.vars := by
  cases item with
  | named id => rw [Item.content, Item.content, agree.projections id member]
  | unnamed expr column => rfl

/-- Columns in the same place of variants: they sort by the same keys, under the same name. -/
structure ReturnColumn.Matches (vars varsOther : VarTable) (column other : ReturnColumn)
    : Prop where
  name : column.name = other.name
  sortsBy : ∀ key, column.sortsBy vars key = other.sortsBy varsOther key

/-- Columns of variants that agree sort by the same keys if they are made of the same item. -/
theorem Lowered.Agree.sortsBy_eq (agree : lowered.Agree other) {item : Item}
    (member : item ∈ lowered.tree.root.items) {column columnOther : ReturnColumn}
    (returns : returnColumn lowered.vars item = .ok column)
    (returnsOther : returnColumn other.vars item = .ok columnOther) (key : Expr)
    : column.sortsBy lowered.vars key = columnOther.sortsBy other.vars key := by
  obtain ⟨made, id, content⟩ := content_of_returnColumn returns
  obtain ⟨madeOther, idOther, contentOther⟩ := content_of_returnColumn returnsOther
  rw [agree.content_eq member, contentOther] at content
  obtain ⟨-, sameExpr⟩ := Prod.mk.inj (Except.ok.inj content)
  have names (id : VarId) : item.names lowered.vars id = item.names other.vars id := by
    cases item with
    | named name => rw [Item.names, Item.names, agree.resolves name member]
    | unnamed expr column => rfl
  unfold ReturnColumn.sortsBy
  rw [made, madeOther, sameExpr]
  cases key with
  | var id => simp only [names]
  | _ => rfl

/-- Variants that agree have matching columns if these have the same names. -/
theorem Lowered.Agree.matches (agree : lowered.Agree other) (listed : lowered.columns = .ok columns)
    (listedOther : other.columns = .ok others)
    (names : columns.map (·.name) = others.map (·.name))
    : List.Forall₂ (ReturnColumn.Matches lowered.vars other.vars) columns others := by
  have made := Modality.forall₂_of_mapM_eq_ok listed
  have madeOther := Modality.forall₂_of_mapM_eq_ok listedOther
  rw [← agree.items] at madeOther
  have length : columns.length = others.length := by simpa using congrArg List.length names
  refine List.forall₂_of_length_eq_of_get length fun index within withinOther => ?_
  obtain ⟨item, found, returns⟩ := forall₂_getElem?_right made (List.getElem?_eq_getElem within)
  obtain ⟨same, found', returnsOther⟩ :=
    forall₂_getElem?_right madeOther (List.getElem?_eq_getElem withinOther)
  obtain rfl := Option.some.inj (found.symm.trans found')
  refine ⟨?_, agree.sortsBy_eq (List.mem_of_getElem? found) returns returnsOther⟩
  have name := congrArg (·[index]?) names
  simpa [within, withinOther] using name

/-- Among matching columns a key sorts by the same one. -/
theorem sortColumn_eq {vars varsOther : VarTable}
    (same : List.Forall₂ (ReturnColumn.Matches vars varsOther) columns others) (key : SortKey)
    : sortColumn vars columns key = sortColumn varsOther others key := by
  have found : (columns.find? (·.sortsBy vars key.expr)).map (·.name)
      = (others.find? (·.sortsBy varsOther key.expr)).map (·.name) := by
    induction same with
    | nil => rfl
    | cons first _ ih =>
        rw [List.find?_cons, List.find?_cons, first.sortsBy]
        split
        · exact congrArg some first.name
        · exact ih
  unfold sortColumn
  cases left : columns.find? (·.sortsBy vars key.expr) with
  | none =>
      rw [left] at found
      rw [Option.map_eq_none_iff.mp found.symm]
  | some column =>
      rw [left] at found
      obtain ⟨columnOther, right, name⟩ := Option.map_eq_some_iff.mp found.symm
      rw [right]
      exact congrArg (fun name => Except.ok (name, key.descending)) name.symm

/-- Variants that agree sort by the same columns if these have the same names. -/
theorem Lowered.Agree.sortColumns_eq (agree : lowered.Agree other)
    (listed : lowered.columns = .ok columns)
    (listedOther : other.columns = .ok others)
    (names : columns.map (·.name) = others.map (·.name))
    : lowered.sortColumns = other.sortColumns := by
  have same := agree.matches listed listedOther names
  rw [sortColumns, sortColumns, listed, listedOther, agree.orderBy]
  exact congrArg (other.tree.root.orderBy.mapM ·) (funext (sortColumn_eq same))

open Cypher (PathPattern RelationshipPattern NodePattern writtenHop writtenHops)

/-- A path with a name goes through no relationship that is written out. -/
def PathPattern.LengthFixed (path : PathPattern) : Prop :=
  path.name.isSome → ∀ hop ∈ path.hops, ¬hop.1.detail.isRanged

/-- The paths of the clause with a name have as many hops in every text. -/
def Clause.LengthsFixed : Cypher.Clause → Prop
  | .matching clause => ∀ path ∈ clause.patterns, PathPattern.LengthFixed path
  | _ => True

instance (path : PathPattern) : Decidable (PathPattern.LengthFixed path) :=
  inferInstanceAs (Decidable (_ → _))

instance : DecidablePred Clause.LengthsFixed
  | .matching clause =>
      inferInstanceAs (Decidable (∀ path ∈ clause.patterns, PathPattern.LengthFixed path))
  | .withItems _ _ => .isTrue trivial
  | .returnItems _ => .isTrue trivial

section Written

variable {hop : RelationshipPattern × NodePattern} {hops : List (RelationshipPattern × NodePattern)}

/-- Writing a relationship out adds no names. -/
theorem names_writtenHop (hop : RelationshipPattern × NodePattern) (counts : List Nat)
    : ((writtenHop hop).run counts).1.filterMap (·.2.name) = [hop].filterMap (·.2.name)
      ∧ ((writtenHop hop).run counts).1.filterMap (·.1.name) = [hop].filterMap (·.1.name) := by
  unfold writtenHop
  split
  · rename_i ranged
    have anonymous : hop.1.name = none := by
      rw [Cypher.RelationshipDetail.isRanged, Bool.and_eq_true] at ranged
      exact Option.isNone_iff_eq_none.mp ranged.1
    let chain := List.replicate (counts.headD 1 - 1) (hop.1.oneHop, NodePattern.anonymous)
      ++ [(hop.1.oneHop, hop.2)]
    change chain.filterMap (·.2.name) = _ ∧ chain.filterMap (·.1.name) = _
    have unnamed (f : RelationshipPattern × NodePattern → Option String)
        (none : f (hop.1.oneHop, .anonymous) = none)
        : chain.filterMap f = [(hop.1.oneHop, hop.2)].filterMap f := by
      rw [List.filterMap_append, List.filterMap_replicate_of_none none, List.nil_append]
    exact ⟨unnamed (·.2.name) rfl, unnamed (·.1.name) anonymous⟩
  · exact ⟨rfl, rfl⟩

/-- Relationships that are written out add no names, by induction over the hops. -/
theorem names_writtenHops (hops : List (RelationshipPattern × NodePattern)) (counts : List Nat)
    : ((writtenHops hops).run counts).1.filterMap (·.2.name) = hops.filterMap (·.2.name)
      ∧ ((writtenHops hops).run counts).1.filterMap (·.1.name) = hops.filterMap (·.1.name) := by
  induction hops generalizing counts with
  | nil => exact ⟨rfl, rfl⟩
  | cons hop hops ih =>
      obtain ⟨nodes, relationships⟩ := names_writtenHop hop counts
      obtain ⟨others, otherRelationships⟩ := ih ((writtenHop hop).run counts).2
      have both : ((writtenHops (hop :: hops)).run counts).1
          = ((writtenHop hop).run counts).1
            ++ ((writtenHops hops).run ((writtenHop hop).run counts).2).1 := by
        rw [Cypher.writtenHops_cons]
        rfl
      rw [both, List.filterMap_append, List.filterMap_append, nodes, relationships, others,
        otherRelationships, ← List.filterMap_append, ← List.filterMap_append]
      exact ⟨rfl, rfl⟩

/-- Hops of which none is written out stay as they are. -/
theorem writtenHops_of_fixed (fixed : ∀ hop ∈ hops, ¬hop.1.detail.isRanged) (counts : List Nat)
    : (writtenHops hops).run counts = (hops, counts) := by
  induction hops generalizing counts with
  | nil => rfl
  | cons hop hops ih =>
      obtain ⟨first, others⟩ := List.forall_mem_cons.mp fixed
      rw [Cypher.writtenHops_cons, writtenHop, if_neg first]
      change (let rest := (writtenHops hops).run counts; (hop :: rest.1, rest.2)) = _
      rw [ih others]

/-- The named parts of a path stay where relationships are written out, if its length has no name.
-/
theorem namedParts_written {path : PathPattern} (fixed : PathPattern.LengthFixed path)
    (counts : List Nat)
    : namedParts (path.written.run counts).1 = namedParts path := by
  have same : (path.written.run counts).1
    = { path with hops := ((writtenHops path.hops).run counts).1 } := rfl
  obtain ⟨nodes, relationships⟩ := names_writtenHops path.hops counts
  have length : path.name.toList.map (fun name =>
      NamedPart.path name ((writtenHops path.hops).run counts).1.length path.start.name)
      = path.name.toList.map fun name => NamedPart.path name path.hops.length path.start.name := by
    cases named : path.name with
    | none => rfl
    | some name => rw [writtenHops_of_fixed (fixed (by rw [named]; rfl))]
  simp only [same, namedParts, PathPattern.nodes, PathPattern.relationships, List.filterMap_cons,
    List.filterMap_map, Function.comp_def, nodes, relationships, length]

/-- The named parts of several paths stay, by induction over them. -/
theorem flatMap_namedParts_written {paths : List PathPattern}
    (fixed : ∀ path ∈ paths, PathPattern.LengthFixed path) (counts : List Nat)
    : ((paths.mapM PathPattern.written).run counts).1.flatMap namedParts
      = paths.flatMap namedParts := by
  induction paths generalizing counts with
  | nil => rfl
  | cons path paths ih =>
      obtain ⟨first, others⟩ := List.forall_mem_cons.mp fixed
      rw [List.mapM_cons]
      change ((path.written.run counts).1
        :: ((paths.mapM PathPattern.written).run (path.written.run counts).2).1).flatMap namedParts
          = _
      rw [List.flatMap_cons, List.flatMap_cons, namedParts_written first, ih others]

/-- Clauses of a query and of its texts are alike, by induction over the clauses. -/
theorem alike_clauses_written {clauses : List Cypher.Clause}
    (fixed : ∀ clause ∈ clauses, Clause.LengthsFixed clause) (counts : List Nat)
    : List.Forall₂ Clause.Alike clauses ((clauses.mapM Cypher.Clause.written).run counts).1 := by
  induction clauses generalizing counts with
  | nil => exact .nil
  | cons clause clauses ih =>
      obtain ⟨first, others⟩ := List.forall_mem_cons.mp fixed
      rw [List.mapM_cons]
      refine .cons ?_ (ih others _)
      cases clause with
      | matching clause => exact .matching (flatMap_namedParts_written first counts).symm
      | withItems projection condition => exact .withItems projection condition
      | returnItems projection => exact .returnItems projection

theorem Clause.Alike.plain {clause other : Cypher.Clause} (alike : Clause.Alike clause other)
    (plain : Clause.Plain clause)
    : Clause.Plain other := by
  cases alike with
  | matching parts => exact fun part member => plain part (parts ▸ member)
  | withItems projection condition => exact plain
  | returnItems projection => exact plain

/-- Clauses that are alike to the same clause are alike. -/
theorem Clause.Alike.of_common {clause left right : Cypher.Clause}
    (first : Clause.Alike clause left)
    (second : Clause.Alike clause right)
    : Clause.Alike left right := by
  cases first with
  | matching parts =>
      cases second with
      | matching more => exact .matching (parts.symm.trans more)
  | withItems projection condition => exact second
  | returnItems projection => exact second

theorem alike_of_common {clauses left right : List Cypher.Clause}
    (first : List.Forall₂ Clause.Alike clauses left)
    (second : List.Forall₂ Clause.Alike clauses right)
    : List.Forall₂ Clause.Alike left right := by
  induction first generalizing right with
  | nil =>
      cases second
      exact .nil
  | cons alike _ ih =>
      cases second with
      | cons also others => exact .cons (alike.of_common also) (ih others)

theorem plain_of_alike {clauses others : List Cypher.Clause}
    (alike : List.Forall₂ Clause.Alike clauses others)
    (plain : ∀ clause ∈ clauses, Clause.Plain clause)
    : ∀ clause ∈ others, Clause.Plain clause := by
  induction alike with
  | nil => exact plain
  | cons first _ ih =>
      obtain ⟨firstPlain, others⟩ := List.forall_mem_cons.mp plain
      exact List.forall_mem_cons.mpr ⟨first.plain firstPlain, ih others⟩

end Written

/-- Where a computation succeeds for a whole list, it succeeds for each item. -/
theorem ok_of_forM {ε α : Type} {f : α → Except ε Unit} {items : List α}
    (succeeded : items.forM f = .ok ())
    : ∀ item ∈ items, f item = .ok () := by
  induction items with
  | nil => simp
  | cons item rest ih =>
      obtain ⟨_, first, others⟩ := bind_eq_ok.mp succeeded
      exact List.forall_mem_cons.mpr ⟨first, ih others⟩

/-- A union sorts by the columns of its first variant, and each other one has columns of these
names.
-/
theorem unite_sorts {unionDistinct : Bool} {first : Lowered} {rest : List Lowered}
    {union : UnionQuery}
    (unites : unite unionDistinct first rest = .ok union)
    : first.sortColumns = .ok union.orderBy
      ∧ ∃ columns,
          first.columns = .ok columns
          ∧ ∀ variant ∈ rest,
              ∃ others,
                variant.columns = .ok others ∧ columns.map (·.name) = others.map (·.name) := by
  obtain ⟨columns, listed, unites⟩ := bind_eq_ok.mp unites
  obtain ⟨_, checked, unites⟩ := bind_eq_ok.mp unites
  obtain ⟨orderBy, sorts, unites⟩ := bind_eq_ok.mp unites
  obtain rfl := Except.ok.inj unites
  refine ⟨?_, columns, listed, fun variant member => ?_⟩
  · rw [Lowered.sortColumns, listed]
    exact sorts
  · obtain ⟨index, found⟩ := List.getElem?_of_mem member
    have listedWith : (variant, 1 + index) ∈ rest.zipIdx 1 :=
      List.mem_of_getElem? (by rw [List.getElem?_zipIdx, found]; rfl)
    obtain ⟨others, listedOther, fits⟩ := bind_eq_ok.mp (ok_of_forM checked _ listedWith)
    refine ⟨others, listedOther, ?_⟩
    dsimp only at fits
    split at fits
    · cases fits
    · rename_i same
      exact (not_not.mp same).symm

/-- Where all variants agree with the first, every variant sorts by the columns of their union. -/
theorem sortColumns_of_merge {unionDistinct : Bool} {first : Lowered} {rest : List Lowered}
    {union : UnionQuery} (agree : ∀ variant ∈ rest, first.Agree variant)
    (merges : merge unionDistinct (first :: rest) = .ok (.union union))
    : ∀ variant ∈ first :: rest, variant.sortColumns = .ok union.orderBy := by
  obtain ⟨_, _, _, same, unites⟩ := merge_union merges
  cases same
  obtain ⟨sorts, columns, listed, fit⟩ := unite_sorts unites
  refine List.forall_mem_cons.mpr ⟨sorts, fun variant member => ?_⟩
  obtain ⟨columnsOther, listedOther, names⟩ := fit variant member
  rw [← (agree variant member).sortColumns_eq listed listedOther names, sorts]

/-- The columns that a union of variants sorts by do not depend on the variant that they are read
off, where the variants are lowered from queries that differ only in what has no name: every variant
sorts by them. A path with a name has the same number of hops in all of these, so that its length is
the same.
-/
theorem mergedOrder_of_alike {catalog : Catalog} {unionDistinct : Bool} {query : Cypher.Query}
    {queries : List Cypher.Query} {variants : List Lowered} {union : UnionQuery}
    (plain : ∀ clause ∈ query.clauses, Clause.Plain clause)
    (alike : ∀ other ∈ queries, List.Forall₂ Clause.Alike query.clauses other.clauses)
    (lowers : (query :: queries).mapM (lower catalog) = .ok variants)
    (merges : merge unionDistinct variants = .ok (.union union))
    : ∀ variant ∈ variants, variant.sortColumns = .ok union.orderBy := by
  obtain ⟨first, second, rest, rfl, -⟩ := merge_union merges
  obtain ⟨succeeded, others⟩ := List.forall₂_cons.mp (Modality.forall₂_of_mapM_eq_ok lowers)
  refine sortColumns_of_merge (fun variant member => ?_) merges
  obtain ⟨index, found⟩ := List.getElem?_of_mem member
  obtain ⟨other, isOther, succeededOther⟩ := forall₂_getElem?_right others found
  exact lower_agree plain (alike other (List.mem_of_getElem? isOther)) succeeded succeededOther

/-- The columns that the union of the texts of a query sorts by do not depend on the text that they
are read off, where the texts are read as the query with its relationships written out, and no path
with a name goes through one of these.
-/
theorem mergedOrder_of_texts {catalog : Catalog} {unionDistinct : Bool} {query : Cypher.Query}
    {choices : List (List Nat)} {texts : List String} {variants : List Lowered} {union : UnionQuery}
    (plain : ∀ clause ∈ query.clauses, Clause.Plain clause)
    (fixed : ∀ clause ∈ query.clauses, Clause.LengthsFixed clause)
    (read : List.Forall₂ (fun counts text => Cypher.Query.parse text = .ok (query.written counts))
      choices texts)
    (lowers : texts.mapM (lowerText catalog) = .ok variants)
    (merges : merge unionDistinct variants = .ok (.union union))
    : ∀ variant ∈ variants, variant.sortColumns = .ok union.orderBy := by
  have lowered (variant : Lowered) (member : variant ∈ variants)
      : ∃ counts, lower catalog (query.written counts) = .ok variant := by
    obtain ⟨text, inTexts, succeeded⟩ :=
      exists_mem_of_forall₂ (Modality.forall₂_of_mapM_eq_ok lowers) member
    obtain ⟨counts, -, parsed⟩ := exists_mem_of_forall₂ read inTexts
    exact ⟨counts, (lowerText_eq_ok parsed).mp succeeded⟩
  obtain ⟨first, second, rest, rfl, -⟩ := merge_union merges
  obtain ⟨counts, succeeded⟩ := lowered first List.mem_cons_self
  refine sortColumns_of_merge (fun variant member => ?_) merges
  obtain ⟨others, succeededOther⟩ := lowered variant (List.mem_cons_of_mem _ member)
  exact lower_agree (plain_of_alike (alike_clauses_written fixed counts) plain)
    (alike_of_common (alike_clauses_written fixed counts) (alike_clauses_written fixed others))
    succeeded succeededOther

/-- A query that sorts by the length of a path with one hop, and goes on with one hop or two. -/
def sortedFriends : String :=
  "MATCH p = (a)-[:KNOWS]->(c) MATCH (c)-[:KNOWS*1..2]->(b) "
    ++ "RETURN b.name AS n, length(p) AS l ORDER BY length(p), n DESC"

/-- Witness: the hops are between nodes that no path with a name goes through, and both variants
sort by the same two columns.
-/
theorem sortedFriends_mergedOrder
    : ∃ texts variants union,
        Expansion.expand Settings.default.limits sortedFriends = .ok texts
        ∧ texts.mapM (lowerText acquaintances.catalog) = .ok variants
        ∧ merge false variants = .ok (.union union)
        ∧ ∀ variant ∈ variants, variant.sortColumns = .ok union.orderBy := by
  have reached : ((writtenUnion? .default acquaintances.catalog sortedFriends.toList).any
      fun found =>
        (Cypher.rangesOf found.1.relationships).map (Expansion.boundsOf 8) = [(1, 2)]
        ∧ ∀ clause ∈ found.1.clauses, Clause.Plain clause ∧ Clause.LengthsFixed clause)
      = true := by
    delta sortedFriends
    rw [String.toList_append, String.toList_ofList, String.toList_ofList]
    decide +kernel
  obtain ⟨⟨query, union⟩, isUnion, reached⟩ := (Option.any_eq_true _ _).mp reached
  obtain ⟨bounds, clauses⟩ := of_decide_eq_true reached
  obtain ⟨texts, variants, expands, lowered, lowers, merges⟩ := exists_of_writtenUnion? isUnion
  refine ⟨texts, variants, union, expands, lowers, merges, ?_⟩
  have plain clause (member : clause ∈ query.clauses) := (clauses clause member).1
  have fixed clause (member : clause ∈ query.clauses) := (clauses clause member).2
  have lowered
      : [query.written [1], query.written [2]].mapM (lower acquaintances.catalog)
        = .ok variants := by
    rw [show (Cypher.rangesOf query.relationships).map
      (Expansion.boundsOf Settings.default.limits.maxHops) = [(1, 2)] from bounds,
      show Expansion.hopChoices [(1, 2)] = [[1], [2]] by decide] at lowered
    simpa only [List.mapM_cons, List.mapM_nil] using lowered
  refine mergedOrder_of_alike
    (plain_of_alike (alike_clauses_written fixed [1]) plain) ?_ lowered merges
  intro other member
  obtain rfl := List.mem_singleton.mp member
  exact alike_of_common (alike_clauses_written fixed [1]) (alike_clauses_written fixed [2])

/-- A query that sorts by the length of a path with one hop or two. -/
def sortedByLength : String :=
  "MATCH p = (a:Person)-[:KNOWS*1..2]->(b:Person) RETURN 1 AS one, length(p) AS l ORDER BY length(p)"

/-- Where the hops belong to a path with a name, the length of the path is another number in each
variant. The union sorts by the column of that number in the first variant, and another variant by
the length.
-/
theorem sortedByLength_mergedOrder
    : ∃ texts variants union,
        Expansion.expand Settings.default.limits sortedByLength = .ok texts
        ∧ texts.mapM (lowerText acquaintances.catalog) = .ok variants
        ∧ merge false variants = .ok (.union union)
        ∧ union.orderBy = [("one", false)]
        ∧ ∃ variant ∈ variants, variant.sortColumns = .ok [("l", false)] := by
  have isUnion : ((writtenUnion? .default acquaintances.catalog sortedByLength.toList).any
      fun found =>
        found.2.orderBy = [("one", false)]
        && found.2.branches.any fun variant =>
          variant.sortColumns.toOption = some [("l", false)]) = true := by
    rw [sortedByLength, String.toList_ofList]
    decide +kernel
  obtain ⟨⟨query, union⟩, isUnion, sorts⟩ := (Option.any_eq_true _ _).mp isUnion
  obtain ⟨texts, variants, expands, -, lowers, merges⟩ := exists_of_writtenUnion? isUnion
  obtain ⟨first, second, rest, rfl, unites⟩ := merge_union merges
  obtain ⟨orderBy, other⟩ := Bool.and_eq_true_iff.mp sorts
  obtain ⟨variant, member, sorts⟩ := List.any_eq_true.mp other
  rw [(unite_ok unites).1] at member
  exact ⟨texts, _, union, expands, lowers, merges, of_decide_eq_true orderBy, variant, member,
    toOption_eq_some.mp (of_decide_eq_true sorts)⟩

end CypherSql.Plan
