import CypherSql.Proofs.Printing.Parsed

/-! Reading undoes printing: the canonical text of a query that was read is read as the same query,
up to the texts that the items of its projections were written as.
-/

namespace CypherSql.Cypher

theorem properties_ensures
    : Parser.Ensures
        (fun properties : Properties =>
          (∀ e ∈ properties.expressions, e.Admitted) → properties.Printable)
        (mapLiteral expression).optional := by
  refine fun source properties rest read admitted entries found entry member => ?_
  obtain ⟨noQuote, canonical⟩ :=
    (mapLiteral_ensures expression_ensures).optional _ _ _ read entries found entry member
  refine ⟨noQuote, canonical (admitted _ ?_)⟩
  rw [Option.mem_def.mp found]
  exact List.mem_map_of_mem member

theorem nodePattern_ensures
    : Parser.Ensures
        (fun node => (∀ e ∈ node.properties.expressions, e.Admitted) → node.Printable)
        nodePattern := by
  have label : Parser.Ensures (fun label => '`' ∉ label.toList) (do mark ':'; padded symbol) :=
    (Parser.Ensures.any _).bind fun _ _ => symbol_ensures.padded
  refine Parser.Ensures.within ?_ _
  refine (Parser.Ensures.any _).bind fun _ _ => ?_
  refine identifier_ensures.padded.optional.bind fun name named => ?_
  refine label.many.bind fun labels labelled => ?_
  refine properties_ensures.bind fun properties mapped => ?_
  exact (Parser.Ensures.any _).bind fun _ _ => .pure fun admitted =>
    ⟨named, labelled, mapped admitted⟩

theorem relationshipTypes_ensures
    : Parser.Ensures (fun types => ∀ type ∈ types, '`' ∉ type.toList) relationshipTypes := by
  have type : Parser.Ensures (fun type => '`' ∉ type.toList)
      (do let _ ← (mark ':').optional; padded symbol) :=
    (Parser.Ensures.any _).bind fun _ _ => symbol_ensures.padded
  have listed : Parser.Ensures (fun types => ∀ type ∈ types, '`' ∉ type.toList) (do
      mark ':'
      Parser.separated1 (mark '|') do
        let _ ← (mark ':').optional
        padded symbol) :=
    (Parser.Ensures.any _).bind fun _ _ => type.separated1_each
  refine listed.optional.bind fun found each => .pure ?_
  cases found with
  | none => simp
  | some types => exact each types rfl

theorem hopRange_ensures : Parser.Ensures HopRange.Printable hopRange := by
  have count
      : Parser.Ensures (fun count => ∀ found, count = some found → found ≤ Number.largestWord32)
      (padded hopCount).optional :=
    (decimal_ensures _).padded.optional
  refine (Parser.Ensures.any _).bind fun _ _ => count.bind fun least bounded => ?_
  have upper
      : Parser.Ensures (fun count => ∀ found, count = some found → found ≤ Number.largestWord32)
      (do padded (literally ".."); (padded hopCount).optional) :=
    (Parser.Ensures.any _).bind fun _ _ => count
  refine upper.optional.bind fun most above => .pure ⟨bounded, ?_⟩
  cases most with
  | none => exact bounded
  | some most => exact above most rfl

theorem relationshipPattern_ensures
    : Parser.Ensures
        (fun relationship =>
          (∀ e ∈ relationship.properties.expressions, e.Admitted) → relationship.Printable)
        relationshipPattern := by
  have detail : Parser.Ensures
      (fun detail => (∀ e ∈ detail.properties.expressions, e.Admitted) →
        (RelationshipPattern.mk detail.name .both detail.types detail.properties
          detail.length).Printable)
      relationshipDetail := by
    refine (Parser.Ensures.any _).bind fun _ _ => ?_
    refine identifier_ensures.padded.optional.bind fun name named => ?_
    refine relationshipTypes_ensures.bind fun types typed => ?_
    refine hopRange_ensures.optional.bind fun length bounded => ?_
    refine properties_ensures.bind fun properties mapped => ?_
    exact (Parser.Ensures.any _).bind fun _ _ =>
      .pure fun admitted => ⟨named, typed, bounded, mapped admitted⟩
  refine (Parser.Ensures.any _).bind fun leftHead _ =>
    detail.optional.bind fun found printable => ?_
  refine (Parser.Ensures.any _).bind fun rightHead _ => .pure fun admitted => ?_
  cases found with
  | none => exact ⟨by simp, by simp, by simp, fun _ found => by cases found⟩
  | some detail =>
      obtain ⟨named, typed, bounded, mapped⟩ := printable detail rfl admitted
      exact ⟨named, typed, bounded, mapped⟩

theorem pathPattern_ensures
    : Parser.Ensures (fun path => (∀ e ∈ path.expressions, e.Admitted) → path.Printable)
      pathPattern := by
  have naming : Parser.Ensures (fun name => '`' ∉ name.toList) (do
      let name ← padded identifier
      mark '='
      pure name) :=
    identifier_ensures.padded.bind fun name noQuote =>
      (Parser.Ensures.any _).bind fun _ _ => .pure noQuote
  have hop : Parser.Ensures
      (fun hop : RelationshipPattern × NodePattern =>
        ((∀ e ∈ hop.1.properties.expressions, e.Admitted) → hop.1.Printable)
        ∧ ((∀ e ∈ hop.2.properties.expressions, e.Admitted) → hop.2.Printable)) (do
      let relationship ← relationshipPattern
      let node ← nodePattern
      pure (relationship, node)) :=
    relationshipPattern_ensures.bind fun relationship first =>
      nodePattern_ensures.bind fun node second => .pure ⟨first, second⟩
  refine naming.optional.bind fun name named => nodePattern_ensures.bind fun start first => ?_
  refine hop.many.bind fun hops each => ?_
  intro source path rest read
  dsimp only at read
  split at read
  · cases read
  · rename_i short
    cases read
    intro admitted
    refine ⟨named, first fun e member => admitted e ?_, fun hop member => ⟨?_, ?_⟩,
      Nat.not_lt.mp short⟩
    · simp only [PathPattern.expressions, PathPattern.nodes, List.flatMap_cons, List.mem_append]
      exact .inl (.inl member)
    · refine (each hop member).1 fun e inside => admitted e ?_
      simp only [PathPattern.expressions, PathPattern.relationships, List.mem_append,
        List.mem_flatMap]
      exact .inr ⟨hop.1, List.mem_map_of_mem member, inside⟩
    · refine (each hop member).2 fun e inside => admitted e ?_
      simp only [PathPattern.expressions, PathPattern.nodes, List.mem_append, List.mem_flatMap]
      exact .inl ⟨hop.2, List.mem_cons_of_mem _ (List.mem_map_of_mem member), inside⟩

theorem pageClause_ensures (word : String) (complaint : Complaint)
    : Parser.Ensures (fun part => ∀ e, part = some e → e.Canonical)
      (pageClause word complaint).optional := by
  have page : Parser.Ensures Expr.Canonical (pageClause word complaint) :=
    (Parser.Ensures.any _).bind fun _ _ => expression_ensures.committed.within _
  exact page.optional

theorem matchClause_ensures
    : Parser.Ensures
        (fun read => (∀ e ∈ (Clause.matching read).expressions, e.Admitted) → read.Printable)
        matchClause := by
  have patterns : Parser.Ensures
      (fun patterns : List PathPattern => patterns ≠ []
        ∧ ∀ path ∈ patterns, (∀ e ∈ path.expressions, e.Admitted) → path.Printable)
      (Parser.separated1 (mark ',') pathPattern) :=
    fun _ _ _ read =>
      ⟨Parser.Ensures.separated1 pathPattern _ _ _ read,
        pathPattern_ensures.separated1_each _ _ _ read⟩
  refine (Parser.Ensures.any _).bind fun _ _ => (Parser.Ensures.any _).bind fun _ _ => ?_
  refine (patterns.committed.within _).bind fun patterns ⟨nonempty, each⟩ => ?_
  refine (pageClause_ensures "WHERE" .whereClause).bind fun condition canonical =>
    .pure fun admitted => ?_
  simp only [Clause.expressions, List.mem_append, List.mem_flatMap, Option.mem_toList] at admitted
  refine ⟨nonempty, fun path member => each path member fun e inside => ?_, fun e found => ?_⟩
  · exact admitted e (.inl ⟨path, member, inside⟩)
  · exact canonical e found (admitted e (.inr found))

theorem projection_canonical
    : Parser.Ensures
        (fun read => (∀ e ∈ read.expressions, e.Admitted) → read.seemsDistinct = false
          → read.Printable)
        projection := by
  have item : Parser.Ensures
      (fun item => item.expr.Canonical ∧ ∀ name, item.aliasName = some name → '`' ∉ name.toList)
      projectionItem := by
    have naming
        : Parser.Ensures (fun name => '`' ∉ name.toList) (do keyword "AS"; padded identifier) :=
      (Parser.Ensures.any _).bind fun _ _ => identifier_ensures.padded
    -- The text of an item is taken along with its expression, which alone matters here.
    refine .bind (?_ : Parser.Ensures (fun pair : Expr × String => pair.1.Canonical) _)
      fun _ canonical => naming.optional.bind fun _ named => .pure ⟨canonical, named⟩
    intro source value rest read
    dsimp only at read
    split at read
    · rename_i found
      cases read
      exact expression_ensures _ _ _ found
    · cases read
    · cases read
  have sort : Parser.Ensures (fun item => item.expr.Canonical) sortItem :=
    expression_ensures.bind fun e canonical => (Parser.Ensures.any _).bind fun _ _ =>
      .pure canonical
  have order
      : Parser.Ensures (fun items : List SortItem => ∀ item ∈ items, item.expr.Canonical)
        orderByClause :=
    (Parser.Ensures.any _).bind fun _ _ => (Parser.Ensures.any _).bind fun _ _ =>
      sort.separated1_each.committed.within _
  have items : Parser.Ensures
      (fun items : List ProjectionItem => items ≠ [] ∧ ∀ item ∈ items,
        item.expr.Canonical ∧ ∀ name, item.aliasName = some name → '`' ∉ name.toList)
      (Parser.separated1 (mark ',') projectionItem) :=
    fun _ _ _ read =>
      ⟨Parser.Ensures.separated1 projectionItem _ _ _ read, item.separated1_each _ _ _ read⟩
  refine (Parser.Ensures.any _).bind fun distinct _ => ?_
  refine (items.committed.within _).bind fun items both => ?_
  obtain ⟨nonempty, each⟩ := both
  refine order.optional.bind fun orderBy ordered => ?_
  refine (pageClause_ensures "SKIP" .skipClause).bind fun skip skipped => ?_
  refine (pageClause_ensures "LIMIT" .limitClause).bind fun limit limited =>
    .pure fun admitted plain => ?_
  simp only [Projection.expressions, List.mem_append, List.mem_map, Option.mem_toList] at admitted
  refine {
    nonempty := nonempty
    plain := plain
    items := fun item member =>
      ⟨(each item member).1 (admitted _ (.inl (.inl (.inl ⟨item, member, rfl⟩)))),
        (each item member).2⟩
    orderBy := fun item member => ?_
    skip := fun e found => skipped e found (admitted e (.inl (.inr found)))
    limit := fun e found => limited e found (admitted e (.inr found))
  }
  cases orderBy with
  | none => cases member
  | some keys =>
      exact ordered keys rfl item member (admitted _ (.inl (.inl (.inr ⟨item, member, rfl⟩))))

/-- What is read as a clause has a canonical text if its expressions are admitted and its items are
not taken for distinct ones.
-/
theorem clause_canonical
    : Parser.Ensures
        (fun read => (∀ e ∈ read.expressions, e.Admitted) → read.seemsDistinct = false
          → read.Printable)
        clause := by
  refine Parser.Ensures.choice ?_
  simp only [List.forall_mem_cons, List.not_mem_nil, false_imp_iff, implies_true, and_true]
  refine ⟨matchClause_ensures.bind fun read printable => .pure fun admitted _ =>
    printable admitted, ?_, ?_⟩
  · refine (Parser.Ensures.any _).bind fun _ _ => projection_canonical.bind fun read printable => ?_
    refine (pageClause_ensures "WHERE" .whereClause).bind fun condition canonical =>
      .pure fun admitted plain => ?_
    simp only [Clause.expressions, List.mem_append, Option.mem_toList] at admitted
    exact ⟨printable (fun e member => admitted e (.inl member)) plain,
      fun e found => canonical e found (admitted e (.inr found))⟩
  · exact (Parser.Ensures.any _).bind fun _ _ => projection_canonical.bind fun read printable =>
      .pure printable

theorem many1_nonempty {α : Type} (parser : Parser α)
    : Parser.Ensures (fun values => values ≠ []) (Parser.many1 parser) := by
  refine (Parser.Ensures.any _).bind fun first _ => ?_
  refine ((Parser.Ensures.any _).manyAfter true (by simp) (by simp)).bind
    fun values ⟨_, present⟩ => .pure ?_
  simpa using present

/-- What is read as a query has a canonical text if its parts are admitted. -/
theorem Query.printable_of_parse {source : String} {query : Query}
    (parsed : Query.parse source = .ok query)
    (admitted
      : ∀ part ∈ query.parts,
          part.isReal = false ∧ part.callsReserved = false ∧ part.seemsDistinct = false)
    (plain : ∀ clause ∈ query.clauses, clause.seemsDistinct = false)
    : query.Printable := by
  have clauses : Parser.Ensures
      (fun clauses : List Clause => clauses ≠ []
        ∧ ∀ read ∈ clauses,
            (∀ e ∈ read.expressions, e.Admitted) → read.seemsDistinct = false → read.Printable)
      (Parser.many1 clause) :=
    fun _ _ _ read => ⟨many1_nonempty clause _ _ _ read, clause_canonical.many1 _ _ _ read⟩
  have ensures : Parser.Ensures
      (fun query : Query => query.clauses ≠ []
        ∧ ∀ read ∈ query.clauses,
            (∀ e ∈ read.expressions, e.Admitted) → read.seemsDistinct = false → read.Printable)
      statement :=
    (Parser.Ensures.any _).bind fun _ _ => clauses.bind fun clauses each =>
      (Parser.Ensures.any _).bind fun _ _ => .pure each
  obtain ⟨rest, read, -⟩ := Query.parse_eq_ok.mp parsed
  obtain ⟨nonempty, each⟩ := ensures _ _ _ read
  refine ⟨nonempty, fun written member => each written member ?_ (plain written member)⟩
  intro e inside part within
  refine admitted part (List.mem_flatMap.mpr ⟨e, ?_, within⟩)
  exact List.mem_flatMap.mpr ⟨written, member, inside⟩

/-- The canonical text of a query that was read is read as the same query, up to the texts that its
items were written as. Left out are numbers with a point, calls of functions that are named by a
reserved word, and arguments or items without a `DISTINCT` that open with a call of a function under
that word.
-/
theorem Query.parse_print {source : String} {query : Query}
    (parsed : Query.parse source = .ok query)
    (admitted
      : ∀ part ∈ query.parts,
          part.isReal = false ∧ part.callsReserved = false ∧ part.seemsDistinct = false)
    (plain : ∀ clause ∈ query.clauses, clause.seemsDistinct = false)
    : ∃ again, Query.parse query.print = .ok again ∧ again.unworded = query.unworded :=
  (Query.printable_of_parse parsed admitted plain).reads_back

/-- A text with operators of most levels, a pattern with everything in it, and a projection. -/
def countedNeighbours : String :=
  "MATCH (a:Person {id: $p})-[r:KNOWS*1..2]->(b) WHERE NOT (a.x + 1) * 2 IS NULL AND b.y = 'z' "
    ++ "RETURN DISTINCT count(b) AS n, -b.x ^ 2 ORDER BY n DESC LIMIT 3"

theorem countedNeighbours_parse_print
    : ∃ query,
        Query.parse countedNeighbours = .ok query
        ∧ (∀ part ∈ query.parts,
            part.isReal = false ∧ part.callsReserved = false ∧ part.seemsDistinct = false)
        ∧ (∀ clause ∈ query.clauses, clause.seemsDistinct = false)
        ∧ ∃ again, Query.parse query.print = .ok again ∧ again.unworded = query.unworded := by
  have checked : ((Query.parse countedNeighbours).toOption.any fun query =>
      query.parts.all (fun part => !part.isReal && !part.callsReserved && !part.seemsDistinct)
        && query.clauses.all fun clause => !clause.seemsDistinct) = true := by
    delta countedNeighbours
    rw [Query.toOption_parse, String.toList_append, String.toList_ofList, String.toList_ofList]
    decide +kernel
  cases parsed : Query.parse countedNeighbours with
  | error trace =>
      rw [parsed] at checked
      cases checked
  | ok query =>
      rw [parsed] at checked
      simp only [Except.toOption, Option.any_some, Bool.and_eq_true, List.all_eq_true,
        Bool.not_eq_true', and_assoc] at checked
      exact ⟨query, rfl, checked.1, checked.2, Query.parse_print parsed checked.1 checked.2⟩

/-- Where the parentheses go that kept a call apart, its first word is taken for a keyword. -/
theorem distinctNamespace_not_read_back
    : ∃ query,
        Query.parse "RETURN (DISTINCT.foo(x))" = .ok query
        ∧ (∀ part ∈ query.parts, part.isReal = false ∧ part.callsReserved = false)
        ∧ query.print = "RETURN DISTINCT.foo(`x`)"
        ∧ ¬ ∃ again, Query.parse query.print = .ok again ∧ again.unworded = query.unworded := by
  have checked : ((Query.parse "RETURN (DISTINCT.foo(x))").toOption.any fun query =>
      query.parts.all (fun part => !part.isReal && !part.callsReserved)
        && query.print == "RETURN DISTINCT.foo(`x`)") = true := by
    rw [Query.toOption_parse, String.toList_ofList]
    decide +kernel
  have unread : (Query.parse "RETURN DISTINCT.foo(`x`)").toOption.isNone = true := by
    rw [Query.toOption_parse, String.toList_ofList]
    decide +kernel
  cases parsed : Query.parse "RETURN (DISTINCT.foo(x))" with
  | error trace =>
      rw [parsed] at checked
      cases checked
  | ok query =>
      rw [parsed] at checked
      simp only [Except.toOption, Option.any_some, Bool.and_eq_true, List.all_eq_true,
        Bool.not_eq_true', beq_iff_eq] at checked
      refine ⟨query, rfl, checked.1, checked.2, ?_⟩
      rintro ⟨again, read, -⟩
      rw [checked.2] at read
      rw [read] at unread
      cases unread

end CypherSql.Cypher
