import CypherSql.Proofs.Numerals.Expressions
import CypherSql.Proofs.PrintedQueries
import Mathlib.Algebra.Order.Ring.Int

/-! Integers never overflow: every integer of a query that was read fits into a signed word, and so
does the number that a sign makes of it. A number that does not fit is not read.
-/

namespace CypherSql.Cypher

section Patterns

variable {whole : List Char}

theorem properties_keeps
    : (mapLiteral expression).optional.Keeps (Uncut whole) fun properties =>
        ∀ e ∈ Properties.expressions properties, e.Sourced whole := by
  refine (mapLiteral_keeps expression_keeps).optional.mono fun properties each e member => ?_
  obtain ⟨entry, listed, rfl⟩ := List.mem_map.mp member
  cases properties with
  | none => cases listed
  | some entries => exact each entries rfl entry listed

theorem nodePattern_keeps
    : nodePattern.Keeps (Uncut whole) fun node =>
      ∀ e ∈ node.properties.expressions, e.Sourced whole := by
  have label : nextLabel.Passes (Uncut whole) :=
    (mark_passes (by decide)).bind fun _ _ => symbol_passes.padded
  refine Parser.Keeps.within ?_ _
  refine (mark_passes (by decide)).bind fun _ _ =>
    identifier_passes.padded.optional.bind fun _ _ => ?_
  refine label.many.bind fun _ _ => properties_keeps.bind fun _ each => ?_
  exact (mark_passes (by decide)).bind fun _ _ => .pure each

theorem relationshipTypes_passes : relationshipTypes.Passes (Uncut whole) := by
  have type : typeName.Passes (Uncut whole) :=
    (mark_passes (by decide)).optional.bind fun _ _ => symbol_passes.padded
  have types := (mark_passes (c := ':') (by decide)).bind fun _ _ =>
    ((mark_passes (c := '|') (by decide)).separated1 type).anyway
  exact types.optional.bind fun _ _ => .pure trivial

theorem hopRange_passes : hopRange.Passes (Uncut whole) := by
  have count := (@hopCount_passes whole).padded.optional.anyway
  have upper
      : Parser.Passes (Uncut whole) (do padded (literally ".."); (padded hopCount).optional) :=
    (literally_passes (by decide)).padded.bind fun _ _ => count
  exact (mark_passes (by decide)).bind fun _ _ => count.bind fun _ _ =>
    upper.optional.bind fun _ _ => .pure trivial

theorem relationshipPattern_keeps
    : relationshipPattern.Keeps (Uncut whole) fun relationship =>
        ∀ e ∈ relationship.properties.expressions, e.Sourced whole := by
  have detail : relationshipDetail.Keeps (Uncut whole) fun detail =>
      ∀ e ∈ detail.properties.expressions, e.Sourced whole := by
    refine (mark_passes (by decide)).bind fun _ _ =>
      identifier_passes.padded.optional.bind fun _ _ => ?_
    refine relationshipTypes_passes.bind fun _ _ => hopRange_passes.optional.bind fun _ _ => ?_
    refine properties_keeps.bind fun _ each => ?_
    exact (mark_passes (by decide)).bind fun _ _ => .pure each
  have arrow (text : String) (noDigit : text.toList.getLast?.any Char.isDigit = false)
      : (arrowEnd text).Passes (Uncut whole) := by
    have head : Parser.Passes (Uncut whole) (do literally text; pure true) :=
      (literally_passes noDigit).bind fun _ _ => .pure trivial
    have none : Parser.Passes (Uncut whole) (do literally "-"; pure false) :=
      (literally_passes (by decide)).bind fun _ _ => .pure trivial
    exact (Parser.Keeps.choice (by simpa using ⟨head, none⟩)).padded
  refine (arrow "<-" (by decide)).bind fun _ _ => detail.optional.bind fun found each => ?_
  refine (arrow "->" (by decide)).bind fun _ _ => .pure ?_
  cases found with
  | none => exact nofun
  | some detail => exact each detail rfl

theorem pathPattern_keeps
    : pathPattern.Keeps (Uncut whole) fun path => ∀ e ∈ path.expressions, e.Sourced whole := by
  have naming
      : Parser.Passes (Uncut whole) (do let name ← padded identifier; mark '='; pure name) :=
    identifier_passes.padded.bind fun _ _ => (mark_passes (by decide)).bind fun _ _ => .pure trivial
  have hop : nextHop.Keeps (Uncut whole) fun hop =>
      (∀ e ∈ hop.1.properties.expressions, e.Sourced whole)
      ∧ ∀ e ∈ hop.2.properties.expressions, e.Sourced whole :=
    relationshipPattern_keeps.bind fun _ first =>
      nodePattern_keeps.bind fun _ second => .pure ⟨first, second⟩
  refine naming.optional.bind fun name _ => nodePattern_keeps.bind fun start first => ?_
  refine hop.many.bind fun hops each => ?_
  intro source path rest here read
  dsimp only at read
  split at read
  · cases read
  · cases read
    refine ⟨here, fun e member => ?_⟩
    simp only [PathPattern.expressions, PathPattern.nodes, PathPattern.relationships,
      List.flatMap_cons, List.mem_append, List.mem_flatMap, List.mem_map] at member
    rcases member with (member | ⟨_, ⟨hop, listed, rfl⟩, inside⟩) | ⟨_, ⟨hop, listed, rfl⟩, inside⟩
    · exact first e member
    · exact (each hop listed).2 e inside
    · exact (each hop listed).1 e inside

end Patterns

section Clauses

variable {whole : List Char}

theorem pageClause_keeps {word : String} (nonempty : 0 < word.utf8ByteSize) (complaint : Complaint)
    : (pageClause word complaint).Keeps (Uncut whole) (Expr.Sourced whole) :=
  (keyword_passes nonempty).bind fun _ _ => expression_keeps.committed.within _

theorem whereClause_keeps : whereClause.Keeps (Uncut whole) (Expr.Sourced whole) :=
  (keyword_passes (by decide)).bind fun _ _ => expression_keeps.committed.within _

theorem matchClause_keeps
    : matchClause.Keeps (Uncut whole) fun read =>
        ∀ e ∈ (Clause.matching read).expressions, e.Sourced whole := by
  refine (keyword_passes (by decide)).optional.bind fun _ _ =>
    (keyword_passes (by decide)).bind fun _ _ => ?_
  have patterns := (@mark_passes whole ',' (by decide)).separated1 pathPattern_keeps
  refine (patterns.committed.within _).bind fun patterns each => ?_
  refine whereClause_keeps.optional.bind fun condition sourced => .pure fun e member => ?_
  simp only [Clause.expressions, List.mem_append, List.mem_flatMap, Option.mem_toList] at member
  rcases member with ⟨path, listed, inside⟩ | found
  · exact each path listed e inside
  · exact sourced e found

theorem projectionItem_keeps
    : projectionItem.Keeps (Uncut whole) fun item => item.expr.Sourced whole := by
  have naming : Parser.Passes (Uncut whole) (do keyword "AS"; padded identifier) :=
    (keyword_passes (by decide)).bind fun _ _ => identifier_passes.padded
  refine .bind (?_ : Parser.Keeps (Uncut whole)
    (fun pair : Expr × String => pair.1.Sourced whole) _)
    fun _ sourced => naming.optional.bind fun _ _ => .pure sourced
  intro source pair rest here read
  dsimp only at read
  split at read
  · rename_i found
    cases read
    exact expression_keeps source _ rest here found
  · cases read
  · cases read

theorem orderByClause_keeps
    : orderByClause.Keeps (Uncut whole) fun items => ∀ item ∈ items, item.expr.Sourced whole := by
  have direction : Parser.Passes (Uncut whole) (Parser.choice [
      keywordAs "DESCENDING" true,
      keywordAs "DESC" true,
      keywordAs "ASCENDING" false,
      keywordAs "ASC" false]) := by
    refine Parser.Keeps.choice ?_
    simp only [List.forall_mem_cons, List.not_mem_nil, false_imp_iff, implies_true, and_true]
    refine ⟨?_, ?_, ?_, ?_⟩ <;> exact keywordAs_passes (by decide) _
  have item : sortItem.Keeps (Uncut whole) fun item => item.expr.Sourced whole :=
    expression_keeps.bind fun _ sourced => direction.optional.bind fun _ _ => .pure sourced
  exact (keyword_passes (by decide)).bind fun _ _ => (keyword_passes (by decide)).bind fun _ _ =>
    ((mark_passes (by decide)).separated1 item).committed.within _

theorem projection_keeps
    : projection.Keeps (Uncut whole) fun read => ∀ e ∈ read.expressions, e.Sourced whole := by
  refine (keyword_passes (by decide)).optional.bind fun _ _ => ?_
  have items := (@mark_passes whole ',' (by decide)).separated1 projectionItem_keeps
  refine (items.committed.within _).bind fun items each => ?_
  refine orderByClause_keeps.optional.bind fun orderBy ordered => ?_
  refine (pageClause_keeps (by decide) _).optional.bind fun skip skipped => ?_
  refine (pageClause_keeps (by decide) _).optional.bind fun limit limited =>
    .pure fun e member => ?_
  simp only [Projection.expressions, List.mem_append, List.mem_map, Option.mem_toList] at member
  rcases member with ((⟨item, listed, rfl⟩ | ⟨item, listed, rfl⟩) | found) | found
  · exact each item listed
  · cases orderBy with
    | none => cases listed
    | some items => exact ordered items rfl item listed
  · exact skipped e found
  · exact limited e found

theorem clause_keeps
    : clause.Keeps (Uncut whole) fun read => ∀ e ∈ read.expressions, e.Sourced whole := by
  refine Parser.Keeps.choice ?_
  simp only [List.forall_mem_cons, List.not_mem_nil, false_imp_iff, implies_true, and_true]
  refine ⟨matchClause_keeps.bind fun _ each => .pure each, ?_, ?_⟩
  · refine (keyword_passes (by decide)).bind fun _ _ => projection_keeps.bind fun read each => ?_
    refine whereClause_keeps.optional.bind fun condition sourced => .pure fun e member => ?_
    simp only [Clause.expressions, List.mem_append, Option.mem_toList] at member
    exact member.elim (each e) (sourced e)
  · exact (keyword_passes (by decide)).bind fun _ _ =>
      projection_keeps.bind fun _ each => .pure each

/-- The integers and parameters of a query that is read are as its source has them. -/
theorem Query.sourced_of_parse {source : String} {query : Query}
    (parsed : Query.parse source = .ok query)
    {part : Expr} (member : part ∈ query.parts)
    : part.StandsIn source.toList := by
  have keeps : statement.Keeps (Uncut source.toList) fun query =>
      ∀ e ∈ query.clauses.flatMap (·.expressions), e.Sourced source.toList := by
    refine blanks_passes.bind fun _ _ => clause_keeps.many1.bind fun clauses each => ?_
    refine (mark_passes (by decide)).optional.bind fun _ _ => .pure fun e member => ?_
    obtain ⟨read, listed, inside⟩ := List.mem_flatMap.mp member
    exact each read listed e inside
  obtain ⟨rest, read, -⟩ := Query.parse_eq_ok.mp parsed
  obtain ⟨e, listed, inside⟩ := List.mem_flatMap.mp member
  exact (keeps _ query rest (uncut_refl _) read).2 e listed _ inside

end Clauses

/-- The value of an integer literal. -/
def Expr.integer? : Expr → Option Int
  | .literal (.integer value) => some value
  | _ => none

theorem Expr.integer?_eq_some {e : Expr} {value : Int}
    : e.integer? = some value ↔ e = .literal (.integer value) := by
  unfold Expr.integer?
  split <;> simp_all

/-- What was read, unless the source was rejected. -/
def Reply.value? {α : Type} : Reply α → Option α
  | .ok value _ => some value
  | .rejected _ => none
  | .failed _ => none

theorem Reply.value?_eq_some {α : Type} {reply : Reply α} {value : α}
    : reply.value? = some value ↔ ∃ rest, reply = .ok value rest := by
  cases reply <;> simp [Reply.value?]

/-- The values of all integer literals of a query, at any depth. -/
def Query.integers (query : Query) : List Int :=
  query.parts.filterMap Expr.integer?

theorem Query.mem_integers {query : Query} {value : Int}
    : value ∈ query.integers ↔ .literal (.integer value) ∈ query.parts := by
  simp [Query.integers, List.mem_filterMap, Expr.integer?_eq_some]

/-- A number is a signed word, and its negation as a word is its negation as a number. -/
def Negatable (value : Int) : Prop :=
  ∃ word : Int64, word.toInt = value ∧ (-word).toInt = -value

/-- All signed words but the lowest one are negated without an overflow. -/
theorem negatable_iff {value : Int}
    : Negatable value ↔ -(2 ^ 63 - 1) ≤ value ∧ value ≤ 2 ^ 63 - 1 := by
  constructor
  · rintro ⟨word, rfl, negated⟩
    have most := word.toInt_lt
    have least := (-word).toInt_lt
    rw [negated] at least
    constructor <;> omega
  · rintro ⟨least, most⟩
    refine ⟨Int64.ofInt value, Int64.toInt_ofInt_of_le (by omega) (by omega), ?_⟩
    rw [← Int64.ofInt_neg]
    exact Int64.toInt_ofInt_of_le (by omega) (by omega)

theorem bounds_of_natAbs {value : Int} (small : value.natAbs ≤ Number.largestSigned64)
    : -(2 ^ 63 - 1) ≤ value ∧ value ≤ 2 ^ 63 - 1 := by
  rw [Number.largestSigned64] at small
  omega

/-- Integers never overflow. Those of a query that is read, at any depth, are signed words other
than the lowest one, and its source shows each of them but for the sign. So is every number that a
sign is read before, whose negation is a word again. A whole number is read as a literal exactly if
it is such a word; otherwise no expression is read from it, whatever signs, blanks and opening
parentheses stand before it.
-/
theorem integers_never_overflow
    : (∀ source query,
        Query.parse source = .ok query
        → ∀ value ∈ query.integers,
            (-(2 ^ 63 - 1) ≤ value ∧ value ≤ 2 ^ 63 - 1) ∧ Shows source.toList value.natAbs)
      ∧ (∀ depth times source operand rest,
        signedWithin (expressionWithin depth) times source = .ok operand rest
        → ∀ value, operand.integer? = some value → Negatable value)
      ∧ (∀ number rest,
        WholeNumber number rest
        → (decimalValue number ≤ 2 ^ 63 - 1
            → literal (number ++ rest) = .ok (.literal (.integer (decimalValue number))) rest)
          ∧ (2 ^ 63 - 1 < decimalValue number → literal.Rejects (number ++ rest)))
      ∧ ∀ source,
        Oversized source
        → expression.Rejects source
          ∧ ∀ depth times, (signedWithin (expressionWithin depth) times).Rejects source := by
  refine ⟨?_, ?_, ?_, ?_⟩
  · intro source query parsed value member
    obtain ⟨small, shown⟩ := Query.sourced_of_parse parsed (Query.mem_integers.mp member)
    exact ⟨bounds_of_natAbs small, shown⟩
  · intro depth times source operand rest read value same
    obtain rfl := Expr.integer?_eq_some.mp same
    -- What the source of a sign shows is not asked for here, so its own start is a place as good as
    -- any.
    have keeps := signedWithin_keeps (@expressionWithin_keeps source depth) times
    obtain ⟨-, sourced⟩ := keeps source _ rest (uncut_refl source) read
    exact negatable_iff.mpr (bounds_of_natAbs (sourced _ List.mem_cons_self).1)
  · intro number rest whole
    constructor
    · intro fits
      exact literal_integer_iff.mpr ⟨number, rfl, whole, fits, rfl⟩
    · intro large
      have rejects := (Oversized.number whole large).literal_rejects
      rwa [whole.skip] at rejects
  · intro source oversized
    refine ⟨oversized.expression_rejects, fun depth times => ?_⟩
    exact Oversized.signedWithin_rejects
      (Oversized.expressionWithin_rejects depth) times source oversized

/-- The lowest number and the highest one, with signs and parentheses before them. -/
def extremeNumbers : String :=
  "RETURN -(-(9223372036854775807)), [- 9223372036854775807] AS lowest"

/-- One more than the highest number, with a sign before it. -/
def lowestWord : String :=
  "- 9223372036854775808"

theorem extremeNumbers_fit
    : (∃ query,
        Query.parse extremeNumbers = .ok query
        ∧ query.integers = [2 ^ 63 - 1, -(2 ^ 63 - 1)]
        ∧ Shows extremeNumbers.toList (2 ^ 63 - 1))
      ∧ (∃ operand rest,
        signedWithin (expressionWithin 1) 2 "-9223372036854775807".toList = .ok operand rest
        ∧ operand.integer? = some (-(2 ^ 63 - 1))
        ∧ Negatable (-(2 ^ 63 - 1)))
      ∧ literal.Rejects "9223372036854775808".toList
      ∧ Oversized lowestWord.toList
      ∧ expression.Rejects lowestWord.toList := by
  refine ⟨?_, ?_, ?_⟩
  · have checked : (Query.parse extremeNumbers).toOption.map Query.integers
        = some [2 ^ 63 - 1, -(2 ^ 63 - 1)] := by
      rw [Query.toOption_parse, extremeNumbers, String.toList_ofList]
      decide +kernel
    cases parsed : Query.parse extremeNumbers with
    | error trace =>
        rw [parsed] at checked
        cases checked
    | ok query =>
        rw [parsed] at checked
        have integers := Option.some.inj checked
        have member : (2 ^ 63 - 1 : Int) ∈ query.integers := by simp [integers]
        exact ⟨query, rfl, integers, (integers_never_overflow.1 _ _ parsed _ member).2⟩
  · have checked
        : (signedWithin (expressionWithin 1) 2 "-9223372036854775807".toList).value?.bind
          Expr.integer?
        = some (-(2 ^ 63 - 1)) := by
      decide +kernel
    obtain ⟨operand, value, same⟩ := Option.bind_eq_some_iff.mp checked
    obtain ⟨rest, read⟩ := Reply.value?_eq_some.mp value
    exact ⟨operand, rest, read, same, integers_never_overflow.2.1 _ _ _ _ _ read _ same⟩
  · have whole : WholeNumber "9223372036854775808".toList [] := {
      nonempty := by decide
      digits := List.all_eq_true.mp (by decide)
      ends := nofun
      noFraction := nofun
    }
    have large : 2 ^ 63 - 1 < decimalValue "9223372036854775808".toList := by decide +kernel
    have oversized : Oversized lowestWord.toList :=
      .marked (by decide) (.blank (by decide) (.number whole large))
    refine ⟨?_, oversized, (integers_never_overflow.2.2.2 _ oversized).1⟩
    simpa using (integers_never_overflow.2.2.1 _ _ whole).2 large

end CypherSql.Cypher
