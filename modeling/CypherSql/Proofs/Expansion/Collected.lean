import CypherSql.Proofs.Expansion.Bounds

/-! Relationships with a hop range as the grammar reads them. The anonymous ones among the
relationships of a query are those whose brackets open outside of quotes, in the order of the text,
whatever else the query is made of.
-/

namespace CypherSql.Cypher

open Text

/-- What a parser reads opens ranges, and its value has these, after the ones that were read before.
-/
def Parser.Collects {α : Type} (p : Parser α) (before : List RelationshipDetail)
    (ranges : α → List RelationshipDetail)
    : Prop :=
  ∀ source value rest,
    p source = .ok value rest
    → ∃ text found, source = text ++ rest ∧ OpensRanges found text ∧ ranges value = before ++ found

namespace Parser.Collects

variable {α β : Type} {p : Parser α} {f : α → Parser β} {before : List RelationshipDetail}
  {ranges : α → List RelationshipDetail} {whole : β → List RelationshipDetail}

theorem of_takes (takes : p.Takes (OpensRanges [])) (before : List RelationshipDetail)
    : p.Collects before fun _ => before := by
  intro source value rest read
  obtain ⟨text, split, opens⟩ := takes.taken read
  exact ⟨text, [], split, opens, (List.append_nil before).symm⟩

/-- What was read before stands before what is read. -/
theorem behind (collects : p.Collects [] ranges) (before : List RelationshipDetail)
    : p.Collects before fun value => before ++ ranges value := by
  intro source value rest read
  obtain ⟨text, found, split, opens, same⟩ := collects source value rest read
  exact ⟨text, found, split, opens, congrArg (before ++ ·) same⟩

theorem congr {others : α → List RelationshipDetail} (collects : p.Collects before ranges)
    (same : ∀ value, others value = ranges value)
    : p.Collects before others := by
  intro source value rest read
  obtain ⟨text, found, split, opens, one⟩ := collects source value rest read
  exact ⟨text, found, split, opens, (same value).trans one⟩

theorem pure {value : α} (same : ranges value = before)
    : (Pure.pure value : Parser α).Collects before ranges := by
  rintro source _ _ ⟨⟩
  exact ⟨[], [], rfl, opensRanges_nil, same.trans (List.append_nil before).symm⟩

theorem bind (first : p.Collects before ranges)
    (second : ∀ value, (f value).Collects (ranges value) whole)
    : (p >>= f).Collects before whole := by
  intro source result rest read
  obtain ⟨value, place, found, more⟩ := Parser.bind_eq_ok.mp read
  obtain ⟨text, some, rfl, opens, one⟩ := first source value place found
  obtain ⟨later, others, rfl, also, all⟩ := second value place result rest more
  exact ⟨text ++ later, some ++ others, (List.append_assoc _ _ _).symm, opens.append also,
    by rw [all, one, List.append_assoc]⟩

/-- What opens no range makes no difference. -/
theorem after (first : p.Takes (OpensRanges [])) (second : ∀ value, (f value).Collects before whole)
    : (p >>= f).Collects before whole :=
  bind (of_takes first before) second

theorem map {g : α → β} (collects : p.Collects before ranges)
    (same : ∀ value, whole (g value) = ranges value)
    : Parser.Collects (p >>= fun value => Pure.pure (g value)) before whole :=
  bind collects fun value => pure (same value)

theorem optional (collects : p.Collects [] ranges)
    : p.optional.Collects [] fun found => found.elim [] ranges := by
  intro source found rest read
  rcases Parser.optional_eq_ok read with ⟨value, rfl, here⟩ | ⟨rfl, rfl⟩
  · exact collects source value rest here
  · exact ⟨[], [], rfl, opensRanges_nil, rfl⟩

/-- A choice collects what its parsers collect, by induction over them. -/
theorem choice {ps : List (Parser α)} (each : ∀ p ∈ ps, p.Collects before ranges)
    : (Parser.choice ps).Collects before ranges := by
  intro source value rest read
  unfold Parser.choice at read
  generalize (none : Option Trace) = earlier at read
  induction ps generalizing earlier with
  | nil => cases read
  | cons p ps ih =>
      obtain ⟨first, others⟩ := List.forall_mem_cons.mp each
      simp only [Parser.choiceAfter] at read
      split at read
      · exact ih others _ read
      · exact first source value rest read

/-- A repetition collects what its rounds collect, by induction over the number of times. -/
theorem iterate {step : α → Parser (Option α)}
    (each : ∀ state, (step state).Collects (ranges state) fun next => ranges (next.getD state))
    (start : α)
    : (Parser.iterate step start).Collects (ranges start) ranges := by
  intro source
  suffices times
      : ∀ n state, (Parser.iterateWithin step n state).Collects (ranges state) ranges from
    times _ start source
  intro n
  induction n with
  | zero => exact fun state => pure rfl
  | succ n ih =>
      intro state
      refine bind (each state) fun next => ?_
      cases next with
      | none => exact pure rfl
      | some next => exact ih next

/-- Values that are read one after the other are kept with the last one first. -/
theorem manyAfter (collects : p.Collects [] ranges) (seen : List α)
    : (Parser.manyAfter p seen).Collects (seen.reverse.flatMap ranges) fun values =>
        values.reverse.flatMap ranges := by
  refine @iterate _ (fun values => values.reverse.flatMap ranges) _ (fun seen => ?_) seen
  refine bind (collects.optional.behind _) fun found => ?_
  cases found with
  | none => exact pure (List.append_nil _).symm
  | some value => exact pure (by simp)

theorem many (collects : p.Collects [] ranges)
    : (Parser.many p).Collects [] fun values => values.flatMap ranges :=
  (collects.manyAfter []).map fun _ => rfl

theorem separated1 {separator : Parser β} (separates : separator.Takes (OpensRanges []))
    (collects : p.Collects [] ranges)
    : (Parser.separated1 separator p).Collects [] fun values => values.flatMap ranges := by
  refine bind collects fun first => ?_
  have next : Parser.Collects (separator >>= fun _ => p) [] ranges :=
    after separates fun _ => collects
  have others := next.manyAfter [first]
  rw [List.reverse_singleton, List.flatMap_singleton] at others
  exact others.map fun _ => rfl

theorem many1 (collects : p.Collects [] ranges)
    : (Parser.many1 p).Collects [] fun values => values.flatMap ranges := by
  refine @bind _ _ _ _ [] ranges _ (fun source value rest read => ?_) fun first => ?_
  · split at read
    · cases read
    · exact collects source value rest read
  · have others := collects.manyAfter [first]
    rw [List.reverse_singleton, List.flatMap_singleton] at others
    exact others.map fun _ => rfl

theorem committed (collects : p.Collects before ranges) : p.committed.Collects before ranges :=
  fun source value rest read => collects source value rest (Parser.committed_eq_ok read)

theorem within (collects : p.Collects before ranges) (complaint : Complaint)
    : (p.within complaint).Collects before ranges :=
  fun source value rest read => collects source value rest (Parser.within_eq_ok read)

end Parser.Collects

/-- The relationships of the patterns of a clause. -/
def Clause.relationships : Clause → List RelationshipPattern
  | .matching clause => clause.patterns.flatMap (·.relationships)
  | _ => []

/-- The relationships of the patterns of a query. -/
def Query.relationships (query : Query) : List RelationshipPattern :=
  query.clauses.flatMap (·.relationships)

/-- The anonymous ones with a hop range among some relationships. -/
def rangesOf (relationships : List RelationshipPattern) : List RelationshipDetail :=
  relationships.flatMap (·.detail.ranges)

section Patterns

variable {holds : List Char → Prop}

theorem rangesOf_flatMap {α : Type} (values : List α) (parts : α → List RelationshipPattern)
    : rangesOf (values.flatMap parts) = values.flatMap fun value => rangesOf (parts value) :=
  List.flatMap_assoc

theorem nodeInside_takes (lexical : Lexical holds) : nodeInside.Takes holds := by
  have joined := lexical.toJoined
  have label : nextLabel.Takes holds :=
    .bind joined (mark_takes joined (lexical.bare ':' (by decide))) fun _ =>
      (symbol_takes lexical.toNamed).padded joined
  have properties := mapLiteral_takes lexical (expression_tame.takes holds lexical)
  exact .bind joined (((identifier_takes lexical.toNamed).padded joined).optional joined) fun _ =>
    .bind joined (label.many joined) fun _ => (properties.optional joined).map joined fun _ => _

theorem nodePattern_collects (before : List RelationshipDetail)
    : nodePattern.Collects before fun _ => before := by
  have lexical := lexical_opensRanges
  rw [nodePattern_eq]
  exact (Parser.Collects.of_takes
    (enclosed_takes lexical (by simp) (nodeInside_takes lexical)) before).within _

theorem detailInside_takes (lexical : Lexical holds) : detailInside.Takes holds := by
  have joined := lexical.toJoined
  have sign (c : Char) (bare : isBare c) : (mark c).Takes holds :=
    mark_takes joined (lexical.bare c bare)
  have types :=
    typeNames_takes lexical.toNamed (lexical.bare ':' (by decide)) (lexical.bare '|' (by decide))
  have count : (padded hopCount).optional.Takes holds :=
    (((digits_takes lexical.toNamed).reading _).padded joined).optional joined
  have points : (literally "..").Takes holds :=
    have bare : "..".toList.all isBare = true := by decide
    literally_takes joined fun c member => lexical.bare c (List.all_eq_true.mp bare c member)
  have upper : upperBound.Takes holds := .bind joined (points.padded joined) fun _ => count
  have range : hopRange.Takes holds :=
    .bind joined (sign '*' (by decide)) fun _ => .bind joined count fun _ =>
      (upper.optional joined).map joined fun _ => _
  have properties := mapLiteral_takes lexical (expression_tame.takes holds lexical)
  exact .bind joined (((identifier_takes lexical.toNamed).padded joined).optional joined) fun _ =>
    .bind joined ((types.optional joined).map joined fun _ => _) fun _ =>
      .bind joined (range.optional joined) fun _ =>
        (properties.optional joined).map joined fun _ => _

/-- The brackets of a relationship open it and no other one, whatever follows them. -/
theorem relationshipDetail_collects : relationshipDetail.Collects [] RelationshipDetail.ranges := by
  intro source detail rest read
  have lexical := lexical_opensRanges
  have joined := lexical.toJoined
  rw [relationshipDetail_eq] at read
  obtain ⟨inner, behind, opens, rfl, middle, found, there⟩ := between_eq_ok read
  obtain ⟨inside, rfl, one⟩ := Parser.Takes.inside joined (detailInside_takes lexical) found there
  obtain ⟨text, same, again⟩ :=
    detailInside_inside.between '[' (isClosing_of_mem ']' (by decide)) found there
  obtain rfl : inside = text := List.append_cancel_right same
  have bracketed : OpensRanges (detail.ranges ++ []) ('[' :: (inside ++ [']'])) := by
    refine opensRanges_bracketed one fun later => ?_
    have read := again ('[' :: (inside ++ ']' :: later)) later (skip_cons (by decide))
    rw [rangesAt, relationshipDetail_eq, read]
  obtain ⟨gap, leads, spaces⟩ := exists_skipped source
  obtain ⟨more, follows, others⟩ := exists_skipped behind
  refine ⟨gap ++ ('[' :: (inside ++ [']']) ++ more), [] ++ (detail.ranges ++ [] ++ []),
    ?_, ?_, by simp⟩
  · rw [leads, opens, List.append_assoc, List.append_assoc, ← follows]
    simp
  · exact (joined.spaces gap spaces).append (bracketed.append (joined.spaces more others))

theorem arrowEnd_takes (lexical : Lexical holds) (withHead : String)
    (bare : withHead.toList.all isBare)
    : (arrowEnd withHead).Takes holds := by
  have joined := lexical.toJoined
  have sign (text : String) (bare : text.toList.all isBare) (value : Bool)
      : Parser.Takes (do literally text; pure value) holds :=
    (literally_takes joined fun c member =>
      lexical.bare c (List.all_eq_true.mp bare c member)).map joined
      fun _ => value
  exact .padded joined
    (.choice (by simpa using ⟨sign withHead bare true, sign "-" (by decide) false⟩))

theorem relationshipPattern_collects
    : relationshipPattern.Collects [] fun relationship => relationship.detail.ranges := by
  have lexical := lexical_opensRanges
  rw [relationshipPattern_eq]
  refine .after (arrowEnd_takes lexical "<-" (by decide)) fun leftHead => ?_
  refine .bind relationshipDetail_collects.optional fun found => ?_
  refine .after (arrowEnd_takes lexical "->" (by decide)) fun rightHead => ?_
  cases found <;> exact .pure rfl

/-- A name before a path. -/
def pathName : Parser String := do
  let name ← padded identifier
  mark '='
  pure name

theorem pathName_takes (lexical : Lexical holds) : pathName.Takes holds :=
  have joined := lexical.toJoined
  .bind joined ((identifier_takes lexical.toNamed).padded joined) fun name =>
    (mark_takes joined (lexical.bare '=' (by decide))).map joined fun _ => name

theorem pathPattern_collects : pathPattern.Collects [] fun path => rangesOf path.relationships := by
  have lexical := lexical_opensRanges
  have hop : nextHop.Collects [] fun hop => hop.1.detail.ranges :=
    .bind relationshipPattern_collects fun relationship => (nodePattern_collects _).map fun _ => rfl
  refine .after ((pathName_takes lexical).optional lexical.toJoined) fun name => ?_
  refine .bind (nodePattern_collects []) fun start => ?_
  refine .bind hop.many fun hops source path rest read => ?_
  split at read
  · cases read
  · cases read
    refine ⟨[], [], rfl, opensRanges_nil, ?_⟩
    rw [List.append_nil, rangesOf, PathPattern.relationships, List.flatMap_map]

end Patterns

section Clauses

variable {before : List RelationshipDetail}

theorem dropBytes_eq_drop (count : Nat) (source : List Char)
    : ∃ few ≤ count, dropBytes count source = source.drop few := by
  fun_induction dropBytes count source with
  | case1 source => exact ⟨0, Nat.le_refl 0, rfl⟩
  | case2 => exact ⟨0, Nat.zero_le _, rfl⟩
  | case3 count c rest ih =>
      obtain ⟨few, within, dropped⟩ := ih
      have positive := c.utf8Size_pos
      exact ⟨few + 1, by omega, dropped⟩

/-- What is taken for a keyword agrees with its letters, up to case. One of them may be written as a
character of more bytes; then fewer characters are taken.
-/
theorem wordLiterally_collects {word : String} (narrow : word.utf8ByteSize = word.length)
    (apart : ('[' :: quotes).all fun c => foldCase c ∉ word.toList.map foldCase)
    : (wordLiterally word).Collects before fun _ => before := by
  intro source value rest read
  unfold wordLiterally at read
  split at read
  · rename_i opens
    cases read
    rw [Bool.and_eq_true, agrees_iff] at opens
    obtain ⟨count, few, dropped⟩ := dropBytes_eq_drop word.utf8ByteSize source
    rw [dropped]
    refine ⟨source.take count, [], (List.take_append_drop _ _).symm, ?_,
      (List.append_nil before).symm⟩
    have folded : ∀ c ∈ source.take count, foldCase c ∈ word.toList.map foldCase := by
      intro c member
      have inside : c ∈ source.take word.toList.length :=
        (List.take_subset_take_left source
          (by rw [String.length_toList, ← narrow]; exact few)) member
      have mapped : foldCase c ∈ (word.toList.take source.length).map foldCase :=
        opens.1 ▸ List.mem_map_of_mem inside
      rw [List.map_take] at mapped
      exact List.mem_of_mem_take mapped
    have others : ∀ c ∈ source.take count, c ∉ '[' :: quotes := fun c member listed =>
      of_decide_eq_true (List.all_eq_true.mp apart c listed) (folded c member)
    exact opensRanges_all fun c member => (not_or.mp (mt List.mem_cons.mpr (others c member))).symm
  · cases read

theorem keyword_collects {word : String} (narrow : word.utf8ByteSize = word.length)
    (apart : ('[' :: quotes).all fun c => foldCase c ∉ word.toList.map foldCase)
    : (keyword word).Collects before fun _ => before := by
  have blanks := Parser.Collects.of_takes (Parser.Takes.blanks lexical_opensRanges.toJoined) before
  have ends : wordEnd.Collects before fun _ => before := by
    intro source value rest read
    obtain ⟨rfl, -⟩ := wordEnd_eq_ok read
    exact ⟨[], [], rfl, opensRanges_nil, (List.append_nil before).symm⟩
  refine .bind blanks fun _ => ?_
  refine .bind (.bind (wordLiterally_collects narrow apart) fun _ => ends) fun _ => ?_
  exact blanks.map fun _ => rfl

theorem whereClause_collects : whereClause.Collects before fun _ => before :=
  .after (keyword_takes named_opensRanges (by decide)) fun _ =>
    (Parser.Collects.of_takes (expression_tame.takes _ lexical_opensRanges)
      before).committed.within _

theorem pageClause_collects {word : String} (complaint : Complaint)
    (opens : (keyword word).Collects before fun _ => before)
    : (pageClause word complaint).Collects before fun _ => before :=
  .bind opens fun _ =>
    (Parser.Collects.of_takes (expression_tame.takes _ lexical_opensRanges)
      before).committed.within _

/-- What opens no range opens none where it is missing. -/
theorem Parser.Collects.missing {α : Type} {p : Parser α} (collects : p.Collects [] fun _ => [])
    : p.optional.Collects before fun _ => before := by
  refine (collects.optional.behind before).congr fun found => ?_
  cases found <;> exact (List.append_nil before).symm

theorem projectionItem_collects : projectionItem.Collects [] fun _ => [] := by
  have lexical := lexical_opensRanges
  have joined := lexical.toJoined
  have named : Parser.Takes (do keyword "AS"; padded identifier) (OpensRanges []) :=
    .bind joined (keyword_takes lexical.toNamed (by decide)) fun _ =>
      (identifier_takes lexical.toNamed).padded joined
  refine @Parser.Collects.bind _ _ _ _ [] (fun _ => []) _ (fun source item rest read => ?_)
    fun item => (Parser.Collects.of_takes (named.optional joined) []).map fun _ => rfl
  split at read
  · rename_i expr place found
    cases read
    exact Parser.Collects.of_takes (expression_tame.takes _ lexical) [] source expr _ found
  · cases read
  · cases read

theorem sortItem_takes {holds : List Char → Prop} (lexical : Lexical holds)
    : sortItem.Takes holds := by
  have joined := lexical.toJoined
  have order (word : String) (plain : IsPlainWord word) (descending : Bool)
      : (keywordAs word descending).Takes holds :=
    keywordAs_takes lexical.toNamed plain descending
  have orders
      : (Parser.choice [keywordAs "DESCENDING" true, keywordAs "DESC" true,
        keywordAs "ASCENDING" false,
      keywordAs "ASC" false]).Takes holds :=
    .choice (by
      simpa using ⟨order "DESCENDING" (by decide) true, order "DESC" (by decide) true,
        order "ASCENDING" (by decide) false, order "ASC" (by decide) false⟩)
  exact .bind joined (expression_tame.takes holds lexical) fun _ =>
    (orders.optional joined).map joined fun _ => _

/-- Items that open no range open none one after the other. -/
theorem Parser.Collects.items {α : Type} {p : Parser α} (collects : p.Collects [] fun _ => [])
    : (Parser.separated1 (mark ',') p).Collects [] fun _ => [] := by
  have lexical := lexical_opensRanges
  refine (collects.separated1 (mark_takes lexical.toJoined (lexical.bare ',' (by decide)))).congr
    fun values => ?_
  exact (List.flatMap_eq_nil_iff.mpr fun _ _ => rfl).symm

theorem orderByClause_collects : orderByClause.Collects [] fun _ => [] :=
  .after (keyword_takes named_opensRanges (by decide)) fun _ =>
    .after (keyword_takes named_opensRanges (by decide)) fun _ =>
      (Parser.Collects.of_takes (sortItem_takes lexical_opensRanges) []).items.committed.within _

/-- The word that opens the number of rows left out is no plain one, since a `K` has another form.
-/
theorem projection_collects : projection.Collects [] fun _ => [] := by
  have lexical := lexical_opensRanges
  have skipped : (pageClause "SKIP" .skipClause).Collects [] fun _ => [] :=
    pageClause_collects .skipClause (keyword_collects (by decide) (by decide))
  have limited : (pageClause "LIMIT" .limitClause).Collects [] fun _ => [] :=
    pageClause_collects .limitClause (.of_takes (keyword_takes lexical.toNamed (by decide)) [])
  refine .after ((keyword_takes lexical.toNamed (by decide)).optional lexical.toJoined) fun _ => ?_
  refine .bind (projectionItem_collects.items.committed.within _) fun _ => ?_
  refine .bind orderByClause_collects.missing fun _ => .bind skipped.missing fun _ => ?_
  exact limited.missing.map fun _ => rfl

theorem matchClause_collects
    : matchClause.Collects [] fun read => rangesOf (Clause.matching read).relationships := by
  have lexical := lexical_opensRanges
  have joined := lexical.toJoined
  have comma := mark_takes joined (lexical.bare ',' (by decide))
  refine .after ((keyword_takes lexical.toNamed (by decide)).optional joined) fun optional => ?_
  refine .after (keyword_takes lexical.toNamed (by decide)) fun _ => ?_
  refine .bind ((pathPattern_collects.separated1 comma).committed.within _) fun patterns => ?_
  exact whereClause_collects.missing.map fun _ => rangesOf_flatMap _ _

theorem clause_collects : clause.Collects [] fun clause => rangesOf clause.relationships := by
  refine .choice fun parser member => ?_
  simp only [List.mem_cons, List.not_mem_nil, or_false] at member
  rcases member with rfl | rfl | rfl
  · exact matchClause_collects.map fun _ => rfl
  · refine .after (keyword_takes named_opensRanges (by decide)) fun _ =>
      .bind projection_collects fun _ => ?_
    exact whereClause_collects.missing.map fun _ => rfl
  · refine .after (keyword_takes named_opensRanges (by decide)) fun _ => ?_
    exact projection_collects.map fun _ => rfl

theorem statement_collects : statement.Collects [] fun query => rangesOf query.relationships := by
  have lexical := lexical_opensRanges
  have joined := lexical.toJoined
  have semicolon := mark_takes joined (lexical.bare ';' (by decide))
  refine .after (.blanks joined) fun _ => .bind clause_collects.many1 fun clauses => ?_
  exact (Parser.Collects.of_takes (semicolon.optional joined) _).map fun _ => rangesOf_flatMap _ _

/-- Only blanks are trimmed to nothing. -/
theorem isBlank_of_trim {text : List Char} (nothing : Text.trim text = [])
    : ∀ c ∈ text, isBlank c := by
  obtain ⟨lead, leads, start⟩ := Expansion.exists_skipBlanks text
  obtain ⟨trail, trails, others⟩ := Expansion.exists_trimEnd (Expansion.skipBlanks text)
  intro c member
  rw [start, others, show trimEnd (Expansion.skipBlanks text) = [] from nothing, List.nil_append,
    List.mem_append] at member
  exact member.elim (leads c) (trails c)

/-- The ranges that open in a query are those of its relationships, in their order. -/
theorem opensRanges_of_parse {source : String} {query : Query}
    (parsed : Query.parse source = .ok query)
    : OpensRanges (rangesOf query.relationships) source.toList := by
  obtain ⟨rest, read, ends⟩ := Query.parse_eq_ok.mp parsed
  obtain ⟨text, found, split, opens, same⟩ := statement_collects _ _ _ read
  have visible : ('[' :: quotes).all (fun c => !isBlank c) = true := by decide
  have apart : ∀ c ∈ rest, c ∉ '[' :: quotes := by
    intro c member listed
    have noBlank := List.all_eq_true.mp visible c listed
    rw [isBlank_of_trim ends c member] at noBlank
    cases noBlank
  have behind : OpensRanges [] rest :=
    opensRanges_all fun c member => (not_or.mp (mt List.mem_cons.mpr (apart c member))).symm
  have whole := opens.append behind
  rw [List.append_nil, ← List.nil_append found, ← same, ← split] at whole
  exact whole

/-- The same as a list of what opens outside of quotes. -/
theorem rangesFrom_of_parse {source : String} {query : Query}
    (parsed : Query.parse source = .ok query)
    : rangesFrom .outside source.toList = rangesOf query.relationships := by
  have opened := (opensRanges_of_parse parsed).opened []
  rwa [List.append_nil, rangesFrom, List.append_nil] at opened

end Clauses

end CypherSql.Cypher
