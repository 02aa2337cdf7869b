import CypherSql.Proofs.Parsing.Recursion

/-! Progress of the parsers. Each leaves a suffix of its source, and one that is repeated takes a
character at least, so that every repetition comes to its end by itself. Complaints are about parts
of the source.
-/

namespace CypherSql.Cypher

/-- A parser of the language, with the number of characters that it takes at least. -/
inductive Grammar : {α : Type} → Nat → Parser α → Prop where
  | blanks : Grammar 0 blanks
  | char (c : Char) : Grammar 1 (char c)
  | literally (text : String) : Grammar text.length (literally text)
  | run1 (holds : Char → Bool) : Grammar 1 (run1 holds)
  | run (holds : Char → Bool) : Grammar 0 (run holds)
  | wordLiterally {word : String} (nonempty : 0 < word.utf8ByteSize)
    : Grammar 1 (wordLiterally word)
  | wordEnd : Grammar 0 wordEnd
  | keyword {word : String} (nonempty : 0 < word.utf8ByteSize) : Grammar 1 (keyword word)
  | keywordAs {α : Type} {word : String} (nonempty : 0 < word.utf8ByteSize) (value : α)
    : Grammar 1 (keywordAs word value)
  | mark (c : Char) : Grammar 1 (mark c)
  | bareName : Grammar 1 bareName
  | untilBackquote : Grammar 0 untilBackquote
  | quotedName : Grammar 1 quotedName
  | symbolicName : Grammar 1 symbolicName
  | symbol : Grammar 1 symbol
  | identifier : Grammar 1 identifier
  | digits : Grammar 1 digits
  | hopCount : Grammar 1 hopCount
  | quotedText (quote : Char) : Grammar 1 (quotedText quote)
  | stringLiteral : Grammar 1 stringLiteral
  | realLiteral : Grammar 1 realLiteral
  | integerLiteral : Grammar 1 integerLiteral
  | literal : Grammar 1 literal
  | parameter : Grammar 1 parameter
  | functionName : Grammar 1 functionName
  | functionCall : Grammar 1 (functionCall expression)
  | listLiteral : Grammar 1 (listLiteral expression)
  | mapEntry : Grammar 1 (mapEntry expression)
  | mapLiteral : Grammar 1 (mapLiteral expression)
  | parenthesized : Grammar 1 (parenthesized expression)
  | atom : Grammar 1 (atom expression)
  | lookups : Grammar 1 (lookups expression)
  | signed : Grammar 1 (signed expression)
  | markAs (c : Char) (op : BinaryOp) : Grammar 1 (markAs c op)
  | powers : Grammar 1 (powers expression)
  | products : Grammar 1 (products expression)
  | sums : Grammar 1 (sums expression)
  | signAs (text : String) (op : BinaryOp) : Grammar text.length (signAs text op)
  | comparisonSign : Grammar 1 comparisonSign
  | comparisonWords : Grammar 1 comparisonWords
  | nullTest : Grammar 1 nullTest
  | comparisons : Grammar 1 (comparisons expression)
  | negations : Grammar 1 (negations expression)
  | conjunctions : Grammar 1 (conjunctions expression)
  | exclusions : Grammar 1 (exclusions expression)
  | disjunctions : Grammar 1 (disjunctions expression)
  | expression : Grammar 1 expression
  | nodePattern : Grammar 1 nodePattern
  | relationshipTypes : Grammar 0 relationshipTypes
  | hopRange : Grammar 1 hopRange
  | relationshipDetail : Grammar 1 relationshipDetail
  | arrowEnd {withHead : String} (nonempty : 1 ≤ withHead.length) : Grammar 1 (arrowEnd withHead)
  | relationshipPattern : Grammar 1 relationshipPattern
  | pathPattern : Grammar 1 pathPattern
  | whereClause : Grammar 1 whereClause
  | matchClause : Grammar 1 matchClause
  | projectionItem : Grammar 1 projectionItem
  | sortItem : Grammar 1 sortItem
  | orderByClause : Grammar 1 orderByClause
  | pageClause {word : String} (nonempty : 0 < word.utf8ByteSize) (complaint : Complaint)
    : Grammar 1 (pageClause word complaint)
  | projection : Grammar 1 projection
  | clause : Grammar 1 clause
  | statement : Grammar 1 statement

/-- A parser of the items of a list, with the mark between two of them. -/
inductive Listed : {α : Type} → Char → Parser α → Prop where
  | expression : Listed ',' expression
  | entry : Listed ',' (mapEntry expression)
  | type : Listed '|' typeName
  | path : Listed ',' pathPattern
  | projected : Listed ',' projectionItem
  | sortKey : Listed ',' sortItem

/-- A parser that stands inside a repetition. -/
inductive Repeated : {α : Type} → Parser α → Prop where
  | operator {level : Nat} (loop : level ∈ loopLevels) : Repeated (operatorAt level)
  | test {level : Nat} (loop : level ∈ loopLevels) : Repeated (testAt level)
  | operand {level : Nat} (loop : level ∈ loopLevels) : Repeated (operandAt expression level)
  | key : Repeated nextKey
  | segment : Repeated nextSegment
  | label : Repeated nextLabel
  | hop : Repeated nextHop
  | clause : Repeated clause
  | separator {α : Type} {c : Char} {p : Parser α} (listed : Listed c p) : Repeated (mark c)
  | item {α : Type} {c : Char} {p : Parser α} (listed : Listed c p) : Repeated p

/-- A step that is repeated: operators of a level with their operands, keys to look up, and more of
the parts of a name, the labels, the relationships of a path, the clauses and the items of a list.
-/
inductive Round : {α : Type} → (α → Parser (Option α)) → Prop where
  | level {level : Nat} (loop : level ∈ loopLevels) : Round (stepAt expression level)
  | lookup : Round lookupStep
  | segments : Round (Parser.manyStep nextSegment)
  | labels : Round (Parser.manyStep nextLabel)
  | hops : Round (Parser.manyStep nextHop)
  | clauses : Round (Parser.manyStep clause)
  | items {α : Type} {c : Char} {p : Parser α} (listed : Listed c p)
    : Round (Parser.manyStep (mark c >>= fun _ => p))

theorem Grammar.advances
    : ∀ {α : Type} {least : Nat} {p : Parser α}, Grammar least p → p.Advances least
  | _, _, _, .blanks => .blanks
  | _, _, _, .char c => char_advances c
  | _, _, _, .literally text => literally_advances text
  | _, _, _, .run1 holds => run1_advances holds
  | _, _, _, .run holds => run_advances holds
  | _, _, _, .wordLiterally nonempty => wordLiterally_advances nonempty
  | _, _, _, .wordEnd => wordEnd_advances
  | _, _, _, .keyword nonempty => keyword_advances nonempty
  | _, _, _, .keywordAs nonempty value => keywordAs_advances nonempty value
  | _, _, _, .mark c => mark_advances c
  | _, _, _, .bareName => bareName_advances
  | _, _, _, .untilBackquote => untilBackquote_advances
  | _, _, _, .quotedName => quotedName_advances
  | _, _, _, .symbolicName => symbolicName_advances
  | _, _, _, .symbol => symbol_advances
  | _, _, _, .identifier => identifier_advances
  | _, _, _, .digits => digits_advances
  | _, _, _, .hopCount => hopCount_advances
  | _, _, _, .quotedText quote => quotedText_advances quote
  | _, _, _, .stringLiteral => stringLiteral_advances
  | _, _, _, .realLiteral => realLiteral_advances
  | _, _, _, .integerLiteral => integerLiteral_advances
  | _, _, _, .literal => literal_advances
  | _, _, _, .parameter => parameter_advances
  | _, _, _, .functionName => functionName_advances
  | _, _, _, .functionCall => functionCall_advances expression_advances
  | _, _, _, .listLiteral => listLiteral_advances expression_advances
  | _, _, _, .mapEntry => mapEntry_advances expression_advances
  | _, _, _, .mapLiteral => mapLiteral_advances expression_advances
  | _, _, _, .parenthesized => parenthesized_advances expression_advances
  | _, _, _, .atom => atom_advances expression_advances
  | _, _, _, .lookups => lookups_advances expression_advances
  | _, _, _, .signed => signed_advances expression_advances
  | _, _, _, .markAs c op => markAs_advances c op
  | _, _, _, .powers => @levelWithin_advances _ expression_advances 7 (by decide) 0
  | _, _, _, .products => @levelWithin_advances _ expression_advances 6 (by decide) 0
  | _, _, _, .sums => @levelWithin_advances _ expression_advances 5 (by decide) 0
  | _, _, _, .signAs text op => signAs_advances text op
  | _, _, _, .comparisonSign => comparisonSign_advances
  | _, _, _, .comparisonWords => comparisonWords_advances
  | _, _, _, .nullTest => nullTest_advances
  | _, _, _, .comparisons => comparisons_advances expression_advances
  | _, _, _, .negations => negations_advances (comparisons_advances expression_advances)
  | _, _, _, .conjunctions => @levelWithin_advances _ expression_advances 2 (by decide) 0
  | _, _, _, .exclusions => @levelWithin_advances _ expression_advances 1 (by decide) 0
  | _, _, _, .disjunctions => @levelWithin_advances _ expression_advances 0 (by decide) 0
  | _, _, _, .expression => expression_advances
  | _, _, _, .nodePattern => nodePattern_advances
  | _, _, _, .relationshipTypes => relationshipTypes_advances
  | _, _, _, .hopRange => hopRange_advances
  | _, _, _, .relationshipDetail => relationshipDetail_advances
  | _, _, _, .arrowEnd nonempty => arrowEnd_advances nonempty
  | _, _, _, .relationshipPattern => relationshipPattern_advances
  | _, _, _, .pathPattern => pathPattern_advances
  | _, _, _, .whereClause => whereClause_advances
  | _, _, _, .matchClause => matchClause_advances
  | _, _, _, .projectionItem => projectionItem_advances
  | _, _, _, .sortItem => sortItem_advances
  | _, _, _, .orderByClause => orderByClause_advances
  | _, _, _, .pageClause nonempty complaint => pageClause_advances nonempty complaint
  | _, _, _, .projection => projection_advances
  | _, _, _, .clause => clause_advances
  | _, _, _, .statement => statement_advances

theorem Listed.advances : ∀ {α : Type} {c : Char} {p : Parser α}, Listed c p → p.Advances 1
  | _, _, _, .expression => expression_advances
  | _, _, _, .entry => mapEntry_advances expression_advances
  | _, _, _, .type => typeName_advances
  | _, _, _, .path => pathPattern_advances
  | _, _, _, .projected => projectionItem_advances
  | _, _, _, .sortKey => sortItem_advances

theorem Repeated.advances : ∀ {α : Type} {p : Parser α}, Repeated p → p.Advances 1
  | _, _, .operator _ => operatorAt_advances _
  | _, _, .test _ => testAt_advances _
  | _, _, .operand loop => operandAt_advances expression_advances loop
  | _, _, .key => nextKey_advances
  | _, _, .segment => nextSegment_advances
  | _, _, .label => nextLabel_advances
  | _, _, .hop => nextHop_advances
  | _, _, .clause => clause_advances
  | _, _, .separator _ => mark_advances _
  | _, _, .item listed => listed.advances

theorem mark_rejects_nil (c : Char) : (mark c).Rejects [] :=
  mark_rejects lacks_nil

theorem Round.proceeds
    : ∀ {α : Type} {step : α → Parser (Option α)}, Round step → Parser.Proceeds step
  | _, _, .level loop => stepAt_proceeds expression_advances loop
  | _, _, .lookup => lookupStep_proceeds
  | _, _, .segments => .many nextSegment_advances (char_rejects lacks_nil).bind
  | _, _, .labels => .many nextLabel_advances (mark_rejects_nil ':').bind
  | _, _, .hops => .many nextHop_advances ⟨_, rfl⟩
  | _, _, .clauses => .many clause_advances ⟨_, rfl⟩
  | _, _, .items listed =>
      .many ((mark_advances _).bind fun _ => listed.advances.anyway) (mark_rejects_nil _).bind

/-- Every parser leaves a suffix of its source and complains about places in it, and one that is
repeated takes a character at least. Repetitions without a bound and the recursion of expressions
come to what the bounded ones say. The text of a projected expression is what stands before its
rest, and every complaint about a query is about a part of its source.
-/
theorem parsers_progress
    : (∀ {α : Type} {least : Nat} {p : Parser α}, Grammar least p → p.Advances least)
      ∧ (∀ {α : Type} {p : Parser α}, Repeated p → p.Advances 1)
      ∧ (∀ {α : Type} {step : α → Parser (Option α)},
          Round step
          → ∀ state source reply,
              Parser.Runs step state source reply ↔ reply = Parser.iterate step state source)
      ∧ (∀ p, p = disjunctions p ↔ p = expression)
      ∧ (∀ p, p = negatedBy expression p ↔ p = negations expression)
      ∧ (∀ p, p = signedBy expression p ↔ p = signed expression)
      ∧ (∀ source expr rest,
          expression source = .ok expr rest
          → rest.length ≤ source.length
            ∧ source.take (source.length - rest.length) ++ rest = source)
      ∧ ∀ source trace,
          Query.parse source = .error trace
          → ∀ entry ∈ trace.entries, entry.remaining <:+: source.toList := by
  have nested {nested : Nat → Parser Expr} {body : Parser Expr → Parser Expr}
      (knot : Parser.Nested nested body) (p : Parser Expr)
      : p = body p ↔ p = fun source => nested (source.length + 1) source := by
    constructor
    · exact knot.eq_whole
    · rintro rfl
      exact knot.whole_eq
  refine ⟨Grammar.advances, Repeated.advances, ?_, nested expression_nested,
    nested (negations_nested expression_advances),
    nested (signed_nested expression_advances), ?_, ?_⟩
  · intro α step round state source reply
    exact round.proceeds.runs_iff
  · intro source expr rest read
    obtain ⟨taken, rfl⟩ := expression_advances.suffix read
    refine ⟨(List.suffix_append taken rest).length_le, ?_⟩
    rw [List.length_append, Nat.add_sub_cancel, List.take_left]
  · intro source trace stopped
    exact Query.parse_infix stopped

end CypherSql.Cypher
