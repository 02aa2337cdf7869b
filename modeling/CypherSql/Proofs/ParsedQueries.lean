import CypherSql.Cypher.QueryParser

/-! What holds of every value that a parser reads, and of every query in particular: each of its
projections has an item.
-/

namespace CypherSql.Cypher

/-- Every value that a parser reads has a property. -/
def Parser.Ensures {α : Type} (holds : α → Prop) (parser : Parser α) : Prop :=
  ∀ source value rest, parser source = .ok value rest → holds value

namespace Parser.Ensures

variable {α β : Type} {holds : α → Prop}

theorem pure {value : α} (fact : holds value) : Parser.Ensures holds (Pure.pure value) := by
  rintro source _ rest ⟨⟩
  exact fact

/-- A sequence reads what its second parser reads. -/
theorem bind {parser : Parser α} {next : α → Parser β} {last : β → Prop}
    (first : Parser.Ensures holds parser)
    (second : ∀ value, holds value → Parser.Ensures last (next value))
    : Parser.Ensures last (parser >>= next) := by
  intro source value rest read
  change Parser.bind parser next source = .ok value rest at read
  unfold Parser.bind at read
  split at read
  · rename_i middle remaining found
    exact second middle (first _ _ _ found) _ _ _ read
  · cases read
  · cases read

/-- Nothing is known of a value that any parser reads. -/
theorem any (parser : Parser α) : Parser.Ensures (fun _ => True) parser :=
  fun _ _ _ _ => trivial

theorem committed {parser : Parser α} (ensures : Parser.Ensures holds parser)
    : Parser.Ensures holds parser.committed := by
  intro source value rest read
  unfold Parser.committed at read
  split at read
  · cases read
  · exact ensures _ _ _ read

theorem within {parser : Parser α} (ensures : Parser.Ensures holds parser) (complaint : Complaint)
    : Parser.Ensures holds (parser.within complaint) := by
  intro source value rest read
  unfold Parser.within at read
  split at read
  · rename_i found
    cases read
    exact ensures _ _ _ found
  · cases read
  · cases read

theorem optional {parser : Parser α} (ensures : Parser.Ensures holds parser)
    : Parser.Ensures (fun value => ∀ read, value = some read → holds read) parser.optional := by
  intro source value rest read
  unfold Parser.optional at read
  split at read
  · rename_i found
    cases read
    rintro _ ⟨⟩
    exact ensures _ _ _ found
  · cases read
    simp
  · cases read

/-- A choice reads what one of its alternatives reads, by induction over them. -/
theorem choice {parsers : List (Parser α)}
    (each : ∀ parser ∈ parsers, Parser.Ensures holds parser)
    : Parser.Ensures holds (Parser.choice parsers) := by
  intro source value rest read
  unfold Parser.choice at read
  generalize none = before at read
  induction parsers generalizing before with
  | nil => simp [Parser.choiceAfter] at read
  | cons parser parsers ih =>
      simp only [Parser.choiceAfter] at read
      split at read
      · exact ih (fun parser member => each parser (by simp [member])) _ read
      · exact each parser (by simp) _ _ _ read

/-- What a repeated step keeps holds at the end, by induction over the number of times. -/
theorem iterate {step : α → Parser (Option α)} {start : α} (initial : holds start)
    (kept
      : ∀ state,
          holds state
          → Parser.Ensures (fun next => ∀ later, next = some later → holds later) (step state))
    : Parser.Ensures holds (Parser.iterate step start) := by
  intro source value rest read
  unfold Parser.iterate at read
  generalize source.length = times at read
  suffices repeated : Parser.Ensures holds (Parser.iterateWithin step times start) from
    repeated _ _ _ read
  clear read
  induction times generalizing start with
  | zero => exact .pure initial
  | succ times ih =>
      refine (kept start initial).bind fun next later => ?_
      cases next with
      | none => exact .pure initial
      | some state => exact ih (later state rfl)

/-- Values that are read after others of a kind are of that kind. -/
theorem manyAfter {parser : Parser α} (ensures : Parser.Ensures holds parser) {before : List α}
    (nonempty : Bool) (earlier : ∀ value ∈ before, holds value)
    (some : nonempty → before ≠ [])
    : Parser.Ensures (fun values => (∀ value ∈ values, holds value) ∧ (nonempty → values ≠ []))
        (Parser.manyAfter parser before) := by
  refine iterate ⟨earlier, some⟩ fun seen ⟨all, some⟩ => ?_
  refine ensures.optional.bind fun next value => ?_
  cases next with
  | none => exact .pure (by simp)
  | some value' =>
      refine .pure ?_
      rintro _ ⟨⟩
      refine ⟨fun other member => ?_, by simp⟩
      rcases List.mem_cons.mp member with rfl | old
      · exact value _ rfl
      · exact all other old

theorem many1 {parser : Parser α} (ensures : Parser.Ensures holds parser)
    : Parser.Ensures (fun values => ∀ value ∈ values, holds value) (Parser.many1 parser) := by
  unfold Parser.many1
  refine @Parser.Ensures.bind _ _ holds _ _ _ ?_ fun first fact => ?_
  · intro source value rest read
    dsimp only at read
    split at read
    · cases read
    · exact ensures _ _ _ read
  refine (ensures.manyAfter false (by simpa using fact) (by simp)).bind
    fun values ⟨all, _⟩ => .pure ?_
  simpa using all

/-- At least one value is read between separators. -/
theorem separated1 {separator : Parser β} (parser : Parser α)
    : Parser.Ensures (fun values => values ≠ []) (Parser.separated1 separator parser) := by
  unfold Parser.separated1
  refine (any parser).bind fun first _ => ?_
  refine ((any _).manyAfter true (by simp) (by simp)).bind
    fun values ⟨_, present⟩ => .pure ?_
  simpa using present

end Parser.Ensures

/-- What a clause projects, if it projects anything. -/
def Clause.projection? : Clause → Option Projection
  | .matching _ => none
  | .withItems projection _ => some projection
  | .returnItems projection => some projection

/-- Every projection of some clauses has an item. -/
def ProjectItems (clauses : List Clause) : Prop :=
  ∀ clause ∈ clauses, ∀ projection, clause.projection? = some projection → projection.items ≠ []

theorem projection_ensures : Parser.Ensures (fun read => read.items ≠ []) projection := by
  unfold projection
  refine (Parser.Ensures.any _).bind fun distinct _ => ?_
  refine ((Parser.Ensures.separated1 projectionItem).committed.within _).bind fun items some => ?_
  refine (Parser.Ensures.any _).bind fun orderBy _ => ?_
  refine (Parser.Ensures.any _).bind fun skip _ => ?_
  refine (Parser.Ensures.any _).bind fun limit _ => ?_
  exact .pure some

theorem clause_ensures
    : Parser.Ensures
        (fun read => ∀ projection, read.projection? = some projection → projection.items ≠ [])
        clause := by
  refine Parser.Ensures.choice fun parser member => ?_
  simp only [List.mem_cons, List.not_mem_nil, or_false] at member
  rcases member with rfl | rfl | rfl
  · exact (Parser.Ensures.any _).bind fun read _ => .pure (by simp [Clause.projection?])
  · refine (Parser.Ensures.any _).bind fun _ _ => ?_
    refine projection_ensures.bind fun read some => ?_
    exact (Parser.Ensures.any _).bind fun condition _ => .pure (by
      rintro _ ⟨⟩
      exact some)
  · refine (Parser.Ensures.any _).bind fun _ _ => ?_
    exact projection_ensures.bind fun read some => .pure (by
      rintro _ ⟨⟩
      exact some)

/-- A text is read as a query if a statement is read and nothing but blanks is left behind it. -/
theorem Query.parse_eq_ok {source : String} {query : Query}
    : Query.parse source = .ok query
      ↔ ∃ rest, statement source.toList = .ok query rest ∧ Text.trim rest = [] := by
  unfold Query.parse
  constructor
  · intro parsed
    split at parsed
    · rename_i rest read
      split at parsed
      · rename_i blank
        cases parsed
        exact ⟨rest, read, blank⟩
      · cases parsed
    · cases parsed
    · cases parsed
  · rintro ⟨rest, read, blank⟩
    rw [read]
    simp only [blank]

/-- The query that is read from characters. It is evaluated on these alone: the text that they make
up would be encoded and decoded again.
-/
def Query.ofChars? (source : List Char) : Option Query :=
  match statement source with
  | .ok query rest => if (Text.trim rest).isEmpty then some query else none
  | _ => none

theorem Query.toOption_parse (source : String)
    : (Query.parse source).toOption = Query.ofChars? source.toList := by
  unfold Query.parse Query.ofChars?
  cases statement source.toList with
  | ok query rest =>
      dsimp only
      cases Text.trim rest <;> rfl
  | rejected trace => rfl
  | failed trace => rfl

/-- Every projection of a query that is read has an item. -/
theorem Query.projectItems_of_parse {source : String} {query : Query}
    (parsed : Query.parse source = .ok query)
    : ProjectItems query.clauses := by
  have ensures : Parser.Ensures (fun query : Query => ProjectItems query.clauses) statement := by
    refine (Parser.Ensures.any _).bind fun _ _ => ?_
    refine clause_ensures.many1.bind fun clauses each => ?_
    exact (Parser.Ensures.any _).bind fun _ _ => .pure each
  obtain ⟨_, read, -⟩ := Query.parse_eq_ok.mp parsed
  exact ensures _ _ _ read

end CypherSql.Cypher
