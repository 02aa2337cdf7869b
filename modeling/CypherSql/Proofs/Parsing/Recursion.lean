import CypherSql.Proofs.Parsing.Progress

/-! The bounds on repetitions and on nesting. A repeated step that takes a character each time comes
to its end before the bound does, and parsers that look into a shorter source only are those that
the recursion without a bound describes.
-/

namespace CypherSql.Cypher

namespace Parser

section Repetitions

variable {α : Type} {step : α → Parser (Option α)} {state : α} {source : List Char}
  {reply other : Reply α}

/-- What the repetition of a step comes to, however often the step goes on. -/
inductive Runs (step : α → Parser (Option α)) : α → List Char → Reply α → Prop where
  | done {state source rest} (reads : step state source = .ok none rest)
    : Runs step state source (.ok state rest)
  | rejected {state source trace} (stops : step state source = .rejected trace)
    : Runs step state source (.rejected trace)
  | failed {state source trace} (stops : step state source = .failed trace)
    : Runs step state source (.failed trace)
  | more {state source next middle reply} (reads : step state source = .ok (some next) middle)
    (later : Runs step next middle reply)
    : Runs step state source reply

/-- A step ends at the end of the source, and takes a character where it goes on. -/
structure Proceeds (step : α → Parser (Option α)) : Prop where
  ends : ∀ state, step state [] = .ok none []
  shorter
    : ∀ state source next rest,
        step state source = .ok (some next) rest → rest.length < source.length

/-- A repetition comes to one reply at most, by induction over its rounds. -/
theorem Runs.unique (runs : Runs step state source reply) (also : Runs step state source other)
    : reply = other := by
  induction runs generalizing other with
  | done reads =>
      cases also with
      | done alsoReads => cases reads.symm.trans alsoReads; rfl
      | rejected stops => cases reads.symm.trans stops
      | failed stops => cases reads.symm.trans stops
      | more alsoReads => cases reads.symm.trans alsoReads
  | rejected stops =>
      cases also with
      | done alsoReads => cases stops.symm.trans alsoReads
      | rejected alsoStops => cases stops.symm.trans alsoStops; rfl
      | failed alsoStops => cases stops.symm.trans alsoStops
      | more alsoReads => cases stops.symm.trans alsoReads
  | failed stops =>
      cases also with
      | done alsoReads => cases stops.symm.trans alsoReads
      | rejected alsoStops => cases stops.symm.trans alsoStops
      | failed alsoStops => cases stops.symm.trans alsoStops; rfl
      | more alsoReads => cases stops.symm.trans alsoReads
  | more reads later ih =>
      cases also with
      | done alsoReads => cases reads.symm.trans alsoReads
      | rejected stops => cases reads.symm.trans stops
      | failed stops => cases reads.symm.trans stops
      | more alsoReads alsoLater =>
          cases reads.symm.trans alsoReads
          exact ih alsoLater

/-- As many rounds as the source has characters are enough, by induction over them. -/
theorem Proceeds.runs_iterateWithin (proceeds : Proceeds step) {times : Nat}
    (enough : source.length ≤ times)
    : Runs step state source (iterateWithin step times state source) := by
  induction times generalizing state source with
  | zero =>
      obtain rfl := List.length_eq_zero_iff.mp (Nat.le_zero.mp enough)
      exact .done (proceeds.ends state)
  | succ times ih =>
      rw [iterateWithin]
      change Runs step state source (Parser.bind (step state) _ source)
      unfold Parser.bind
      cases reads : step state source with
      | ok next rest =>
          cases next with
          | none => exact .done reads
          | some next =>
              have shorter := proceeds.shorter state source next rest reads
              exact .more reads (ih (by omega))
      | rejected trace => exact .rejected reads
      | failed trace => exact .failed reads

/-- A repetition without a bound comes to what the bounded one says, and to nothing else. -/
theorem Proceeds.runs_iff (proceeds : Proceeds step)
    : Runs step state source reply ↔ reply = iterate step state source := by
  have runs : Runs step state source (iterate step state source) :=
    proceeds.runs_iterateWithin (Nat.le_refl _)
  constructor
  · intro also
    exact also.unique runs
  · rintro rfl
    exact runs

/-- To go on as long as a parser reads something is to proceed, if it takes a character each time.
-/
theorem Proceeds.many {p : Parser α} (advances : p.Advances 1) (ends : p.Rejects [])
    : Proceeds (manyStep p) where
  ends seen := bind_of_ok (optional_of_rejects ends)
  shorter seen source next rest reads := by
    obtain ⟨found, middle, optional, reads⟩ := bind_eq_ok.mp reads
    rcases optional_eq_ok optional with ⟨value, rfl, read⟩ | ⟨rfl, -⟩
    · cases reads
      exact advances.length_le read
    · cases reads

end Repetitions

/-- Two parsers say the same of every source that is shorter than a bound. -/
def AgreeBelow {α : Type} (bound : Nat) (p q : Parser α) : Prop :=
  ∀ source, source.length < bound → p source = q source

namespace AgreeBelow

variable {α β : Type} {p q : Parser α} {f g : α → Parser β} {bound more : Nat}

theorem refl (p : Parser α) : AgreeBelow bound p p :=
  fun _ _ => rfl

theorem mono (agree : AgreeBelow more p q) (le : bound ≤ more) : AgreeBelow bound p q :=
  fun source short => agree source (Nat.lt_of_lt_of_le short le)

/-- What follows a parser that takes some characters has to agree on the shorter sources only. -/
theorem bind_add {least : Nat} (advances : p.Advances least)
    (first : AgreeBelow (bound + least) p q)
    (second : ∀ value, AgreeBelow bound (f value) (g value))
    : AgreeBelow (bound + least) (p >>= f) (q >>= g) := by
  intro source short
  change Parser.bind p f source = Parser.bind q g source
  unfold Parser.bind
  rw [← first source short]
  cases reads : p source with
  | ok value rest =>
      have shorter := advances.length_le reads
      exact second value rest (by omega)
  | rejected trace => rfl
  | failed trace => rfl

theorem bind (advances : p.Advances 0) (first : AgreeBelow bound p q)
    (second : ∀ value, AgreeBelow bound (f value) (g value))
    : AgreeBelow bound (p >>= f) (q >>= g) :=
  bind_add advances first second

/-- Behind a parser that takes a character the bound is one less. -/
theorem deeper (advances : p.Advances 1) (second : ∀ value, AgreeBelow bound (f value) (g value))
    : AgreeBelow (bound + 1) (p >>= f) (p >>= g) :=
  bind_add advances (refl p) second

theorem onward (advances : p.Advances 0) (second : ∀ value, AgreeBelow bound (f value) (g value))
    : AgreeBelow bound (p >>= f) (p >>= g) :=
  bind advances (refl p) second

theorem optional (agree : AgreeBelow bound p q) : AgreeBelow bound p.optional q.optional := by
  intro source short
  rw [Parser.optional, Parser.optional, agree source short]

theorem choice {ps qs : List (Parser α)} (each : List.Forall₂ (AgreeBelow bound) ps qs)
    : AgreeBelow bound (Parser.choice ps) (Parser.choice qs) := by
  intro source short
  unfold Parser.choice
  generalize (none : Option Trace) = before
  induction each generalizing before with
  | nil => rfl
  | cons first _ ih =>
      rw [choiceAfter_cons, choiceAfter_cons, first source short]
      split
      · exact ih _
      · rfl

/-- Repetitions agree if their steps do, by induction over the number of times. -/
theorem iterate {step other : α → Parser (Option α)} (advances : ∀ state, (step state).Advances 0)
    (agree : ∀ state, AgreeBelow bound (step state) (other state)) (start : α)
    : AgreeBelow bound (Parser.iterate step start) (Parser.iterate other start) := by
  intro source short
  suffices times
      : ∀ n state, AgreeBelow bound (iterateWithin step n state) (iterateWithin other n state) from
    times _ start source short
  intro n
  induction n with
  | zero => exact fun state => refl _
  | succ n ih =>
      intro state
      refine bind (advances state) (agree state) fun next => ?_
      cases next with
      | none => exact refl _
      | some next => exact ih next

theorem padded (agree : AgreeBelow bound p q) (advances : p.Advances 0)
    : AgreeBelow bound (padded p) (padded q) :=
  onward .blanks fun _ => bind advances agree fun _ => refl _

theorem separated {separator : Parser β} (separates : separator.Advances 0)
    (advances : p.Advances 0)
    (agree : AgreeBelow bound p q)
    : AgreeBelow bound (Parser.separated separator p) (Parser.separated separator q) := by
  have next : AgreeBelow bound (separator >>= fun _ => p) (separator >>= fun _ => q) :=
    onward separates fun _ => agree
  have nextAdvances : (separator >>= fun _ => p).Advances 0 := separates.bind fun _ => advances
  have more (first : α)
      : AgreeBelow bound (Parser.manyAfter (separator >>= fun _ => p) [first])
          (Parser.manyAfter (separator >>= fun _ => q) [first]) := by
    refine iterate (fun seen => nextAdvances.optional.bind fun found => ?_)
      (fun seen => bind nextAdvances.optional next.optional fun _ => refl _) [first]
    cases found <;> exact .pure _
  have list : AgreeBelow bound (Parser.separated1 separator p) (Parser.separated1 separator q) :=
    bind advances agree fun first =>
      bind (nextAdvances.manyAfter [first]) (more first) fun _ => refl _
  exact bind (separates.separated1 advances).optional list.optional fun _ => refl _

end AgreeBelow

/-- Parsers that are nested at most a number of times, each made of the next by a body that looks
with it into shorter sources only.
-/
structure Nested {α : Type} (nested : Nat → Parser α) (body : Parser α → Parser α) : Prop where
  unfolds : ∀ n, nested (n + 1) = body (nested n)
  guarded
    : ∀ bound n q, AgreeBelow bound (nested n) q → AgreeBelow (bound + 1) (body (nested n)) (body q)

namespace Nested

variable {α : Type} {nested : Nat → Parser α} {body : Parser α → Parser α}

/-- More nesting makes no difference to a shorter source, by induction over the nesting. -/
theorem agree (knot : Nested nested body) {n m : Nat} (le : n ≤ m)
    : AgreeBelow n (nested n) (nested m) := by
  induction n generalizing m with
  | zero => exact fun source short => absurd short (Nat.not_lt_zero _)
  | succ n ih =>
      obtain ⟨m, rfl⟩ : ∃ before, m = before + 1 := ⟨m - 1, by omega⟩
      rw [knot.unfolds, knot.unfolds]
      exact knot.guarded n n _ (ih (Nat.le_of_succ_le_succ le))

/-- As much nesting as there may be in a source. -/
theorem agree_whole (knot : Nested nested body) (n : Nat)
    : AgreeBelow n (nested n) (fun source => nested (source.length + 1) source) :=
  fun source short => (knot.agree short source (Nat.lt_succ_self _)).symm

/-- The parser that the nesting comes to is made of itself. -/
theorem whole_eq (knot : Nested nested body)
    : (fun source => nested (source.length + 1) source)
      = body fun source => nested (source.length + 1) source := by
  funext source
  rw [knot.unfolds]
  exact knot.guarded source.length source.length _ (knot.agree_whole _) source (Nat.lt_succ_self _)

/-- No other parser is made of itself by the body. -/
theorem eq_whole (knot : Nested nested body) {p : Parser α} (own : p = body p)
    : p = fun source => nested (source.length + 1) source := by
  have same : ∀ n, AgreeBelow n (nested n) p := by
    intro n
    induction n with
    | zero => exact fun source short => absurd short (Nat.not_lt_zero _)
    | succ n ih =>
        rw [knot.unfolds, own]
        exact knot.guarded n n p ih
  funext source
  exact (same (source.length + 1) source (Nat.lt_succ_self _)).symm

end Nested

end Parser

open CypherSql.Cypher.Parser (AgreeBelow Nested)

section Brackets

variable {expr other : Parser Expr} {bound : Nat}

theorem functionCall_agree (advances : expr.Advances 1) (agree : AgreeBelow bound expr other)
    : AgreeBelow (bound + 1) (functionCall expr) (functionCall other) := by
  have args := agree.separated (mark_advances ',').anyway advances.anyway
  have star : Parser.Advances (do mark '*'; pure [Expr.star]) 0 :=
    (mark_advances '*').anyway.bind fun _ => .pure _
  have each := (mark_advances ',').separated advances
  refine .deeper functionName_advances fun name => .onward (mark_advances '(').anyway fun _ => ?_
  refine .onward (keyword_advances (by decide)).optional fun distinct => ?_
  exact .bind (.choice (by simpa using ⟨star, each⟩)) (.choice (.cons (.refl _) (.cons args .nil)))
    fun _ => .refl _

theorem listLiteral_agree (advances : expr.Advances 1) (agree : AgreeBelow bound expr other)
    : AgreeBelow (bound + 1) (listLiteral expr) (listLiteral other) :=
  .deeper (mark_advances '[') fun _ =>
    .bind ((mark_advances ',').separated advances)
      (agree.separated (mark_advances ',').anyway advances.anyway) fun _ => .refl _

theorem mapLiteral_agree (advances : expr.Advances 1) (agree : AgreeBelow bound expr other)
    : AgreeBelow (bound + 1) (mapLiteral expr) (mapLiteral other) := by
  have entry : AgreeBelow bound (mapEntry expr) (mapEntry other) :=
    .onward symbol_advances.padded.anyway fun _ => .onward (char_advances ':').anyway fun _ =>
      .bind advances.anyway agree fun _ => .refl _
  have entryAdvances := mapEntry_advances advances
  exact .deeper (mark_advances '\x7b') fun _ =>
    .bind ((mark_advances ',').separated entryAdvances)
      (entry.separated (mark_advances ',').anyway entryAdvances.anyway) fun _ => .refl _

theorem parenthesized_agree (advances : expr.Advances 1) (agree : AgreeBelow bound expr other)
    : AgreeBelow (bound + 1) (parenthesized expr) (parenthesized other) :=
  .deeper (mark_advances '(') fun _ => .bind advances.anyway agree fun _ => .refl _

theorem atom_agree (advances : expr.Advances 1) (agree : AgreeBelow bound expr other)
    : AgreeBelow (bound + 1) (atom expr) (atom other) := by
  have map : AgreeBelow (bound + 1) (do let entries ← mapLiteral expr; pure (Expr.map entries))
      (do let entries ← mapLiteral other; pure (Expr.map entries)) :=
    .bind (mapLiteral_advances advances).anyway (mapLiteral_agree advances agree) fun _ => .refl _
  exact .choice (.cons (.refl _) (.cons (.refl _) (.cons (functionCall_agree advances agree)
    (.cons (listLiteral_agree advances agree) (.cons map (.cons (parenthesized_agree advances agree)
      (.cons (.refl _) .nil)))))))

theorem lookups_agree (advances : expr.Advances 1) (agree : AgreeBelow bound expr other)
    : AgreeBelow (bound + 1) (lookups expr) (lookups other) :=
  .bind (atom_advances advances).padded.anyway
    ((atom_agree advances agree).padded (atom_advances advances).anyway) fun _ => .refl _

/-- What a choice of signs and property lookups is, given what stands behind a sign. -/
def signedBy (expr operand : Parser Expr) : Parser Expr :=
  Parser.choice [
    do
      mark '-'
      let operand ← operand
      pure (negate operand),
    do
      mark '+'
      operand,
    lookups expr]

/-- What a choice of negations and comparisons is, given what stands behind a `NOT`. -/
def negatedBy (expr operand : Parser Expr) : Parser Expr :=
  Parser.choice [
    do
      keyword "NOT"
      let operand ← operand
      pure (.unary .not operand),
    comparisons expr]

theorem signedBy_agree (advances : expr.Advances 1) (agree : AgreeBelow bound expr other)
    {operand next : Parser Expr} (operandAdvances : operand.Advances 0)
    (operandAgree : AgreeBelow bound operand next)
    : AgreeBelow (bound + 1) (signedBy expr operand) (signedBy other next) := by
  have minus : AgreeBelow (bound + 1) (do mark '-'; let operand ← operand; pure (negate operand))
      (do mark '-'; let operand ← next; pure (negate operand)) :=
    .deeper (mark_advances '-') fun _ => .bind operandAdvances operandAgree fun _ => .refl _
  have plus : AgreeBelow (bound + 1) (do mark '+'; operand) (do mark '+'; next) :=
    .deeper (mark_advances '+') fun _ => operandAgree
  exact .choice (.cons minus (.cons plus (.cons (lookups_agree advances agree) .nil)))

theorem signed_nested (advances : expr.Advances 1)
    : Nested (signedWithin expr) (signedBy expr) where
  unfolds _ := rfl
  guarded _ n _ agree :=
    signedBy_agree advances (.refl expr) (signedWithin_advances advances n).anyway agree

/-- Signs before property lookups, without a bound on how many there are. -/
theorem signed_eq (advances : expr.Advances 1) : signed expr = signedBy expr (signed expr) :=
  (signed_nested advances).whole_eq

theorem signedWithin_agree (advances : expr.Advances 1)
    (agree : AgreeBelow bound expr other) (n : Nat)
    : AgreeBelow (bound + 1) (signedWithin expr n) (signedWithin other n) := by
  induction n with
  | zero => exact .refl _
  | succ n ih =>
      exact signedBy_agree advances agree (signedWithin_advances advances n).anyway
        (ih.mono (Nat.le_succ bound))

theorem negatedBy_agree {operand next : Parser Expr} (operandAdvances : operand.Advances 0)
    (operandAgree : AgreeBelow bound operand next)
    (tighter : AgreeBelow (bound + 1) (comparisons expr) (comparisons other))
    : AgreeBelow (bound + 1) (negatedBy expr operand) (negatedBy other next) := by
  have negation : AgreeBelow (bound + 1)
      (do keyword "NOT"; let operand ← operand; pure (Expr.unary .not operand))
      (do keyword "NOT"; let operand ← next; pure (Expr.unary .not operand)) :=
    .deeper (keyword_advances (by decide)) fun _ =>
      .bind operandAdvances operandAgree fun _ => .refl _
  exact .choice (.cons negation (.cons tighter .nil))

theorem comparisons_advances (advances : expr.Advances 1) : (comparisons expr).Advances 1 :=
  @levelWithin_advances _ advances 4 (by decide) 0

theorem negations_nested (advances : expr.Advances 1)
    : Nested (negationsWithin expr) (negatedBy expr) where
  unfolds _ := rfl
  guarded _ n _ agree :=
    negatedBy_agree (negationsWithin_advances (comparisons_advances advances) n).anyway
      agree (.refl _)

/-- Negations before comparisons, without a bound on how many there are. -/
theorem negations_eq (advances : expr.Advances 1)
    : negations expr = negatedBy expr (negations expr) :=
  (negations_nested advances).whole_eq

theorem negationsWithin_agree (advances : expr.Advances 1)
    (tighter : AgreeBelow (bound + 1) (comparisons expr) (comparisons other)) (n : Nat)
    : AgreeBelow (bound + 1) (negationsWithin expr n) (negationsWithin other n) := by
  induction n with
  | zero => exact .refl _
  | succ n ih =>
      exact negatedBy_agree (negationsWithin_advances (comparisons_advances advances) n).anyway
        (ih.mono (Nat.le_succ bound)) tighter

/-- The levels look into their brackets behind a character that opens them, from the tightest level
on.
-/
theorem levelWithin_agree (advances : expr.Advances 1)
    (agree : AgreeBelow bound expr other) {level : Nat}
    (within : level ≤ 9) (n : Nat)
    : AgreeBelow (bound + 1) (levelWithin expr n level) (levelWithin other n level) := by
  induction within using Nat.decreasingInduction generalizing n with
  | self => exact lookups_agree advances agree
  | of_succ level within ih =>
      rcases loop_or_single level within with loop | rfl | rfl
      · have operand : AgreeBelow (bound + 1) (operandAt expr level) (operandAt other level) :=
          fun source => ih (source.length + 1) source
        have operandAdvances := (operandAt_advances advances loop).anyway
        rw [levelWithin_eq_loop loop, levelWithin_eq_loop loop]
        refine .bind operandAdvances operand fun first =>
          .iterate (stepAt_advances operandAdvances) (fun left => ?_) first
        refine .onward (testAt_advances level).optional fun test => ?_
        cases test with
        | some test => exact .refl _
        | none =>
            refine .onward (operatorAt_advances level).optional fun op => ?_
            cases op with
            | none => exact .refl _
            | some op => exact .bind operandAdvances operand fun _ => .refl _
      · exact negationsWithin_agree advances (ih 0) n
      · exact signedWithin_agree advances agree n

/-- Each operator that a level goes on with takes a character. -/
theorem stepAt_proceeds (advances : expr.Advances 1) {level : Nat} (loop : level ∈ loopLevels)
    : Parser.Proceeds (stepAt expr level) where
  ends left := (stops_nil.mono (Nat.zero_le level)).stepAt left
  shorter left source next rest reads := by
    obtain ⟨test?, middle, tested, more⟩ := Parser.bind_eq_ok.mp reads
    rcases Parser.optional_eq_ok tested with ⟨test, rfl, found⟩ | ⟨rfl, rfl⟩
    · cases more
      exact (testAt_advances level).length_le found
    · obtain ⟨op?, middle, tried, last⟩ := Parser.bind_eq_ok.mp more
      rcases Parser.optional_eq_ok tried with ⟨op, rfl, found⟩ | ⟨rfl, -⟩
      · obtain ⟨right, later, operand, same⟩ := Parser.bind_eq_ok.mp last
        cases same
        have first := (operatorAt_advances level).length_le found
        have second := (operandAt_advances advances loop).length_le operand
        omega
      · cases last

/-- Each key that is looked up takes a character. -/
theorem lookupStep_proceeds : Parser.Proceeds lookupStep where
  ends _ := rfl
  shorter base source next rest reads := by
    obtain ⟨key?, middle, tried, same⟩ := Parser.bind_eq_ok.mp reads
    rcases Parser.optional_eq_ok tried with ⟨key, rfl, found⟩ | ⟨rfl, -⟩
    · cases same
      exact nextKey_advances.length_le found
    · cases same

end Brackets

theorem expression_nested : Nested expressionWithin disjunctions where
  unfolds _ := rfl
  guarded bound n q agree :=
    @levelWithin_agree _ q bound (expressionWithin_advances n) agree 0 (by decide) 0

end CypherSql.Cypher
