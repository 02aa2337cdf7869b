import CypherSql.Proofs.Numerals.Places
import CypherSql.Proofs.ParsedQueries

/-! Whole numbers in a source. A literal is read from one exactly if its value fits into a signed
word, and one that does not fit is read nowhere, whatever signs and parentheses stand before it.
-/

namespace CypherSql.Cypher

/-- A run of digits with nothing behind it that belongs to the same number: no digit, and no point
with a digit after it.
-/
structure WholeNumber (number rest : List Char) : Prop where
  nonempty : number ≠ []
  digits : ∀ c ∈ number, c.isDigit
  ends : LacksDigit rest
  noFraction : ∀ more, rest = '.' :: more → LacksDigit more

section Digits

variable {source number rest : List Char} {c : Char}

theorem digits_eq_ok
    : digits source = .ok number rest
      ↔ source = number ++ rest ∧ number ≠ [] ∧ (∀ c ∈ number, c.isDigit) ∧ LacksDigit rest := by
  constructor
  · exact run1_eq_ok
  · rintro ⟨rfl, nonempty, all, ends⟩
    exact run1_read nonempty all ends

theorem digits_rejects_iff : digits.Rejects source ↔ LacksDigit source := by
  refine ⟨fun rejects c opens => Bool.eq_false_iff.mpr fun digit => ?_, LacksDigit.digits⟩
  obtain ⟨rest, rfl⟩ := List.head?_eq_some_iff.mp opens
  have read : digits (c :: rest)
      = .ok ((c :: rest).takeWhile Char.isDigit) ((c :: rest).dropWhile Char.isDigit) := by
    refine digits_eq_ok.mpr ⟨List.takeWhile_append_dropWhile.symm, by simp [digit],
      fun d => List.mem_takeWhile_imp, fun d later => ?_⟩
    have stops := List.head?_dropWhile_not Char.isDigit (c :: rest)
    rwa [Option.mem_def.mp later] at stops
  exact rejects.not_ok read

/-- Digits are a whole number where no number with a point stands. -/
theorem realLiteral_rejects_iff (read : digits source = .ok number rest)
    : realLiteral.Rejects source ↔ WholeNumber number rest := by
  obtain ⟨-, nonempty, all, ends⟩ := digits_eq_ok.mp read
  constructor
  · intro rejects
    refine ⟨nonempty, all, ends, ?_⟩
    rintro more rfl
    rw [Parser.Rejects, realLiteral, Parser.bind_of_ok read, Parser.bind_of_ok (char_read '.' more)]
      at rejects
    exact digits_rejects_iff.mp (Parser.rejects_of_bind (fun _ _ => ⟨_, _, rfl⟩) rejects)
  · intro whole
    refine Parser.Rejects.bind_of_ok read ?_
    by_cases point : rest.head? = some '.'
    · obtain ⟨more, rfl⟩ := List.head?_eq_some_iff.mp point
      exact Parser.Rejects.bind_of_ok (char_read '.' more) (whole.noFraction more rfl).digits.bind
    · exact (char_rejects point).bind

theorem WholeNumber.read (whole : WholeNumber number rest)
    : Cypher.digits (number ++ rest) = .ok number rest :=
  digits_eq_ok.mpr ⟨rfl, whole.nonempty, whole.digits, whole.ends⟩

/-- A whole number opens with a digit. -/
theorem WholeNumber.opens (whole : WholeNumber number rest)
    : ∃ d others, number ++ rest = d :: others ∧ d.isDigit := by
  obtain ⟨d, others, rfl⟩ := List.exists_cons_of_ne_nil whole.nonempty
  exact ⟨d, others ++ rest, rfl, whole.digits d List.mem_cons_self⟩

theorem WholeNumber.lacks (whole : WholeNumber number rest) (noDigit : c.isDigit = false)
    : Lacks c (number ++ rest) := by
  obtain ⟨d, others, same, digit⟩ := whole.opens
  rw [same]
  refine lacks_cons ?_
  rintro rfl
  rw [noDigit] at digit
  cases digit

theorem WholeNumber.solid (whole : WholeNumber number rest) : Solid (number ++ rest) := by
  obtain ⟨d, others, same, digit⟩ := whole.opens
  exact ⟨d, others, same, isSpace_of_isWordChar (isWordChar_of_isDigit digit)⟩

theorem WholeNumber.skip (whole : WholeNumber number rest)
    : Cypher.skip (number ++ rest) = number ++ rest := by
  rw [← List.append_nil (number ++ rest), whole.solid.skip_append, List.append_nil]

end Digits

section Literals

variable {source number rest : List Char}

theorem decimalUpTo_eq_some {bound value : Nat}
    : decimalUpTo bound number = some value
      ↔ decimalValue number ≤ bound ∧ decimalValue number = value := by
  rw [decimalUpTo, Option.ite_none_right_eq_some, Option.some.injEq]

theorem integerLiteral_eq_ok {value : Literal}
    : integerLiteral source = .ok value rest
      ↔ ∃ number,
          digits source = .ok number rest
          ∧ decimalValue number ≤ Number.largestSigned64
          ∧ value = .integer (decimalValue number) := by
  constructor
  · intro read
    obtain ⟨n, _, counted, same⟩ := Parser.bind_eq_ok.mp read
    cases same
    obtain ⟨number, found, small⟩ := reading_eq_ok.mp counted
    obtain ⟨fits, rfl⟩ := decimalUpTo_eq_some.mp small
    exact ⟨number, found, fits, rfl⟩
  · rintro ⟨number, found, fits, rfl⟩
    exact Parser.bind_of_ok (Parser.reading_of_ok found (decimalUpTo_eq_some.mpr ⟨fits, rfl⟩))

theorem realLiteral_ensures
    : Parser.Ensures (fun value => ∀ n : Int, value ≠ .integer n) realLiteral :=
  (Parser.Ensures.any _).bind fun _ _ => (Parser.Ensures.any _).bind fun _ _ =>
    (Parser.Ensures.any _).bind fun _ _ => .pure nofun

/-- No text is read as an integer, and no word is. -/
theorem textOrWord_ensures
    : Parser.Ensures (fun value : Literal => ∀ n, value ≠ .integer n) (Parser.choice [
        do
          let raw ← stringLiteral
          pure (.text raw),
        keywordAs "TRUE" (.boolean true),
        keywordAs "FALSE" (.boolean false),
        keywordAs "NULL" .null]) := by
  refine Parser.Ensures.choice ?_
  simp only [List.forall_mem_cons, List.not_mem_nil, false_imp_iff, implies_true, and_true]
  refine ⟨?_, ?_, ?_, ?_⟩ <;> exact (Parser.Ensures.any _).bind fun _ _ => .pure nofun

/-- A value without a reading is rejected. -/
theorem Parser.reading_rejects {α β : Type} {p : Parser α} {read : α → Option β} {value : α}
    (found : p source = .ok value rest) (unread : read value = none)
    : (p.reading read).Rejects source :=
  ⟨.here source .invalidLiteral, by rw [Parser.reading, found]; simp only [unread]⟩

/-- An integer is read from a whole number that fits into a signed word, and from nothing else. -/
theorem literal_integer_iff {value : Int}
    : literal source = .ok (.literal (.integer value)) rest
      ↔ ∃ number,
          source = number ++ rest
          ∧ WholeNumber number rest
          ∧ decimalValue number ≤ Number.largestSigned64
          ∧ value = decimalValue number := by
  constructor
  · intro read
    obtain ⟨found, middle, picked, same⟩ := Parser.bind_eq_ok.mp read
    cases same
    -- A number with a point is tried first, so that no fraction follows where an integer is read.
    cases Parser.choice_eq_ok.mp picked with
    | here read => exact absurd rfl (realLiteral_ensures _ _ _ read value)
    | there noReal later =>
        cases later with
        | here read =>
            obtain ⟨number, found, fits, same⟩ := integerLiteral_eq_ok.mp read
            obtain ⟨rfl, -⟩ := digits_eq_ok.mp found
            exact ⟨number, rfl, (realLiteral_rejects_iff found).mp noReal, fits,
              Literal.integer.inj same⟩
        | there _ later =>
            exact absurd rfl (textOrWord_ensures _ _ _ (Parser.choice_eq_ok.mpr later) value)
  · rintro ⟨number, rfl, whole, fits, rfl⟩
    refine Parser.bind_of_ok (Parser.choice_eq_ok.mpr (.there ?_ (.here ?_)))
    · exact (realLiteral_rejects_iff whole.read).mpr whole
    · exact integerLiteral_eq_ok.mpr ⟨number, whole.read, fits, rfl⟩

end Literals

/-- The marks that may stand before a number: the signs and an opening parenthesis. -/
def leadingMarks : List Char :=
  ['-', '+', '(']

/-- No keyword and no name opens with the character. -/
def OpensNoWord (c : Char) : Prop :=
  c.isAlpha = false ∧ ¬ (c = '`' ∨ Text.isWordStart c)

theorem opensNoWord_of_isDigit {c : Char} (digit : c.isDigit) : OpensNoWord c := by
  constructor
  · refine Bool.eq_false_iff.mpr fun alpha => ?_
    rw [not_isDigit_of_isAlpha alpha] at digit
    cases digit
  · intro kind
    have opens : OpensName [c] := ⟨c, rfl, kind⟩
    rw [opens.lacksDigit c rfl] at digit
    cases digit

theorem leadingMarks_apart (c : Char) (leads : c ∈ leadingMarks)
    : isSpace c = false ∧ c.isDigit = false ∧ OpensNoWord c := by
  simp only [leadingMarks, List.mem_cons, List.not_mem_nil, or_false] at leads
  rw [OpensNoWord]
  rcases leads with rfl | rfl | rfl <;> decide

/-- A whole number that does not fit into a signed word, with blanks, signs and opening parentheses
before it.
-/
inductive Oversized : List Char → Prop where
  | number {number rest} (whole : WholeNumber number rest)
    (large : Number.largestSigned64 < decimalValue number)
    : Oversized (number ++ rest)
  | blank {c source} (space : isSpace c) (behind : Oversized source) : Oversized (c :: source)
  | marked {c source} (leads : c ∈ leadingMarks) (behind : Oversized source)
    : Oversized (c :: source)

namespace Oversized

variable {α : Type} {expr : Parser Expr} {source : List Char} {c : Char}

/-- Behind the blanks stands the number itself, or a mark with less before the number. -/
theorem cases_skip (oversized : Oversized source)
    : (∃ number rest,
        skip source = number ++ rest
        ∧ WholeNumber number rest
        ∧ Number.largestSigned64 < decimalValue number)
      ∨ ∃ c behind, skip source = c :: behind ∧ c ∈ leadingMarks ∧ Oversized behind := by
  induction oversized with
  | @number number rest whole large => exact .inl ⟨number, rest, whole.skip, whole, large⟩
  | blank space _ ih => rwa [skip, List.dropWhile_cons_of_pos space]
  | @marked c behind leads later _ =>
      exact .inr ⟨c, behind, skip_cons (leadingMarks_apart c leads).1, leads, later⟩

theorem skip (oversized : Oversized source) : Oversized (skip source) := by
  rcases oversized.cases_skip
    with ⟨number, rest, here, whole, large⟩ | ⟨c, behind, here, leads, later⟩
  · rw [here]
    exact .number whole large
  · rw [here]
    exact .marked leads later

/-- What stands behind the blanks opens with a digit or with one of the marks, and so with no word.
-/
theorem head (oversized : Oversized source)
    : ∃ c ∈ (Cypher.skip source).head?, (c.isDigit ∨ c ∈ leadingMarks) ∧ OpensNoWord c := by
  rcases oversized.cases_skip with ⟨number, rest, here, whole, -⟩ | ⟨c, behind, here, leads, -⟩
  · obtain ⟨d, others, same, digit⟩ := whole.opens
    exact ⟨d, by rw [here, same]; rfl, .inl digit, opensNoWord_of_isDigit digit⟩
  · exact ⟨c, by rw [here]; rfl, .inr leads, (leadingMarks_apart c leads).2.2⟩

theorem lacks (oversized : Oversized source) (noDigit : c.isDigit = false)
    (other : c ∉ leadingMarks)
    : Lacks c (Cypher.skip source) := by
  intro opens
  obtain ⟨d, also, digit | leads, -⟩ := oversized.head
  · obtain rfl := Option.some.inj (opens.symm.trans also)
    rw [noDigit] at digit
    cases digit
  · obtain rfl := Option.some.inj (opens.symm.trans also)
    exact other leads

theorem not_opensName (oversized : Oversized source) : ¬ OpensName (Cypher.skip source) := by
  rintro ⟨c, opens, kind⟩
  obtain ⟨d, also, -, -, noName⟩ := oversized.head
  obtain rfl := Option.some.inj (opens.symm.trans also)
  exact noName kind

theorem keyword_rejects (oversized : Oversized source) {word : String} (plain : IsPlainWord word)
    (nonempty : 0 < word.utf8ByteSize)
    : (keyword word).Rejects source := by
  refine keyword_rejects_of_head plain nonempty fun c opens => ?_
  obtain ⟨d, also, -, noLetter, -⟩ := oversized.head
  obtain rfl := Option.some.inj (opens.symm.trans also)
  exact noLetter

/-- Nothing is read behind a mark if nothing is read from any such place. -/
theorem mark_bind_rejects {next : Parser α} (oversized : Oversized source)
    (noDigit : c.isDigit = false)
    (later : ∀ place, Oversized place → next.Rejects place)
    : Parser.Rejects (do mark c; next) source := by
  rcases oversized.cases_skip with ⟨number, rest, here, whole, -⟩ | ⟨d, behind, here, -, deeper⟩
  · refine (mark_rejects ?_).bind
    rw [here]
    exact whole.lacks noDigit
  -- Either another mark stands here, or the number stands behind this one with less before it.
  · by_cases same : d = c
    · exact Parser.Rejects.bind_of_ok (mark_read (same ▸ here)) (later _ deeper.skip)
    · refine (mark_rejects ?_).bind
      rw [here]
      exact lacks_cons same

theorem literal_rejects (oversized : Oversized source) : literal.Rejects (Cypher.skip source) := by
  have noWord (word : String) (listed : word ∈ literalWords)
      : (keyword word).Rejects (Cypher.skip source) :=
    oversized.skip.keyword_rejects (literalWords_plain word listed).1
      (literalWords_plain word listed).2
  have noText := text_rejects (oversized.lacks (c := '\'') (by decide) (by decide))
    (oversized.lacks (c := '"') (by decide) (by decide))
  have noNumber
      : realLiteral.Rejects (Cypher.skip source) ∧ integerLiteral.Rejects (Cypher.skip source) := by
    rcases oversized.cases_skip
      with ⟨number, rest, here, whole, large⟩ | ⟨c, behind, here, leads, -⟩
    · rw [here]
      have unread : decimalUpTo Number.largestSigned64 number = none :=
        if_neg (Nat.not_le.mpr large)
      exact ⟨(realLiteral_rejects_iff whole.read).mpr whole,
        (Parser.reading_rejects whole.read unread).bind⟩
    · have noDigit : LacksDigit (Cypher.skip source) := by
        rw [here]
        rintro d ⟨⟩
        exact (leadingMarks_apart c leads).2.1
      exact ⟨real_rejects noDigit, integer_rejects noDigit⟩
  refine Parser.Rejects.bind (Parser.rejects_choice.mpr ?_)
  simpa using ⟨noNumber.1, noNumber.2, noText, (noWord "TRUE" (by decide)).bind,
    (noWord "FALSE" (by decide)).bind, (noWord "NULL" (by decide)).bind⟩

section Levels

variable (inner : ∀ place, Oversized place → expr.Rejects place)

include inner

theorem atom_rejects (oversized : Oversized source) : (atom expr).Rejects (Cypher.skip source) := by
  have noParameter : parameter.Rejects (Cypher.skip source) :=
    (char_rejects (oversized.lacks (by decide) (by decide))).bind
  have noCall : (functionCall expr).Rejects (Cypher.skip source) := by
    refine ((functionName_takes lexical_balanced).rejects fun name rest read =>
      oversized.not_opensName ?_).bind
    obtain ⟨text, middle, consumed, -⟩ := Parser.bind_eq_ok.mp read
    obtain ⟨names, whole, -⟩ := Parser.consumed_eq_ok consumed
    obtain ⟨first, _, opens, -⟩ := Parser.bind_eq_ok.mp whole
    exact symbolicName_opens opens
  have noName : identifier.Rejects (Cypher.skip source) := by
    refine (identifier_takes lexical_balanced.toNamed).rejects fun name rest read =>
      oversized.not_opensName ?_
    obtain ⟨letters, -, named⟩ := identifier_eq_ok read
    exact symbolicName_opens named
  have noBracket (c : Char) (noDigit : c.isDigit = false) (other : c ∉ leadingMarks)
      : (mark c).Rejects (Cypher.skip source) :=
    mark_rejects (oversized.skip.lacks noDigit other)
  have noInner : (parenthesized expr).Rejects (Cypher.skip source) :=
    oversized.skip.mark_bind_rejects (by decide) fun place deeper => (inner place deeper).bind
  refine Parser.rejects_choice.mpr ?_
  simpa using ⟨oversized.literal_rejects, noParameter, noCall,
    (noBracket '[' (by decide) (by decide)).bind,
    (noBracket '\x7b' (by decide) (by decide)).bind.bind, noInner, noName.bind⟩

theorem lookups_rejects (oversized : Oversized source) : (lookups expr).Rejects source :=
  (padded_rejects (oversized.atom_rejects inner)).bind

theorem signedWithin_rejects (n : Nat)
    : ∀ place, Oversized place → (signedWithin expr n).Rejects place := by
  induction n with
  | zero => exact fun place _ => Parser.rejects_reject place
  | succ n ih =>
      intro place oversized
      have minus : Parser.Rejects
          (do mark '-'; let operand ← signedWithin expr n; pure (negate operand)) place :=
        oversized.mark_bind_rejects (by decide) fun later deeper => (ih later deeper).bind
      have plus : Parser.Rejects (do mark '+'; signedWithin expr n) place :=
        oversized.mark_bind_rejects (by decide) ih
      refine Parser.rejects_choice.mpr ?_
      simpa using ⟨minus, plus, oversized.lookups_rejects inner⟩

/-- No level reads a number that does not fit, from the tightest level on. -/
theorem levelWithin_rejects (oversized : Oversized source) {level : Nat}
    (within : level ≤ 9) (n : Nat)
    : (levelWithin expr n level).Rejects source := by
  induction within using Nat.decreasingInduction generalizing n with
  | self => exact oversized.lookups_rejects inner
  | of_succ level within ih =>
      rcases loop_or_single level within with loop | rfl | rfl
      · rw [levelWithin_eq_loop loop]
        exact Parser.Rejects.bind (ih _)
      · cases n with
        | zero => exact Parser.rejects_reject _
        | succ n =>
            refine Parser.rejects_choice.mpr ?_
            simpa using ⟨(oversized.keyword_rejects (by decide) (by decide)).bind, ih n⟩
      · exact signedWithin_rejects inner n source oversized

end Levels

/-- The same for whole expressions, by induction over the depth of their brackets. -/
theorem expressionWithin_rejects (n : Nat)
    : ∀ place, Oversized place → (expressionWithin n).Rejects place := by
  induction n with
  | zero => exact fun place _ => Parser.rejects_reject place
  | succ n ih =>
      exact fun place oversized => @levelWithin_rejects
        (expressionWithin n) place ih oversized 0 (by decide) 0

theorem expression_rejects (oversized : Oversized source) : expression.Rejects source := by
  obtain ⟨trace, rejected⟩ := expressionWithin_rejects (source.length + 1) source oversized
  exact ⟨trace, rejected⟩

end Oversized

end CypherSql.Cypher
