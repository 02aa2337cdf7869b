import CypherSql.Proofs.Printing.Lexemes

/-! The levels of the grammar. Most of them are loops over operands of the next level; a text is
read at a level if its operands are read at the levels that the loop asks for. What follows an
operand must not go on with an operator that binds at least as tight as its place asks for.
-/

namespace CypherSql.Cypher

section Ends

open Text

-----------------------------------------------------------------------------------------
-- The end of an operand
-----------------------------------------------------------------------------------------

/-- The marks that an operand may go on with, each with the level of what it goes on with. -/
def markLevels : List (Char × Nat) :=
  [('(', 9), ('.', 9), ('^', 7), ('*', 6), ('/', 6), ('%', 6), ('+', 5), ('-', 5),
    ('<', 4), ('>', 4), ('=', 4), ('!', 4)]

/-- The same for words. -/
def wordLevels : List (String × Nat) :=
  [("IS", 4), ("STARTS", 4), ("ENDS", 4), ("CONTAINS", 4), ("IN", 4), ("AND", 2),
    ("XOR", 1), ("OR", 0)]

/-- An operand of a level ends: neither a word nor an operator of the level or a tighter one goes
on.
-/
structure Stops (level : Nat) (rest : List Char) : Prop where
  word : WordEnds rest
  marks : ∀ entry ∈ markLevels, level ≤ entry.2 → Lacks entry.1 (skip rest)
  words : ∀ entry ∈ wordLevels, level ≤ entry.2 → (keyword entry.1).Rejects (skip rest)

theorem wordLevels_plain
    : ∀ entry ∈ wordLevels, IsPlainWord entry.1 ∧ 0 < entry.1.utf8ByteSize := by
  decide

theorem markLevels_not_isAlpha : ∀ entry ∈ markLevels, entry.1.isAlpha = false := by
  decide

section Stops

variable {level tighter : Nat} {rest tail : List Char}

theorem Stops.mono (stops : Stops level rest) (more : level ≤ tighter) : Stops tighter rest where
  word := stops.word
  marks := fun entry listed within => stops.marks entry listed (Nat.le_trans more within)
  words := fun entry listed within => stops.words entry listed (Nat.le_trans more within)

/-- An operand ends before a character that opens no operator. -/
theorem stops_of_head (head : Option Char) (opens : (skip rest).head? = head) (word : WordEnds rest)
    (marks : ∀ entry ∈ markLevels, level ≤ entry.2 → head ≠ some entry.1)
    (words
      : ∀ entry ∈ wordLevels,
          level ≤ entry.2 → entry.1.toList.head?.map foldCase ≠ head.map foldCase)
    : Stops level rest where
  word := word
  marks := fun entry listed within => by
    rw [Lacks, opens]
    exact marks entry listed within
  words := fun entry listed within => by
    refine keyword_rejects_head (wordLevels_plain entry listed).2 ?_
    rw [skip_skip, opens]
    exact words entry listed within

theorem stops_nil : Stops 0 [] :=
  stops_of_head none rfl wordEnds_nil (by decide) (by decide)

/-- An operand ends before a closing bracket or a comma. -/
theorem stops_mark {c : Char} (closes : c ∈ [')', ']', '\x7d', ',']) : Stops 0 (c :: tail) := by
  simp only [List.mem_cons, List.not_mem_nil, or_false] at closes
  rcases closes with rfl | rfl | rfl | rfl
  · exact stops_of_head (some ')') rfl (wordEnds_cons rfl) (by decide) (by decide)
  · exact stops_of_head (some ']') rfl (wordEnds_cons rfl) (by decide) (by decide)
  · exact stops_of_head (some '\x7d') rfl (wordEnds_cons rfl) (by decide) (by decide)
  · exact stops_of_head (some ',') rfl (wordEnds_cons rfl) (by decide) (by decide)

/-- An operand ends before a word that is no operator. -/
theorem stops_word {word : String} (isWord : IsWord word) (ends : WordEnds tail)
    (words
      : ∀ entry ∈ wordLevels,
          level ≤ entry.2 → word.toList.map foldCase ≠ entry.1.toList.map foldCase)
    : Stops level (' ' :: (word.toList ++ tail)) := by
  obtain ⟨c, others, opens⟩ := List.exists_cons_of_ne_nil isWord.nonempty
  have alpha : c.isAlpha := isWord.letters c (by simp [opens])
  have here : skip (' ' :: (word.toList ++ tail)) = word.toList ++ tail := by
    rw [skip_space, isWord.solid.skip_append]
  refine {
    word := wordEnds_cons (by decide)
    marks := ?_
    words := ?_
  }
  · intro entry listed _
    rw [here, opens]
    refine lacks_cons ?_
    rintro rfl
    rw [markLevels_not_isAlpha entry listed] at alpha
    cases alpha
  · intro entry listed within
    refine keyword_rejects_word (wordLevels_plain entry listed).1 (by rw [skip_skip, here]) ?_ ends
      (words entry listed within)
    exact fun c member => isWordChar_of_isAlpha (isWord.letters c member)

/-- A left operand ends before its operator. -/
theorem stops_sign (op : BinaryOp) (tail : List Char)
    : Stops (op.level + 1) (' ' :: (op.sign.toList ++ ' ' :: tail)) := by
  cases op with
  | and => exact stops_word (by decide) (wordEnds_cons (by decide)) (by decide)
  | or => exact stops_word (by decide) (wordEnds_cons (by decide)) (by decide)
  | xor => exact stops_word (by decide) (wordEnds_cons (by decide)) (by decide)
  | isIn => exact stops_word (by decide) (wordEnds_cons (by decide)) (by decide)
  | contains => exact stops_word (by decide) (wordEnds_cons (by decide)) (by decide)
  | startsWith =>
      have split : BinaryOp.startsWith.sign.toList = "STARTS".toList ++ ' ' :: "WITH".toList := rfl
      rw [split, List.append_assoc]
      exact stops_word (by decide) (wordEnds_cons (by decide)) (by decide)
  | endsWith =>
      have split : BinaryOp.endsWith.sign.toList = "ENDS".toList ++ ' ' :: "WITH".toList := rfl
      rw [split, List.append_assoc]
      exact stops_word (by decide) (wordEnds_cons (by decide)) (by decide)
  | addition =>
      exact stops_of_head (some '+') rfl (wordEnds_cons (by decide)) (by decide) (by decide)
  | subtraction =>
      exact stops_of_head (some '-') rfl (wordEnds_cons (by decide)) (by decide) (by decide)
  | multiplication =>
      exact stops_of_head (some '*') rfl (wordEnds_cons (by decide)) (by decide) (by decide)
  | division =>
      exact stops_of_head (some '/') rfl (wordEnds_cons (by decide)) (by decide) (by decide)
  | modulo => exact stops_of_head (some '%') rfl (wordEnds_cons (by decide)) (by decide) (by decide)
  | power => exact stops_of_head (some '^') rfl (wordEnds_cons (by decide)) (by decide) (by decide)
  | equal => exact stops_of_head (some '=') rfl (wordEnds_cons (by decide)) (by decide) (by decide)
  | notEqual =>
      exact stops_of_head (some '<') rfl (wordEnds_cons (by decide)) (by decide) (by decide)
  | less => exact stops_of_head (some '<') rfl (wordEnds_cons (by decide)) (by decide) (by decide)
  | greater =>
      exact stops_of_head (some '>') rfl (wordEnds_cons (by decide)) (by decide) (by decide)
  | lessEqual =>
      exact stops_of_head (some '<') rfl (wordEnds_cons (by decide)) (by decide) (by decide)
  | greaterEqual =>
      exact stops_of_head (some '>') rfl (wordEnds_cons (by decide)) (by decide) (by decide)
  | regexMatch =>
      exact stops_of_head (some '=') rfl (wordEnds_cons (by decide)) (by decide) (by decide)

/-- An operand ends before a test against null. -/
theorem stops_nullTest (tail : List Char) : Stops 5 (' ' :: ("IS".toList ++ ' ' :: tail)) :=
  stops_word (by decide) (wordEnds_cons (by decide)) (by decide)

end Stops

end Ends

-----------------------------------------------------------------------------------------
-- The parser of a level
-----------------------------------------------------------------------------------------

/-- The parser of a level, with at most a number of negations or signs at the levels of these. -/
def levelWithin (expr : Parser Expr) (n : Nat) : Nat → Parser Expr
  | 0 => disjunctions expr
  | 1 => exclusions expr
  | 2 => conjunctions expr
  | 3 => negationsWithin expr n
  | 4 => comparisons expr
  | 5 => sums expr
  | 6 => products expr
  | 7 => powers expr
  | 8 => signedWithin expr n
  | _ => lookups expr

/-- The levels whose operators stand between operands. -/
def loopLevels : List Nat :=
  [0, 1, 2, 4, 5, 6, 7]

/-- The operands of a level: expressions of the next one. -/
def operandAt (expr : Parser Expr) (level : Nat) : Parser Expr :=
  fun s => levelWithin expr (s.length + 1) (level + 1) s

/-- The operators of a level. -/
def operatorAt : Nat → Parser BinaryOp
  | 0 => keywordAs "OR" .or
  | 1 => keywordAs "XOR" .xor
  | 2 => keywordAs "AND" .and
  | 4 => Parser.choice [comparisonSign, comparisonWords]
  | 5 => padded (Parser.choice [markAs '+' .addition, markAs '-' .subtraction])
  | 6 =>
      padded (Parser.choice
        [markAs '*' .multiplication, markAs '/' .division, markAs '%' .modulo])
  | 7 => padded (markAs '^' .power)
  | _ => Parser.reject

/-- The operators of a level that stand after their operand. -/
def testAt : Nat → Parser UnaryOp
  | 4 => nullTest
  | _ => Parser.reject

/-- What a left operand becomes with the next operator between operands. -/
def operatorStep (expr : Parser Expr) (level : Nat) (left : Expr) : Parser (Option Expr) := do
  match ← (operatorAt level).optional with
  | none => pure none
  | some op =>
      let right ← operandAt expr level
      pure (some (.binary op left right))

/-- One round of a level: what a left operand becomes with the next operator. -/
def stepAt (expr : Parser Expr) (level : Nat) (left : Expr) : Parser (Option Expr) := do
  match ← (testAt level).optional with
  | some test => pure (some (.unary test left))
  | none => operatorStep expr level left

section Loops

variable {expr : Parser Expr} {level : Nat} {source rest : List Char}

theorem stepAt_of_untested (untested : (testAt level).Rejects source) (left : Expr)
    : stepAt expr level left source = operatorStep expr level left source :=
  Parser.bind_of_ok (Parser.optional_of_rejects untested)

/-- A level with operators between its operands is a loop. -/
theorem levelWithin_eq_loop (loop : level ∈ loopLevels) (n : Nat)
    : levelWithin expr n level = operandAt expr level >>= Parser.iterate (stepAt expr level) := by
  have chain (untested : ∀ source, (testAt level).Rejects source)
      : leftChain (operatorAt level) (operandAt expr level)
        = operandAt expr level >>= Parser.iterate (stepAt expr level) := by
    have same : stepAt expr level = operatorStep expr level :=
      funext fun left => funext fun source => stepAt_of_untested (untested source) left
    rw [same]
    rfl
  simp only [loopLevels, List.mem_cons, List.not_mem_nil, or_false] at loop
  rcases loop with rfl | rfl | rfl | rfl | rfl | rfl | rfl
  · exact chain Parser.rejects_reject
  · exact chain Parser.rejects_reject
  · exact chain Parser.rejects_reject
  · rfl
  · exact chain Parser.rejects_reject
  · exact chain Parser.rejects_reject
  · exact chain Parser.rejects_reject

-----------------------------------------------------------------------------------------
-- Operators between operands
-----------------------------------------------------------------------------------------

theorem level_mem_loopLevels (op : BinaryOp) : op.level ∈ loopLevels := by
  cases op <;> decide

theorem literally_rejects {text : String} {c : Char} (opens : text.toList.head? = some c)
    (lacks : Lacks c source)
    : (literally text).Rejects source := by
  refine ⟨.here source .unexpected, ?_⟩
  rw [literally, if_neg]
  intro agrees
  obtain ⟨later, whole⟩ := List.isPrefixOf_iff_prefix.mp agrees
  refine lacks ?_
  rw [← whole, List.head?_append, opens, Option.some_or]

/-- An operator is read at its own level. -/
theorem operatorAt_read (op : BinaryOp) (tail : List Char)
    : operatorAt op.level (op.sign.toList ++ ' ' :: tail) = .ok op (skip tail) := by
  cases op <;> rfl

/-- An operator between operands is no test against null. -/
theorem testAt_rejects_sign (op : BinaryOp) (tail : List Char)
    : (testAt op.level).Rejects (op.sign.toList ++ ' ' :: tail) := by
  cases op <;> exact ⟨_, rfl⟩

/-- A test against null as it is written. -/
def nullSign (negated : Bool) : String :=
  if negated then "IS NOT NULL" else "IS NULL"

theorem nullTest_read (negated : Bool) (ends : WordEnds rest)
    : nullTest ((nullSign negated).toList ++ rest)
      = .ok (if negated then .isNotNull else .isNull) (skip rest) := by
  have last : keyword "NULL" ("NULL".toList ++ rest) = .ok () (skip rest) :=
    keyword_read (by decide) (by rfl) ends
  cases negated with
  | false =>
      refine Parser.choice_eq_ok.mpr (.there ⟨_, rfl⟩ (.here ?_))
      exact (Parser.bind_of_ok rfl).trans (Parser.bind_of_ok last)
  | true =>
      refine Parser.choice_eq_ok.mpr (.here ?_)
      exact (Parser.bind_of_ok rfl).trans ((Parser.bind_of_ok rfl).trans (Parser.bind_of_ok last))

theorem Stops.testAt (stops : Stops level rest) : (testAt level).Rejects (skip rest) := by
  unfold Cypher.testAt
  split
  · have noTest : (keyword "IS").Rejects (skip rest) :=
      stops.words ("IS", 4) (by decide) (by decide)
    refine Parser.rejects_choice.mpr ?_
    simpa using ⟨noTest.bind, noTest.bind⟩
  · exact Parser.rejects_reject _

theorem Stops.keywordAs {α : Type} {word : String} (stops : Stops level rest)
    (entry : (word, level) ∈ wordLevels) (a : α)
    : (keywordAs word a).Rejects (skip rest) :=
  (stops.words _ entry le_rfl).bind

theorem Stops.markAs {c : Char} (stops : Stops level rest) (entry : (c, level) ∈ markLevels)
    (op : BinaryOp)
    : (markAs c op).Rejects (skip (skip rest)) := by
  rw [skip_skip]
  exact (char_rejects (stops.marks _ entry le_rfl)).bind

theorem Stops.signAs {text : String} (stops : Stops level rest) (c : Char) (op : BinaryOp)
    (opens : text.toList.head? = some c) (entry : (c, level) ∈ markLevels)
    : (signAs text op).Rejects (skip (skip rest)) := by
  rw [skip_skip]
  exact (literally_rejects opens (stops.marks _ entry le_rfl)).bind

theorem Stops.comparisonSign (stops : Stops 4 rest) : comparisonSign.Rejects (skip rest) := by
  refine padded_rejects (Parser.rejects_choice.mpr ?_)
  simp only [List.forall_mem_cons, List.not_mem_nil, false_imp_iff, implies_true, and_true]
  exact ⟨stops.signAs '>' _ rfl (by decide), stops.signAs '<' _ rfl (by decide),
    stops.signAs '<' _ rfl (by decide), stops.signAs '!' _ rfl (by decide),
    stops.signAs '=' _ rfl (by decide), stops.signAs '>' _ rfl (by decide),
    stops.signAs '<' _ rfl (by decide), stops.signAs '=' _ rfl (by decide)⟩

theorem Stops.comparisonWords (stops : Stops 4 rest) : comparisonWords.Rejects (skip rest) := by
  refine Parser.rejects_choice.mpr ?_
  simp only [List.forall_mem_cons, List.not_mem_nil, false_imp_iff, implies_true, and_true]
  have starts : (keyword "STARTS").Rejects (skip rest) :=
    stops.words ("STARTS", 4) (by decide) le_rfl
  have ends : (keyword "ENDS").Rejects (skip rest) := stops.words ("ENDS", 4) (by decide) le_rfl
  exact ⟨starts.bind, ends.bind, stops.keywordAs (by decide) _, stops.keywordAs (by decide) _⟩

/-- No operator of its level follows an operand that ends. -/
theorem Stops.operatorAt (stops : Stops level rest) : (operatorAt level).Rejects (skip rest) := by
  unfold Cypher.operatorAt
  split
  · exact stops.keywordAs (by decide) _
  · exact stops.keywordAs (by decide) _
  · exact stops.keywordAs (by decide) _
  · refine Parser.rejects_choice.mpr ?_
    simpa using ⟨stops.comparisonSign, stops.comparisonWords⟩
  · refine padded_rejects (Parser.rejects_choice.mpr ?_)
    simp only [List.forall_mem_cons, List.not_mem_nil, false_imp_iff, implies_true, and_true]
    exact ⟨stops.markAs (by decide) _, stops.markAs (by decide) _⟩
  · refine padded_rejects (Parser.rejects_choice.mpr ?_)
    simp only [List.forall_mem_cons, List.not_mem_nil, false_imp_iff, implies_true, and_true]
    exact ⟨stops.markAs (by decide) _, stops.markAs (by decide) _, stops.markAs (by decide) _⟩
  · exact padded_rejects (stops.markAs (by decide) _)
  · exact Parser.rejects_reject _

/-- The loop of a level ends where its operand does. -/
theorem Stops.stepAt (stops : Stops level rest) (left : Expr)
    : stepAt expr level left (skip rest) = .ok none (skip rest) := by
  rw [stepAt_of_untested stops.testAt]
  exact Parser.bind_of_ok (Parser.optional_of_rejects stops.operatorAt)

end Loops

-----------------------------------------------------------------------------------------
-- Texts of a level
-----------------------------------------------------------------------------------------

/-- A text is read at a level, wherever an operand of the level ends after it. -/
def Reads (expr : Parser Expr) (level : Nat) (text : List Char) (e : Expr) : Prop :=
  ∀ rest,
    Stops level rest → ∀ n, text.length < n
      → levelWithin expr n level (text ++ rest) = .ok e (skip rest)

/-- A text is read by the loop of a level, round after round, up to where an operand of the next
level ends.
-/
def Loops (expr : Parser Expr) (level : Nat) (text : List Char) (e : Expr) : Prop :=
  ∀ rest,
    Stops (level + 1) rest
    → ∃ first middle,
        operandAt expr level (text ++ rest) = .ok first middle
        ∧ Parser.Steps (stepAt expr level) first middle e (skip rest)

section Texts

variable {expr : Parser Expr} {level : Nat} {text leftText rightText : List Char}
  {e left right : Expr}

theorem Reads.operandAt (reads : Reads expr (level + 1) text e) {rest : List Char}
    (stops : Stops (level + 1) rest)
    : operandAt expr level (text ++ rest) = .ok e (skip rest) :=
  reads rest stops _ (by simp only [List.length_append]; omega)

/-- A single operand takes no rounds. -/
theorem Reads.loops (reads : Reads expr (level + 1) text e) : Loops expr level text e :=
  fun rest stops => ⟨e, skip rest, reads.operandAt stops, .done⟩

/-- An operator and its right operand are one more round. -/
theorem Loops.binary {op : BinaryOp} (loops : Loops expr op.level leftText left)
    (reads : Reads expr (op.level + 1) rightText right) (solid : Solid rightText)
    : Loops expr op.level (leftText ++ ' ' :: op.sign.toList ++ ' ' :: rightText)
        (.binary op left right) := by
  intro rest stops
  obtain ⟨first, middle, operand, steps⟩ := loops _ (stops_sign op (rightText ++ rest))
  have here : skip (' ' :: (op.sign.toList ++ ' ' :: (rightText ++ rest)))
      = op.sign.toList ++ ' ' :: (rightText ++ rest) := by
    cases op <;> rfl
  rw [here] at steps
  refine ⟨first, middle, by simpa using operand, steps.snoc ?_ ?_⟩
  · rw [stepAt_of_untested (testAt_rejects_sign op _), operatorStep,
      Parser.bind_of_ok (Parser.optional_of_ok (operatorAt_read op _)), solid.skip_append]
    exact Parser.bind_of_ok (reads.operandAt stops)
  · have shrinks := length_skip_le rest
    simp only [List.length_append, List.length_cons]
    omega

/-- A test against null is one more round. -/
theorem Loops.nullTest (loops : Loops expr 4 text e) (negated : Bool)
    : Loops expr 4 (text ++ ' ' :: (nullSign negated).toList)
        (.unary (if negated then .isNotNull else .isNull) e) := by
  intro rest stops
  have follow : Stops 5 (' ' :: ((nullSign negated).toList ++ rest)) := by
    cases negated with
    | false => exact stops_nullTest ("NULL".toList ++ rest)
    | true => exact stops_nullTest ("NOT NULL".toList ++ rest)
  obtain ⟨first, middle, operand, steps⟩ := loops _ follow
  have here
      : skip (' ' :: ((nullSign negated).toList ++ rest)) = (nullSign negated).toList ++ rest := by
    cases negated <;> rfl
  rw [here] at steps
  refine ⟨first, middle, by simpa using operand, steps.snoc ?_ ?_⟩
  · exact Parser.bind_of_ok (Parser.optional_of_ok (nullTest_read negated stops.word))
  · have shrinks := length_skip_le rest
    cases negated <;> simp [nullSign] <;> omega

theorem Loops.reads (loop : level ∈ loopLevels) (loops : Loops expr level text e)
    : Reads expr level text e := by
  intro rest stops n _
  obtain ⟨first, middle, operand, steps⟩ := loops rest (stops.mono (Nat.le_succ level))
  rw [levelWithin_eq_loop loop, Parser.bind_of_ok operand]
  exact steps.iterate (stops.stepAt e)

end Texts

-----------------------------------------------------------------------------------------
-- Lookups
-----------------------------------------------------------------------------------------

/-- What may follow an expression without operators: keys to look up in it, and then its end. -/
inductive Follows : List Char → Prop where
  | stop {rest} (stops : Stops 9 rest) : Follows rest
  | key {name tail} (noQuote : '`' ∉ name.toList) (later : Follows tail)
    : Follows ('.' :: (printName name ++ tail))

theorem Follows.word {rest : List Char} (follows : Follows rest) : WordEnds rest := by
  cases follows with
  | stop stops => exact stops.word
  | key => exact wordEnds_cons (by decide)

theorem Lacks.of_skip {c : Char} {rest : List Char} (lacks : Lacks c (skip rest))
    (noSpace : isSpace c = false)
    : Lacks c rest := by
  cases rest with
  | nil => exact lacks_nil
  | cons d tail =>
      refine lacks_cons ?_
      rintro rfl
      rw [skip_cons noSpace] at lacks
      exact lacks rfl

theorem Stops.lacks_point {rest : List Char} (stops : Stops 9 rest) : Lacks '.' (skip rest) :=
  stops.marks ('.', 9) (by decide) le_rfl

/-- One more key looked up. -/
def lookupStep (base : Expr) : Parser (Option Expr) := do
  let key ← Parser.optional do
    char '.'
    symbol
  pure (key.map (Expr.property base))

/-- A text is read as an expression without operators. -/
def ReadsAtom (expr : Parser Expr) (text : List Char) (e : Expr) : Prop :=
  ∀ rest, Follows rest → padded (atom expr) (text ++ rest) = .ok e (skip rest)

/-- A text is read as an expression without operators and keys looked up in it. -/
def Looks (expr : Parser Expr) (text : List Char) (e : Expr) : Prop :=
  ∀ rest,
    Follows rest
    → ∃ base middle last,
        padded (atom expr) (text ++ rest) = .ok base middle
        ∧ Parser.Steps lookupStep base middle e last
        ∧ (last = rest ∨ last = skip rest)

section Lookups

variable {expr : Parser Expr} {text : List Char} {e : Expr}

theorem ReadsAtom.looks (reads : ReadsAtom expr text e) : Looks expr text e :=
  fun rest follows => ⟨e, skip rest, skip rest, reads rest follows, .done, .inr rfl⟩

theorem Looks.property {key : String} (looks : Looks expr text e) (noQuote : '`' ∉ key.toList)
    : Looks expr (text ++ '.' :: printName key) (.property e key) := by
  intro rest follows
  obtain ⟨base, middle, last, reads, steps, place⟩ := looks _ (.key noQuote follows)
  obtain rfl : last = '.' :: (printName key ++ rest) := by
    rw [skip_cons (by decide), or_self] at place
    exact place
  refine ⟨base, middle, rest, by simpa using reads, steps.snoc ?_ ?_, .inl rfl⟩
  · refine Parser.bind_of_ok (Parser.optional_of_ok ?_)
    rw [Parser.bind_of_ok (char_read _ _), symbol_read noQuote]
  · simp only [List.length_cons, List.length_append]
    omega

theorem Looks.reads (looks : Looks expr text e) : Reads expr 9 text e := by
  intro rest stops n _
  obtain ⟨base, middle, last, reads, steps, place⟩ := looks rest (.stop stops)
  have noKey : Lacks '.' last := by
    rcases place with rfl | rfl
    · exact stops.lacks_point.of_skip (by decide)
    · exact stops.lacks_point
  have same : skip last = skip rest := by
    rcases place with rfl | rfl
    · rfl
    · exact skip_skip rest
  have ends : lookupStep e last = .ok none last :=
    Parser.bind_of_ok (Parser.optional_of_rejects (char_rejects noKey).bind)
  rw [← same]
  exact (Parser.bind_of_ok reads).trans ((Parser.bind_of_ok (steps.iterate ends)).trans
    (Parser.bind_of_ok rfl))

end Lookups

-----------------------------------------------------------------------------------------
-- Signs and negations
-----------------------------------------------------------------------------------------

/-- What a text of a level does not open with. The word `NOT` may open it as part of a function
name.
-/
structure Leads (level : Nat) (text : List Char) : Prop where
  solid : Solid text
  star : Lacks '*' text
  signs : 9 ≤ level → Lacks '-' text ∧ Lacks '+' text
  distinct
    : opensDistinct text = false → ∀ rest,
      WordEnds rest → (keyword "DISTINCT").Rejects (text ++ rest)
  negation
    : 4 ≤ level
      → ∀ rest,
          WordEnds rest
          → (keyword "NOT").Rejects (text ++ rest)
            ∨ ∃ tail, keyword "NOT" (text ++ rest) = .ok () ('.' :: tail)

/-- A text is read at a level. It may be the left operand of one more operator of the level, or have
one more key looked up in it.
-/
structure Forms (expr : Parser Expr) (level : Nat) (text : List Char) (e : Expr) : Prop where
  reads : Reads expr level text e
  loops : level ∈ loopLevels → Loops expr level text e
  looks : level = 9 → Looks expr text e

section Forms

variable {expr : Parser Expr} {level looser : Nat} {text : List Char} {e : Expr}

theorem Looks.forms (looks : Looks expr text e) : Forms expr 9 text e where
  reads := looks.reads
  loops := fun loop => absurd loop (by decide)
  looks := fun _ => looks

theorem Loops.forms (loops : Loops expr level text e) (loop : level ∈ loopLevels)
    : Forms expr level text e where
  reads := loops.reads loop
  loops := fun _ => loops
  looks := by
    rintro rfl
    exact absurd loop (by decide)

theorem Reads.forms (reads : Reads expr level text e) (single : level = 3 ∨ level = 8)
    : Forms expr level text e where
  reads := reads
  loops := by
    intro loop
    rcases single with rfl | rfl <;> exact absurd loop (by decide)
  looks := by
    intro tightest
    omega

theorem Leads.mono (leads : Leads level text) (less : looser ≤ level) : Leads looser text where
  solid := leads.solid
  star := leads.star
  signs := fun most => leads.signs (Nat.le_trans most less)
  distinct := leads.distinct
  negation := fun most => leads.negation (Nat.le_trans most less)

theorem loop_or_single (level : Nat) (within : level < 9)
    : level ∈ loopLevels ∨ level = 3 ∨ level = 8 := by
  revert level
  decide

/-- No level reads a closing bracket, a point, a colon or a star, from the tightest level on. -/
theorem levelWithin_rejects {c : Char} (closes : c ∈ ['.', ')', ']', ':', '*']) (tail : List Char)
    (within : level ≤ 9) (n : Nat)
    : (levelWithin expr n level).Rejects (c :: tail) := by
  have marks : ∀ other ∈ ['-', '+'], (mark other).Rejects (c :: tail) := by
    simp only [List.forall_mem_cons, List.not_mem_nil, false_imp_iff, implies_true, and_true]
    simp only [List.mem_cons, List.not_mem_nil, or_false] at closes
    rcases closes with rfl | rfl | rfl | rfl | rfl <;> exact ⟨⟨_, rfl⟩, ⟨_, rfl⟩⟩
  have noWord : (keyword "NOT").Rejects (c :: tail) := by
    simp only [List.mem_cons, List.not_mem_nil, or_false] at closes
    rcases closes with rfl | rfl | rfl | rfl | rfl <;> exact ⟨_, rfl⟩
  have noAtom : (atom expr).Rejects (skip (c :: tail)) := by
    simp only [List.mem_cons, List.not_mem_nil, or_false] at closes
    rcases closes with rfl | rfl | rfl | rfl | rfl <;> exact ⟨_, rfl⟩
  induction within using Nat.decreasingInduction generalizing n with
  | self => exact (padded_rejects noAtom).bind
  | of_succ level within ih =>
      rcases loop_or_single level within with loop | rfl | rfl
      · rw [levelWithin_eq_loop loop]
        exact Parser.Rejects.bind (ih _)
      · cases n with
        | zero => exact Parser.rejects_reject _
        | succ n =>
            refine Parser.rejects_choice.mpr ?_
            simpa using ⟨noWord.bind, ih n⟩
      · cases n with
        | zero => exact Parser.rejects_reject _
        | succ n =>
            refine Parser.rejects_choice.mpr ?_
            simpa using ⟨(marks '-' (by simp)).bind, (marks '+' (by simp)).bind, ih n⟩

/-- What is read at the level of comparisons is read where negations may stand. -/
theorem Reads.negations (reads : Reads expr 4 text e) (leads : Leads 4 text)
    : Reads expr 3 text e := by
  intro rest stops n enough
  obtain ⟨m, rfl⟩ : ∃ m, n = m + 1 := ⟨n - 1, by omega⟩
  refine Parser.choice_eq_ok.mpr (.there ?_ (.here ?_))
  · rcases leads.negation le_rfl rest stops.word with rejects | ⟨tail, read⟩
    · exact rejects.bind
    · have operand : (levelWithin expr m 3).Rejects ('.' :: tail) :=
        levelWithin_rejects (by simp) tail (by decide) m
      exact Parser.Rejects.bind_of_ok read (Parser.Rejects.bind operand)
  · exact reads rest (stops.mono (by decide)) (m + 1) enough

/-- What is read at the level of lookups is read where signs may stand. -/
theorem Reads.signed (reads : Reads expr 9 text e) (leads : Leads 9 text)
    : Reads expr 8 text e := by
  intro rest stops n enough
  obtain ⟨m, rfl⟩ : ∃ m, n = m + 1 := ⟨n - 1, by omega⟩
  have lacks {c : Char} (lacks : Lacks c text) : Lacks c (skip (text ++ rest)) := by
    rw [leads.solid.skip_append]
    obtain ⟨d, others, rfl, -⟩ := leads.solid
    exact lacks
  obtain ⟨noMinus, noPlus⟩ := leads.signs le_rfl
  refine Parser.choice_eq_ok.mpr (.there ?_ (.there ?_ (.here ?_)))
  · exact (mark_rejects (lacks noMinus)).bind
  · exact (mark_rejects (lacks noPlus)).bind
  · exact reads rest (stops.mono (by decide)) (m + 1) enough

/-- What is read at a level is read at all looser ones. -/
theorem Forms.lower (forms : Forms expr level text e) (leads : Leads level text)
    (within : level ≤ 9)
    (less : looser ≤ level)
    : Forms expr looser text e := by
  induction less using Nat.decreasingInduction with
  | self => exact forms
  | of_succ looser less ih =>
      rcases loop_or_single looser (by omega) with loop | rfl | rfl
      · exact ih.reads.loops.forms loop
      · exact (ih.reads.negations (leads.mono less)).forms (.inl rfl)
      · exact (ih.reads.signed (leads.mono less)).forms (.inr rfl)

/-- A negation is read where its operand is. -/
theorem Reads.not (reads : Reads expr 3 text e) (solid : Solid text)
    : Reads expr 3 ("NOT".toList ++ ' ' :: text) (.unary .not e) := by
  intro rest stops n enough
  obtain ⟨m, rfl⟩ : ∃ m, n = m + 1 := ⟨n - 1, by omega⟩
  have here
      : skip ("NOT".toList ++ ' ' :: text ++ rest) = "NOT".toList ++ ' ' :: (text ++ rest) := by
    rw [List.append_assoc]
    rfl
  have word := keyword_read (by decide) here (wordEnds_cons (by decide))
  rw [skip_space, solid.skip_append] at word
  refine Parser.choice_eq_ok.mpr (.here ((Parser.bind_of_ok word).trans (Parser.bind_of_ok ?_)))
  exact reads rest stops m (by simp at enough; omega)

/-- A minus sign is read where its operand is. -/
theorem Reads.negate (reads : Reads expr 8 text e) (solid : Solid text)
    : Reads expr 8 ('-' :: text) (negate e) := by
  intro rest stops n enough
  obtain ⟨m, rfl⟩ : ∃ m, n = m + 1 := ⟨n - 1, by omega⟩
  have sign : mark '-' ('-' :: (text ++ rest)) = .ok () (text ++ rest) := by
    rw [mark_read (skip_cons (by decide)), solid.skip_append]
  refine Parser.choice_eq_ok.mpr (.here ((Parser.bind_of_ok sign).trans (Parser.bind_of_ok ?_)))
  exact reads rest stops m (by simp at enough; omega)

end Forms

end CypherSql.Cypher
