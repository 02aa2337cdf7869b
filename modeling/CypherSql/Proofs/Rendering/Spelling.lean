import CypherSql.Proofs.Rendering.Grammar

/-! Expressions of SQL are spelled with the lexemes that their structure asks for, whatever stands
behind them.
-/

namespace CypherSql.Sql

namespace Expr

mutual

/-- A condition holds of every part of an expression, definitions that are put in place included. -/
def Everywhere (holds : Expr → Prop) : Expr → Prop
  | .literal value => holds (.literal value)
  | .star => holds .star
  | .parameter name => holds (.parameter name)
  | .column source name => holds (.column source name)
  | .label name => holds (.label name)
  | .inlined definition => holds (.inlined definition) ∧ definition.Everywhere holds
  | .not operand => holds (.not operand) ∧ operand.Everywhere holds
  | .negate operand => holds (.negate operand) ∧ operand.Everywhere holds
  | .isNull operand => holds (.isNull operand) ∧ operand.Everywhere holds
  | .isNotNull operand => holds (.isNotNull operand) ∧ operand.Everywhere holds
  | .binary op left right =>
      holds (.binary op left right) ∧ left.Everywhere holds ∧ right.Everywhere holds
  | .power base exponent =>
      holds (.power base exponent) ∧ base.Everywhere holds ∧ exponent.Everywhere holds
  | .inList operand items =>
      holds (.inList operand items) ∧ operand.Everywhere holds ∧ EverywhereAll holds items
  | .inArray operand values =>
      holds (.inArray operand values) ∧ operand.Everywhere holds ∧ values.Everywhere holds
  | .like place operand sought =>
      holds (.like place operand sought) ∧ operand.Everywhere holds ∧ sought.Everywhere holds
  | .array items => holds (.array items) ∧ EverywhereAll holds items
  | .aggregate function distinct args =>
      holds (.aggregate function distinct args) ∧ EverywhereAll holds args
  | .call function args => holds (.call function args) ∧ EverywhereAll holds args

/-- A condition holds of every part of several expressions. -/
def EverywhereAll (holds : Expr → Prop) : List Expr → Prop
  | [] => True
  | e :: es => e.Everywhere holds ∧ EverywhereAll holds es

end

section

variable {holds also other : Expr → Prop}

/-- What holds of every part holds of the whole. -/
theorem Everywhere.here {expr : Expr} (everywhere : expr.Everywhere holds) : holds expr := by
  cases expr
  case literal | star | parameter | column | label => exact everywhere
  all_goals exact everywhere.1

mutual

/-- A condition that follows for each part from two others of all its parts. -/
theorem everywhere_of_both
    (follows : ∀ expr, expr.Everywhere holds → expr.Everywhere also → other expr)
    : ∀ expr : Expr, expr.Everywhere holds → expr.Everywhere also → expr.Everywhere other
  | .literal _, all, both | .star, all, both | .parameter _, all, both | .column _ _, all, both
  | .label _, all, both =>
      follows _ all both
  | .inlined definition, all, both =>
      ⟨follows _ all both, everywhere_of_both follows definition all.2 both.2⟩
  | .not operand, all, both =>
      ⟨follows _ all both, everywhere_of_both follows operand all.2 both.2⟩
  | .negate operand, all, both =>
      ⟨follows _ all both, everywhere_of_both follows operand all.2 both.2⟩
  | .isNull operand, all, both =>
      ⟨follows _ all both, everywhere_of_both follows operand all.2 both.2⟩
  | .isNotNull operand, all, both =>
      ⟨follows _ all both, everywhere_of_both follows operand all.2 both.2⟩
  | .binary _ left right, all, both =>
      ⟨follows _ all both, everywhere_of_both follows left all.2.1 both.2.1,
        everywhere_of_both follows right all.2.2 both.2.2⟩
  | .power base exponent, all, both =>
      ⟨follows _ all both, everywhere_of_both follows base all.2.1 both.2.1,
        everywhere_of_both follows exponent all.2.2 both.2.2⟩
  | .inList operand items, all, both =>
      ⟨follows _ all both, everywhere_of_both follows operand all.2.1 both.2.1,
        everywhereAll_of_both follows items all.2.2 both.2.2⟩
  | .inArray operand values, all, both =>
      ⟨follows _ all both, everywhere_of_both follows operand all.2.1 both.2.1,
        everywhere_of_both follows values all.2.2 both.2.2⟩
  | .like _ operand sought, all, both =>
      ⟨follows _ all both, everywhere_of_both follows operand all.2.1 both.2.1,
        everywhere_of_both follows sought all.2.2 both.2.2⟩
  | .array items, all, both =>
      ⟨follows _ all both, everywhereAll_of_both follows items all.2 both.2⟩
  | .aggregate _ _ args, all, both =>
      ⟨follows _ all both, everywhereAll_of_both follows args all.2 both.2⟩
  | .call _ args, all, both =>
      ⟨follows _ all both, everywhereAll_of_both follows args all.2 both.2⟩

/-- The same for several expressions. -/
theorem everywhereAll_of_both
    (follows : ∀ expr, expr.Everywhere holds → expr.Everywhere also → other expr)
    : ∀ exprs : List Expr, EverywhereAll holds exprs → EverywhereAll also exprs
      → EverywhereAll other exprs
  | [], _, _ => trivial
  | e :: es, all, both =>
      ⟨everywhere_of_both follows e all.1 both.1, everywhereAll_of_both follows es all.2 both.2⟩

end

end

end Expr

/-- The name is a word, as the names of parameters are. -/
def IsParameterName (name : String) : Prop :=
  name.toList ≠ [] ∧ ∀ c ∈ name.toList, Text.isWordChar c

/-- The expression may be part of one of a scope: a parameter has a name, a function is known, and
no column of the select list is referred to.
-/
def Expr.IsOfScope : Expr → Prop
  | .parameter name => IsParameterName name
  | .label _ => False
  | .call function _ => ∃ name, (name, function) ∈ scalarFunctions
  | _ => True

/-- The expression is one of a scope. -/
def Expr.OfScope (expr : Expr) : Prop :=
  expr.Everywhere IsOfScope

/-- The lexemes in parentheses where asked. -/
def enclosedLexemes (parens : Bool) (lexemes : List Lexeme) : List Lexeme :=
  if parens then .mark "(" :: (lexemes ++ [.mark ")"]) else lexemes

/-- The words of a name with blanks between them. -/
def nameWords (name : String) : List String :=
  (name.toList.splitOn ' ').map String.ofList

/-- The lexemes of the pattern that looks for a text at a place. -/
def LikePlace.lexemes (sought : List Lexeme) : LikePlace → List Lexeme
  | .start => sought ++ [.mark "||", .text "%"]
  | .finish => .text "%" :: .mark "||" :: sought
  | .anywhere => .text "%" :: .mark "||" :: (sought ++ [.mark "||", .text "%"])

namespace Expr

mutual

/-- The lexemes of an expression as it is written. -/
def lexemes : Expr → List Lexeme
  | .literal value => literalLexemes value
  | .star => [.mark "*"]
  | .parameter name => [.parameter name]
  | .column source name => [.column source name]
  | .label name => [.word name]
  | .inlined definition => definition.lexemes
  | .not operand =>
      .word "NOT" :: enclosedLexemes (operand.needsParens notLevel false) operand.lexemes
  | .negate operand =>
      .mark "-" :: enclosedLexemes (operand.needsParens negateLevel true) operand.lexemes
  | .isNull operand =>
      enclosedLexemes (operand.needsParens comparisonLevel true) operand.lexemes ++
        [.word "IS", .word "NULL"]
  | .isNotNull operand =>
      enclosedLexemes (operand.needsParens comparisonLevel true) operand.lexemes ++
        [.word "IS", .word "NOT", .word "NULL"]
  | .binary op left right =>
      enclosedLexemes (left.needsParens op.level (op.level = comparisonLevel)) left.lexemes ++
        op.lexeme :: enclosedLexemes (right.needsParens op.level true) right.lexemes
  | .power base exponent =>
      callLexemes "POWER" (commaLexemes [base.lexemes, exponent.lexemes])
  | .inList operand items =>
      enclosedLexemes (operand.needsParens comparisonLevel true) operand.lexemes ++
        callLexemes "IN" (commaLexemes (lexemesAll items))
  | .inArray operand values =>
      enclosedLexemes (operand.needsParens comparisonLevel true) operand.lexemes ++
        .mark "=" :: callLexemes "ANY" values.lexemes
  | .like place operand sought =>
      enclosedLexemes (operand.needsParens comparisonLevel true) operand.lexemes ++
        .word "LIKE" ::
          place.lexemes (enclosedLexemes (sought.needsParens comparisonLevel true) sought.lexemes)
  | .array items =>
      .word "ARRAY" :: .mark "[" :: (commaLexemes (lexemesAll items) ++ [.mark "]"])
  | .aggregate function distinct args =>
      callLexemes function.sqlName
        (distinctLexemes distinct ++ commaLexemes (lexemesAll args))
  | .call function args =>
      if function.isCast then
        callLexemes "CAST"
          (commaLexemes (lexemesAll args) ++ .word "AS" :: (nameWords function.sqlName).map .word)
      else callLexemes function.sqlName (commaLexemes (lexemesAll args))

/-- The lexemes of several expressions. -/
def lexemesAll : List Expr → List (List Lexeme)
  | [] => []
  | e :: es => e.lexemes :: lexemesAll es

end

end Expr

section Texts

variable {text more : List Char} {lexemes others : List Lexeme}

/-- An identifier starts as a name does, or with a double quote. -/
theorem identifier_opens (name : String)
    : ∃ c rest, (identifier name).toList = c :: rest ∧ (c = '"' ∨ isPlainStart c) := by
  unfold identifier
  split
  · rename_i plain
    cases opens : name.toList with
    | nil =>
        rw [opens] at plain
        cases plain
    | cons c rest =>
        rw [opens, isPlain, Bool.and_eq_true] at plain
        exact ⟨c, rest, rfl, .inr plain.1⟩
  · exact ⟨'"', _, by rw [quoted, String.toList_ofList], .inl rfl⟩

theorem spells_column (source name : String)
    : Spells (identifier source ++ "." ++ identifier name).toList [.column source name] := by
  obtain ⟨c, rest, opens, starts⟩ := identifier_opens source
  have whole : (identifier source ++ "." ++ identifier name).toList
      = c :: (rest ++ '.' :: (identifier name).toList) := by
    simp [opens]
  rw [whole]
  refine spells_one ?_ fun after ends => ?_
  · rintro rfl
    revert starts
    decide
  · have read := read?_column (ends.head?_ne (by decide)) (ends.lacks (by decide)) source name
    simpa [opens] using read

theorem spells_keyword (word : String) (plain : isPlain word.toList)
    : Spells word.toList [.word word] := by
  simpa using spells_word plain

/-- A word stands right before something that opens. -/
theorem Spells.after_word {c : Char} (spells : Spells (c :: text) lexemes) (word : String)
    (plain : isPlain word.toList) (noDot : c ≠ '.') (ends : isPlainChar c = false)
    : Spells (word.toList ++ c :: text) (.word word :: lexemes) := by
  intro after others behind read
  have letters :=
    read?_word plain (show (c :: (text ++ after)).head? ≠ some '.' by simpa using noDot)
    (by simpa using ends)
  obtain ⟨d, rest, opens⟩ := List.exists_cons_of_ne_nil (show word.toList ≠ [] by
    intro none
    rw [none] at plain
    cases plain)
  rw [String.ofList_toList, opens] at letters
  rw [List.append_assoc, opens, List.cons_append]
  refine lex_cons ?_ letters (spells after others behind read)
  rintro rfl
  rw [opens] at plain
  cases plain

/-- A text in parentheses. -/
theorem Spells.parenthesized (spells : Spells text lexemes)
    : Spells ('(' :: (text ++ [')'])) (.mark "(" :: (lexemes ++ [.mark ")"])) :=
  (spells.closed (.inr (.inl rfl)) spells_nil).after_single (c := '(') (by decide)
    (by decide)

theorem Spells.enclosed {text : String} (spells : Spells text.toList lexemes) (parens : Bool)
    : Spells (Sql.enclosed parens text).toList (enclosedLexemes parens lexemes) := by
  cases parens with
  | false => exact spells
  | true => simpa [Sql.enclosed, enclosedLexemes] using spells.parenthesized

/-- A call is a word with arguments in parentheses right behind it. -/
theorem Spells.call (spells : Spells text lexemes) (name : String) (plain : isPlain name.toList)
    : Spells (name.toList ++ '(' :: (text ++ [')'])) (callLexemes name lexemes) :=
  spells.parenthesized.after_word name plain (by decide) rfl

/-- The text of a call of a known function is no cast, or its type consists of words. -/
theorem function_words {name : String} {function : ScalarFunction}
    (known : (name, function) ∈ scalarFunctions)
    : if function.isCast then
        ∀ word ∈ function.sqlName.toList.splitOn ' ', isPlain word
      else isPlain function.sqlName.toList := by
  have all : ∀ entry ∈ scalarFunctions,
      if entry.2.isCast then
        ∀ word ∈ entry.2.sqlName.toList.splitOn ' ', isPlain word
      else isPlain entry.2.sqlName.toList := by
    decide
  exact all _ known

/-- Words with blanks between them. -/
theorem spells_words {words : List (List Char)} (plain : ∀ word ∈ words, isPlain word)
    : Spells (List.intercalate [' '] words) ((words.map String.ofList).map .word) := by
  induction words with
  | nil => exact spells_nil
  | cons word words ih =>
      obtain ⟨isWord, rest⟩ := List.forall_mem_cons.mp plain
      cases words with
      | nil => simpa [List.intercalate] using spells_word isWord
      | cons second words =>
          have spaced := (spells_word isWord).spaced (ih rest)
          simpa [List.intercalate] using spaced

theorem spells_nameWords {name : String} (plain : ∀ word ∈ name.toList.splitOn ' ', isPlain word)
    : Spells name.toList ((nameWords name).map .word) := by
  have words := spells_words plain
  rwa [List.intercalate_splitOn] at words

theorem Spells.likePattern {text : String} (spells : Spells text.toList lexemes) (place : LikePlace)
    : Spells (place.pattern text).toList (place.lexemes lexemes) := by
  have percent : Spells ['\'', '%', '\''] [.text "%"] := spells_value (.text "%") rfl
  have concat : Spells ['|', '|'] [.mark "||"] :=
    spells_one (by decide) fun after _ => read?_double (by decide) after
  cases place with
  | start =>
      simpa [LikePlace.pattern, LikePlace.lexemes] using spells.spaced (concat.spaced percent)
  | finish =>
      simpa [LikePlace.pattern, LikePlace.lexemes] using percent.spaced (concat.spaced spells)
  | anywhere =>
      simpa [LikePlace.pattern, LikePlace.lexemes]
        using percent.spaced (concat.spaced (spells.spaced (concat.spaced percent)))

theorem spells_operator (op : Operator) : Spells op.symbol.toList [op.lexeme] := by
  cases op
  case or | and => exact spells_keyword _ (by decide)
  case notEqual | lessEqual | greaterEqual =>
    exact spells_one (by decide) fun after _ => read?_double (by decide) after
  all_goals
    refine spells_one (by decide) fun after ends => read?_single (by decide) fun d opens => ?_
    rcases ends d opens with rfl | rfl | rfl | rfl <;> decide

theorem Spells.distinct (spells : Spells text lexemes) (distinct : Bool)
    : Spells ((if distinct then "DISTINCT " else "").toList ++ text)
        (distinctLexemes distinct ++ lexemes) := by
  cases distinct with
  | false => exact spells
  | true => exact (spells_keyword "DISTINCT" (by decide)).spaced spells

end Texts

namespace Expr

mutual

/-- The text of an expression is cut into its lexemes, by the structure of the expression. -/
theorem spells : ∀ expr : Expr, expr.OfScope → Spells expr.text.toList expr.lexemes
  | .literal value, _ => spells_literal value
  | .star, _ => spells_operator .times
  | .parameter name, ⟨nonempty, all⟩ => by
      have one := spells_one (c := ':') (by decide) fun after ends =>
        read?_parameter nonempty all (ends.lacks (by decide))
      simpa [text, lexemes] using one
  | .column source name, _ => spells_column source name
  | .label _, ofScope => ofScope.elim
  | .inlined definition, ofScope => definition.spells ofScope.2
  | .not operand, ofScope => by
      have inside := (operand.spells ofScope.2).enclosed (operand.needsParens notLevel false)
      simpa [text, lexemes] using (spells_keyword "NOT" (by decide)).spaced inside
  | .negate operand, ofScope => by
      have inside := (operand.spells ofScope.2).enclosed (operand.needsParens negateLevel true)
      simpa [text, lexemes] using inside.after_single (c := '-') (by decide) (by decide)
  | .isNull operand, ofScope => by
      have inside := (operand.spells ofScope.2).enclosed (operand.needsParens comparisonLevel true)
      have test := (spells_keyword "IS" (by decide)).spaced
        (spells_keyword "NULL" (by decide))
      simpa [text, lexemes] using inside.spaced test
  | .isNotNull operand, ofScope => by
      have inside := (operand.spells ofScope.2).enclosed (operand.needsParens comparisonLevel true)
      have test := (spells_keyword "IS" (by decide)).spaced
        ((spells_keyword "NOT" (by decide)).spaced
          (spells_keyword "NULL" (by decide)))
      simpa [text, lexemes] using inside.spaced test
  | .binary op left right, ofScope => by
      have first := (left.spells ofScope.2.1).enclosed
        (left.needsParens op.level (op.level = comparisonLevel))
      have second := (right.spells ofScope.2.2).enclosed (right.needsParens op.level true)
      simpa [text, lexemes] using first.spaced ((spells_operator op).spaced second)
  | .power base exponent, ofScope => by
      have args := (base.spells ofScope.2.1).closed (c := ',') (by simp)
        (spells_nil.spaced (exponent.spells ofScope.2.2))
      simpa [text, lexemes, commaLexemes, List.intercalate] using args.call "POWER" (by decide)
  | .inList operand items, ofScope => by
      have inside :=
        (operand.spells ofScope.2.1).enclosed (operand.needsParens comparisonLevel true)
      have listed := (spells_keyword "IN" (by decide)).spaced
        (spells_commas items ofScope.2.2).parenthesized
      simpa [text, lexemes, callLexemes] using inside.spaced listed
  | .inArray operand values, ofScope => by
      have inside :=
        (operand.spells ofScope.2.1).enclosed (operand.needsParens comparisonLevel true)
      have equals : Spells ['='] [.mark "="] := spells_operator .equal
      have any := (values.spells ofScope.2.2).call "ANY" (by decide)
      simpa [text, lexemes] using inside.spaced (equals.spaced any)
  | .like place operand sought, ofScope => by
      have inside :=
        (operand.spells ofScope.2.1).enclosed (operand.needsParens comparisonLevel true)
      have pattern := ((sought.spells ofScope.2.2).enclosed
        (sought.needsParens comparisonLevel true)).likePattern place
      simpa [text, lexemes] using inside.spaced ((spells_keyword "LIKE" (by decide)).spaced pattern)
  | .array items, ofScope => by
      have inside : Spells ('[' :: ((commas (texts items)).toList ++ [']']))
          (.mark "[" :: (commaLexemes (lexemesAll items) ++ [.mark "]"])) :=
        ((spells_commas items ofScope.2).closed (.inr (.inr rfl)) spells_nil).after_single
          (by decide)
          (by decide)
      simpa [text, lexemes] using inside.after_word "ARRAY" (by decide) (by decide) rfl
  | .aggregate function distinct args, ofScope => by
      have plain : isPlain function.sqlName.toList := by cases function <;> decide
      simpa [text, lexemes] using ((spells_commas args ofScope.2).distinct distinct).call _ plain
  | .call function args, ⟨⟨name, known⟩, ofScope⟩ => by
      have words := function_words known
      have inside := spells_commas args ofScope
      rw [text, lexemes, ScalarFunction.apply]
      split at words
      · rename_i isCast
        have typed := inside.spaced ((spells_keyword "AS" (by decide)).spaced
          (spells_nameWords words))
        simpa [isCast, commas] using typed.call "CAST" (by decide)
      · rename_i isCall
        simpa [isCall, commas] using inside.call _ words

/-- The texts of several expressions with commas between them. -/
theorem spells_commas
    : ∀ exprs : List Expr,
        EverywhereAll IsOfScope exprs
        → Spells (commas (texts exprs)).toList (commaLexemes (lexemesAll exprs))
  | [], _ => spells_nil
  | [e], ofScope => by
      simpa [texts, lexemesAll, commas, commaLexemes, List.intercalate] using e.spells ofScope.1
  | e :: f :: es, ofScope => by
      have rest := spells_nil.spaced (spells_commas (f :: es) ofScope.2)
      have all := (e.spells ofScope.1).closed (c := ',') (by simp) rest
      simpa [texts, lexemesAll, commas, commaLexemes, List.intercalate] using all

end

/-- The lexemes of the text of an expression are the lexemes it is written with. -/
theorem lex_text {expr : Expr} (ofScope : expr.OfScope)
    : lex expr.text.toList = some expr.lexemes := by
  simpa using expr.spells ofScope [] [] ends_nil lex_nil

end Expr

end CypherSql.Sql
