import CypherSql.Proofs.Printing.Lexemes
import CypherSql.Sql.Expr

/-! Values and names survive quoting: the backslash escapes of a query are undone, and what is
written into SQL is read back as one token, whatever follows it.
-/

namespace CypherSql

namespace Cypher

/-- The characters with a backslash before each marked one. -/
def escape (marked : Char → Bool) : List Char → List Char
  | [] => []
  | c :: rest => if marked c then '\\' :: c :: escape marked rest else c :: escape marked rest

/-- Marked are the backslash, the quote around the text and no character that has no escape. The
other quote may be marked or not.
-/
structure Escaping (quote : Char) (marked : Char → Bool) : Prop where
  isQuote : quote = '\'' ∨ quote = '"'
  backslash : marked '\\'
  own : marked quote
  escapable : ∀ c, marked c → isEscapable c

/-- Every backslash and both quotes get a backslash. -/
theorem escaping_isEscapable {quote : Char} (isQuote : quote = '\'' ∨ quote = '"')
    : Escaping quote isEscapable where
  isQuote := isQuote
  backslash := by decide
  own := by rcases isQuote with rfl | rfl <;> decide
  escapable := fun _ marked => marked

/-- Every backslash and the quote around the text get a backslash, the other quote does not. -/
theorem escaping_own {quote : Char} (isQuote : quote = '\'' ∨ quote = '"')
    : Escaping quote fun c => c == '\\' || c == quote where
  isQuote := isQuote
  backslash := by simp
  own := by simp
  escapable := by
    intro c marked
    simp only [Bool.or_eq_true, beq_iff_eq] at marked
    rcases marked with rfl | rfl
    · decide
    · rcases isQuote with rfl | rfl <;> decide

namespace Escaping

variable {quote : Char} {marked : Char → Bool}

theorem ne_of_unmarked (escaping : Escaping quote marked) {c : Char} (unmarked : ¬marked c)
    : c ≠ quote ∧ c ≠ '\\' := by
  constructor
  · rintro rfl
    exact unmarked escaping.own
  · rintro rfl
    exact unmarked escaping.backslash

/-- Escaped characters can stand in a string literal, by induction over them. -/
theorem quotedBody (escaping : Escaping quote marked) (text : List Char)
    : QuotedBody quote (escape marked text) := by
  induction text with
  | nil => exact .nil
  | cons c text ih =>
      rw [escape]
      split
      · rename_i isMarked
        exact .escaped (escaping.escapable c isMarked) ih
      · rename_i unmarked
        obtain ⟨notQuote, notBackslash⟩ := escaping.ne_of_unmarked unmarked
        exact .plain notQuote notBackslash ih

/-- Dropping the backslashes gives the characters back. -/
theorem unescapeChars_escape (escaping : Escaping quote marked) (text : List Char)
    : unescapeChars (escape marked text) = text := by
  induction text with
  | nil => rfl
  | cons c text ih =>
      rw [escape]
      split
      · rw [unescapeChars, ih]
      · rename_i unmarked
        have notBackslash := (escaping.ne_of_unmarked unmarked).2
        rw [unescapeChars, ih]
        · exact fun _ _ same => absurd same notBackslash
        · exact fun same => absurd same notBackslash

theorem unescape_escape (escaping : Escaping quote marked) (value : String)
    : unescape (String.ofList (escape marked value.toList)) = value := by
  rw [unescape, String.toList_ofList, escaping.unescapeChars_escape, String.ofList_toList]

/-- A string literal of either quote is read up to its closing quote. -/
theorem stringLiteral_escape (escaping : Escaping quote marked) (text rest : List Char)
    : stringLiteral (quote :: (escape marked text ++ quote :: rest))
      = .ok (String.ofList (escape marked text)) rest := by
  have inside := escaping.quotedBody text
  refine Parser.choice_eq_ok.mpr ?_
  rcases escaping.isQuote with rfl | rfl
  · exact .here (quotedText_read inside (by decide) rest)
  · have rejects : (quotedText '\'').Rejects ('"' :: (escape marked text ++ '"' :: rest)) :=
      Parser.Rejects.bind (char_rejects (lacks_cons (by decide)))
    exact .there rejects (.here (quotedText_read inside (by decide) rest))

end Escaping

end Cypher

namespace Sql

/-- A token of SQL that carries a value or a name. -/
inductive Token where
  | text (value : String)
  | name (inQuotes : Bool) (name : String)
  deriving DecidableEq, Repr

/-- The characters up to a closing quote and what is left after it. A quote written twice stands for
itself.
-/
def untilQuote? (quote : Char) : List Char → Option (List Char × List Char)
  | [] => none
  | [c] => if c = quote then some ([], []) else none
  | c :: d :: rest =>
      if c ≠ quote then (untilQuote? quote (d :: rest)).map (Prod.map (c :: ·) id)
      else if d = quote then (untilQuote? quote rest).map (Prod.map (quote :: ·) id)
      else some ([], d :: rest)

/-- The token at the start of a source and what is left after it. -/
def Token.read? : List Char → Option (Token × List Char)
  | [] => none
  | c :: rest =>
      if c = '\'' then (untilQuote? '\'' rest).map (Prod.map (.text ∘ String.ofList) id)
      else if c = '"' then (untilQuote? '"' rest).map (Prod.map (.name true ∘ String.ofList) id)
      else if isPlainStart c then
        some (.name false (String.ofList (c :: rest.takeWhile isPlainChar)),
          rest.dropWhile isPlainChar)
      else none

theorem untilQuote?_cons_of_ne {quote c : Char} (other : c ≠ quote) (rest : List Char)
    : untilQuote? quote (c :: rest) = (untilQuote? quote rest).map (Prod.map (c :: ·) id) := by
  cases rest with
  | nil => simp [untilQuote?, other]
  | cons d rest => rw [untilQuote?, if_pos other]

theorem untilQuote?_closed {quote : Char} {after : List Char} (ends : after.head? ≠ some quote)
    : untilQuote? quote (quote :: after) = some ([], after) := by
  cases after with
  | nil => rw [untilQuote?, if_pos rfl]
  | cons d after =>
      have other : d ≠ quote := by simpa using ends
      rw [untilQuote?, if_neg (not_not_intro rfl), if_neg other]

/-- Characters with their quotes doubled are read up to the closing quote, by induction over them.
-/
theorem untilQuote?_doubleQuotes {quote : Char} {after : List Char}
    (ends : after.head? ≠ some quote) (text : List Char)
    : untilQuote? quote (doubleQuotes quote text ++ quote :: after) = some (text, after) := by
  induction text with
  | nil => exact untilQuote?_closed ends
  | cons c text ih =>
      rw [doubleQuotes]
      split
      · rename_i same
        rw [List.cons_append, List.cons_append, untilQuote?, if_neg (not_not_intro rfl), if_pos rfl,
          ih, same]
        rfl
      · rename_i other
        rw [List.cons_append, untilQuote?_cons_of_ne other, ih]
        rfl

theorem quoted_append (quote : Char) (text : String) (after : List Char)
    : (quoted quote text).toList ++ after
      = quote :: (doubleQuotes quote text.toList ++ quote :: after) := by
  simp [quoted]

/-- A text literal is one token with the text as its value. -/
theorem read?_literal_text {after : List Char} (ends : after.head? ≠ some '\'') (value : String)
    : Token.read? ((literal (.text value)).toList ++ after) = some (.text value, after) := by
  rw [literal, quoted_append, Token.read?, if_pos rfl, untilQuote?_doubleQuotes ends,
    Option.map_some, Prod.map_apply, Function.comp_apply, String.ofList_toList, id]

/-- A plain name is read up to the first character that cannot stand in one. -/
theorem read?_plain {name after : List Char} (plain : isPlain name)
    (ends : ∀ c ∈ after.head?, isPlainChar c = false)
    : Token.read? (name ++ after) = some (.name false (String.ofList name), after) := by
  cases name with
  | nil => cases plain
  | cons c letters =>
      rw [isPlain, Bool.and_eq_true, List.all_eq_true] at plain
      obtain ⟨starts, all⟩ := plain
      have notText : c ≠ '\'' := by
        rintro rfl
        cases starts
      have notQuoted : c ≠ '"' := by
        rintro rfl
        cases starts
      obtain ⟨takes, drops⟩ := Cypher.takeWhile_append_of_ends all ends
      rw [List.cons_append, Token.read?, if_neg notText, if_neg notQuoted,
        if_pos starts, takes, drops]

/-- An identifier is one token with the name it was made for, in quotes exactly if the name needs
them.
-/
theorem read?_identifier {after : List Char} (noQuote : after.head? ≠ some '"')
    (ends : ∀ c ∈ after.head?, isPlainChar c = false) (name : String)
    : Token.read? ((identifier name).toList ++ after)
      = some (.name (!isPlain name.toList) name, after) := by
  unfold identifier
  split
  · rename_i plain
    rw [read?_plain plain ends, String.ofList_toList, plain, Bool.not_true]
  · rename_i notPlain
    rw [quoted_append, Token.read?, if_neg (by decide), if_pos rfl,
      untilQuote?_doubleQuotes noQuote, Option.map_some, Prod.map_apply, Function.comp_apply,
      String.ofList_toList, id,
      Bool.eq_false_iff.mpr notPlain, Bool.not_false]

/-- Different names are different identifiers. -/
theorem identifier_injective {first second : String} (same : identifier first = identifier second)
    : first = second := by
  have read (name : String)
      : Token.read? ((identifier name).toList ++ [])
        = some (.name (!isPlain name.toList) name, []) :=
    read?_identifier (by decide) (by simp) name
  have tokens := (congrArg (fun text => Token.read? (text.toList ++ [])) same)
  simp only [read] at tokens
  exact (Token.name.inj (Prod.mk.inj (Option.some.inj tokens)).1).2

end Sql

open Cypher Sql in
/-- A value written into a query with escapes is read up to its closing quote, stands for itself,
and is one token of SQL when it is rendered. A name is one token of SQL too.
-/
theorem values_and_names_stay_single_tokens {quote : Char} {marked : Char → Bool}
    (escaping : Escaping quote marked) (value name : String) (rest afterText afterName : List Char)
    (textEnds : afterText.head? ≠ some '\'') (noQuote : afterName.head? ≠ some '"')
    (nameEnds : ∀ c ∈ afterName.head?, isPlainChar c = false)
    : ∃ raw,
        stringLiteral (quote :: (escape marked value.toList ++ quote :: rest)) = .ok raw rest
        ∧ unescape raw = value
        ∧ Token.read? ((literal (.text (unescape raw))).toList ++ afterText)
          = some (.text value, afterText)
        ∧ Token.read? ((identifier name).toList ++ afterName)
          = some (.name (!Sql.isPlain name.toList) name, afterName) := by
  have same := escaping.unescape_escape value
  refine ⟨_, escaping.stringLiteral_escape value.toList rest, same, ?_,
    read?_identifier noQuote nameEnds name⟩
  rw [same]
  exact read?_literal_text textEnds value

open Cypher Sql in
/-- Witness: a text of quotes and backslashes with all of them escaped, and with a single quote that
is not, before a comma; a name that needs quotes and a plain one, before a dot.
-/
theorem nested_quotes_stay_single_tokens
    : (∃ raw,
        stringLiteral ('"' :: (escape isEscapable "'\\\"".toList ++ '"' :: [')'])) = .ok raw [')']
        ∧ unescape raw = "'\\\""
        ∧ Token.read? ((literal (.text (unescape raw))).toList ++ [','])
          = some (.text "'\\\"", [','])
        ∧ Token.read? ((identifier "a\"b").toList ++ ['.'])
          = some (.name (!Sql.isPlain "a\"b".toList) "a\"b", ['.']))
      ∧ ∃ raw,
          stringLiteral
              ('"' :: (escape (fun c => c == '\\' || c == '"') "'\\\"".toList ++ '"' :: [')']))
            = .ok raw [')']
          ∧ unescape raw = "'\\\""
          ∧ Token.read? ((literal (.text (unescape raw))).toList ++ [','])
            = some (.text "'\\\"", [','])
          ∧ Token.read? ((identifier "ab").toList ++ ['.'])
            = some (.name (!Sql.isPlain "ab".toList) "ab", ['.']) := by
  have dotEnds : ∀ c ∈ ['.'].head?, isPlainChar c = false := by
    intro c member
    obtain rfl := Option.some.inj member
    rfl
  constructor
  · exact values_and_names_stay_single_tokens
      (escaping_isEscapable (.inr rfl)) _ _ _ _ _ (by decide)
      (by decide) dotEnds
  · exact values_and_names_stay_single_tokens (escaping_own (.inr rfl)) _ _ _ _ _ (by decide)
      (by decide) dotEnds

end CypherSql
