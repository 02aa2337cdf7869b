import CypherSql.Proofs.Rendering.Spelling

/-! Two minus signs next to each other open a comment of SQL, except in a text or a name in quotes.
An expression is written without one exactly if each sign in it stands apart from a second one.
-/

namespace CypherSql.Sql

/-- Where a scan of SQL stands: outside quotes, right behind a minus sign there, in a text or a name
in quotes, or in a comment.
-/
inductive ScanState where
  | code
  | hyphen
  | text
  | name
  | comment
  deriving DecidableEq, Repr

namespace ScanState

/-- The state behind a character outside quotes. -/
def enter (c : Char) : ScanState :=
  if c = '-' then .hyphen
  else if c = '\'' then .text
  else if c = '"' then .name
  else .code

/-- The state behind a character. -/
def next : ScanState → Char → ScanState
  | .code, c => enter c
  | .hyphen, c => if c = '-' then .comment else enter c
  | .text, c => if c = '\'' then .code else .text
  | .name, c => if c = '"' then .code else .name
  | .comment, _ => .comment

/-- The state behind a source. -/
def after (state : ScanState) (source : List Char) : ScanState :=
  source.foldl next state

theorem after_append (state : ScanState) (first second : List Char)
    : state.after (first ++ second) = (state.after first).after second :=
  List.foldl_append

theorem after_cons (state : ScanState) (c : Char) (source : List Char)
    : state.after (c :: source) = (state.next c).after source :=
  rfl

/-- A comment does not end, as the text is a single line. -/
theorem after_comment (source : List Char) : comment.after source = comment := by
  induction source with
  | nil => rfl
  | cons c source ih => exact ih

/-- Behind a minus sign only another one matters. -/
theorem after_hyphen {c : Char} (other : c ≠ '-') (source : List Char)
    : hyphen.after (c :: source) = code.after (c :: source) := by
  rw [after_cons, after_cons]
  simp only [next, if_neg other]

end ScanState

/-- The source opens a comment: a second minus sign stands right behind one, outside quotes. -/
def OpensComment (source : List Char) : Prop :=
  ScanState.code.after source = .comment

instance (source : List Char) : Decidable (OpensComment source) :=
  inferInstanceAs (Decidable (_ = _))

/-- The character is no minus sign and no quote. -/
def isOrdinary (c : Char) : Bool :=
  c ≠ '-' && c ≠ '\'' && c ≠ '"'

/-- A text leaves the quotes it enters, and opens no comment exactly under a condition. -/
structure Leaves (text : List Char) (apart : Prop) : Prop where
  code : apart → ScanState.code.after text = .code
  comment : ¬apart → ScanState.code.after text = .comment

variable {text more : List Char} {apart also : Prop}

theorem Leaves.append (first : Leaves text apart) (second : Leaves more also)
    : Leaves (text ++ more) (apart ∧ also) where
  code both := by rw [ScanState.after_append, first.code both.1, second.code both.2]
  comment other := by
    rw [ScanState.after_append]
    rcases Classical.em apart with isApart | notApart
    · rw [first.code isApart]
      exact second.comment fun isAlso => other ⟨isApart, isAlso⟩
    · rw [first.comment notApart, ScanState.after_comment]

theorem Leaves.opensComment_iff (leaves : Leaves text apart) : OpensComment text ↔ ¬apart := by
  constructor
  · intro opens isApart
    have code := leaves.code isApart
    rw [opens] at code
    cases code
  · exact leaves.comment

theorem Leaves.not_opensComment_iff (leaves : Leaves text apart) : ¬OpensComment text ↔ apart :=
  not_iff_comm.mp leaves.opensComment_iff.symm

theorem leaves_of_code (code : ScanState.code.after text = .code) : Leaves text True :=
  ⟨fun _ => code, fun other => absurd trivial other⟩

theorem after_ordinary (ordinary : text.all isOrdinary) : ScanState.code.after text = .code := by
  induction text with
  | nil => rfl
  | cons c text ih =>
      rw [List.all_cons, Bool.and_eq_true] at ordinary
      obtain ⟨first, rest⟩ := ordinary
      simp only [isOrdinary, Bool.and_eq_true, decide_eq_true_eq] at first
      obtain ⟨⟨noSign, noText⟩, noName⟩ := first
      rw [ScanState.after_cons, ScanState.next, ScanState.enter, if_neg noSign, if_neg noText,
        if_neg noName]
      exact ih rest

theorem leaves_ordinary (ordinary : text.all isOrdinary) : Leaves text True :=
  leaves_of_code (after_ordinary ordinary)

/-- Words with something ordinary before and behind. -/
theorem Leaves.between (inside : Leaves text apart) (before behind : List Char)
    (first : before.all isOrdinary) (last : behind.all isOrdinary)
    : Leaves (before ++ (text ++ behind)) apart := by
  have whole := (leaves_ordinary first).append (inside.append (leaves_ordinary last))
  simpa using whole

/-- A minus sign stands apart from a text that does not start with one. -/
theorem Leaves.after_sign (leaves : Leaves text apart) (nonempty : text ≠ [])
    : Leaves ('-' :: text) (text.head? ≠ some '-' ∧ apart) := by
  obtain ⟨c, rest, rfl⟩ := List.exists_cons_of_ne_nil nonempty
  have enters : ScanState.code.after ('-' :: c :: rest) = ScanState.hyphen.after (c :: rest) := rfl
  rcases Decidable.em (c = '-') with rfl | other
  · refine ⟨fun both => absurd rfl both.1, fun _ => ?_⟩
    exact ScanState.after_comment rest
  · have same := enters.trans (ScanState.after_hyphen other rest)
    refine ⟨fun both => same.trans (leaves.code both.2),
      fun notBoth => same.trans (leaves.comment ?_)⟩
    exact fun isApart => notBoth ⟨by simpa using other, isApart⟩

/-- A scan leaves the quotes at their end: those inside are written twice. -/
theorem after_quoted {quote : Char} (inside : ScanState) (enters : ScanState.enter quote = inside)
    (stays : ∀ c, inside.next c = if c = quote then .code else inside) (text : String)
    : ScanState.code.after (quoted quote text).toList = .code := by
  have reads (text : List Char) : inside.after (doubleQuotes quote text ++ [quote]) = .code := by
    induction text with
    | nil => simp [doubleQuotes, stays, ScanState.after]
    | cons c text ih =>
        rw [doubleQuotes]
        split
        · rw [List.cons_append, List.cons_append, ScanState.after_cons, ScanState.after_cons, stays,
            if_pos rfl, ScanState.next, enters]
          exact ih
        · rename_i other
          rw [List.cons_append, ScanState.after_cons, stays, if_neg other]
          exact ih
  rw [quoted, String.toList_ofList, ScanState.after_cons, ScanState.next, enters]
  exact reads text.toList

/-- The characters of a class are ordinary where it has no minus sign and no quote. -/
theorem isOrdinary_of_class (among : Char → Bool) {c : Char} (holds : among c)
    (noSign : among '-' = false)
    (noText : among '\'' = false) (noName : among '"' = false)
    : isOrdinary c := by
  simp only [isOrdinary, Bool.and_eq_true, decide_eq_true_eq]
  refine ⟨⟨?_, ?_⟩, ?_⟩ <;>
  · rintro rfl
    simp_all

theorem isOrdinary_of_isPlainChar {c : Char} (plain : isPlainChar c) : isOrdinary c :=
  isOrdinary_of_class isPlainChar plain (by decide) (by decide) (by decide)

theorem isPlainChar_of_isPlain (plain : isPlain text) : ∀ c ∈ text, isPlainChar c := by
  cases text with
  | nil => cases plain
  | cons first rest =>
      simp only [isPlain, isPlainStart, Bool.and_eq_true, Bool.or_eq_true, List.all_eq_true]
        at plain
      refine List.forall_mem_cons.mpr ⟨?_, plain.2⟩
      rcases plain.1 with alpha | underscore
      · simp [isPlainChar, Char.isAlphanum, alpha]
      · simp [isPlainChar, of_decide_eq_true underscore]

theorem leaves_plain (plain : isPlain text) : Leaves text True :=
  leaves_ordinary <| List.all_eq_true.mpr fun c member =>
    isOrdinary_of_isPlainChar (isPlainChar_of_isPlain plain c member)

theorem leaves_identifier (name : String) : Leaves (identifier name).toList True := by
  unfold identifier
  split
  · rename_i plain
    exact leaves_plain plain
  · exact leaves_of_code (after_quoted .name rfl (fun c => rfl) name)

theorem isOrdinary_of_isDigit {c : Char} (digit : c.isDigit) : isOrdinary c :=
  isOrdinary_of_class Char.isDigit digit rfl rfl rfl

theorem leaves_numeral (numeral : IsNumeral text) : Leaves text True := by
  obtain ⟨c, rest, rfl, digit, inside⟩ := numeral
  refine leaves_ordinary (List.all_eq_true.mpr ?_)
  refine List.forall_mem_cons.mpr ⟨isOrdinary_of_isDigit digit, fun d member => ?_⟩
  have isNumber := inside d member
  rw [isNumberChar, Bool.or_eq_true, decide_eq_true_eq] at isNumber
  rcases isNumber with digit | rfl
  · exact isOrdinary_of_isDigit digit
  · rfl

theorem leaves_value {value : Literal} (unsigned : value.isNegative = false)
    : Leaves (literal value).toList True
      ∧ ∃ c rest, (literal value).toList = c :: rest ∧ c ≠ '-' := by
  rcases value_cases unsigned with ⟨numeral, -⟩ | ⟨plain, -⟩ | ⟨text, rfl⟩
  · refine ⟨leaves_numeral numeral, ?_⟩
    obtain ⟨c, rest, same, digit, -⟩ := numeral
    refine ⟨c, rest, same, ?_⟩
    rintro rfl
    cases digit
  · refine ⟨leaves_plain plain, ?_⟩
    cases same : (literal value).toList with
    | nil =>
        rw [same] at plain
        cases plain
    | cons c rest =>
        rw [same] at plain
        refine ⟨c, rest, rfl, ?_⟩
        rintro rfl
        cases plain
  · refine ⟨leaves_of_code (after_quoted .text rfl (fun c => rfl) text), '\'',
      doubleQuotes '\'' text.toList ++ ['\''], ?_, by decide⟩
    rw [literal, quoted, String.toList_ofList]

theorem leaves_literal (value : Literal) : Leaves (literal value).toList True := by
  cases sign : value.isNegative with
  | false => exact (leaves_value sign).1
  | true =>
      obtain ⟨signed, unsigned⟩ := literal_of_isNegative sign
      obtain ⟨leaves, c, rest, opens, other⟩ := leaves_value unsigned
      have apart := leaves.after_sign (by simp [opens])
      rw [signed]
      simpa [opens, other] using apart

theorem isOrdinary_of_isWordChar {c : Char} (word : Text.isWordChar c) : isOrdinary c :=
  isOrdinary_of_class Text.isWordChar word (by decide) (by decide) (by decide)

/-- The text of an expression starts with a minus sign. -/
def Expr.signed : Expr → Bool
  | .literal value => value.isNegative
  | .inlined definition => definition.signed
  | .negate _ => true
  | .isNull operand | .isNotNull operand | .inList operand _ | .inArray operand _ | .like
    _ operand _ =>
      !operand.needsParens comparisonLevel true && operand.signed
  | .binary op left _ => !left.needsParens op.level (op.level = comparisonLevel) && left.signed
  | _ => false

/-- A sign stands apart from a second one: it is before no negative number, and before no definition
in place of a name that starts with a sign.
-/
def Expr.SignApart : Expr → Prop
  | .negate (.literal value) => value.isNegative = false
  | .negate (.inlined definition) => definition.signed = false
  | _ => True

theorem Leaves.enclosed {text : String} (leaves : Leaves text.toList apart) (parens : Bool)
    : Leaves (Sql.enclosed parens text).toList apart := by
  cases parens with
  | false => exact leaves
  | true =>
      have whole := leaves.between ['('] [')'] (by decide) (by decide)
      simpa [Sql.enclosed] using whole

theorem Leaves.likePattern {text : String} (leaves : Leaves text.toList apart) (place : LikePlace)
    : Leaves (place.pattern text).toList apart := by
  have percent : Leaves ['\'', '%', '\''] True := leaves_of_code rfl
  have behind : Leaves (" || '%'".toList) True := leaves_of_code rfl
  have before : Leaves ("'%' || ".toList) True := leaves_of_code rfl
  cases place with
  | start => simpa [LikePlace.pattern] using leaves.append behind
  | finish => simpa [LikePlace.pattern] using before.append leaves
  | anywhere => simpa [LikePlace.pattern] using before.append (leaves.append behind)

/-- The words of a known function hold no minus sign and no quote. -/
theorem ordinary_function {name : String} {function : ScalarFunction}
    (known : (name, function) ∈ scalarFunctions)
    : function.sqlName.toList.all isOrdinary := by
  have all : ∀ entry ∈ scalarFunctions, entry.2.sqlName.toList.all isOrdinary := by
    decide
  exact all _ known

namespace Expr

/-- Every expression is written with some characters. -/
theorem text_ne_nil : ∀ expr : Expr, expr.text.toList ≠ []
  | .literal value => by
      cases sign : value.isNegative with
      | false =>
          obtain ⟨-, c, rest, opens, -⟩ := leaves_value sign
          simp [text, opens]
      | true => simp [text, (literal_of_isNegative sign).1]
  | .label name => by
      obtain ⟨c, rest, opens, -⟩ := identifier_opens name
      simp [text, opens]
  | .inlined definition => definition.text_ne_nil
  | .call function args => by
      simp only [text, ScalarFunction.apply]
      split <;> simp
  | .star | .parameter _ | .column _ _ | .not _ | .negate _ | .isNull _ | .isNotNull
    _ | .binary _ _ _
  | .power _ _ | .inList _ _ | .inArray _ _ | .like _ _ _ | .array _ | .aggregate _ _ _ => by
      simp [text]

/-- Where an operand comes first, its sign does unless it is in parentheses. -/
theorem head?_operand {operand : Expr}
    (starts : operand.text.toList.head? = some '-' ↔ operand.signed) (parens : Bool)
    (behind : String)
    : (enclosed parens operand.text ++ behind).toList.head? = some '-'
      ↔ (!parens && operand.signed) := by
  rw [String.toList_append]
  cases parens with
  | true => simp [enclosed]
  | false =>
      rw [enclosed, if_neg Bool.false_ne_true,
        List.head?_append_of_ne_nil _ operand.text_ne_nil, starts]
      simp

theorem head?_identifier (name : String) (behind : List Char)
    : ((identifier name).toList ++ behind).head? ≠ some '-' := by
  obtain ⟨c, rest, opens, starts⟩ := identifier_opens name
  simp only [opens, List.cons_append, List.head?_cons]
  rintro ⟨⟩
  revert starts
  decide

/-- Which texts start with a minus sign, by the structure of the expression. -/
theorem head?_text
    : ∀ expr : Expr, expr.OfScope → (expr.text.toList.head? = some '-' ↔ expr.signed)
  | .literal value, _ => by
      cases sign : value.isNegative with
      | true => simp [text, signed, sign, (literal_of_isNegative sign).1]
      | false =>
          obtain ⟨-, c, rest, opens, other⟩ := leaves_value sign
          simp [text, signed, sign, opens, other]
  | .column source name, _ => by
      simpa [text, signed] using head?_identifier source ('.' :: (identifier name).toList)
  | .label _, ofScope => ofScope.elim
  | .inlined definition, ofScope => definition.head?_text ofScope.2
  | .isNull operand, ofScope | .isNotNull operand, ofScope => by
      exact head?_operand (operand.head?_text ofScope.2) _ _
  | .inList operand _, ofScope | .inArray operand _, ofScope | .like _ operand _, ofScope => by
      simpa only [text, signed, String.append_assoc]
        using head?_operand (operand.head?_text ofScope.2.1) _ _
  | .binary op left _, ofScope => by
      simpa only [text, signed, String.append_assoc]
        using head?_operand (left.head?_text ofScope.2.1) _ _
  | .aggregate function distinct args, _ => by
      cases function <;> simp [text, signed, Aggregate.sqlName]
  | .call function args, ⟨⟨name, known⟩, _⟩ => by
      have ordinary := ordinary_function known
      simp only [text, signed, ScalarFunction.apply]
      split
      · simp
      · cases letters : function.sqlName.toList with
        | nil => simp [letters]
        | cons c rest =>
            rw [letters] at ordinary
            have first := List.all_eq_true.mp ordinary c List.mem_cons_self
            simp only [String.toList_append, letters, List.cons_append, List.head?_cons,
              Bool.false_eq_true, iff_false]
            rintro ⟨⟩
            cases first
  | .star, _ | .parameter _, _ | .power _ _, _ | .array _, _ | .not _, _ | .negate _, _ => by
      simp [text, signed]

/-- A sign stands apart exactly if its operand is in parentheses or starts with no sign itself. -/
theorem signApart_negate {operand : Expr} (ofScope : operand.OfScope)
    : (negate operand).SignApart
      ↔ operand.needsParens negateLevel true ∨ operand.text.toList.head? ≠ some '-' := by
  rw [ne_eq, head?_text operand ofScope]
  cases operand
  case literal => simp [SignApart, signed, needsParens, level, closedLevel, negateLevel]
  case inlined => simp [SignApart, signed, needsParens, level, closedLevel, negateLevel]
  case negate | isNull | isNotNull | not | inList | inArray | like =>
    exact iff_of_true trivial (.inl rfl)
  case binary op _ _ =>
    exact iff_of_true trivial (.inl (by cases op <;> rfl))
  all_goals exact iff_of_true trivial (.inr (by simp [signed]))

mutual

/-- The text of an expression opens no comment exactly if its signs stand apart, by its structure.
-/
theorem leaves
    : ∀ expr : Expr, expr.OfScope → Leaves expr.text.toList (expr.Everywhere SignApart)
  | .literal value, _ => leaves_literal value
  | .star, _ => leaves_of_code rfl
  | .parameter name, ⟨_, all⟩ => by
      have word :=
        leaves_ordinary
        (List.all_eq_true.mpr fun c member => isOrdinary_of_isWordChar (all c member))
      have whole := word.between [':'] [] (by decide) (by decide)
      simpa [text, Everywhere, SignApart] using whole
  | .column source name, _ => by
      have dot : Leaves ['.'] True := leaves_of_code rfl
      have whole := (leaves_identifier source).append
        (dot.append (leaves_identifier name))
      simpa [text, Everywhere, SignApart] using whole
  | .label _, ofScope => ofScope.elim
  | .inlined definition, ofScope => by
      simpa [text, Everywhere, SignApart] using definition.leaves ofScope.2
  | .not operand, ofScope => by
      have inside := (operand.leaves ofScope.2).enclosed (operand.needsParens notLevel false)
      have whole := inside.between "NOT ".toList [] (by decide) (by decide)
      simpa [text, Everywhere, SignApart] using whole
  | .negate operand, ofScope => by
      have inside := operand.leaves ofScope.2
      -- Only here a sign is written right before an operand, which may begin with a sign itself.
      rw [text, String.toList_append, Everywhere, signApart_negate ofScope.2]
      cases operand.needsParens negateLevel true with
      | true => simpa [enclosed] using (inside.enclosed true).after_sign (by simp [enclosed])
      | false => simpa [enclosed] using inside.after_sign operand.text_ne_nil
  | .isNull operand, ofScope => by
      have inside := (operand.leaves ofScope.2).enclosed (operand.needsParens comparisonLevel true)
      have whole := inside.between [] " IS NULL".toList (by decide) (by decide)
      simpa [text, Everywhere, SignApart] using whole
  | .isNotNull operand, ofScope => by
      have inside := (operand.leaves ofScope.2).enclosed (operand.needsParens comparisonLevel true)
      have whole := inside.between [] " IS NOT NULL".toList (by decide) (by decide)
      simpa [text, Everywhere, SignApart] using whole
  | .binary op left right, ofScope => by
      have first := (left.leaves ofScope.2.1).enclosed
        (left.needsParens op.level (op.level = comparisonLevel))
      have second := (right.leaves ofScope.2.2).enclosed (right.needsParens op.level true)
      have symbol : Leaves (" " ++ op.symbol ++ " ").toList True := by
        cases op <;> exact leaves_of_code rfl
      simpa [text, Everywhere, SignApart] using first.append (symbol.append second)
  | .power base exponent, ofScope => by
      have first :=
        (base.leaves ofScope.2.1).between "POWER(".toList ", ".toList (by decide) (by decide)
      have second := (exponent.leaves ofScope.2.2).between [] [')'] (by decide) (by decide)
      simpa [text, Everywhere, SignApart] using first.append second
  | .inList operand items, ofScope => by
      have inside :=
        (operand.leaves ofScope.2.1).enclosed (operand.needsParens comparisonLevel true)
      have listed :=
        (leaves_commas items ofScope.2.2).between " IN (".toList [')'] (by decide) (by decide)
      simpa [text, Everywhere, SignApart] using inside.append listed
  | .inArray operand values, ofScope => by
      have inside :=
        (operand.leaves ofScope.2.1).enclosed (operand.needsParens comparisonLevel true)
      have any := (values.leaves ofScope.2.2).between " = ANY(".toList [')'] (by decide) (by decide)
      simpa [text, Everywhere, SignApart] using inside.append any
  | .like place operand sought, ofScope => by
      have inside :=
        (operand.leaves ofScope.2.1).enclosed (operand.needsParens comparisonLevel true)
      have pattern := ((sought.leaves ofScope.2.2).enclosed
        (sought.needsParens comparisonLevel true)).likePattern place
      have whole := inside.append (pattern.between " LIKE ".toList [] (by decide) (by decide))
      simpa [text, Everywhere, SignApart] using whole
  | .array items, ofScope => by
      have whole :=
        (leaves_commas items ofScope.2).between "ARRAY[".toList [']'] (by decide) (by decide)
      simpa [text, Everywhere, SignApart] using whole
  | .aggregate function distinct args, ofScope => by
      have opening
          : (function.sqlName ++ "(" ++ if distinct then "DISTINCT " else "").toList.all
            isOrdinary := by
        cases function <;> cases distinct <;> decide
      have whole := (leaves_commas args ofScope.2).between _ [')'] opening (by decide)
      simpa [text, Everywhere, SignApart] using whole
  | .call function args, ⟨⟨name, known⟩, ofScope⟩ => by
      have inside := leaves_commas args ofScope
      have ordinary := ordinary_function known
      simp only [text, Everywhere, SignApart, true_and, ScalarFunction.apply]
      split
      · have typed := (leaves_ordinary ordinary).between " AS ".toList [')'] (by decide) (by decide)
        have whole := (inside.between "CAST(".toList [] (by decide) (by decide)).append typed
        simpa [commas] using whole
      · have whole := (leaves_ordinary ordinary).append
          (inside.between ['('] [')'] (by decide) (by decide))
        simpa [commas] using whole

/-- The texts of several expressions with commas between them. -/
theorem leaves_commas
    : ∀ exprs : List Expr,
        EverywhereAll IsOfScope exprs
        → Leaves (commas (texts exprs)).toList (EverywhereAll SignApart exprs)
  | [], _ => leaves_of_code rfl
  | [e], ofScope => by
      simpa [texts, commas, List.intercalate, EverywhereAll] using e.leaves ofScope.1
  | e :: f :: es, ofScope => by
      have rest :=
        (leaves_commas (f :: es) ofScope.2).between ", ".toList [] (by decide) (by decide)
      have all := (e.leaves ofScope.1).append rest
      simpa [texts, commas, List.intercalate, EverywhereAll] using all

end

end Expr

end CypherSql.Sql
