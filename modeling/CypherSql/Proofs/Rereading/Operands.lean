import CypherSql.Proofs.Rereading.Atoms

/-! Expressions without operators are read again, with the keys that are looked up in them. What
follows must not go on with what makes a number of two or a call of a name.
-/

namespace CypherSql.Cypher

open Text

namespace Parser

variable {α : Type} {p : Parser α} {ps : List (Parser α)} {behind : Bool}
  {follows : List Char → Prop} {value : α}
  {source rest : List Char}

/-- Blanks before a text need not be skipped where there are none. -/
theorem RereadsAt.unspaced (reread : p.RereadsAt true behind follows source value rest)
    (here : skip source = source)
    : p.RereadsAt false behind follows source value rest := by
  obtain ⟨text, tail, opens, same, reread⟩ := reread
  refine ⟨text, tail, here.symm.trans opens, same, reread.trimmed, reread.words,
    fun other after starts => ?_⟩
  refine reread.again other after ?_
  rw [show other = text ++ after from starts]
  exact reread.trimmed.solid.skip_append after

/-- What one of the parsers of a choice takes is read again if the choice still comes to that
parser.
-/
theorem RereadsAt.among (reread : p.RereadsAt false behind follows source value rest)
    (picks
      : ∀ text tail after,
          source = text ++ tail
          → Trimmed text
          → SameWords text tail after
          → follows after
          → p (text ++ after) = .ok value (start behind after)
          → Picks (text ++ after) value (start behind after) ps)
    : (choice ps).RereadsAt false behind follows source value rest := by
  obtain ⟨text, tail, opens, same, reread⟩ := reread
  refine ⟨text, tail, opens, same, reread.trimmed, reread.words,
    fun other after starts ends beside => ?_⟩
  have read := reread.again other after starts ends beside
  obtain rfl : other = text ++ after := starts
  exact choice_eq_ok.mpr
    (picks text tail after opens reread.trimmed (reread.words after ends beside) ends read)

/-- Blanks behind a text are skipped. -/
theorem RereadsAt.blanks (reread : p.RereadsAt true behind follows source value rest)
    : Parser.RereadsAt (p >>= fun value => Cypher.blanks >>= fun _ => pure value) true true
      follows source value
        (skip rest) := by
  obtain ⟨text, tail, opens, rfl, reread⟩ := reread
  have later (after : List Char) : skip (start behind after) = skip after := by
    cases behind with
    | false => rfl
    | true => exact skip_skip after
  refine ⟨text, tail, opens, later tail, reread.trimmed, reread.words,
    fun other after starts ends beside => ?_⟩
  refine (bind_of_ok (reread.again other after starts ends beside)).trans ?_
  rw [show start true after = skip after from rfl, ← later after]
  rfl

end Parser

/-- What may follow an expression without operators: keys that are looked up in it, and behind them
neither a further point nor a parenthesis that makes a call.
-/
inductive Trails : List Char → Prop where
  | stop {after} (noKey : Lacks '.' after) (noCall : Lacks '(' (skip after)) : Trails after
  | key {source name after} (read : symbolicName source = .ok name after) (later : Trails after)
    : Trails ('.' :: source)

section Trails

variable {expr : Parser Expr} {source after gap name : List Char}

theorem Trails.spaced (spaces : ∀ c ∈ gap, isSpace c) (trails : Trails after)
    : Trails (gap ++ after) := by
  cases gap with
  | nil => exact trails
  | cons d gap =>
      have noCall : Lacks '(' (skip after) := by
        cases trails with
        | stop _ noCall => exact noCall
        | key =>
            rw [skip_cons (by decide)]
            exact lacks_cons (by decide)
      refine .stop (lacks_cons ?_) (by rwa [skip_gap spaces])
      rintro rfl
      exact absurd (spaces _ List.mem_cons_self) (by decide)

theorem Halts.trails (halts : Halts 9 after) : Trails after :=
  .stop (Lacks.of_skip (halts.marks ('.', 9) (by decide) le_rfl) (by decide))
    (halts.marks ('(', 9) (by decide) le_rfl)

theorem OpensName.lacksDigit (opens : OpensName source) : LacksDigit source := by
  obtain ⟨c, same, kind⟩ := opens
  intro d also
  obtain rfl := Option.some.inj (same.symm.trans also)
  rcases kind with rfl | starts
  · decide
  · exact not_isDigit_of_isWordStart starts

theorem OpensName.lacks {c : Char} (opens : OpensName source) (noQuote : c ≠ '`')
    (noWord : isWordStart c = false)
    : Lacks c source := by
  obtain ⟨d, same, kind⟩ := opens
  intro also
  obtain rfl := Option.some.inj (same.symm.trans also)
  rcases kind with rfl | starts
  · exact noQuote rfl
  · rw [noWord] at starts
    cases starts

/-- No fraction follows the digits of an integer. -/
theorem Trails.rejects_fraction {ds : List Char} (trails : Trails after)
    (read : digits source = .ok ds after)
    : realLiteral.Rejects source := by
  refine Parser.Rejects.bind_of_ok read ?_
  cases trails with
  | stop noKey => exact (char_rejects noKey).bind
  | key named =>
      exact Parser.Rejects.bind_of_ok (char_read _ _)
        (symbolicName_opens named).lacksDigit.digits.bind

/-- The keys after a name are read as if they were parts of a function name, by induction over them.
-/
theorem Trails.segments (trails : Trails after) (seen : List (List Char))
    : ∃ names last, Parser.manyAfter nextSegment seen after = .ok names last ∧ Lacks '('
      (skip last) := by
  have steps : ∃ names last,
      Parser.Steps (Parser.manyStep nextSegment) seen after names last ∧ Lacks '.' last
        ∧ Lacks '(' (skip last) := by
    induction trails generalizing seen with
    | stop noKey noCall => exact ⟨seen, _, .done, noKey, noCall⟩
    | @key source name after named _ ih =>
        obtain ⟨names, last, steps, ends⟩ := ih (name :: seen)
        have read : nextSegment ('.' :: source) = .ok name after :=
          (Parser.bind_of_ok (char_read _ _)).trans named
        have shorter := nextSegment_advances.length_le read
        exact ⟨names, last, .more (Parser.bind_of_ok (Parser.optional_of_ok read))
          shorter steps, ends⟩
  obtain ⟨names, last, steps, noKey, noCall⟩ := steps
  exact ⟨names, last, steps.manyAfter (char_rejects noKey).bind, noCall⟩

/-- A name is no function that is called. -/
theorem Trails.rejects_call (trails : Trails after) (named : symbolicName source = .ok name after)
    : (functionCall expr).Rejects source := by
  obtain ⟨names, last, more, noCall⟩ := trails.segments []
  have whole : (do let _ ← symbolicName; Parser.many nextSegment) source = .ok names.reverse last :=
    (Parser.bind_of_ok named).trans (Parser.bind_of_ok more)
  have called :=
    @Parser.bind_of_ok _ _ _ (fun name => pure (String.ofList name)) _ _ _ (consumed_of_ok whole)
  exact Parser.Rejects.bind_of_ok called (mark_rejects noCall).bind

end Trails

/-- The words that are literals. -/
def literalWords : List String :=
  ["TRUE", "FALSE", "NULL"]

section Literals

variable {source rest : List Char}

theorem real_rejects (lacks : LacksDigit source) : realLiteral.Rejects source :=
  lacks.digits.bind

theorem integer_rejects (lacks : LacksDigit source) : integerLiteral.Rejects source :=
  (lacks.digits.reading _).bind

theorem text_rejects (noSingle : Lacks '\'' source) (noDouble : Lacks '"' source)
    : Parser.Rejects (do let raw ← stringLiteral; pure (Literal.text raw)) source := by
  refine Parser.Rejects.bind (Parser.rejects_choice.mpr ?_)
  simpa using ⟨(char_rejects noSingle).bind, (char_rejects noDouble).bind⟩

/-- A name is no literal if it is none of the words that are. -/
theorem literal_rejects (opens : OpensName source)
    (words : ∀ word ∈ literalWords, (keyword word).Rejects source)
    : literal.Rejects source := by
  have noText :=
    text_rejects (opens.lacks (by decide) (by decide)) (opens.lacks (by decide) (by decide))
  refine Parser.Rejects.bind (Parser.rejects_choice.mpr ?_)
  simpa using ⟨real_rejects opens.lacksDigit, integer_rejects opens.lacksDigit, noText,
    (words "TRUE" (by decide)).bind, (words "FALSE" (by decide)).bind,
    (words "NULL" (by decide)).bind⟩

theorem literal_rejects_words (rejects : literal.Rejects source)
    : ∀ word ∈ literalWords, (keyword word).Rejects source := by
  have alternatives :=
    Parser.rejects_choice.mp (Parser.rejects_of_bind (fun _ _ => ⟨_, _, rfl⟩) rejects)
  have noWord {word : String} {value : Literal} (rejects : (keywordAs word value).Rejects source)
      : (keyword word).Rejects source :=
    Parser.rejects_of_bind (fun _ _ => ⟨_, _, rfl⟩) rejects
  simp only [List.forall_mem_cons, List.not_mem_nil, false_imp_iff, implies_true,
    and_true, literalWords]
    at alternatives ⊢
  obtain ⟨-, -, -, isTrue, isFalse, isNull⟩ := alternatives
  exact ⟨noWord isTrue, noWord isFalse, noWord isNull⟩

theorem literalWords_plain : ∀ word ∈ literalWords, IsPlainWord word ∧ 0 < word.utf8ByteSize := by
  decide

/-- A name that is no literal is none with something else behind it. -/
theorem SameWords.literal_rejects {text tail after : List Char} (same : SameWords text tail after)
    (opens : OpensName (text ++ after)) (rejects : literal.Rejects (text ++ tail))
    : literal.Rejects (text ++ after) := by
  refine Cypher.literal_rejects opens fun word listed => ?_
  obtain ⟨plain, nonempty⟩ := literalWords_plain word listed
  exact same word plain nonempty (literal_rejects_words rejects word listed)

theorem stringLiteral_opens {value : String} (read : stringLiteral source = .ok value rest)
    : ∃ quote ∈ ['\'', '"'], source.head? = some quote := by
  have quoted (quote : Char) (read : quotedText quote source = .ok value rest)
      : source.head? = some quote := by
    obtain ⟨_, middle, opens, -⟩ := Parser.bind_eq_ok.mp read
    rw [char_eq_ok.mp opens, List.head?_cons]
  rcases Parser.choice_two.mp read with read | ⟨-, read⟩
  · exact ⟨_, by simp, quoted _ read⟩
  · exact ⟨_, by simp, quoted _ read⟩

theorem stringLiteral_rereads : stringLiteral.Rereads false false fun _ => True := by
  refine (quotedText_rereads (by simp)).choice_apart (quotedText_rereads (by simp))
    fun source value rest read => ?_
  obtain ⟨_, middle, opens, -⟩ := Parser.bind_eq_ok.mp read
  refine Parser.Rejects.bind (char_rejects ?_)
  rw [char_eq_ok.mp opens]
  exact lacks_cons (by decide)

theorem words_rereads
    : Parser.Rereads
      (Parser.choice [keywordAs "TRUE" (Literal.boolean true), keywordAs "FALSE" (.boolean false),
        keywordAs "NULL" .null]) true true fun _ => True := by
  refine @Parser.Rereads.choice_words Literal _
    [("TRUE", pure (.boolean true)), ("FALSE", pure (.boolean false)), ("NULL", pure .null)]
    (by simp; decide) ?_
    (by decide)
  simp only [List.forall_mem_cons, List.not_mem_nil, false_imp_iff, implies_true, and_true]
  exact ⟨keywordAs_rereads (by decide) (by decide) _, keywordAs_rereads (by decide) (by decide) _,
    keywordAs_rereads (by decide) (by decide) _⟩

/-- A letter opens the source where a word is a literal. -/
theorem words_lack {value : Literal} {c : Char} (noLetter : c.isAlpha = false)
    (here : skip source = source)
    (read
      : Parser.choice [keywordAs "TRUE" (Literal.boolean true), keywordAs "FALSE" (.boolean false),
            keywordAs "NULL" .null] source
          = .ok value rest)
    : Lacks c source := by
  obtain ⟨p, member, read⟩ := (Parser.choice_eq_ok.mp read).exists_mem
  rw [← here]
  simp only [List.mem_cons, List.not_mem_nil, or_false] at member
  rcases member with rfl | rfl | rfl
  · obtain ⟨_, after, word, -⟩ := Parser.bind_eq_ok.mp read
    exact keyword_lacks (by decide) (by decide) word noLetter
  · obtain ⟨_, after, word, -⟩ := Parser.bind_eq_ok.mp read
    exact keyword_lacks (by decide) (by decide) word noLetter
  · obtain ⟨_, after, word, -⟩ := Parser.bind_eq_ok.mp read
    exact keyword_lacks (by decide) (by decide) word noLetter

/-- A literal is read again: an integer becomes no real, and a word no name. -/
theorem literal_rereads {value : Expr} (here : skip source = source)
    (read : literal source = .ok value rest)
    : ∃ behind, literal.RereadsAt false behind Trails source value rest := by
  obtain ⟨constant, middle, found, same⟩ := Parser.bind_eq_ok.mp read
  cases same
  refine Exists.imp (fun behind reread => Parser.RereadsAt.map reread Expr.literal) ?_
  cases Parser.choice_eq_ok.mp found with
  | here read =>
      exact ⟨false, ((realLiteral_rereads source _ _ read).mono fun _ _ => trivial).choice_here⟩
  | there _ later =>
  cases later with
  | here read =>
      refine ⟨false, ((integerLiteral_rereads source _ _ read).mono fun _ _ => trivial).among
        fun text _ after _ _ _ trails read => .there ?_ (.here read)⟩
      obtain ⟨number, _, counted, same⟩ := Parser.bind_eq_ok.mp read
      cases same
      obtain ⟨ds, read, -⟩ := reading_eq_ok.mp counted
      exact trails.rejects_fraction read
  | there _ later =>
  cases later with
  | here read =>
      have text : Parser.Rereads (do let raw ← stringLiteral; pure (Literal.text raw)) false false
        fun _ => True :=
        stringLiteral_rereads.map Literal.text
      refine ⟨false, ((text source _ _ read).mono fun _ _ => trivial).among
        fun text _ after _ _ _ _ read => ?_⟩
      obtain ⟨raw, _, quoted, -⟩ := Parser.bind_eq_ok.mp read
      obtain ⟨quote, listed, opens⟩ := stringLiteral_opens quoted
      have noDigit : ∀ quote ∈ ['\'', '"'], quote.isDigit = false := by simp
      have lacks : LacksDigit (text ++ after) := by
        intro c same
        obtain rfl := Option.some.inj (opens.symm.trans same)
        exact noDigit _ listed
      exact .there (real_rejects lacks) (.there (integer_rejects lacks) (.here read))
  | there _ later =>
      have words := (words_rereads source constant _ (Parser.choice_eq_ok.mpr later)).unspaced here
      refine ⟨true, (words.mono fun _ _ => trivial).among fun text _ after _ trimmed _ _ read => ?_⟩
      have lacks {c : Char} (noLetter : c.isAlpha = false) : Lacks c (text ++ after) :=
        words_lack noLetter (trimmed.solid.skip_append after) read
      have noDigit : LacksDigit (text ++ after) := by
        intro c opens
        refine Bool.eq_false_iff.mpr fun digit =>
          lacks (Bool.eq_false_iff.mpr fun alpha => ?_) opens
        rw [not_isDigit_of_isAlpha alpha] at digit
        cases digit
      exact .there (real_rejects noDigit) (.there (integer_rejects noDigit)
        (.there (text_rejects (lacks (by decide)) (lacks (by decide)))
          (Parser.choice_eq_ok.mp read)))

end Literals

section Atoms

variable {expr : Parser Expr} {source rest : List Char} {value : Expr}

theorem functionCall_opens (read : functionCall expr source = .ok value rest)
    : OpensName source := by
  obtain ⟨name, place, named, -⟩ := Parser.bind_eq_ok.mp read
  obtain ⟨text, middle, consumed, -⟩ := Parser.bind_eq_ok.mp named
  obtain ⟨names, whole, -⟩ := Parser.consumed_eq_ok consumed
  obtain ⟨first, _, opens, -⟩ := Parser.bind_eq_ok.mp whole
  exact symbolicName_opens opens

theorem OpensName.parameter_rejects (opens : OpensName source) : parameter.Rejects source :=
  (char_rejects (opens.lacks (by decide) (by decide))).bind

theorem OpensName.mark_rejects {c : Char} (opens : OpensName source) (here : skip source = source)
    (noQuote : c ≠ '`') (noWord : isWordStart c = false)
    : (mark c).Rejects source := by
  refine Cypher.mark_rejects ?_
  rw [here]
  exact opens.lacks noQuote noWord

/-- Where a name may open an expression without operators, that is a literal, a call or a variable.
-/
theorem OpensName.atom_cases (opens : OpensName source) (here : skip source = source)
    (read : atom expr source = .ok value rest)
    : literal source = .ok value rest
      ∨ functionCall expr source = .ok value rest
      ∨ ∃ name, identifier source = .ok name rest := by
  have noMark {c : Char} (noQuote : c ≠ '`') (noWord : isWordStart c = false)
      : (mark c).Rejects source :=
    opens.mark_rejects here noQuote noWord
  obtain ⟨p, member, read⟩ := (Parser.choice_eq_ok.mp read).exists_mem
  simp only [List.mem_cons, List.not_mem_nil, or_false] at member
  rcases member with rfl | rfl | rfl | rfl | rfl | rfl | rfl
  · exact .inl read
  · exact absurd read opens.parameter_rejects.not_ok
  · exact .inr (.inl read)
  · exact absurd read (noMark (by decide) (by decide)).bind.not_ok
  · exact absurd read (noMark (by decide) (by decide)).bind.bind.not_ok
  · exact absurd read (noMark (by decide) (by decide)).bind.not_ok
  · obtain ⟨name, _, named, same⟩ := Parser.bind_eq_ok.mp read
    cases same
    exact .inr (.inr ⟨name, named⟩)

/-- What stands between marks is read again as an expression without operators if its first mark
tells it from what else that may be.
-/
theorem between_rereads_atom {p : Parser Expr} {c : Char} (here : skip source = source)
    (reread : p.RereadsAt true true (fun _ => True) source value rest)
    (marked : ∀ source rest, p source = .ok value rest → ¬ Lacks c (skip source))
    (alone
      : ∀ tail rest, p (c :: tail) = .ok value rest → atom expr (c :: tail) = .ok value rest)
    : (atom expr).RereadsAt false true Trails source value rest := by
  refine ((reread.unspaced here).mono fun _ _ => trivial).among
    fun text _ after _ trimmed _ _ read => ?_
  have starts : (skip (text ++ after)).head? = some c := by
    by_contra lacks
    exact marked _ _ read lacks
  rw [trimmed.solid.skip_append] at starts
  obtain ⟨tail, whole⟩ := List.head?_eq_some_iff.mp starts
  rw [whole] at read ⊢
  exact Parser.choice_eq_ok.mp (alone tail _ read)

theorem functionCall_rereads_atom (tame : expr.Tame) (noLiteral : literal.Rejects source)
    (read : functionCall expr source = .ok value rest)
    : (atom expr).RereadsAt false true Trails source value rest := by
  refine ((functionCall_rereads tame source value rest read).mono fun _ _ => trivial).among
    fun text tail after whole _ words _ read => ?_
  have opens := functionCall_opens read
  exact .there (words.literal_rejects opens (whole ▸ noLiteral))
    (.there opens.parameter_rejects (.here read))

/-- A name is read again where no call can be made of it. -/
theorem identifier_rereads_atom (noLiteral : literal.Rejects source) {name : String}
    (read : identifier source = .ok name rest)
    : (atom expr).RereadsAt false false Trails source (.var name) rest := by
  have rereads
      : Parser.Rereads (do let name ← identifier; pure (Expr.var name)) false false fun _ => True :=
    identifier_rereads.map Expr.var
  refine ((rereads source _ rest (Parser.bind_of_ok read)).mono fun _ _ => trivial).among
    fun text tail after whole trimmed words trails read => ?_
  obtain ⟨name, _, named, same⟩ := Parser.bind_eq_ok.mp read
  cases same
  obtain ⟨letters, -, named⟩ := identifier_eq_ok named
  have opens := symbolicName_opens named
  have noMark {c : Char} (noQuote : c ≠ '`') (noWord : isWordStart c = false)
      : (mark c).Rejects (text ++ after) :=
    opens.mark_rejects (trimmed.solid.skip_append after) noQuote noWord
  exact .there (words.literal_rejects opens (whole ▸ noLiteral)) (.there opens.parameter_rejects
    (.there (trails.rejects_call named) (.there (noMark (by decide) (by decide)).bind
      (.there (noMark (by decide) (by decide)).bind.bind
        (.there (noMark (by decide) (by decide)).bind
        (.here read))))))

/-- An opening parenthesis makes an expression in parentheses. -/
theorem atom_enclosed {tail : List Char}
    : atom expr ('(' :: tail) = .ok value rest
      ↔ parenthesized expr ('(' :: tail) = .ok value rest := by
  constructor
  · intro read
    have noMark : ∀ p ∈ [literal, parameter, functionCall expr, listLiteral expr,
        do let entries ← mapLiteral expr; pure (Expr.map entries),
        do let name ← identifier; pure (Expr.var name)],
        p.Rejects ('(' :: tail) := by
      simp only [List.forall_mem_cons, List.not_mem_nil, false_imp_iff, implies_true, and_true]
      exact ⟨⟨_, rfl⟩, ⟨_, rfl⟩, ⟨_, rfl⟩, ⟨_, rfl⟩, ⟨_, rfl⟩, ⟨_, rfl⟩⟩
    obtain ⟨p, member, read⟩ := (Parser.choice_eq_ok.mp read).exists_mem
    by_cases other : p = parenthesized expr
    · rwa [← other]
    · refine absurd read (noMark p ?_).not_ok
      simpa [other] using member
  · intro read
    exact Parser.choice_eq_ok.mpr
      (.there ⟨_, rfl⟩ (.there ⟨_, rfl⟩ (.there ⟨_, rfl⟩ (.there ⟨_, rfl⟩
      (.there ⟨_, rfl⟩ (.here read))))))

/-- An expression without operators is read again, by cases on what it is. The first character tells
most of them apart, and a name is told from a call by what follows.
-/
theorem atom_rereads (tame : expr.Tame) (here : skip source = source)
    (read : atom expr source = .ok value rest)
    : ∃ behind, (atom expr).RereadsAt false behind Trails source value rest := by
  cases Parser.choice_eq_ok.mp read with
  | here read =>
      obtain ⟨behind, reread⟩ := literal_rereads here read
      exact ⟨behind, reread.choice_here⟩
  | there noLiteral later =>
  cases later with
  | here read =>
      refine ⟨false, ((parameter_rereads source value rest read).mono fun _ _ => trivial).among
        fun text _ after _ _ _ _ read => ?_⟩
      obtain ⟨_, middle, opens, -⟩ := Parser.bind_eq_ok.mp read
      rw [char_eq_ok.mp opens] at read ⊢
      exact .there ⟨_, rfl⟩ (.here read)
  | there _ later =>
  cases later with
  | here read => exact ⟨true, functionCall_rereads_atom tame noLiteral read⟩
  | there _ later =>
  cases later with
  | here read =>
      refine ⟨true, between_rereads_atom (c := '[') here
        (listLiteral_rereads tame source value rest read) ?_ ?_⟩
      · intro source rest read lacks
        exact (mark_rejects lacks).bind.not_ok read
      · exact fun tail rest read =>
          Parser.choice_eq_ok.mpr (.there ⟨_, rfl⟩ (.there ⟨_, rfl⟩ (.there ⟨_, rfl⟩ (.here read))))
  | there _ later =>
  cases later with
  | here read =>
      have rereads
          : Parser.Rereads (do let entries ← mapLiteral expr; pure (Expr.map entries)) true true
          fun _ => True :=
        (mapLiteral_rereads tame).map Expr.map
      refine ⟨true, between_rereads_atom (c := '\x7b') here (rereads source value rest read) ?_ ?_⟩
      · intro source rest read lacks
        exact (mark_rejects lacks).bind.bind.not_ok read
      · exact fun tail rest read => Parser.choice_eq_ok.mpr
          (.there ⟨_, rfl⟩ (.there ⟨_, rfl⟩ (.there ⟨_, rfl⟩ (.there ⟨_, rfl⟩ (.here read)))))
  | there _ later =>
  cases later with
  | here read =>
      refine ⟨true, between_rereads_atom (c := '(') here
        (parenthesized_rereads tame source value rest read) ?_ ?_⟩
      · intro source rest read lacks
        exact (mark_rejects lacks).bind.not_ok read
      · exact fun tail rest read => atom_enclosed.mpr read
  | there _ later =>
      obtain ⟨name, _, named, same⟩ :=
        Parser.bind_eq_ok.mp (Parser.choice_one.mp (Parser.choice_eq_ok.mpr later))
      cases same
      exact ⟨false, identifier_rereads_atom noLiteral named⟩

theorem padded_atom_rereads (tame : expr.Tame) : (padded (atom expr)).Rereads true true Trails := by
  intro source value rest read
  obtain ⟨middle, found, rfl⟩ := padded_eq_ok read
  obtain ⟨behind, reread⟩ := atom_rereads tame (skip_skip source) found
  exact reread.padded

theorem lookupStep_eq_some {base next : Expr} (read : lookupStep base source = .ok (some next) rest)
    : ∃ key, nextKey source = .ok key rest ∧ next = .property base key := by
  obtain ⟨key?, middle, tried, same⟩ := Parser.bind_eq_ok.mp read
  rcases Parser.optional_eq_ok tried with ⟨key, rfl, found⟩ | ⟨rfl, -⟩
  · cases same
    exact ⟨key, found, rfl⟩
  · cases same

theorem lookupStep_stays {base : Expr} (read : lookupStep base source = .ok none rest)
    : rest = source := by
  obtain ⟨key?, middle, tried, same⟩ := Parser.bind_eq_ok.mp read
  rcases Parser.optional_eq_ok tried with ⟨key, rfl, -⟩ | ⟨rfl, rfl⟩
  · cases same
  · cases same
    rfl

theorem lookupStep_rereads {base next : Expr} (read : lookupStep base source = .ok (some next) rest)
    : (lookupStep base).RereadsAt false false (fun _ => True) source (some next) rest := by
  obtain ⟨key, found, rfl⟩ := lookupStep_eq_some read
  have rereads : nextKey.Rereads false false fun _ => True :=
    (char_rereads (by decide)).bind fun _ => symbol_rereads
  refine ((rereads source key rest found).map fun key => some (Expr.property base key)).congr
    fun other after read => ?_
  obtain ⟨key, middle, inside, same⟩ := Parser.bind_eq_ok.mp read
  cases same
  exact Parser.bind_of_ok (Parser.optional_of_ok inside)

/-- Keys are looked up again as long as there are some. -/
theorem lookups_rereads (tame : expr.Tame) : (lookups expr).Rereads true true (Halts 9) := by
  have whole : lookups expr
      = (padded (atom expr) >>= Parser.iterate lookupStep) >>= fun looked =>
        blanks >>= fun _ => pure looked := by
    rw [bind_assoc]
    rfl
  have joins (base : Expr) (source : List Char) (next : Expr) (after : List Char)
      (read : lookupStep base source = .ok (some next) (start false after)) (trails : Trails after)
      : Trails source := by
    obtain ⟨key, found, -⟩ := lookupStep_eq_some read
    obtain ⟨_, middle, opens, named⟩ := Parser.bind_eq_ok.mp found
    obtain ⟨name, _, inside, same⟩ := Parser.bind_eq_ok.mp named
    cases same
    rw [char_eq_ok.mp opens]
    exact .key inside trails
  have ends (base : Expr) (now : Bool) (after : List Char) (_ : now = true ∨ now = false)
    (halts : Halts 9 after)
      : lookupStep base (start now after) = .ok none (start now after) := by
    have noKey : Lacks '.' (start now after) := by
      cases now with
      | false => exact Lacks.of_skip (halts.marks ('.', 9) (by decide) le_rfl) (by decide)
      | true => exact halts.marks ('.', 9) (by decide) le_rfl
    exact Parser.bind_of_ok (Parser.optional_of_rejects (char_rejects noKey).bind)
  rw [whole]
  intro source value rest read
  obtain ⟨looked, middle, found, same⟩ := Parser.bind_eq_ok.mp read
  cases same
  obtain ⟨now, -, reread⟩ :=
    @Parser.Rereads.iterate _ _ lookupStep _ _ _ _ _ _ (padded_atom_rereads tame)
    (fun _ _ _ _ read => (lookupStep_rereads read).mono fun _ _ => trivial)
    (fun _ _ _ => lookupStep_stays)
    (fun _ _ spaces trails => trails.spaced spaces) joins lookupStep_proceeds
      (fun _ => Halts.trails) ends _ _ _ found
  exact reread.blanks

end Atoms

end CypherSql.Cypher
